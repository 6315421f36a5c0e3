import RedundantCast.Inference.Memory
import RedundantCast.Inference.Rule
import RedundantCast.Tree.Writes

/-!
# Inference

`Context.infer` applies the rules to a node and the nodes it depends on, down
to the depth limit, and remembers every answer for the rest of the pass.  A
node at the limit is unknown and is not remembered; the nodes above it are.
-/

namespace RedundantCast

namespace Context

/-- Whether a function writes to a variable, from memory or by a scan that is
then remembered. -/
def recallWrites (ctx : Context) (function : NodeRef) (name : String) (m : Memory) :
    Bool × Memory :=
  match m.writes.find? (function, name) with
  | some written => (written, m)
  | none =>
    let written := ctx.tree.writes function name
    (written, { m with writes := m.writes.insert (function, name) written })

/-- The outcome of the write scan that a node depends on, `false` if it depends
on none. -/
def recallScan (ctx : Context) (ref : NodeRef) (m : Memory) : Bool × Memory :=
  match ctx.scanned? ref with
  | some (function, name) => ctx.recallWrites function name m
  | none => (false, m)

/-- The answers of `f` for some nodes, each asked with the memory that the one
before it left. -/
def inferEach (f : NodeRef → Memory → Inference × Memory) :
    List NodeRef → Memory → List Inference × Memory
  | [], m => ([], m)
  | ref :: refs, m =>
    let (answer, m) := f ref m
    let (answers, m) := inferEach f refs m
    (answer :: answers, m)

@[simp] theorem inferEach_nil (f : NodeRef → Memory → Inference × Memory) (m : Memory) :
    inferEach f [] m = ([], m) := rfl

@[simp] theorem inferEach_cons (f : NodeRef → Memory → Inference × Memory) (ref : NodeRef)
    (refs : List NodeRef) (m : Memory) :
    inferEach f (ref :: refs) m =
      ((f ref m).1 :: (inferEach f refs (f ref m).2).1, (inferEach f refs (f ref m).2).2) := rfl

/-- What is known of a node when inference may go so much deeper. -/
def inferWithin (ctx : Context) : Nat → NodeRef → Memory → Inference × Memory
  | 0, ref, m => ((m.types.find? ref).getD .unknown, m)
  | depth + 1, ref, m =>
    match m.types.find? ref with
    | some answer => (answer, m)
    | none =>
      let (answers, m) := inferEach (ctx.inferWithin depth) (ctx.operands ref) m
      let (written, m) := ctx.recallScan ref m
      let answer := ctx.rule ref answers written
      (answer, { m with types := m.types.insert ref answer })

def infer (ctx : Context) (ref : NodeRef) (m : Memory) : Inference × Memory :=
  ctx.inferWithin ctx.options.depthLimit ref m

/-- What the rules say about a node without a memory, when inference may go so
much deeper. -/
def inferFresh (ctx : Context) : Nat → NodeRef → Inference
  | 0, _ => .unknown
  | depth + 1, ref =>
    ctx.rule ref ((ctx.operands ref).map (ctx.inferFresh depth))
      ((ctx.scanned? ref).any fun scan => ctx.tree.writes scan.1 scan.2)

end Context

end RedundantCast
