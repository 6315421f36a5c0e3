import RedundantCast.Tree.Basic

/-!
# Walking down a tree

`preorder` lists a node and everything below it in document order; `casts` keeps
the casts of that list, selected while walking.
-/

namespace RedundantCast

namespace Tree

/-- A node followed by what is below it, down to the given depth. -/
def preorderWithin (t : Tree) : Nat → NodeId → List NodeId
  | 0, id => [id]
  | depth + 1, id => id :: (t.children (some id)).flatMap (t.preorderWithin depth)

@[simp] theorem preorderWithin_zero (t : Tree) (id : NodeId) : t.preorderWithin 0 id = [id] := rfl

@[simp] theorem preorderWithin_succ (t : Tree) (depth : Nat) (id : NodeId) :
    t.preorderWithin (depth + 1) id =
      id :: (t.children (some id)).flatMap (t.preorderWithin depth) := rfl

/-- An existing node and everything below it, in document order.  No branch has
more nodes than the tree. -/
def preorder (t : Tree) (root : NodeRef) : List NodeId :=
  match root with
  | some id => if id < t.size then t.preorderWithin t.size id else []
  | none => []

@[simp] theorem preorder_none (t : Tree) : t.preorder none = [] := rfl

/-- The nodes of a walk that pass a test, put before `rest`.  A walk over a tree
whose nodes are shared is long, and this one keeps only what it selects. -/
def selectOnto (t : Tree) (p : NodeId → Bool) :
    Nat → NodeId → List NodeId → List NodeId
  | 0, id, rest => if p id then id :: rest else rest
  | depth + 1, id, rest =>
    let below := (t.children (some id)).foldr (t.selectOnto p depth) rest
    if p id then id :: below else below

/-- Selecting during the walk is selecting from the listed nodes. -/
theorem selectOnto_eq (t : Tree) (p : NodeId → Bool) (depth : Nat) (id : NodeId)
    (rest : List NodeId) :
    t.selectOnto p depth id rest = (t.preorderWithin depth id).filter p ++ rest := by
  induction depth generalizing id rest with
  | zero => by_cases h : p id <;> simp [selectOnto, h]
  | succ depth ih =>
    have below (ids : List NodeId) :
        ids.foldr (t.selectOnto p depth) rest =
          (ids.flatMap (t.preorderWithin depth)).filter p ++ rest := by
      induction ids with
      | nil => rfl
      | cons child ids hids => simp [hids, ih]
    by_cases h : p id <;> simp [selectOnto, below, h]

/-- Whether a node is a cast. -/
def isCast (t : Tree) (id : NodeId) : Bool :=
  t.kind? (some id) == some .castExpression

/-- The casts at and below a node, in document order. -/
def casts (t : Tree) (root : NodeRef) : List NodeId :=
  match root with
  | some id => if id < t.size then t.selectOnto t.isCast t.size id [] else []
  | none => []

theorem casts_eq (t : Tree) (root : NodeRef) :
    t.casts root = (t.preorder root).filter t.isCast := by
  cases root with
  | none => rfl
  | some id => by_cases h : id < t.size <;> simp [casts, preorder, h, selectOnto_eq]

end Tree

end RedundantCast
