import RedundantCast.Declaration.Table
import RedundantCast.Proofs.Check.Session
import RedundantCast.Proofs.Tree.WriteScan

/-!
# Remembered write scans

Whatever calls came before, the answer about the writes of a function is what a
scan finds that starts from nothing.
-/

namespace RedundantCast

open StateTransition

namespace Context

variable {contexts : Set Context} {ctx : Context} {m : Memory}

/-- Every memory of a session records what the scans compute, also if the
contexts of the calls have only the tree in common. -/
theorem Reachable.records_writes (h : Reachable contexts m)
    (hcontexts : ∀ c ∈ contexts, c.tree = ctx.tree) :
    m.Records ctx.tree fun _ _ => True := by
  apply h.records
  intro c hc
  refine ⟨hcontexts c hc, fun _ _ => True, ?_, fun _ => trivial⟩
  exact ⟨fun _ _ => trivial, fun _ _ _ _ _ => trivial, fun _ _ _ => trivial⟩

/-- A function writes to a variable, as far as can be told, exactly if a write
below it is seen from it. The loop of the scan ends with that answer, and a memory
that any calls have left gives it. -/
theorem recallWrites_iff_seesWrite (ctx : Context) (ht : ctx.tree.WellFormed)
    (hcontexts : ∀ c ∈ contexts, c.tree = ctx.tree) (hm : Reachable contexts m) (f : NodeId)
    (name : String) :
    ((ctx.recallWrites (some f) name m).1 = true ↔ ∃ d, ctx.tree.SeesWrite name f d) ∧
      ∃ s ∈ eval (ctx.tree.scan? name) (ctx.tree.writeScanFrom (some f)),
        s.found = (ctx.recallWrites (some f) name m).1 := by
  rw [recallWrites_fst (hm.records_writes hcontexts)]
  exact ⟨Tree.writes_iff_seesWrite ht, Tree.writeScan_ends ht f name⟩

/-- The nodes of `function f($s) { function () use ($s) { $s = 1; }; return $s; }` and
`function g($s) { fn() => $s = 1; }` in a file. -/
def writesInside : List (Form × Span) :=
  [(.var "s", ⟨41, 43⟩), (.literal .integer "1", ⟨46, 47⟩),
    (.assignment (some 0) (some 1), ⟨41, 47⟩), (.expressionStatement (some 2), ⟨41, 48⟩),
    (.function ⟨.closure, none, [], ["s"], false, false, [some 3]⟩, ⟨18, 50⟩),
    (.expressionStatement (some 4), ⟨18, 51⟩), (.var "s", ⟨59, 61⟩),
    (.returnStatement (some 6), ⟨52, 62⟩),
    (.function ⟨.functionDeclaration, some "f", ["s"], [], false, false, [some 5, some 7]⟩,
      ⟨0, 64⟩),
    (.var "s", ⟨91, 93⟩), (.literal .integer "1", ⟨96, 97⟩),
    (.assignment (some 9) (some 10), ⟨91, 97⟩),
    (.function ⟨.arrowFunction, none, [], [], false, false, [some 11]⟩, ⟨83, 97⟩),
    (.expressionStatement (some 12), ⟨83, 98⟩),
    (.function ⟨.functionDeclaration, some "g", ["s"], [], false, false, [some 13]⟩, ⟨65, 100⟩),
    (.sourceFile "a.php" [some 8, some 14], ⟨0, 100⟩)]

/-- Reading the parameter of `f` leaves its scan in the memory. The write in the
closure is seen from `f`, the one in the arrow function is not seen from `g`. -/
theorem recallWrites_writesInside :
    let ctx : Context :=
      ⟨.ofForms writesInside,
        (Table.empty.declareVariable 1 "$s" .string .parameterHint).provider, .default⟩
    let m := (ctx.infer (some 6) .empty).2
    ctx.tree.WellFormed ∧ Reachable {ctx} m ∧ m.writes.find? (some 8, "s") = some true ∧
      (∃ d, ctx.tree.SeesWrite "s" 8 d) ∧ ¬ ∃ d, ctx.tree.SeesWrite "s" 14 d := by
  intro ctx m
  have ht : ctx.tree.WellFormed := Tree.wellFormed_ofForms (by decide)
  have hm : Reachable {ctx} m := .infer (some 6) rfl .empty
  have hsame : ∀ c ∈ ({ctx} : Set Context), c.tree = ctx.tree := by
    rintro c rfl
    rfl
  obtain ⟨hf, -⟩ := recallWrites_iff_seesWrite ctx ht hsame hm 8 "s"
  obtain ⟨hg, -⟩ := recallWrites_iff_seesWrite ctx ht hsame hm 14 "s"
  refine ⟨ht, hm, by decide, hf.1 (by decide), fun h => ?_⟩
  have hseen := hg.2 h
  revert hseen
  decide

end Context

end RedundantCast
