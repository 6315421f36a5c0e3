import Mathlib.Data.List.Forall2
import RedundantCast.Proofs.Inference.Rule

/-!
# What a memory records

A relation between nodes and answers that the rules and the cut-off at the
depth limit respect holds of every answer and of every entry of the memory,
whatever was inferred before. Inference changes no entry outside the nodes that
it uses.
-/

namespace RedundantCast

/-- Every remembered type stands in the relation to its node, and every
remembered write scan is what the scan computes. -/
structure Memory.Records (t : Tree) (R : NodeRef → Inference → Prop) (m : Memory) : Prop where
  types : ∀ ref answer, m.types.find? ref = some answer → R ref answer
  writes : ∀ function name written,
    m.writes.find? (function, name) = some written → written = t.writes function name

namespace Memory.Records

variable {t : Tree} {R : NodeRef → Inference → Prop} {m : Memory}

theorem empty (t : Tree) (R : NodeRef → Inference → Prop) : Memory.empty.Records t R where
  types := by
    intro ref answer h
    cases h
  writes := by
    intro function name written h
    cases h

theorem insert (h : m.Records t R) {ref : NodeRef} {answer : Inference} (hR : R ref answer) :
    ({ m with types := m.types.insert ref answer } : Memory).Records t R where
  types := by
    intro ref' answer' hfind
    by_cases heq : ref' = ref
    · subst heq
      rw [Memo.find?_insert_self] at hfind
      exact Option.some.inj hfind ▸ hR
    · rw [Memo.find?_insert_of_ne _ heq] at hfind
      exact h.types ref' answer' hfind
  writes := h.writes

end Memory.Records

namespace Context

variable {ctx : Context} {R : NodeRef → Inference → Prop} {m : Memory}

/-! ## Write scans -/

theorem recallWrites_fst (hm : m.Records ctx.tree R) (function : NodeRef) (name : String) :
    (ctx.recallWrites function name m).1 = ctx.tree.writes function name := by
  unfold recallWrites
  split
  · next written hfind => exact hm.writes function name written hfind
  · rfl

@[simp] theorem types_recallWrites (function : NodeRef) (name : String) (m : Memory) :
    (ctx.recallWrites function name m).2.types = m.types := by
  unfold recallWrites
  split <;> rfl

theorem records_recallWrites (hm : m.Records ctx.tree R) (function : NodeRef) (name : String) :
    (ctx.recallWrites function name m).2.Records ctx.tree R where
  types := by
    rw [types_recallWrites]
    exact hm.types
  writes := by
    intro function' name' written hfind
    unfold recallWrites at hfind
    split at hfind
    · exact hm.writes function' name' written hfind
    · by_cases heq : (function', name') = (function, name)
      · rw [heq, Memo.find?_insert_self] at hfind
        cases heq
        exact (Option.some.inj hfind).symm
      · rw [Memo.find?_insert_of_ne _ heq] at hfind
        exact hm.writes function' name' written hfind

theorem recallScan_fst (hm : m.Records ctx.tree R) (ref : NodeRef) :
    (ctx.recallScan ref m).1 = ctx.written ref := by
  unfold recallScan written
  split
  · next function name hscan =>
      rw [recallWrites_fst hm, hscan]
      rfl
  · next hscan =>
      rw [hscan]
      rfl

@[simp] theorem types_recallScan (ref : NodeRef) (m : Memory) :
    (ctx.recallScan ref m).2.types = m.types := by
  unfold recallScan
  split
  · exact types_recallWrites _ _ m
  · rfl

theorem records_recallScan (hm : m.Records ctx.tree R) (ref : NodeRef) :
    (ctx.recallScan ref m).2.Records ctx.tree R := by
  unfold recallScan
  split
  · exact records_recallWrites hm _ _
  · exact hm

/-! ## Steps of inference -/

theorem inferWithin_of_find? {depth : Nat} {ref : NodeRef} {answer : Inference}
    (h : m.types.find? ref = some answer) : ctx.inferWithin depth ref m = (answer, m) := by
  cases depth with
  | zero => rw [inferWithin, h, Option.getD_some]
  | succ depth => rw [inferWithin, h]

theorem inferWithin_zero_of_find?_eq_none {ref : NodeRef} (h : m.types.find? ref = none) :
    ctx.inferWithin 0 ref m = (.unknown, m) := by
  rw [inferWithin, h, Option.getD_none]

theorem inferWithin_succ_of_find?_eq_none {depth : Nat} {ref : NodeRef}
    (h : m.types.find? ref = none) :
    ctx.inferWithin (depth + 1) ref m =
      let each := inferEach (ctx.inferWithin depth) (ctx.operands ref) m
      let scan := ctx.recallScan ref each.2
      let answer := ctx.rule ref each.1 scan.1
      (answer, { scan.2 with types := scan.2.types.insert ref answer }) := by
  rw [inferWithin, h]

/-! ## Runs of inference -/

/-- What a relation must satisfy to hold of the answers for all nodes that
`within` admits at a depth: of the cut-off, and of each rule's answer if it
holds of the answers for the operands. -/
structure Sustains (ctx : Context) (within : Nat → NodeRef → Prop)
    (R : NodeRef → Inference → Prop) : Prop where
  cutOff : ∀ ref, within 0 ref → R ref .unknown
  operands : ∀ depth ref, within (depth + 1) ref →
    ∀ operand ∈ ctx.operands ref, within depth operand
  rule : ∀ ref answers, List.Forall₂ R (ctx.operands ref) answers →
    R ref (ctx.rule ref answers (ctx.written ref))

theorem inferEach_induct {f : NodeRef → Memory → Inference × Memory} {I : Memory → Prop}
    {refs : List NodeRef} (hf : ∀ ref ∈ refs, ∀ m, I m → R ref (f ref m).1 ∧ I (f ref m).2)
    (hm : I m) : List.Forall₂ R refs (inferEach f refs m).1 ∧ I (inferEach f refs m).2 := by
  induction refs generalizing m with
  | nil => exact ⟨.nil, hm⟩
  | cons ref refs ih =>
      obtain ⟨hanswer, hnext⟩ := hf ref List.mem_cons_self m hm
      obtain ⟨hrest, hlast⟩ := ih (fun ref' h => hf ref' (List.mem_cons_of_mem ref h)) hnext
      exact ⟨.cons hanswer hrest, hlast⟩

theorem Sustains.inferWithin {within : Nat → NodeRef → Prop} (h : ctx.Sustains within R)
    {depth : Nat} {ref : NodeRef} (hwithin : within depth ref) (hm : m.Records ctx.tree R) :
    R ref (ctx.inferWithin depth ref m).1 ∧
      (ctx.inferWithin depth ref m).2.Records ctx.tree R := by
  induction depth generalizing ref m with
  | zero =>
      cases hfind : m.types.find? ref with
      | some answer =>
          rw [inferWithin_of_find? hfind]
          exact ⟨hm.types ref answer hfind, hm⟩
      | none =>
          rw [inferWithin_zero_of_find?_eq_none hfind]
          exact ⟨h.cutOff ref hwithin, hm⟩
  | succ depth ih =>
      cases hfind : m.types.find? ref with
      | some answer =>
          rw [inferWithin_of_find? hfind]
          exact ⟨hm.types ref answer hfind, hm⟩
      | none =>
          rw [inferWithin_succ_of_find?_eq_none hfind]
          obtain ⟨hanswers, heach⟩ := inferEach_induct
            (fun operand hoperand _ => ih (h.operands depth ref hwithin operand hoperand)) hm
          have hanswer := h.rule ref _ hanswers
          rw [← recallScan_fst heach ref] at hanswer
          exact ⟨hanswer, (records_recallScan heach ref).insert hanswer⟩

end Context

end RedundantCast
