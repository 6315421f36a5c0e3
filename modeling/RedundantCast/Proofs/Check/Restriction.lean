import RedundantCast.Proofs.Check.Isolation
import RedundantCast.Proofs.Inference.Restriction

/-!
# Findings under a restricted context

A restricted context leaves alone every cast that the other one leaves alone,
and it knows less about the operands of the rest. What it finds is therefore a
part of what the other one finds.
-/

namespace RedundantCast

namespace Context.Restricts

variable {less more : Context} {ref : NodeRef}

theorem servedCallable? (h : less.Restricts more) (ref : NodeRef) :
    less.servedCallable? ref = more.servedCallable? ref := by
  simp only [Context.servedCallable?, enclosingClassName?, h.tree]

theorem servesDocumentedReturn (h : less.Restricts more)
    (hserves : more.servesDocumentedReturn ref) : less.servesDocumentedReturn ref := by
  unfold Context.servesDocumentedReturn at hserves ⊢
  rw [h.servedCallable?]
  cases hcallable : more.servedCallable? ref with
  | none =>
      rw [hcallable] at hserves
      cases hserves
  | some callable =>
      simp only [hcallable] at hserves ⊢
      cases hanswer : less.provider.returnType callable with
      | error error =>
          -- A provider that fails is taken to know of a documented type.
          rfl
      | ok d? =>
          obtain ⟨d'?, hanswer', hd⟩ := h.provider.returnType callable d? hanswer
          rw [hanswer'] at hserves
          cases hd with
          | none => exact hserves
          | some hd =>
              simp only [Option.any_some, hd.source] at hserves ⊢
              exact hserves

theorem exempts (h : less.Restricts more) (hexempts : more.exempts ref) : less.exempts ref := by
  unfold Context.exempts at hexempts ⊢
  rw [Bool.and_eq_true] at hexempts ⊢
  exact ⟨h.skip hexempts.1, h.servesDocumentedReturn hexempts.2⟩

theorem question? (h : less.Restricts more) {q : Question} (hq : less.question? ref = some q) :
    more.question? ref = some q := by
  unfold Context.question? at hq ⊢
  rw [h.tree] at hq
  split at hq
  · cases hq
  · next hless =>
      rw [if_neg fun hmore => hless (h.exempts hmore)]
      exact hq

theorem findingBy (h : less.Restricts more) {known known' : NodeRef → Inference}
    (hknown : ∀ ref, (known ref).Below (known' ref)) {f : Finding}
    (hf : less.findingBy known ref = some f) : more.findingBy known' ref = some f := by
  obtain ⟨q, hq, hanswer⟩ := Option.bind_eq_some_iff.1 hf
  rw [Context.findingBy, h.question? hq]
  exact answer_of_below (hknown q.operand) hanswer

theorem filterMap_findingBy_sublist (h : less.Restricts more)
    {known known' : NodeRef → Inference} (hknown : ∀ ref, (known ref).Below (known' ref))
    (ids : List NodeId) :
    (ids.filterMap fun id => less.findingBy known (some id)).Sublist
      (ids.filterMap fun id => more.findingBy known' (some id)) := by
  induction ids with
  | nil => exact .slnil
  | cons id ids ih =>
      cases hf : less.findingBy known (some id) with
      | none =>
          simp only [List.filterMap_cons, hf]
          apply ih.trans
          exact (List.sublist_cons_self id ids).filterMap _
      | some f =>
          simp only [List.filterMap_cons, hf, h.findingBy hknown hf]
          exact ih.cons_cons f

theorem infer_below (h : less.Restricts more) (ht : more.tree.WellFormed) (ref : NodeRef) :
    (less.infer ref .empty).1.Below (more.infer ref .empty).1 := by
  rw [infer, infer, inferWithin_empty (h.tree ▸ ht), inferWithin_empty ht]
  exact h.knowsLess.inferFresh h.depth ref

/-- A restricted context finds a part of what the other one finds. -/
theorem findings_sublist (h : less.Restricts more) (ht : more.tree.WellFormed)
    (root : NodeRef) : (less.findings root .empty).1.Sublist (more.findings root .empty).1 := by
  rw [findings_empty (h.tree ▸ ht), findings_empty ht, h.tree]
  exact h.filterMap_findingBy_sublist (h.knowsLess.inferFresh h.depth) _

end Context.Restricts

end RedundantCast
