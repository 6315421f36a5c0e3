import RedundantCast.Proofs.Inference.Information

/-!
# Contexts that know less

Of two contexts over one tree, the one whose declarations say less and whose
depth limit is lower infers less. The declarations enter inference at three
places only: the types of variables, of properties and of calls.
-/

namespace RedundantCast

namespace Context

/-- The declarations of the first context say no more than those of the second. -/
structure KnowsLess (less more : Context) : Prop where
  tree : less.tree = more.tree
  depth : less.options.depthLimit ≤ more.options.depthLimit
  variableType : ∀ ref name, less.tree.form? ref = some (.var name) →
    Failure.OrSame (less.variableType ref name (less.written ref))
      (more.variableType ref name (more.written ref))
  propertyType : ∀ owner name,
    Failure.OrSame (less.propertyType owner name) (more.propertyType owner name)
  callType : ∀ callable, Failure.OrSame (less.callType callable) (more.callType callable)

namespace KnowsLess

theorem refl (ctx : Context) : KnowsLess ctx ctx where
  tree := rfl
  depth := Nat.le_refl _
  variableType _ _ _ := .refl _
  propertyType _ _ := .refl _
  callType _ := .refl _

variable {less more : Context} {ref : NodeRef} {answers answers' : List Inference}

theorem operands (h : less.KnowsLess more) (ref : NodeRef) :
    less.operands ref = more.operands ref := by
  rw [Context.operands, Context.operands, h.tree]

theorem resolveClass? (h : less.KnowsLess more) (ref : NodeRef) (name : String) :
    less.resolveClass? ref name = more.resolveClass? ref name := by
  simp only [Context.resolveClass?, enclosingClassName?, h.tree]

/-- The rule of each construct keeps the order of information. -/
theorem formType (h : less.KnowsLess more) {form : Form}
    (hform : less.tree.form? ref = some form)
    (hanswers : List.Forall₂ Inference.Below answers answers') :
    Failure.OrSame (less.formType ref answers (less.written ref) form)
      (more.formType ref answers' (more.written ref) form) := by
  have hoperand : ∀ index t, operand answers index = some t → operand answers' index = some t :=
    fun index t => operand_of_below hanswers
  have hclass := h.resolveClass? ref
  cases form with
  | literal kind text => cases kind <;> exact .refl _
  | var name => exact h.variableType ref name hform
  | newExpression className arguments =>
      apply Failure.OrSame.bind (.refl _)
      intro name
      rw [hclass]
      exact .refl _
  | propertyAccess receiver name =>
      apply Failure.OrSame.bind (.refl _)
      intro name
      apply Failure.OrSame.bind (.receiverClass (hoperand 0))
      intro owner
      exact h.propertyType owner name
  | staticPropertyAccess className name =>
      refine Failure.OrSame.bind (.resolved ?_) fun owner => h.propertyType owner name
      rw [hclass]
      exact fun _ hc => hc
  | functionCall name arguments =>
      exact Failure.OrSame.bind (.refl _) fun name => h.callType _
  | methodCall receiver name arguments =>
      apply Failure.OrSame.bind (.refl _)
      intro name
      apply Failure.OrSame.bind (.receiverClass (hoperand 0))
      intro owner
      exact h.callType _
  | staticMethodCall className name arguments =>
      refine Failure.OrSame.bind (.resolved ?_) fun owner => h.callType _
      rw [hclass]
      exact fun _ hc => hc
  | binary left op right =>
      exact Failure.OrSame.resolved fun _ => op.result_mono (hoperand 0) (hoperand 1)
  | unary op operand => exact Failure.OrSame.resolved fun _ => op.result_mono (hoperand 0)
  | parenthesized expr => exact Failure.OrSame.resolved (hoperand 0)
  | assignment target value => exact Failure.OrSame.resolved (hoperand 0)
  | _ => exact .refl _

theorem rule (h : less.KnowsLess more)
    (hanswers : List.Forall₂ Inference.Below answers answers') :
    (less.rule ref answers (less.written ref)).Below
      (more.rule ref answers' (more.written ref)) := by
  cases hform : less.tree.form? ref with
  | none =>
      rw [rule_of_form?_eq_none less hform]
      exact Or.inl rfl
  | some form =>
      rw [rule_of_form? less hform, rule_of_form? more (h.tree ▸ hform)]
      exact Inference.below_ofExcept (h.formType hform hanswers)

/-- Inference with less knowledge and less depth says less. -/
theorem inferFresh (h : less.KnowsLess more) {m n : Nat} (hmn : m ≤ n) (ref : NodeRef) :
    (less.inferFresh m ref).Below (more.inferFresh n ref) := by
  induction m generalizing n ref with
  | zero => exact Or.inl rfl
  | succ m ih =>
      cases n with
      | zero => exact absurd hmn (Nat.not_succ_le_zero m)
      | succ n =>
          have hanswers : List.Forall₂ Inference.Below
              ((less.operands ref).map (less.inferFresh m))
              ((more.operands ref).map (more.inferFresh n)) := by
            rw [h.operands, List.forall₂_map_left_iff, List.forall₂_map_right_iff]
            exact List.forall₂_same.2 fun operand _ => ih (Nat.le_of_succ_le_succ hmn) operand
          exact h.rule hanswers

end KnowsLess

end Context

end RedundantCast
