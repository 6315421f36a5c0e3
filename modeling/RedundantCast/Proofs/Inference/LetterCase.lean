import RedundantCast.Proofs.Declaration.LetterCase
import RedundantCast.Proofs.Inference.Rule
import RedundantCast.Proofs.Tree.LetterCase

/-!
# Letter case in inference

A context in lower case has the same variables and the same shape as the
context, and answers in lower case what the context answers. Every rule keeps
this relation, and so does inference.
-/

namespace RedundantCast

/-! ## Answers -/

section Answers

variable {ε α β γ δ : Type}

theorem map_bind_eq_map {f : α → β} {k : γ → δ} {x : Except ε α} {g : α → Except ε γ}
    {g' : β → Except ε δ} (hg : ∀ a, g' (f a) = k <$> g a) :
    (f <$> x) >>= g' = k <$> (x >>= g) := by
  rw [bind_map_left, map_bind]
  exact bind_congr hg

theorem resolved_map (f : α → β) (x : Option α) : resolved (x.map f) = f <$> resolved x := by
  cases x <;> rfl

theorem answered_map (f : α → β) (x : Except ProviderError α) :
    answered (f <$> x) = f <$> answered x := by
  cases x <;> rfl

theorem informative_lowered (t : Ty) : informative t.lowered = Ty.lowered <$> informative t := by
  rw [informative, informative, Ty.isMixed_lowered]
  split <;> rfl

theorem receiverClass_lowered (t : Option Ty) :
    receiverClass (t.map .lowered) = ClassName.lowered <$> receiverClass t := by
  cases t with
  | none => rfl
  | some t => cases t <;> rfl

end Answers

namespace Inference

/-- What is known, with class names in lower case. -/
def lowered : Inference → Inference
  | certain t => certain t.lowered
  | unknown => unknown

theorem type?_lowered (a : Inference) : a.lowered.type? = a.type?.map .lowered := by
  cases a <;> rfl

theorem ofExcept_lowered (x : Except Failure Ty) :
    ofExcept (Ty.lowered <$> x) = (ofExcept x).lowered := by
  cases x with
  | error failure => rfl
  | ok t =>
      change ofTy t.lowered = (ofTy t).lowered
      rw [ofTy, ofTy, Ty.isMixed_lowered]
      split <;> rfl

end Inference

theorem operand_lowered (answers : List Inference) (index : Nat) :
    operand (answers.map .lowered) index = (operand answers index).map .lowered := by
  rw [operand, operand, List.getElem?_map, ← Inference.type?_lowered]
  cases answers[index]? <;> rfl

/-! ## Operators -/

section Operators

variable (l r : Option Ty)

theorem numericPromotion_lowered :
    numericPromotion (l.map .lowered) (r.map .lowered) =
      (numericPromotion l r).map .lowered := by
  rcases l with _ | l
  · rcases r with _ | r
    · rfl
    · cases r <;> rfl
  · rcases r with _ | r
    · cases l <;> rfl
    · cases l <;> cases r <;> rfl

theorem isKnownNumeric_lowered : isKnownNumeric (l.map .lowered) = isKnownNumeric l := by
  rcases l with _ | l
  · rfl
  · cases l <;> rfl

theorem BinaryOperator.result_lowered (op : BinaryOperator) :
    op.result (l.map .lowered) (r.map .lowered) = (op.result l r).map .lowered := by
  have hpromoted := numericPromotion_lowered l r
  cases op with
  | sub | mul => exact hpromoted
  | div | pow =>
      have hunion : (Ty.union2 .int .float).lowered = .union2 .int .float :=
        (Ty.unionOf_lowered [.int, .float]).symm
      rw [result, result, hpromoted]
      cases numericPromotion l r with
      | none => rfl
      | some t =>
          cases t with
          | int => exact congrArg some hunion.symm
          | _ => rfl
  | mod =>
      rw [result, result, isKnownNumeric_lowered, isKnownNumeric_lowered]
      split <;> rfl
  | add | bitAnd | bitOr | bitXor | shiftLeft | shiftRight =>
      rcases l with _ | l
      · rcases r with _ | r
        · rfl
        · cases r <;> rfl
      · rcases r with _ | r
        · cases l <;> rfl
        · cases l <;> cases r <;> rfl
  | _ => rfl

theorem UnaryOperator.result_lowered (op : UnaryOperator) :
    op.result (l.map .lowered) = (op.result l).map .lowered := by
  rcases l with _ | l
  · cases op <;> rfl
  · cases op <;> cases l <;> rfl

end Operators

namespace Context

/-- The second context is the first in lower case. -/
structure LowersTo (ctx low : Context) : Prop where
  tree : low.tree = ctx.tree.lowered
  options : low.options = ctx.options
  variableTypes : ∀ scope name, low.provider.variableTypes scope name =
    List.map Declaration.loweredType <$> ctx.provider.variableTypes scope name
  returnType : ∀ callable, low.provider.returnType callable.lowered =
    Option.map Declaration.lowered <$> ctx.provider.returnType callable
  memberType : ∀ owner name, low.provider.memberType owner.lowered name =
    Option.map Declaration.loweredType <$> ctx.provider.memberType owner name

theorem lowersTo_table (tree : Tree) (t : Table) (o : Options) :
    LowersTo ⟨tree, t.provider, o⟩ ⟨tree.lowered, t.lowered.provider, o⟩ where
  tree := rfl
  options := rfl
  variableTypes scope name := congrArg Except.ok (t.variablesNamed_lowered scope name)
  returnType callable := congrArg Except.ok (t.returnType?_lowered callable)
  memberType owner name := congrArg Except.ok (t.propertyType?_lowered owner name)

namespace LowersTo

variable {ctx low : Context}

/-! ## Names -/

theorem enclosing? (h : ctx.LowersTo low) (p : Kind → Bool) (ref : NodeRef) :
    low.tree.enclosing? p ref = ctx.tree.enclosing? p ref := by
  rw [h.tree, Tree.enclosing?_lowered]

theorem enclosingClassName? (h : ctx.LowersTo low) (ref : NodeRef) :
    low.enclosingClassName? ref = (ctx.enclosingClassName? ref).map .lowered := by
  have hclass : low.tree.enclosingClass? ref = ctx.tree.enclosingClass? ref := h.enclosing? _ ref
  rw [Context.enclosingClassName?, Context.enclosingClassName?, hclass, h.tree,
    Tree.form?_lowered]
  cases ctx.tree.form? (ctx.tree.enclosingClass? ref) with
  | none => rfl
  | some form =>
      cases form with
      | classDeclaration name body => exact congrArg some (ClassName.ofText_lowered name)
      | _ => rfl

theorem resolveClass? (h : ctx.LowersTo low) (ref : NodeRef) (name : String) :
    low.resolveClass? ref (Text.lowered name) = (ctx.resolveClass? ref name).map .lowered := by
  unfold Context.resolveClass?
  rw [Text.lowered_lowered, h.enclosingClassName?]
  split
  · rfl
  · rfl
  · rfl
  · exact congrArg some (ClassName.ofText_lowered name)

theorem operands (h : ctx.LowersTo low) (ref : NodeRef) : low.operands ref = ctx.operands ref := by
  rw [Context.operands, h.tree, Tree.form?_lowered, Context.operands]
  cases ctx.tree.form? ref with
  | none => rfl
  | some form =>
      cases form with
      | propertyAccess receiver name => cases name <;> rfl
      | methodCall receiver name arguments => cases name <;> rfl
      | _ => rfl

/-! ## Declarations -/

theorem trustedType (h : ctx.LowersTo low) (d : Declaration) :
    low.trustedType d.loweredType = Ty.lowered <$> ctx.trustedType d := by
  have htrusts : low.trusts d.source = ctx.trusts d.source := by
    unfold trusts
    rw [h.options]
  change (if low.trusts d.source then informative d.type.lowered else _) = _
  rw [Context.trustedType, htrusts, informative_lowered]
  split <;> rfl

theorem thisType (h : ctx.LowersTo low) (ref : NodeRef) :
    low.thisType ref = Ty.lowered <$> ctx.thisType ref := by
  have hmethod : low.tree.enclosingFunction? ref = ctx.tree.enclosingFunction? ref :=
    h.enclosing? _ ref
  unfold Context.thisType
  dsimp only
  rw [hmethod, h.tree, Tree.form?_lowered, h.enclosingClassName?]
  cases ctx.tree.form? (ctx.tree.enclosingFunction? ref) with
  | none => rfl
  | some form =>
      cases form with
      | function parts =>
          dsimp only [Option.map_some, Option.bind_some, Form.lowered, Form.function?]
          split
          · cases ctx.enclosingClassName? (ctx.tree.enclosingFunction? ref) <;> rfl
          · rfl
      | _ => rfl

theorem continuesOutward (h : ctx.LowersTo low) (scopeNode : NodeRef) (name : String) :
    low.continuesOutward scopeNode name = ctx.continuesOutward scopeNode name := by
  rw [Context.continuesOutward, h.tree, Tree.form?_lowered, Context.continuesOutward]
  cases ctx.tree.form? scopeNode with
  | none => rfl
  | some form => cases form <;> rfl

theorem lookup (h : ctx.LowersTo low) (name : String) (ref : NodeRef) :
    low.lookup name ref = Prod.map id Declaration.loweredType <$> ctx.lookup name ref := by
  have hwithin : ∀ n ref, low.lookupWithin name n ref =
      Prod.map id Declaration.loweredType <$> ctx.lookupWithin name n ref := by
    intro n
    induction n with
    | zero => intro ref; rfl
    | succ n ih =>
        intro ref
        have hscope : low.tree.enclosingScope? ref = ctx.tree.enclosingScope? ref :=
          h.enclosing? _ ref
        rw [lookupWithin_succ, lookupWithin_succ, hscope, h.tree, Tree.scope?_lowered, map_bind]
        apply bind_congr
        intro scope
        rw [h.variableTypes, answered_map]
        apply map_bind_eq_map
        intro declarations
        rw [Declaration.winner?_loweredType, h.continuesOutward, ih]
        cases Declaration.winner? declarations with
        | some winner => rfl
        | none =>
            dsimp only [Option.map_none]
            split <;> rfl
  exact hwithin maxScopes ref

theorem scanned? (h : ctx.LowersTo low) (ref : NodeRef) : low.scanned? ref = ctx.scanned? ref := by
  have hvar : (low.tree.form? ref).bind Form.var? = (ctx.tree.form? ref).bind Form.var? := by
    rw [h.tree, Tree.form?_lowered]
    cases ctx.tree.form? ref with
    | none => rfl
    | some form => exact form.var?_lowered
  unfold Context.scanned?
  rw [hvar]
  cases (ctx.tree.form? ref).bind Form.var? with
  | none => rfl
  | some name =>
      dsimp only
      rw [h.lookup]
      cases ctx.lookup name ref <;> rfl

theorem written (h : ctx.LowersTo low) (ref : NodeRef) : low.written ref = ctx.written ref := by
  rw [Context.written, Context.written, h.scanned?, h.tree]
  simp only [Tree.writes_lowered]

theorem variableType (h : ctx.LowersTo low) (ref : NodeRef) (name : String) (written : Bool) :
    low.variableType ref name written = Ty.lowered <$> ctx.variableType ref name written := by
  unfold Context.variableType
  split
  · exact h.thisType ref
  · rw [h.lookup]
    apply map_bind_eq_map
    rintro ⟨function, winner⟩
    change (if winner.source = .parameterHint ∧ written then _
      else low.trustedType winner.loweredType) = _
    rw [h.trustedType]
    dsimp only
    split <;> rfl

theorem propertyType (h : ctx.LowersTo low) (owner : ClassName) (name : String) :
    low.propertyType owner.lowered name = Ty.lowered <$> ctx.propertyType owner name := by
  rw [Context.propertyType, h.memberType, answered_map]
  apply map_bind_eq_map
  intro declaration
  rw [resolved_map]
  exact map_bind_eq_map h.trustedType

theorem callType (h : ctx.LowersTo low) (callable : Callable) :
    low.callType callable.lowered = Ty.lowered <$> ctx.callType callable := by
  rw [Context.callType, h.returnType, answered_map]
  apply map_bind_eq_map
  intro declaration
  rw [resolved_map]
  apply map_bind_eq_map
  intro declaration
  change (if declaration.source = .returnHint then informative declaration.type.lowered else _) = _
  rw [informative_lowered]
  split <;> rfl

/-! ## Rules -/

theorem formType (h : ctx.LowersTo low) (ref : NodeRef) (answers : List Inference)
    (written : Bool) (form : Form) :
    low.formType ref (answers.map .lowered) written form.lowered =
      Ty.lowered <$> ctx.formType ref answers written form := by
  have hoperand := operand_lowered answers
  cases form with
  | literal kind text =>
      cases kind with
      | integer =>
          -- A literal is an `int` or a `float`, which have no letter case.
          have hprimitive : (IntegerLiteral.type? text).map Ty.lowered =
              IntegerLiteral.type? text := by
            unfold IntegerLiteral.type?
            rw [Option.map_map]
            congr 1
            funext value
            dsimp only [Function.comp_apply]
            split <;> rfl
          change resolved (IntegerLiteral.type? text) = _ <$> resolved (IntegerLiteral.type? text)
          rw [← resolved_map, hprimitive]
      | _ => rfl
  | var name => exact h.variableType ref name written
  | newExpression className arguments =>
      dsimp only [Form.lowered, Context.formType]
      rw [resolved_map]
      apply map_bind_eq_map
      intro name
      rw [h.resolveClass?]
      cases ctx.resolveClass? ref name <;> rfl
  | propertyAccess receiver name =>
      dsimp only [Form.lowered, Context.formType]
      rw [hoperand, receiverClass_lowered, map_bind]
      apply bind_congr
      intro name
      apply map_bind_eq_map
      intro owner
      exact h.propertyType owner name
  | staticPropertyAccess className name =>
      dsimp only [Form.lowered, Context.formType]
      rw [h.resolveClass?, resolved_map]
      apply map_bind_eq_map
      intro owner
      exact h.propertyType owner name
  | functionCall name arguments =>
      dsimp only [Form.lowered, Context.formType]
      rw [resolved_map]
      apply map_bind_eq_map
      intro name
      exact h.callType (.function name)
  | methodCall receiver name arguments =>
      dsimp only [Form.lowered, Context.formType]
      rw [resolved_map, hoperand, receiverClass_lowered]
      apply map_bind_eq_map
      intro name
      apply map_bind_eq_map
      intro owner
      exact h.callType (.method owner name)
  | staticMethodCall className name arguments =>
      dsimp only [Form.lowered, Context.formType]
      rw [h.resolveClass?, resolved_map]
      apply map_bind_eq_map
      intro owner
      exact h.callType (.method owner name)
  | cast keyword token operand =>
      dsimp only [Form.lowered, Context.formType]
      cases CastKind.ofKeyword keyword <;> rfl
  | binary left op right =>
      dsimp only [Form.lowered, Context.formType]
      rw [hoperand, hoperand, op.result_lowered, resolved_map]
  | unary op operand =>
      dsimp only [Form.lowered, Context.formType]
      rw [hoperand, op.result_lowered, resolved_map]
  | parenthesized expr | assignment target value =>
      dsimp only [Form.lowered, Context.formType]
      rw [hoperand, resolved_map]
  | _ => rfl

theorem rule (h : ctx.LowersTo low) (ref : NodeRef) (answers : List Inference) (written : Bool) :
    low.rule ref (answers.map .lowered) written = (ctx.rule ref answers written).lowered := by
  rw [Context.rule, h.tree, Tree.form?_lowered, Context.rule]
  cases ctx.tree.form? ref with
  | none => rfl
  | some form =>
      dsimp only [Option.map_some]
      rw [h.formType, Inference.ofExcept_lowered]

theorem inferFresh (h : ctx.LowersTo low) (depth : Nat) (ref : NodeRef) :
    low.inferFresh depth ref = (ctx.inferFresh depth ref).lowered := by
  induction depth generalizing ref with
  | zero => rfl
  | succ depth ih =>
      have hanswers : (low.operands ref).map (low.inferFresh depth) =
          ((ctx.operands ref).map (ctx.inferFresh depth)).map .lowered := by
        rw [h.operands, List.map_map]
        exact List.map_congr_left fun operand _ => ih operand
      change low.rule ref _ (low.written ref) = (ctx.rule ref _ (ctx.written ref)).lowered
      rw [hanswers, h.rule, h.written]

end LowersTo

end Context

end RedundantCast
