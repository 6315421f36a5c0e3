import RedundantCast.Proofs.Check.Isolation
import RedundantCast.Proofs.Inference.LetterCase

/-!
# Letter case in a check

The names of classes, functions and methods may be written in any letter case,
in a different one at each place. What is inferred is equal as a type, and the
findings are the same.
-/

namespace RedundantCast

/-- Nothing is known of either, or their types are equal. -/
def Inference.SameType : Inference → Inference → Prop
  | certain t, certain u => (t == u) = true
  | unknown, unknown => True
  | _, _ => False

theorem Inference.sameType_of_lowered_eq {a b : Inference} (h : a.lowered = b.lowered) :
    a.SameType b := by
  cases a with
  | unknown =>
      cases b with
      | unknown => trivial
      | certain u => cases h
  | certain t =>
      cases b with
      | unknown => cases h
      | certain u => exact Ty.beq_of_lowered_eq (Inference.certain.inj h)

namespace Context

theorem target_of_question? {ctx : Context} {ref : NodeRef} {q : Question}
    (h : ctx.question? ref = some q) : ∃ kind : CastKind, kind.target? = some q.target := by
  obtain ⟨node, -, -, -, -, htarget⟩ := exists_node_of_question? h
  exact ⟨_, htarget⟩

/-- No cast has a class as its target, so letter case does not matter to it. -/
theorem judge_lowered {kind : CastKind} {target : Ty} (htarget : kind.target? = some target)
    (id : NodeId) (span : Span) (keyword : String) (token : Span) (known : Inference) :
    judge id span keyword token target known.lowered =
      judge id span keyword token target known := by
  cases known with
  | unknown => rfl
  | certain t =>
      cases t with
      | object name => cases kind <;> cases htarget <;> rfl
      | union ms => cases kind <;> cases htarget <;> rfl
      | _ => rfl

namespace LowersTo

variable {ctx low : Context}

theorem servedCallable? (h : ctx.LowersTo low) (ref : NodeRef) :
    low.servedCallable? ref = (ctx.servedCallable? ref).map .lowered := by
  have hfunction : low.tree.enclosingFunction? ref = ctx.tree.enclosingFunction? ref :=
    h.enclosing? _ ref
  unfold Context.servedCallable?
  dsimp only
  rw [hfunction, h.tree, Tree.isReturnedValue_lowered, Tree.form?_lowered, h.enclosingClassName?]
  split
  · cases ctx.tree.form? (ctx.tree.enclosingFunction? ref) with
    | none => rfl
    | some form =>
        cases form with
        | function parts =>
            dsimp only [Option.map_some, Option.bind_some, Form.lowered, Form.function?]
            split
            · rfl
            · cases parts.name with
              | none => rfl
              | some name =>
                  dsimp only [Option.map_some, Option.bind_some]
                  cases parts.kind with
                  | methodDeclaration =>
                      cases ctx.enclosingClassName? (ctx.tree.enclosingFunction? ref) <;> rfl
                  | _ => rfl
        | _ => rfl
  · rfl

theorem exempts (h : ctx.LowersTo low) (ref : NodeRef) : low.exempts ref = ctx.exempts ref := by
  have hserves : low.servesDocumentedReturn ref = ctx.servesDocumentedReturn ref := by
    unfold Context.servesDocumentedReturn
    rw [h.servedCallable?]
    cases ctx.servedCallable? ref with
    | none => rfl
    | some callable =>
        dsimp only [Option.map_some]
        rw [h.returnType]
        cases ctx.provider.returnType callable with
        | error error => rfl
        | ok declaration => cases declaration <;> rfl
  rw [Context.exempts, hserves, h.options, Context.exempts]

theorem question? (h : ctx.LowersTo low) (ref : NodeRef) :
    low.question? ref = ctx.question? ref := by
  have hcast : ∀ id span (form : Form),
      castQuestion? id span form.lowered = castQuestion? id span form := by
    intro id span form
    cases form <;> rfl
  unfold Context.question?
  rw [h.exempts, h.tree]
  cases ref with
  | none => rfl
  | some id =>
      dsimp only [Option.bind_some]
      rw [Tree.node?_lowered, Option.bind_map]
      congr 2
      funext node
      exact hcast id node.span node.form

theorem findingBy (h : ctx.LowersTo low) (known : NodeRef → Inference) (ref : NodeRef) :
    low.findingBy (fun operand => (known operand).lowered) ref = ctx.findingBy known ref := by
  rw [Context.findingBy, Context.findingBy, h.question?]
  cases hq : ctx.question? ref with
  | none => rfl
  | some q =>
      obtain ⟨kind, htarget⟩ := target_of_question? hq
      exact judge_lowered htarget q.cast q.span q.keyword q.token (known q.operand)

theorem infer (h : ctx.LowersTo low) (ht : ctx.tree.WellFormed) (hlow : low.tree.WellFormed)
    (ref : NodeRef) : (low.infer ref .empty).1 = (ctx.infer ref .empty).1.lowered := by
  rw [Context.infer, Context.infer, inferWithin_empty ht, inferWithin_empty hlow, h.inferFresh,
    h.options]

theorem findings (h : ctx.LowersTo low) (ht : ctx.tree.WellFormed) (hlow : low.tree.WellFormed)
    (root : NodeRef) : (low.findings root .empty).1 = (ctx.findings root .empty).1 := by
  rw [findings_empty hlow, findings_empty ht, h.tree, Tree.casts_lowered]
  have hknown : low.inferFresh low.options.depthLimit =
      fun ref => (ctx.inferFresh ctx.options.depthLimit ref).lowered := by
    funext ref
    rw [h.options]
    exact h.inferFresh _ ref
  rw [hknown]
  apply List.filterMap_congr
  intro id _
  exact h.findingBy _ (some id)

end LowersTo

/-- The context of a tree and a table that are built step by step. -/
def ofCalls (forms : List (Form × Span)) (facts : List Table.Fact) (o : Options) : Context :=
  ⟨.ofForms forms, (Table.ofFacts facts).provider, o⟩

theorem ofCalls_lowersTo (forms : List (Form × Span)) (facts : List Table.Fact) (o : Options) :
    (ofCalls forms facts o).LowersTo
      (ofCalls (forms.map (Prod.map .lowered id)) (facts.map .lowered) o) := by
  rw [ofCalls, ofCalls, Tree.ofForms_lowered, Table.ofFacts_lowered]
  exact lowersTo_table _ _ o

/-- If two trees and two tables are built by the same steps except for the
letter case of names of classes, functions and methods, then inference gives
equal types, and a check gives the same findings and reports. -/
theorem letterCase_irrelevant {forms forms' : List (Form × Span)} {facts facts' : List Table.Fact}
    (haccepts : Tree.empty.AcceptsAll forms)
    (hforms : forms.map (Prod.map Form.lowered id) = forms'.map (Prod.map Form.lowered id))
    (hfacts : facts.map Table.Fact.lowered = facts'.map Table.Fact.lowered) (o : Options) :
    (∀ ref, ((ofCalls forms facts o).infer ref .empty).1.SameType
        ((ofCalls forms' facts' o).infer ref .empty).1) ∧
      ∀ {σ : Type} (sink : Sink σ) (root : NodeRef) (collected : σ),
        ((ofCalls forms facts o).checkUnit sink root .empty collected).1 =
            ((ofCalls forms' facts' o).checkUnit sink root .empty collected).1 ∧
          ((ofCalls forms facts o).checkUnit sink root .empty collected).2.2 =
            ((ofCalls forms' facts' o).checkUnit sink root .empty collected).2.2 := by
  have hiff : ∀ fs : List (Form × Span),
      Tree.empty.AcceptsAll (fs.map (Prod.map Form.lowered id)) ↔ Tree.empty.AcceptsAll fs := by
    intro fs
    rw [← Tree.acceptsAll_lowered Tree.empty fs, Tree.lowered_empty]
  have hlowered := (hiff forms).2 haccepts
  have haccepts' := (hiff forms').1 (hforms ▸ hlowered)
  have ht := Tree.wellFormed_ofForms haccepts
  have ht' := Tree.wellFormed_ofForms haccepts'
  have hlow := Tree.wellFormed_ofForms hlowered
  -- Both contexts are compared with the one in lower case, which is the same for the two.
  have h := ofCalls_lowersTo forms facts o
  have h' := ofCalls_lowersTo forms' facts' o
  rw [← hforms, ← hfacts] at h'
  constructor
  · intro ref
    apply Inference.sameType_of_lowered_eq
    exact (h.infer ht hlow ref).symm.trans (h'.infer ht' hlow ref)
  · intro σ sink root collected
    have hfindings := (h.findings ht hlow root).symm.trans (h'.findings ht' hlow root)
    exact ⟨hfindings, congrArg (sink.reportAll · collected) hfindings⟩

/-- The nodes of `(int) (new Item)->count();` in a file, with some spelling of the
two names. -/
def countOfItem (item count : String) : List (Form × Span) :=
  [(.newExpression (some item) [], ⟨13, 21⟩), (.parenthesized (some 0), ⟨12, 22⟩),
    (.methodCall (some 1) (some count) [], ⟨12, 31⟩), (.cast "int" ⟨6, 11⟩ (some 2), .dummy),
    (.expressionStatement (some 3), ⟨6, 32⟩), (.sourceFile "a.php" [some 4], ⟨0, 33⟩)]

/-- An item is countable, and counting gives an `int`. -/
def countable (item countable count : String) : List Table.Fact :=
  [.parent (.spelled item) (.spelled countable),
    .method (.spelled countable) count .int .returnHint]

/-- The class and the method are spelled differently at each place. -/
theorem letterCase_irrelevant_countOfItem :
    let ctx := ofCalls (countOfItem "Item" "count") (countable "item" "Countable" "COUNT") .default
    let ctx' := ofCalls (countOfItem "iTEM" "Count") (countable "ITEM" "countable" "count") .default
    let found (ctx : Context) : List Finding := (ctx.checkUnit .log (some 5) .empty []).1
    (ctx.infer (some 0) .empty).1.SameType (ctx'.infer (some 0) .empty).1 ∧
      found ctx = found ctx' ∧ (found ctx).map Finding.cast = [3] := by
  intro ctx ctx' found
  have haccepts : Tree.empty.AcceptsAll (countOfItem "Item" "count") := by decide
  have hitem : Text.lowered "Item" = Text.lowered "iTEM" := by decide
  have hitem' : Text.lowered "item" = Text.lowered "ITEM" := by decide
  have hcountable : Text.lowered "Countable" = Text.lowered "countable" := by decide
  have hcount : Text.lowered "count" = Text.lowered "Count" := by decide
  have hcount' : Text.lowered "COUNT" = Text.lowered "count" := by decide
  have hforms : (countOfItem "Item" "count").map (Prod.map Form.lowered id) =
      (countOfItem "iTEM" "Count").map (Prod.map Form.lowered id) := by
    simp [countOfItem, Form.lowered, hitem, hcount]
  have hfacts : (countable "item" "Countable" "COUNT").map Table.Fact.lowered =
      (countable "ITEM" "countable" "count").map Table.Fact.lowered := by
    simp [countable, Table.Fact.lowered, hitem', hcountable, hcount']
  obtain ⟨htypes, hfindings⟩ := letterCase_irrelevant haccepts hforms hfacts .default
  have hcasts : (found ctx).map Finding.cast = [3] := by decide +kernel
  exact ⟨htypes (some 0), (hfindings .log (some 5) []).1, hcasts⟩

end Context

end RedundantCast
