import RedundantCast.Check.Unit
import RedundantCast.Proofs.Inference.Region

/-!
# Questions about casts

The analysis of a cast is one question about the type of its operand, which
depends on the tree and the declarations alone. The memory serves to answer it.
-/

namespace RedundantCast

/-- A cast that is redundant if its operand has the target type. -/
structure Question where
  cast : NodeId
  span : Span
  keyword : String
  token : Span
  target : Ty
  operand : NodeRef

/-- The finding that what is known of the operand leads to. -/
def Question.answer (q : Question) (known : Inference) : Option Finding :=
  Context.judge q.cast q.span q.keyword q.token q.target known

namespace Context

/-- Whether a cast is left alone because it may make a documented type true. -/
def exempts (ctx : Context) (ref : NodeRef) : Bool :=
  ctx.options.skipDocOnlyReturns && ctx.servesDocumentedReturn ref

/-- The question that a node of the given form asks, which only casts do. -/
def castQuestion? (id : NodeId) (span : Span) : Form → Option Question
  | .cast keyword token operand =>
    (CastKind.ofKeyword keyword).target?.map fun target =>
      ⟨id, span, keyword, token, target, operand⟩
  | _ => none

/-- The question that the analysis of a node asks, if it asks one. -/
def question? (ctx : Context) (ref : NodeRef) : Option Question :=
  if ctx.exempts ref then none
  else
    ref.bind fun id => (ctx.tree.node? ref).bind fun node => castQuestion? id node.span node.form

/-- The finding about a node when `known` answers for the types of operands. -/
def findingBy (ctx : Context) (known : NodeRef → Inference) (ref : NodeRef) : Option Finding :=
  (ctx.question? ref).bind fun q => q.answer (known q.operand)

variable {ctx : Context} {m : Memory} {id : NodeId} {q : Question}

theorem analyze_eq (ctx : Context) (ref : NodeRef) (m : Memory) :
    ctx.analyze ref m =
      (ctx.question? ref).elim (none, m) fun q =>
        (q.answer (ctx.infer q.operand m).1, (ctx.infer q.operand m).2) := by
  have hexempts : (ctx.options.skipDocOnlyReturns && ctx.servesDocumentedReturn ref) =
      ctx.exempts ref := rfl
  unfold analyze question?
  generalize ctx.exempts ref = exempt at hexempts ⊢
  cases ref with
  | none => cases exempt <;> rfl
  | some id =>
      cases ctx.tree.node? (some id) with
      | none => cases exempt <;> rfl
      | some node =>
          obtain ⟨form, span, scope, parent⟩ := node
          cases form with
          | cast keyword token operand =>
              dsimp only [Option.bind_some, castQuestion?]
              rw [hexempts]
              cases (CastKind.ofKeyword keyword).target? with
              | none => cases exempt <;> rfl
              | some target =>
                  cases exempt with
                  | true => rfl
                  | false => rfl
          | _ => cases exempt <;> rfl

theorem analyze_fst (ctx : Context) (ref : NodeRef) (m : Memory) :
    (ctx.analyze ref m).1 = ctx.findingBy (fun operand => (ctx.infer operand m).1) ref := by
  rw [analyze_eq, findingBy]
  cases ctx.question? ref with
  | none => rfl
  | some q => rfl

theorem analyzeEach_cons (ctx : Context) (id : NodeId) (ids : List NodeId) (m : Memory) :
    ctx.analyzeEach (id :: ids) m =
      ((ctx.analyze (some id) m).1.toList ++
          (ctx.analyzeEach ids (ctx.analyze (some id) m).2).1,
        (ctx.analyzeEach ids (ctx.analyze (some id) m).2).2) := rfl

/-- The findings about some nodes, if an invariant of the memory and the nodes
still to come decides the finding about the next one. -/
theorem analyzeEach_eq_of_step {f : NodeId → Option Finding} {I : List NodeId → Memory → Prop}
    (hstep : ∀ id ids m, I (id :: ids) m →
      (ctx.analyze (some id) m).1 = f id ∧ I ids (ctx.analyze (some id) m).2)
    {ids : List NodeId} (hI : I ids m) : (ctx.analyzeEach ids m).1 = ids.filterMap f := by
  induction ids generalizing m with
  | nil => rfl
  | cons id ids ih =>
      obtain ⟨hfirst, hnext⟩ := hstep id ids m hI
      rw [List.filterMap_cons, ← ih hnext, ← hfirst, analyzeEach_cons]
      cases (ctx.analyze (some id) m).1 <;> rfl

/-- A question is about a cast and says what the node of the cast holds. -/
theorem exists_node_of_question? {ref : NodeRef} (h : ctx.question? ref = some q) :
    ∃ node, ref = some q.cast ∧ ctx.tree.node? ref = some node ∧ node.span = q.span ∧
      node.form = .cast q.keyword q.token q.operand ∧
      (CastKind.ofKeyword q.keyword).target? = some q.target := by
  unfold question? at h
  split at h
  · cases h
  · obtain ⟨id, rfl, h⟩ := Option.bind_eq_some_iff.1 h
    obtain ⟨node, hnode, h⟩ := Option.bind_eq_some_iff.1 h
    unfold castQuestion? at h
    split at h
    · next hform =>
        obtain ⟨target, htarget, rfl⟩ := Option.map_eq_some_iff.1 h
        exact ⟨node, rfl, hnode, rfl, hform, htarget⟩
    · cases h

theorem node?_of_question? (h : ctx.question? (some id) = some q) :
    q.cast = id ∧ ctx.tree.form? (some id) = some (.cast q.keyword q.token q.operand) := by
  obtain ⟨node, hid, hnode, -, hform, -⟩ := exists_node_of_question? h
  exact ⟨(Option.some.inj hid).symm, by rw [Tree.form?, hnode, Option.map_some, hform]⟩

theorem isCast_of_question? (h : ctx.question? (some id) = some q) : ctx.tree.isCast id := by
  rw [Tree.isCast, Tree.kind?, (node?_of_question? h).2]
  rfl

theorem parent_of_question? (ht : ctx.tree.WellFormed) (h : ctx.question? (some id) = some q)
    {c : NodeId} (hc : q.operand = some c) : ctx.tree.parent (some c) = some id := by
  rw [← ht.mem_children_iff, Tree.children, (node?_of_question? h).2]
  simp [Form.references, hc]

theorem exists_type_of_answer {known : Inference} {f : Finding} (h : q.answer known = some f) :
    ∃ type, known = .certain type ∧ f = .ofCast q.cast q.span q.keyword q.token type := by
  unfold Question.answer judge at h
  split at h
  · split at h
    · cases h
      exact ⟨_, rfl, rfl⟩
    · cases h
  · cases h

theorem cast_of_answer {known : Inference} {f : Finding} (h : q.answer known = some f) :
    f.cast = q.cast := by
  obtain ⟨type, -, rfl⟩ := exists_type_of_answer h
  rfl

theorem answer_of_below {a b : Inference} (h : a.Below b) {f : Finding}
    (hf : q.answer a = some f) : q.answer b = some f := by
  rcases h with rfl | rfl
  · cases hf
  · exact hf

end Context

end RedundantCast
