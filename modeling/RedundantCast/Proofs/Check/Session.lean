import Mathlib.Data.Set.Insert
import RedundantCast.Proofs.Check.Isolation

/-!
# Sessions

A session is a sequence of calls that share one memory. A cut-off at the depth
limit may leave unknown entries where a deeper call would know more, but no
entry and no answer ever says more than inference without a limit. If the limit
is never reached, a session answers every call as if it were the first one.
-/

namespace RedundantCast

namespace Context

/-- The memories that calls under some contexts leave, starting from nothing. -/
inductive Reachable (contexts : Set Context) : Memory → Prop where
  | empty : Reachable contexts .empty
  | infer {ctx : Context} {m : Memory} (ref : NodeRef) :
      ctx ∈ contexts → Reachable contexts m → Reachable contexts (ctx.infer ref m).2
  | analyze {ctx : Context} {m : Memory} (ref : NodeRef) :
      ctx ∈ contexts → Reachable contexts m → Reachable contexts (ctx.analyze ref m).2
  | checkUnit {ctx : Context} {m : Memory} {σ : Type} (sink : Sink σ) (root : NodeRef)
      (collected : σ) : ctx ∈ contexts → Reachable contexts m →
      Reachable contexts (ctx.checkUnit sink root m collected).2.1

/-- No more than so many calls of inference nest anywhere in the tree. -/
def NestsAtMost (ctx : Context) (n : Nat) : Prop :=
  ∀ calls, ctx.Nested calls → (∀ ref ∈ calls.head?, (ctx.tree.node? ref).isSome) →
    calls.length ≤ n

/-- The findings about the casts of a unit when inference has no limit. -/
def unlimitedFindings (ctx : Context) (root : NodeRef) : List Finding :=
  (ctx.tree.casts root).filterMap fun id => ctx.findingBy ctx.inferUnlimited (some id)

def BelowUnlimited (ctx : Context) (ref : NodeRef) (answer : Inference) : Prop :=
  answer.Below (ctx.inferUnlimited ref)

def IsUnlimited (ctx : Context) (ref : NodeRef) (answer : Inference) : Prop :=
  answer = ctx.inferUnlimited ref

/-- Neither the memory nor an answer given with it says more than inference
without a limit does. -/
structure Sound (ctx : Context) (m : Memory) : Prop where
  types : ∀ ref answer, m.types.find? ref = some answer → answer.Below (ctx.inferUnlimited ref)
  writes : ∀ function name written, m.writes.find? (function, name) = some written →
    written = (ctx.recallWrites function name .empty).1
  infer : ∀ ref, (ctx.infer ref m).1.Below (ctx.inferUnlimited ref)
  analyze : ∀ ref f, (ctx.analyze ref m).1 = some f →
    ctx.findingBy ctx.inferUnlimited ref = some f
  checkUnit : ∀ {σ : Type} (sink : Sink σ) (root : NodeRef) (collected : σ),
    (ctx.checkUnit sink root m collected).1.Sublist (ctx.unlimitedFindings root)

/-- Every call has the same answer with the one memory as with the other. -/
structure AnswersAlike (ctx : Context) (m m' : Memory) : Prop where
  infer : ∀ ref, (ctx.infer ref m).1 = (ctx.infer ref m').1
  analyze : ∀ ref, (ctx.analyze ref m).1 = (ctx.analyze ref m').1
  checkUnit : ∀ {σ : Type} (sink : Sink σ) (root : NodeRef) (collected : σ),
    (ctx.checkUnit sink root m collected).1 = (ctx.checkUnit sink root m' collected).1 ∧
      (ctx.checkUnit sink root m collected).2.2 = (ctx.checkUnit sink root m' collected).2.2

variable {contexts : Set Context} {ctx : Context} {m : Memory} {t : Tree} {ref : NodeRef}
  {within : Nat → NodeRef → Prop} {R : NodeRef → Inference → Prop}

/-! ## What a session keeps -/

theorem records_analyzeEach (h : ctx.Sustains within R)
    (hwithin : ∀ ref, within ctx.options.depthLimit ref) (ids : List NodeId)
    (hm : m.Records ctx.tree R) : (ctx.analyzeEach ids m).2.Records ctx.tree R := by
  induction ids generalizing m with
  | nil => exact hm
  | cons id ids ih =>
      rw [analyzeEach_cons]
      exact ih (records_analyze h (fun q _ => hwithin q.operand) hm)

/-- A relation that the rules sustain under every context of a session holds of
all that the session remembers. -/
theorem Reachable.records
    (hcontexts : ∀ ctx ∈ contexts, ctx.tree = t ∧
      ∃ within, ctx.Sustains within R ∧ ∀ ref, within ctx.options.depthLimit ref)
    (h : Reachable contexts m) : m.Records t R := by
  induction h with
  | empty => exact .empty t R
  | infer ref hctx _ ih =>
      obtain ⟨rfl, within, hsustains, hwithin⟩ := hcontexts _ hctx
      exact (hsustains.inferWithin (hwithin ref) ih).2
  | analyze ref hctx _ ih =>
      obtain ⟨rfl, within, hsustains, hwithin⟩ := hcontexts _ hctx
      exact records_analyze hsustains (fun q _ => hwithin q.operand) ih
  | checkUnit sink root collected hctx _ ih =>
      obtain ⟨rfl, within, hsustains, hwithin⟩ := hcontexts _ hctx
      exact records_analyzeEach hsustains hwithin _ ih

/-! ## Soundness -/

theorem sustains_belowUnlimited (ht : ctx.tree.WellFormed) :
    ctx.Sustains (fun _ _ => True) ctx.BelowUnlimited where
  cutOff _ _ := Or.inl rfl
  operands _ _ _ _ _ := trivial
  rule := by
    intro ref answers hanswers
    rw [BelowUnlimited, inferUnlimited_eq ht]
    exact (KnowsLess.refl ctx).rule (List.forall₂_map_right_iff.2 hanswers.flip)

theorem infer_belowUnlimited (ht : ctx.tree.WellFormed)
    (hm : m.Records ctx.tree ctx.BelowUnlimited) (ref : NodeRef) :
    (ctx.infer ref m).1.Below (ctx.inferUnlimited ref) :=
  ((sustains_belowUnlimited ht).inferWithin trivial hm).1

theorem analyze_belowUnlimited (ht : ctx.tree.WellFormed)
    (hm : m.Records ctx.tree ctx.BelowUnlimited) {f : Finding}
    (hf : (ctx.analyze ref m).1 = some f) : ctx.findingBy ctx.inferUnlimited ref = some f := by
  rw [analyze_fst] at hf
  obtain ⟨q, hq, hanswer⟩ := Option.bind_eq_some_iff.1 hf
  rw [findingBy, hq]
  exact answer_of_below (infer_belowUnlimited ht hm q.operand) hanswer

theorem analyzeEach_sublist (ht : ctx.tree.WellFormed) (ids : List NodeId)
    (hm : m.Records ctx.tree ctx.BelowUnlimited) :
    (ctx.analyzeEach ids m).1.Sublist
      (ids.filterMap fun id => ctx.findingBy ctx.inferUnlimited (some id)) := by
  induction ids generalizing m with
  | nil => exact .slnil
  | cons id ids ih =>
      have hnext : (ctx.analyze (some id) m).2.Records ctx.tree ctx.BelowUnlimited :=
        records_analyze (sustains_belowUnlimited ht) (fun _ _ => trivial) hm
      have hrest := ih hnext
      rw [analyzeEach_cons]
      cases hf : (ctx.analyze (some id) m).1 with
      | none =>
          apply hrest.trans
          exact (List.sublist_cons_self id ids).filterMap _
      | some f =>
          simp only [List.filterMap_cons, analyze_belowUnlimited ht hm hf]
          exact hrest.cons_cons f

theorem sound_of_records (ht : ctx.tree.WellFormed)
    (hm : m.Records ctx.tree ctx.BelowUnlimited) : ctx.Sound m where
  types := hm.types
  writes := hm.writes
  infer := infer_belowUnlimited ht hm
  analyze _ _ hf := analyze_belowUnlimited ht hm hf
  checkUnit _ _ _ := analyzeEach_sublist ht _ hm

/-! ## Sessions that reach no limit -/

theorem nestsAtMost_iff {n : Nat} :
    ctx.NestsAtMost n ↔ ∀ id < ctx.tree.size, ctx.NestsWithin n (some id) := by
  constructor
  · intro h id hid
    apply nestsWithin_iff.2
    intro calls hcalls
    apply h (some id :: calls) hcalls
    rintro ref ⟨⟩
    exact Tree.isSome_node?.2 hid
  · intro h calls hcalls hhead
    cases calls with
    | nil => exact Nat.zero_le n
    | cons ref calls =>
        have hnode := hhead ref rfl
        cases ref with
        | none => cases hnode
        | some id => exact nestsWithin_iff.1 (h id (Tree.isSome_node?.1 hnode)) calls hcalls

instance (ctx : Context) (n : Nat) : Decidable (ctx.NestsAtMost n) :=
  decidable_of_iff _ nestsAtMost_iff.symm

theorem sustains_isUnlimited (ht : ctx.tree.WellFormed) :
    ctx.Sustains (fun depth ref => ctx.tree.form? ref = none ∨ ctx.NestsWithin depth ref)
      ctx.IsUnlimited where
  cutOff := by
    rintro ref (hform | hnests)
    · rw [IsUnlimited, inferUnlimited_eq ht, ctx.rule_of_form?_eq_none hform]
    · exact hnests.elim
  operands := by
    rintro depth ref (hform | hnests) operand hoperand
    · rw [ctx.operands_of_form?_eq_none hform] at hoperand
      cases hoperand
    · exact Or.inr (hnests operand hoperand)
  rule := by
    intro ref answers hanswers
    have heq : List.Forall₂ Eq answers ((ctx.operands ref).map ctx.inferUnlimited) :=
      List.forall₂_map_right_iff.2 hanswers.flip
    rw [List.forall₂_eq_eq_eq] at heq
    rw [IsUnlimited, inferUnlimited_eq ht, heq]

theorem NestsAtMost.within_limit (h : ctx.NestsAtMost ctx.options.depthLimit) (ref : NodeRef) :
    ctx.tree.form? ref = none ∨ ctx.NestsWithin ctx.options.depthLimit ref := by
  cases ref with
  | none => exact Or.inl rfl
  | some id =>
      by_cases hid : id < ctx.tree.size
      · exact Or.inr (nestsAtMost_iff.1 h id hid)
      · exact Or.inl (Tree.form?_of_size_le (Nat.le_of_not_lt hid))

namespace NestsAtMost

theorem infer (h : ctx.NestsAtMost ctx.options.depthLimit) (ht : ctx.tree.WellFormed)
    (hm : m.Records ctx.tree ctx.IsUnlimited) (ref : NodeRef) :
    (ctx.infer ref m).1 = ctx.inferUnlimited ref :=
  ((sustains_isUnlimited ht).inferWithin (h.within_limit ref) hm).1

theorem analyze (h : ctx.NestsAtMost ctx.options.depthLimit) (ht : ctx.tree.WellFormed)
    (hm : m.Records ctx.tree ctx.IsUnlimited) (ref : NodeRef) :
    (ctx.analyze ref m).1 = ctx.findingBy ctx.inferUnlimited ref := by
  simp only [analyze_fst, h.infer ht hm]

theorem findings (h : ctx.NestsAtMost ctx.options.depthLimit) (ht : ctx.tree.WellFormed)
    (hm : m.Records ctx.tree ctx.IsUnlimited) (root : NodeRef) :
    (ctx.findings root m).1 = ctx.unlimitedFindings root := by
  apply analyzeEach_eq_of_step (I := fun _ m => m.Records ctx.tree ctx.IsUnlimited) _ hm
  intro id ids m hm
  refine ⟨h.analyze ht hm (some id), ?_⟩
  exact records_analyze (sustains_isUnlimited ht) (fun q _ => h.within_limit q.operand) hm

end NestsAtMost

theorem answersAlike_of_records {m' : Memory} (h : ctx.NestsAtMost ctx.options.depthLimit)
    (ht : ctx.tree.WellFormed) (hm : m.Records ctx.tree ctx.IsUnlimited)
    (hm' : m'.Records ctx.tree ctx.IsUnlimited) : ctx.AnswersAlike m m' where
  infer ref := (h.infer ht hm ref).trans (h.infer ht hm' ref).symm
  analyze ref := (h.analyze ht hm ref).trans (h.analyze ht hm' ref).symm
  checkUnit sink root collected := by
    have hfindings : (ctx.findings root m).1 = (ctx.findings root m').1 :=
      (h.findings ht hm root).trans (h.findings ht hm' root).symm
    exact ⟨hfindings, congrArg (fun findings => sink.reportAll findings collected) hfindings⟩

/-- A session never says more than inference without a limit. If no chain of
nested calls is longer than the limit, it answers like an empty memory. -/
theorem session_sound (ctx : Context) (ht : ctx.tree.WellFormed) (hm : Reachable {ctx} m) :
    (∀ n ref, ctx.tree.size < n → (ctx.inferWithin n ref .empty).1 = ctx.inferUnlimited ref) ∧
      ctx.Sound m ∧
      (ctx.NestsAtMost ctx.options.depthLimit → ctx.AnswersAlike m .empty) := by
  refine ⟨?_, ?_, ?_⟩
  · intro n ref hn
    rw [inferWithin_empty ht]
    exact inferFresh_eq_inferUnlimited ht ((nestsWithin_size ht ref).mono hn)
  · apply sound_of_records ht
    apply hm.records
    rintro ctx' rfl
    exact ⟨rfl, _, sustains_belowUnlimited ht, fun _ => trivial⟩
  · intro h
    apply answersAlike_of_records h ht _ (.empty _ _)
    apply hm.records
    rintro ctx' rfl
    exact ⟨rfl, _, sustains_isUnlimited ht, h.within_limit⟩

/-- Two levels are enough for the nested casts. One is not: the operand of the outer
cast stays unknown, and that of the inner one is certain all the same, also when it is
asked for again. -/
theorem session_nestedCasts :
    let ctx : Context :=
      ⟨.ofForms nestedCasts, .empty, { Options.default with maxInferenceDepth := 2 }⟩
    let m := (ctx.checkUnit .log (some 4) .empty []).2.1
    let shallow : Context := { ctx with options.maxInferenceDepth := 1 }
    let m' := (shallow.checkUnit .log (some 4) .empty []).2.1
    (ctx.tree.WellFormed ∧ Reachable {ctx} m ∧ ctx.NestsAtMost 2 ∧
        m.types.find? (some 3) = some (.certain .int) ∧ ctx.Sound m ∧
        ctx.AnswersAlike m .empty) ∧
      (Reachable {shallow} m' ∧ ¬ shallow.NestsAtMost 1 ∧
        m'.types.find? (some 3) = some .unknown ∧ (shallow.infer (some 0) m').1 = .certain .int ∧
        shallow.inferUnlimited (some 0) = .certain .int ∧ shallow.Sound m') := by
  intro ctx m shallow m'
  have ht : ctx.tree.WellFormed := Tree.wellFormed_ofForms (by decide)
  have hm : Reachable {ctx} m := .checkUnit .log (some 4) [] rfl .empty
  have hm' : Reachable {shallow} m' := .checkUnit .log (some 4) [] rfl .empty
  obtain ⟨-, hsound, halike⟩ := session_sound ctx ht hm
  obtain ⟨-, hsound', -⟩ := session_sound shallow ht hm'
  have hnests : ctx.NestsAtMost 2 := by decide
  have hcertain : (shallow.infer (some 0) m').1 = .certain .int := rfl
  have hunlimited : shallow.inferUnlimited (some 0) = .certain .int := by
    have hbelow := hsound'.infer (some 0)
    rw [hcertain] at hbelow
    rcases hbelow with hunknown | heq
    · cases hunknown
    · exact heq.symm
  exact ⟨⟨ht, hm, hnests, rfl, hsound, halike hnests⟩, hm', by decide, rfl, hcertain, hunlimited,
    hsound'⟩

end Context

end RedundantCast
