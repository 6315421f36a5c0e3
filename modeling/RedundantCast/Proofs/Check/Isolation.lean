import RedundantCast.Proofs.Check.Question

/-!
# Casts are judged in isolation

The casts of a unit share one memory, and a cut-off at the depth limit leaves
unknown entries in it. Since the regions of two casts are disjoint, no cast sees
what was remembered for another: the unit has the findings that its casts have
one by one, each analyzed with an empty memory.
-/

namespace RedundantCast

namespace Context

variable {ctx : Context} {m : Memory} {id : NodeId} {q : Question}

theorem analyze_of_untouched (ht : ctx.tree.WellFormed)
    (hm : m.Records ctx.tree NothingUnknown)
    (hfree : ∀ q, ctx.question? (some id) = some q → ctx.Untouched q.operand m) :
    (ctx.analyze (some id) m).1 =
      ctx.findingBy (ctx.inferFresh ctx.options.depthLimit) (some id) := by
  rw [analyze_fst, findingBy, findingBy]
  cases hq : ctx.question? (some id) with
  | none => rfl
  | some q =>
      have hanswer : (ctx.infer q.operand m).1 = _ := inferWithin_eq_inferFresh ht hm (hfree q hq)
      simp only [Option.bind_some, hanswer]

theorem records_analyze {within : Nat → NodeRef → Prop} {R : NodeRef → Inference → Prop}
    (h : ctx.Sustains within R) {ref : NodeRef}
    (hwithin : ∀ q, ctx.question? ref = some q → within ctx.options.depthLimit q.operand)
    (hm : m.Records ctx.tree R) : (ctx.analyze ref m).2.Records ctx.tree R := by
  rw [analyze_eq]
  cases hq : ctx.question? ref with
  | none => exact hm
  | some q => exact (h.inferWithin (hwithin q hq) hm).2

/-- The analysis of a cast touches nothing that another cast asks about. -/
theorem untouched_analyze (ht : ctx.tree.WellFormed) {id' : NodeId} (hne : id ≠ id')
    (hq : ctx.question? (some id') = some q) (hfree : ctx.Untouched q.operand m) :
    ctx.Untouched q.operand (ctx.analyze (some id) m).2 := by
  rw [analyze_eq]
  cases hq' : ctx.question? (some id) with
  | none => exact hfree
  | some q' =>
      intro x hx
      have hsep : ctx.Separate q.operand q'.operand :=
        separate_of_casts ht (isCast_of_question? hq) (isCast_of_question? hq') hne.symm
          (fun _ => parent_of_question? ht hq) (fun _ => parent_of_question? ht hq')
      exact (find?_inferWithin (hsep x hx) m).trans (hfree x hx)

theorem analyzeEach_eq_filterMap (ht : ctx.tree.WellFormed) {ids : List NodeId}
    (hids : ids.Nodup) (hm : m.Records ctx.tree NothingUnknown)
    (hfree : ∀ id ∈ ids, ∀ q, ctx.question? (some id) = some q → ctx.Untouched q.operand m) :
    (ctx.analyzeEach ids m).1 =
      ids.filterMap fun id =>
        ctx.findingBy (ctx.inferFresh ctx.options.depthLimit) (some id) := by
  refine analyzeEach_eq_of_step (I := fun ids m => ids.Nodup ∧ m.Records ctx.tree NothingUnknown ∧
    ∀ id ∈ ids, ∀ q, ctx.question? (some id) = some q → ctx.Untouched q.operand m) ?_
    ⟨hids, hm, hfree⟩
  rintro id ids m ⟨hids, hm, hfree⟩
  obtain ⟨hid, hids⟩ := List.nodup_cons.1 hids
  refine ⟨analyze_of_untouched ht hm (hfree id List.mem_cons_self), hids, ?_, ?_⟩
  · exact records_analyze (sustains_nothingUnknown ctx) (fun _ _ => trivial) hm
  · intro id' hid' q hq
    exact untouched_analyze ht (fun heq => hid (heq ▸ hid')) hq
      (hfree id' (List.mem_cons_of_mem id hid') q hq)

theorem findings_empty (ht : ctx.tree.WellFormed) (root : NodeRef) :
    (ctx.findings root .empty).1 =
      (ctx.tree.casts root).filterMap fun id =>
        ctx.findingBy (ctx.inferFresh ctx.options.depthLimit) (some id) :=
  analyzeEach_eq_filterMap ht (Tree.nodup_casts ht root) (.empty _ _)
    fun _ _ q _ => untouched_empty ctx q.operand

theorem cast_of_findingBy {known : NodeRef → Inference} {f : Finding}
    (h : ctx.findingBy known (some id) = some f) : f.cast = id := by
  obtain ⟨q, hq, hf⟩ := Option.bind_eq_some_iff.1 h
  exact (cast_of_answer hf).trans (node?_of_question? hq).1

theorem map_cast_filterMap_sublist (known : NodeRef → Inference) (ids : List NodeId) :
    ((ids.filterMap fun id => ctx.findingBy known (some id)).map Finding.cast).Sublist ids := by
  induction ids with
  | nil => exact .slnil
  | cons id ids ih =>
      cases hf : ctx.findingBy known (some id) with
      | none =>
          simp only [List.filterMap_cons, hf]
          exact ih.cons id
      | some f =>
          simp only [List.filterMap_cons, hf, List.map_cons, cast_of_findingBy hf]
          exact ih.cons_cons id

/-- The findings about the casts of a unit in document order, each cast
analyzed with an empty memory of its own. -/
def isolatedFindings (ctx : Context) (root : NodeRef) : List Finding :=
  ((ctx.tree.preorder root).filter ctx.tree.isCast).filterMap fun id =>
    (ctx.analyze (some id) .empty).1

theorem isolatedFindings_eq (ht : ctx.tree.WellFormed) (root : NodeRef) :
    ctx.isolatedFindings root =
      (ctx.tree.casts root).filterMap fun id =>
        ctx.findingBy (ctx.inferFresh ctx.options.depthLimit) (some id) := by
  rw [isolatedFindings, Tree.casts_eq]
  exact List.filterMap_congr fun id _ =>
    analyze_of_untouched ht (.empty _ _) fun q _ => untouched_empty ctx q.operand

/-- A unit that is checked with an empty memory has the findings of its casts in
isolation. No cast is reported twice, and the sink receives every finding once
and in order. -/
theorem checkUnit_eq_isolated {σ : Type} (ctx : Context) (ht : ctx.tree.WellFormed)
    (sink : Sink σ) (root : NodeRef) (collected : σ) :
    (ctx.checkUnit sink root .empty collected).1 = ctx.isolatedFindings root ∧
      (ctx.checkUnit sink root .empty collected).2.2 =
        (ctx.isolatedFindings root).foldl (fun collected f => sink.reportFinding f collected)
          collected ∧
      ((ctx.isolatedFindings root).map Finding.cast).Nodup := by
  have hfindings : (ctx.findings root .empty).1 = ctx.isolatedFindings root :=
    (findings_empty ht root).trans (isolatedFindings_eq ht root).symm
  refine ⟨hfindings, ?_, ?_⟩
  · rw [← hfindings]
    rfl
  · rw [isolatedFindings_eq ht]
    exact (Tree.nodup_casts ht root).sublist (map_cast_filterMap_sublist _ _)

/-- The nodes of `(int) ((int) 1 + 2)`. -/
def nestedCasts : List (Form × Span) :=
  [(.literal .integer "1", ⟨11, 12⟩), (.cast "int" ⟨6, 11⟩ (some 0), .dummy),
    (.literal .integer "2", ⟨15, 16⟩), (.binary (some 1) .add (some 2), ⟨6, 16⟩),
    (.cast "int" ⟨0, 5⟩ (some 3), .dummy)]

/-- One level deep, the operand of the outer cast is unknown, and the inner cast
is still found. -/
theorem checkUnit_nestedCasts :
    let ctx : Context :=
      ⟨.ofForms nestedCasts, .empty, { Options.default with maxInferenceDepth := 1 }⟩
    ctx.tree.WellFormed ∧ (ctx.isolatedFindings (some 4)).map Finding.cast = [1] ∧
      (ctx.checkUnit .log (some 4) .empty []).1 = ctx.isolatedFindings (some 4) ∧
      (ctx.checkUnit .log (some 4) .empty []).2.2.length = 1 := by
  intro ctx
  have ht : ctx.tree.WellFormed := Tree.wellFormed_ofForms (by decide)
  obtain ⟨hfindings, hreports, -⟩ := checkUnit_eq_isolated ctx ht .log (some 4) []
  refine ⟨ht, by decide, hfindings, ?_⟩
  rw [hreports]
  decide

end Context

end RedundantCast
