import RedundantCast.Proofs.Check.Isolation

/-!
# Repeated checks

Inference changes no entry that a memory has, and what it answers can be read
from the memory afterwards. So a check that is run again, whatever was
remembered before it and whatever the depth limit, finds the same and leaves the
memory as it is.
-/

namespace RedundantCast

namespace Context

variable {ctx : Context} {m : Memory} {ref : NodeRef} {answer : Inference} {id : NodeId}
  {f : Option Finding}

/-! ## Entries are kept -/

theorem find?_inferEach_of_kept {g : NodeRef → Memory → Inference × Memory} {refs : List NodeRef}
    (hg : ∀ ref' ∈ refs, ∀ m, m.types.find? ref = some answer →
      (g ref' m).2.types.find? ref = some answer)
    (hm : m.types.find? ref = some answer) :
    (inferEach g refs m).2.types.find? ref = some answer := by
  induction refs generalizing m with
  | nil => exact hm
  | cons ref' refs ih =>
      rw [inferEach_cons]
      exact ih (fun ref'' h => hg ref'' (List.mem_cons_of_mem ref' h))
        (hg ref' List.mem_cons_self m hm)

theorem find?_inferWithin_of_eq_some {depth : Nat} (ref' : NodeRef)
    (hm : m.types.find? ref = some answer) :
    (ctx.inferWithin depth ref' m).2.types.find? ref = some answer := by
  induction depth generalizing ref' m with
  | zero => exact hm
  | succ depth ih =>
      cases hfind : m.types.find? ref' with
      | some answer' =>
          rw [inferWithin_of_find? hfind]
          exact hm
      | none =>
          -- The one new entry is of a node that had none, and `ref` has one.
          have hne : ref ≠ ref' := by
            rintro rfl
            rw [hm] at hfind
            cases hfind
          rw [inferWithin_succ_of_find?_eq_none hfind]
          simp only [Memo.find?_insert_of_ne _ hne, types_recallScan]
          exact find?_inferEach_of_kept (fun operand _ m hm => ih operand hm) hm

theorem find?_inferWithin_self (ctx : Context) (depth : Nat) (ref : NodeRef) (m : Memory) :
    (ctx.inferWithin (depth + 1) ref m).2.types.find? ref =
      some (ctx.inferWithin (depth + 1) ref m).1 := by
  cases hfind : m.types.find? ref with
  | some answer => rw [inferWithin_of_find? hfind, hfind]
  | none => rw [inferWithin_succ_of_find?_eq_none hfind, Memo.find?_insert_self]

/-! ## Answers are settled -/

/-- The memory has settled what is known of the node: inference answers without
changing it. At depth zero a node that is not remembered is settled too. -/
def Settled (ctx : Context) (ref : NodeRef) (answer : Inference) (m : Memory) : Prop :=
  ctx.infer ref m = (answer, m)

theorem settled_infer (ctx : Context) (ref : NodeRef) (m : Memory) :
    ctx.Settled ref (ctx.infer ref m).1 (ctx.infer ref m).2 := by
  unfold Settled infer
  cases ctx.options.depthLimit with
  | zero => rfl
  | succ depth => exact inferWithin_of_find? (ctx.find?_inferWithin_self depth ref m)

theorem Settled.infer (h : ctx.Settled ref answer m) (ref' : NodeRef) :
    ctx.Settled ref answer (ctx.infer ref' m).2 := by
  unfold Settled Context.infer at *
  cases hlimit : ctx.options.depthLimit with
  | zero =>
      rw [hlimit] at h
      exact h
  | succ depth =>
      rw [hlimit] at h
      have hfind := ctx.find?_inferWithin_self depth ref m
      rw [h] at hfind
      exact inferWithin_of_find? (find?_inferWithin_of_eq_some ref' hfind)

/-! ## Checks are repeated -/

/-- The memory has settled the analysis of the node. -/
def Repeats (ctx : Context) (id : NodeId) (f : Option Finding) (m : Memory) : Prop :=
  ctx.analyze (some id) m = (f, m)

theorem repeats_iff :
    ctx.Repeats id f m ↔
      match ctx.question? (some id) with
      | none => f = none
      | some q => ∃ answer, ctx.Settled q.operand answer m ∧ q.answer answer = f := by
  unfold Repeats Settled
  rw [analyze_eq]
  cases ctx.question? (some id) with
  | none => simp [eq_comm]
  | some q => simp [Prod.ext_iff, and_comm]

theorem repeats_analyze (ctx : Context) (id : NodeId) (m : Memory) :
    ctx.Repeats id (ctx.analyze (some id) m).1 (ctx.analyze (some id) m).2 := by
  rw [repeats_iff, analyze_eq]
  cases ctx.question? (some id) with
  | none => rfl
  | some q => exact ⟨_, ctx.settled_infer q.operand m, rfl⟩

theorem Repeats.analyze (h : ctx.Repeats id f m) (id' : NodeId) :
    ctx.Repeats id f (ctx.analyze (some id') m).2 := by
  rw [analyze_eq]
  cases ctx.question? (some id') with
  | none => exact h
  | some q' =>
      rw [repeats_iff] at h ⊢
      cases hq : ctx.question? (some id) with
      | none =>
          rw [hq] at h
          exact h
      | some q =>
          rw [hq] at h
          obtain ⟨answer, hsettled, hf⟩ := h
          exact ⟨answer, hsettled.infer q'.operand, hf⟩

theorem Repeats.analyzeEach (h : ctx.Repeats id f m) (ids : List NodeId) :
    ctx.Repeats id f (ctx.analyzeEach ids m).2 := by
  induction ids generalizing m with
  | nil => exact h
  | cons id' ids ih =>
      rw [analyzeEach_cons]
      exact ih (h.analyze id')

/-- A second run over the same nodes repeats the first. -/
theorem analyzeEach_analyzeEach (ctx : Context) (ids : List NodeId) (m : Memory) :
    ctx.analyzeEach ids (ctx.analyzeEach ids m).2 = ctx.analyzeEach ids m := by
  induction ids generalizing m with
  | nil => rfl
  | cons id ids ih =>
      have hfirst : ctx.Repeats id (ctx.analyze (some id) m).1 (ctx.analyzeEach (id :: ids) m).2 :=
        (ctx.repeats_analyze id m).analyzeEach ids
      have hrest := ih (ctx.analyze (some id) m).2
      rw [analyzeEach_cons _ _ _ (ctx.analyzeEach (id :: ids) m).2, hfirst, analyzeEach_cons]
      dsimp only
      rw [hrest]

/-- A check that is run again, with the memory that the first run left and
whatever the sink holds by then, has the same findings, makes the same reports
in the same order, and leaves the memory as the first run did. -/
theorem checkUnit_checkUnit {σ : Type} (ctx : Context) (sink : Sink σ) (root : NodeRef)
    (m : Memory) (collected collected' : σ) :
    let first := ctx.checkUnit sink root m collected
    let second := ctx.checkUnit sink root first.2.1 collected'
    second.1 = first.1 ∧ second.2.1 = first.2.1 ∧
      first.2.2 = sink.reportAll first.1 collected ∧
      second.2.2 = sink.reportAll first.1 collected' := by
  intro first second
  have hrun : ctx.findings root first.2.1 = ctx.findings root m :=
    ctx.analyzeEach_analyzeEach (ctx.tree.casts root) m
  have hfindings := congrArg Prod.fst hrun
  have hmemory := congrArg Prod.snd hrun
  exact ⟨hfindings, hmemory, rfl, congrArg (sink.reportAll · collected') hfindings⟩

/-- The first run adds the operand of the inner cast to what was cut off before it, and
the second run reports the same finding again. -/
theorem checkUnit_checkUnit_nestedCasts :
    let ctx : Context :=
      ⟨.ofForms nestedCasts, .empty, { Options.default with maxInferenceDepth := 1 }⟩
    let m := (ctx.infer (some 3) .empty).2
    let first := ctx.checkUnit .log (some 4) m []
    let second := ctx.checkUnit .log (some 4) first.2.1 first.2.2
    m.types.find? (some 3) = some .unknown ∧ m.types.find? (some 0) = none ∧
      first.2.1.types.find? (some 0) = some (.certain .int) ∧ first.1.map Finding.cast = [1] ∧
      second.1 = first.1 ∧ second.2.1 = first.2.1 ∧ first.2.2.length = 1 ∧
      second.2.2.length = 2 := by
  intro ctx m first second
  obtain ⟨hfindings, hmemory, -, hreports⟩ :=
    ctx.checkUnit_checkUnit .log (some 4) m [] first.2.2
  refine ⟨rfl, rfl, rfl, by decide, hfindings, hmemory, by decide, ?_⟩
  have hlength := congrArg List.length hreports
  exact hlength.trans (by decide)

end Context

end RedundantCast
