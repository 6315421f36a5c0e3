import Mathlib.Computability.StateTransition
import RedundantCast.Proofs.Tree.Preorder
import RedundantCast.Proofs.Tree.Writes
import RedundantCast.Tree.WriteScan

/-!
# What a write scan finds

The loop of a scan ends in every well-formed tree, since what it puts on the
stack for a node lies below the node. It finds a write exactly if some node below
the function writes to the variable, and every function-like node on the way to
it is a closure that captures the variable.
-/

namespace RedundantCast

open StateTransition

namespace Tree

variable {t : Tree} {name : String} {x f d g : NodeId} {p q : Prop} {s s' s'' : WriteScan}

/-! ## Steps -/

/-- A scan that has found nothing yet, with these nodes on the stack, the first
one on top. -/
def WriteScan.on (stack : List NodeId) : WriteScan :=
  ⟨stack.reverse.toArray, false⟩

theorem scan?_on_cons {form : Form} (hform : t.form? (some x) = some form)
    (hshares : form.sharesVariable name = true) (hwrites : t.formWrites name form = false)
    (stack : List NodeId) :
    t.scan? name (WriteScan.on (x :: stack)) =
      some (WriteScan.on ((t.children (some x)).reverse ++ stack)) := by
  simp [scan?, WriteScan.on, hform, hshares, hwrites]

theorem scan?_on_cons_of_writes {form : Form} (hform : t.form? (some x) = some form)
    (hshares : form.sharesVariable name = true) (hwrites : t.formWrites name form = true)
    (stack : List NodeId) :
    t.scan? name (WriteScan.on (x :: stack)) = some ⟨stack.reverse.toArray, true⟩ := by
  simp [scan?, WriteScan.on, hform, hshares, hwrites]

theorem scan?_on_cons_of_not_mayShare (h : ¬ t.MayShare name x) (stack : List NodeId) :
    t.scan? name (WriteScan.on (x :: stack)) = some (WriteScan.on stack) := by
  cases hform : t.form? (some x) with
  | none => simp [scan?, WriteScan.on, hform]
  | some form =>
      have hshares : form.sharesVariable name = false :=
        Bool.eq_false_iff.2 fun hshares => h ⟨form, hform, hshares⟩
      simp [scan?, WriteScan.on, hform, hshares]

/-! ## The run -/

/-- From the first state the scan comes to a write if the statement holds, and to
the second state if it does not. -/
structure Decides (t : Tree) (name : String) (p : Prop) (s s' : WriteScan) : Prop where
  found : p → ∃ rest, Reaches (t.scan? name) s ⟨rest, true⟩
  passed : ¬ p → Reaches (t.scan? name) s s'

namespace Decides

theorem head (hstep : t.scan? name s = some s') (h : t.Decides name p s' s'') :
    t.Decides name p s s'' where
  found hp := (h.found hp).imp fun _ hrest => .head hstep hrest
  passed hp := .head hstep (h.passed hp)

theorem or (hp : t.Decides name p s s') (hq : t.Decides name q s' s'') :
    t.Decides name (p ∨ q) s s'' := by
  by_cases h : p
  · exact ⟨fun _ => hp.found h, fun hnot => (hnot (Or.inl h)).elim⟩
  · have hreaches := hp.passed h
    constructor
    · intro hpq
      exact (hq.found (hpq.resolve_left h)).imp fun _ hrest => hreaches.trans hrest
    · intro hnot
      exact hreaches.trans (hq.passed fun h => hnot (Or.inr h))

theorem congr (hpq : p ↔ q) (h : t.Decides name p s s') : t.Decides name q s s' :=
  ⟨fun hq => h.found (hpq.2 hq), fun hq => h.passed fun hp => hq (hpq.1 hp)⟩

end Decides

theorem decides_each (cs : List NodeId)
    (hcs : ∀ c ∈ cs, ∀ stack, t.Decides name (t.HoldsWrite name c)
      (WriteScan.on (c :: stack)) (WriteScan.on stack)) (stack : List NodeId) :
    t.Decides name (∃ c ∈ cs, t.HoldsWrite name c) (WriteScan.on (cs ++ stack))
      (WriteScan.on stack) := by
  induction cs with
  | nil => exact ⟨by simp, fun _ => .refl⟩
  | cons c cs ih =>
      obtain ⟨hc, hcs⟩ := List.forall_mem_cons.1 hcs
      exact ((hc (cs ++ stack)).or (ih hcs)).congr (by simp)

/-- Whatever lies below it on the stack, the scan of a node ends. -/
theorem decides_holdsWrite (ht : t.WellFormed) (x : Nat) (stack : List NodeId) :
    t.Decides name (t.HoldsWrite name x) (WriteScan.on (x :: stack)) (WriteScan.on stack) := by
  -- Children come before their parent, so the scans of them are known.
  induction x using Nat.strong_induction_on generalizing stack with
  | h x ih =>
      by_cases hshares : t.MayShare name x
      · obtain ⟨form, hform, hshares⟩ := hshares
        have hholds : t.HoldsWrite name x ↔ _ := holdsWrite_iff ht hform
        cases hwrites : t.formWrites name form with
        | true =>
            have hstep := scan?_on_cons_of_writes hform hshares hwrites stack
            constructor
            · intro _
              exact ⟨_, .single hstep⟩
            · intro hnot
              exact (hnot (hholds.2 ⟨hshares, Or.inl hwrites⟩)).elim
        | false =>
            refine .head (scan?_on_cons hform hshares hwrites stack) ?_
            refine (decides_each _ (fun c hc stack => ?_) stack).congr ?_
            · exact ih c (ht.lt_of_mem_children (List.mem_reverse.1 hc)) stack
            · simp [hholds, hshares, hwrites]
      · constructor
        · intro hholds
          exact (hshares hholds.1).elim
        · intro _
          exact .single (scan?_on_cons_of_not_mayShare hshares stack)

/-- The loop ends with the answer of `Tree.writes`. -/
theorem writeScan_ends (ht : t.WellFormed) (f : NodeId) (name : String) :
    ∃ s ∈ eval (t.scan? name) (t.writeScanFrom (some f)), s.found = t.writes (some f) name := by
  have hstart : t.writeScanFrom (some f) = WriteScan.on (t.children (some f)).reverse := by
    simp [writeScanFrom, WriteScan.on]
  have hrun : t.Decides name (t.writes (some f) name = true) (t.writeScanFrom (some f))
      (WriteScan.on []) := by
    rw [hstart, ← List.append_nil (List.reverse _)]
    refine (decides_each _ (fun c _ => decides_holdsWrite ht c) []).congr ?_
    simp [writes_iff_holdsWrite ht]
  cases hwrites : t.writes (some f) name with
  | true =>
      obtain ⟨rest, hreaches⟩ := hrun.found hwrites
      exact ⟨⟨rest, true⟩, mem_eval.2 ⟨hreaches, rfl⟩, rfl⟩
  | false =>
      have hreaches := hrun.passed (by simp [hwrites])
      exact ⟨WriteScan.on [], mem_eval.2 ⟨hreaches, rfl⟩, rfl⟩

/-! ## Ways down -/

/-- The node lies below the function and writes to the variable, and each
function-like node on the way to it, itself among them, is a closure that
captures the variable. -/
structure SeesWrite (t : Tree) (name : String) (f d : NodeId) : Prop where
  below : f ∈ t.ancestors (some d)
  captured : ∀ g parts, t.Under d g → f ∈ t.ancestors (some g) →
    t.form? (some g) = some (.function parts) → parts.kind = .closure ∧ name ∈ parts.captures
  writes : t.WritesTo name d

theorem mem_ancestors_iff (ht : t.WellFormed) :
    f ∈ t.ancestors (some d) ↔
      ∃ p, t.parent (some d) = some p ∧ (p = f ∨ f ∈ t.ancestors (some p)) := by
  rw [ancestors_eq ht]
  cases t.parent (some d) with
  | none => simp
  | some p => simp [eq_comm]

theorem lt_of_mem_ancestors (ht : t.WellFormed) {d f : Nat} (h : f ∈ t.ancestors (some d)) :
    d < f := by
  induction d using ht.induct_up with
  | h d ih =>
      obtain ⟨p, hp, rfl | hf⟩ := (mem_ancestors_iff ht).1 h
      · exact ht.lt_parent hp
      · exact Nat.lt_trans (ht.lt_parent hp) (ih p hp hf)

theorem mayShare_iff (hg : f ∈ t.ancestors (some g)) (ht : t.WellFormed) :
    t.MayShare name g ↔ ∀ parts, t.form? (some g) = some (.function parts) →
      parts.kind = .closure ∧ name ∈ parts.captures := by
  have hform : ∃ form, t.form? (some g) = some form := by
    obtain ⟨p, hp, -⟩ := (mem_ancestors_iff ht).1 hg
    obtain ⟨n, hn, -⟩ := Option.bind_eq_some_iff.1 hp
    exact ⟨n.form, by rw [form?, hn, Option.map_some]⟩
  obtain ⟨form, hform⟩ := hform
  cases form <;> simp [MayShare, hform, Form.sharesVariable]

/-- Going down step by step is passing only nodes that may share the variable. -/
theorem transGen_stepsTo_iff (ht : t.WellFormed) :
    Relation.TransGen (t.StepsTo name) f d ↔ f ∈ t.ancestors (some d) ∧
      ∀ g, t.Under d g → f ∈ t.ancestors (some g) → t.MayShare name g := by
  constructor
  · intro h
    induction h with
    | @single d hstep =>
        refine ⟨(mem_ancestors_iff ht).2 ⟨f, hstep.1, Or.inl rfl⟩, fun g hg hf => ?_⟩
        rcases hg.eq_or_parent with rfl | ⟨p, hp, hpg⟩
        · exact hstep.2
        · obtain rfl := Option.some.inj (hp.symm.trans hstep.1)
          exact absurd (lt_of_mem_ancestors ht hf) (Nat.not_lt.2 (hpg.le ht))
    | @tail b d _ hstep ih =>
        refine ⟨(mem_ancestors_iff ht).2 ⟨b, hstep.1, Or.inr ih.1⟩, fun g hg hf => ?_⟩
        rcases hg.eq_or_parent with rfl | ⟨p, hp, hpg⟩
        · exact hstep.2
        · obtain rfl := Option.some.inj (hp.symm.trans hstep.1)
          exact ih.2 g hpg hf
  · rintro ⟨hbelow, hshares⟩
    induction d using ht.induct_up with
    | h d ih =>
        have hd := hshares d (Under.refl d) hbelow
        obtain ⟨p, hp, rfl | hf⟩ := (mem_ancestors_iff ht).1 hbelow
        · exact .single ⟨hp, hd⟩
        · have hrest := ih p hp hf fun g hg => hshares g ((Under.of_parent hp).trans hg)
          exact hrest.tail ⟨hp, hd⟩

theorem writes_iff_seesWrite (ht : t.WellFormed) :
    t.writes (some f) name = true ↔ ∃ d, t.SeesWrite name f d := by
  rw [writes_iff ht]
  apply exists_congr
  intro d
  rw [transGen_stepsTo_iff ht]
  constructor
  · rintro ⟨⟨hbelow, hshares⟩, hwrites⟩
    exact ⟨hbelow, fun g parts hg hf => (mayShare_iff hf ht).1 (hshares g hg hf) parts, hwrites⟩
  · rintro ⟨hbelow, hcaptured, hwrites⟩
    exact ⟨⟨hbelow, fun g hg hf => (mayShare_iff hf ht).2 fun parts => hcaptured g parts hg hf⟩,
      hwrites⟩

end Tree

end RedundantCast
