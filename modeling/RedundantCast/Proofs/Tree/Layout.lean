import Mathlib.Data.List.Chain
import RedundantCast.Proofs.Tree.Preorder

/-!
# Trees laid out over a source

A parser gives nodes spans that nest as the nodes do, with siblings in source
order and cast tokens in front of their operands. A walk over such a tree meets
the cast tokens in the order of the source, none of them inside another.
-/

namespace RedundantCast

namespace Tree

/-- The span of a node; a node that does not exist has no place in the source. -/
def spanAt (t : Tree) (id : NodeId) : Span :=
  (t.span? (some id)).getD .dummy

/-- The token of a cast. -/
def castToken? (t : Tree) (id : NodeId) : Option Span :=
  ((t.form? (some id)).bind Form.cast?).map fun parts => parts.2.1

/-- What the span of a node, those of its children, and its token if it is a
cast must satisfy. -/
structure LaidOutAt (t : Tree) (id : NodeId) : Prop where
  proper : (t.spanAt id).start ≤ (t.spanAt id).stop
  nested : ∀ c ∈ t.children (some id), (t.spanAt id).encloses (t.spanAt c)
  ordered : (t.children (some id)).IsChain fun c d => (t.spanAt c).stop ≤ (t.spanAt d).start
  token_proper : ∀ token ∈ t.castToken? id, token.start ≤ token.stop
  token_first : ∀ token ∈ t.castToken? id, ∀ c ∈ t.children (some id),
    token.stop ≤ (t.spanAt c).start

instance (t : Tree) (id : NodeId) : Decidable (t.LaidOutAt id) :=
  decidable_of_iff
    ((t.spanAt id).start ≤ (t.spanAt id).stop ∧
      (∀ c ∈ t.children (some id), (t.spanAt id).encloses (t.spanAt c)) ∧
      ((t.children (some id)).IsChain fun c d => (t.spanAt c).stop ≤ (t.spanAt d).start) ∧
      (∀ token ∈ t.castToken? id, token.start ≤ token.stop) ∧
      ∀ token ∈ t.castToken? id, ∀ c ∈ t.children (some id), token.stop ≤ (t.spanAt c).start)
    ⟨fun h => ⟨h.1, h.2.1, h.2.2.1, h.2.2.2.1, h.2.2.2.2⟩,
      fun h => ⟨h.proper, h.nested, h.ordered, h.token_proper, h.token_first⟩⟩

def LaidOut (t : Tree) : Prop :=
  ∀ id < t.size, t.LaidOutAt id

instance (t : Tree) : Decidable t.LaidOut :=
  inferInstanceAs (Decidable (∀ id < t.size, t.LaidOutAt id))

variable {t : Tree} {x a c p : NodeId} {token : Span}

/-! ## Spans of single nodes -/

theorem castToken?_eq_some_iff :
    t.castToken? x = some token ↔
      ∃ keyword operand, t.form? (some x) = some (.cast keyword token operand) := by
  have hcast : ∀ {form : Form} {parts}, form.cast? = some parts ↔
      form = .cast parts.1 parts.2.1 parts.2.2 := by
    intro form parts
    cases form <;> simp [Form.cast?, Prod.ext_iff]
  simp only [castToken?, Option.map_eq_some_iff, Option.bind_eq_some_iff, hcast]
  constructor
  · rintro ⟨⟨keyword, _, operand⟩, ⟨form, hform, rfl⟩, rfl⟩
    exact ⟨keyword, operand, hform⟩
  · rintro ⟨keyword, operand, hform⟩
    exact ⟨(keyword, token, operand), ⟨_, hform, rfl⟩, rfl⟩

theorem span?_add (t : Tree) (form : Form) (span : Span) (i : NodeId) :
    (t.add form span).span? (some i) =
      if i = t.size then some (t.spanOf form span) else t.span? (some i) := by
  have hspan : ∀ n : Node,
      (if i ∈ form.children then { n with parent := some t.size } else n).span = n.span := by
    intro n
    split <;> rfl
  rw [span?, node?_add, Option.map_map]
  simp only [Function.comp_def, hspan]
  split
  · rfl
  · rfl

theorem encloses_token_spanOf (t : Tree) (keyword : String) (token : Span) (operand : NodeRef)
    (span : Span) : (t.spanOf (.cast keyword token operand) span).encloses token := by
  rw [spanOf]
  cases t.span? operand with
  | none => exact token.encloses_refl
  | some s => exact token.encloses_cover_left s

/-- The span of a cast covers its token, whatever spans were given. -/
theorem WellFormed.encloses_token (ht : t.WellFormed) (h : t.castToken? x = some token) :
    (t.spanAt x).encloses token := by
  obtain ⟨keyword, operand, hform⟩ := castToken?_eq_some_iff.1 h
  clear h
  induction ht generalizing keyword operand with
  | empty => simp [form?, Tree.empty] at hform
  | @add t form span _ _ ih =>
      rw [form?_add] at hform
      rw [spanAt, span?_add]
      split
      · next hx =>
          rw [if_pos hx] at hform
          cases form with
          | cast keyword' token' operand' =>
              obtain ⟨-, rfl, -⟩ := Form.cast.inj (Option.some.inj hform)
              exact t.encloses_token_spanOf keyword' token' operand' span
          | _ => cases hform
      · next hx =>
          rw [if_neg hx] at hform
          exact ih keyword operand hform

/-! ## Spans along a walk -/

theorem LaidOut.laidOutAt (hl : t.LaidOut) (id : NodeId) : t.LaidOutAt id := by
  by_cases hid : id < t.size
  · exact hl id hid
  · have hnode := t.node?_of_size_le (Nat.le_of_not_lt hid)
    have hform := t.form?_of_size_le (Nat.le_of_not_lt hid)
    refine ⟨?_, ?_, ?_, ?_, ?_⟩ <;>
      simp [spanAt, span?, children, castToken?, hnode, hform, Span.dummy]

namespace LaidOut

theorem encloses_of_under (hl : t.LaidOut) (ht : t.WellFormed) (h : t.Under x a) :
    (t.spanAt a).encloses (t.spanAt x) := by
  induction h with
  | refl => exact Span.encloses_refl _
  | tail _ hparent ih =>
      exact Span.encloses_trans ((hl.laidOutAt _).nested _ (ht.mem_children_iff.2 hparent)) ih

/-- Siblings stand in source order, not only neighbours. -/
theorem pairwise_children (hl : t.LaidOut) (p : NodeId) :
    (t.children (some p)).Pairwise fun c d => (t.spanAt c).stop ≤ (t.spanAt d).start := by
  have hordered := (hl.laidOutAt p).ordered
  generalize t.children (some p) = cs at hordered ⊢
  induction cs with
  | nil => exact .nil
  | cons c cs ih =>
      have hrest := ih hordered.tail
      refine List.pairwise_cons.2 ⟨?_, hrest⟩
      intro d hd
      cases cs with
      | nil => cases hd
      | cons e cs =>
          have hnext : (t.spanAt c).stop ≤ (t.spanAt e).start := (List.isChain_cons_cons.1 hordered).1
          rcases List.mem_cons.1 hd with rfl | hd
          · exact hnext
          · have hproper := (hl.laidOutAt e).proper
            have hlater := (List.pairwise_cons.1 hrest).1 d hd
            omega

/-- A walk meets nothing before the end of a cast token once it has passed the
cast. -/
theorem pairwise_preorderWithin (hl : t.LaidOut) (ht : t.WellFormed) (depth : Nat) (a : NodeId) :
    (t.preorderWithin depth a).Pairwise fun x y =>
      ∀ token ∈ t.castToken? x, token.stop ≤ (t.spanAt y).start := by
  -- A node below a child starts no earlier and stops no later than the child.
  have hinside : ∀ {depth : Nat} {c x : NodeId}, x ∈ t.preorderWithin depth c →
      (t.spanAt c).start ≤ (t.spanAt x).start ∧ (t.spanAt x).stop ≤ (t.spanAt c).stop :=
    fun hx => Span.encloses_iff.1 (hl.encloses_of_under ht (under_of_mem_preorderWithin ht hx))
  induction depth generalizing a with
  | zero => simp
  | succ depth ih =>
      rw [preorderWithin_succ, List.pairwise_cons, List.pairwise_flatMap]
      refine ⟨?_, fun c _ => ih c, ?_⟩
      · intro y hy token htoken
        obtain ⟨c, hc, hyc⟩ := List.mem_flatMap.1 hy
        exact Nat.le_trans ((hl.laidOutAt a).token_first token htoken c hc) (hinside hyc).1
      · apply (hl.pairwise_children a).imp
        intro c d hcd x hx y hy token htoken
        have hcover := Span.encloses_iff.1 (ht.encloses_token htoken)
        have hxc := hinside hx
        have hyd := hinside hy
        omega

/-- The tokens of the casts of a unit stand in the order of the walk and do not
overlap. -/
theorem pairwise_casts (hl : t.LaidOut) (ht : t.WellFormed) (root : NodeRef) :
    (t.casts root).Pairwise fun x y =>
      ∀ token ∈ t.castToken? x, ∀ token' ∈ t.castToken? y, token.stop ≤ token'.start := by
  have hwalk : (t.preorder root).Pairwise fun x y =>
      ∀ token ∈ t.castToken? x, token.stop ≤ (t.spanAt y).start := by
    cases root with
    | none => exact .nil
    | some id =>
        rw [preorder]
        split
        · exact hl.pairwise_preorderWithin ht _ id
        · exact .nil
  rw [casts_eq]
  apply (hwalk.filter _).imp
  intro x y hxy token htoken token' htoken'
  exact Nat.le_trans (hxy token htoken) (Span.encloses_iff.1 (ht.encloses_token htoken')).1

end LaidOut

end Tree

end RedundantCast
