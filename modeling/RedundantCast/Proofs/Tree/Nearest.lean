import RedundantCast.Proofs.Tree.WellFormed
import RedundantCast.Tree.Enclosing

/-!
# Looking outward in well-formed trees

The way up from a node ends, since every node comes before its parent. So
looking outward finds the first node on the way up that passes the test, and a
returned value is found through any number of parentheses.
-/

namespace RedundantCast

namespace Tree

/-- The second node is the first one on the way up from the first node whose
kind passes the test. -/
inductive Nearest (t : Tree) (p : Kind → Bool) : NodeId → NodeId → Prop where
  | parent {x a : NodeId} :
      t.parent (some x) = some a → (t.kind? (some a)).any p → Nearest t p x a
  | outer {x b a : NodeId} :
      t.parent (some x) = some b → (t.kind? (some b)).any p = false → Nearest t p b a →
      Nearest t p x a

/-- The second node is the first one in some pairs of parentheses, or in none. -/
inductive InParentheses (t : Tree) : NodeId → NodeId → Prop where
  | refl (x : NodeId) : InParentheses t x x
  | step {x a e : NodeId} :
      t.parent (some x) = some a → t.kind? (some a) = some .parenthesizedExpression →
      InParentheses t a e → InParentheses t x e

/-- The node is returned inside the function and by no function further in. -/
structure IsValueOf (t : Tree) (x f : NodeId) : Prop where
  returned : ∃ e r, t.InParentheses x e ∧ t.parent (some e) = some r ∧
    (t.kind? (some r) = some .returnStatement ∨
      t.kind? (some r) = some (.function .arrowFunction))
  nearest : t.Nearest Kind.isFunctionLike x f

variable {t : Tree} {p : Kind → Bool} {x a b : NodeId}

/-! ## Ancestors -/

theorem WellFormed.lt_parent {x a : Nat} (ht : t.WellFormed)
    (h : t.parent (some x) = some a) : x < a :=
  ht.lt_of_mem_children (ht.mem_children_iff.2 h)

theorem WellFormed.parent_lt_size {x a : Nat} (ht : t.WellFormed)
    (h : t.parent (some x) = some a) : a < t.size :=
  lt_size_of_mem_children (ht.mem_children_iff.2 h)

theorem ancestorsWithin_of_parent_eq_none (h : t.parent (some x) = none) (n : Nat) :
    t.ancestorsWithin n (some x) = [] := by
  cases n with
  | zero => rfl
  | succ n => rw [ancestorsWithin, h]

/-- A node has fewer ancestors than there are positions behind it. -/
theorem ancestorsWithin_eq (ht : t.WellFormed) {x m n : Nat} (hm : t.size ≤ x + 1 + m)
    (hn : t.size ≤ x + 1 + n) :
    t.ancestorsWithin m (some x) = t.ancestorsWithin n (some x) := by
  induction m generalizing n x with
  | zero =>
      cases hparent : t.parent (some x) with
      | none => simp only [ancestorsWithin_of_parent_eq_none hparent]
      | some a =>
          have hlt := ht.lt_parent hparent
          have hsize := ht.parent_lt_size hparent
          omega
  | succ m ih =>
      cases hparent : t.parent (some x) with
      | none => simp only [ancestorsWithin_of_parent_eq_none hparent]
      | some a =>
          have hlt := ht.lt_parent hparent
          have hsize := ht.parent_lt_size hparent
          obtain ⟨n, rfl⟩ : ∃ k, n = k + 1 := ⟨n - 1, by omega⟩
          have hrest := ih (x := a) (n := n) (by omega) (by omega)
          simp only [ancestorsWithin, hparent, hrest]

theorem ancestors_eq (ht : t.WellFormed) (x : NodeId) :
    t.ancestors (some x) =
      (t.parent (some x)).elim [] fun a => a :: t.ancestors (some a) := by
  have hdeeper : t.ancestors (some x) = t.ancestorsWithin (t.size + 1) (some x) :=
    ancestorsWithin_eq ht (by omega) (by omega)
  rw [hdeeper, ancestorsWithin]
  cases t.parent (some x) with
  | none => rfl
  | some a => rfl

/-- Looking outward is one step to the parent, repeated. -/
theorem enclosing?_eq (ht : t.WellFormed) (p : Kind → Bool) (x : NodeId) :
    t.enclosing? p (some x) =
      (t.parent (some x)).bind fun a =>
        if (t.kind? (some a)).any p then some a else t.enclosing? p (some a) := by
  rw [enclosing?, ancestors_eq ht]
  cases t.parent (some x) with
  | none => rfl
  | some a =>
      simp only [Option.elim_some, Option.bind_some, List.find?_cons]
      split <;> simp_all [enclosing?]

/-- What holds of a node if it holds of its parent holds of every node. -/
theorem WellFormed.induct_up (ht : t.WellFormed) {P : NodeId → Prop}
    (h : ∀ x, (∀ a, t.parent (some x) = some a → P a) → P x) (x : NodeId) : P x := by
  -- Parents come after their children, so going up takes fewer steps than there are nodes.
  have hmain : ∀ n x, t.size ≤ x + n → P x := by
    intro n
    induction n with
    | zero =>
        intro x hx
        apply h
        intro a ha
        have hlt := ht.lt_parent ha
        have hsize := ht.parent_lt_size ha
        omega
    | succ n ih =>
        intro x hx
        apply h
        intro a ha
        have hlt := ht.lt_parent ha
        exact ih a (by omega)
  exact hmain t.size x (Nat.le_add_left _ _)

theorem enclosing?_eq_some_iff (ht : t.WellFormed) :
    t.enclosing? p (some x) = some a ↔ t.Nearest p x a := by
  constructor
  · induction x using ht.induct_up with
    | h x ih =>
        intro h
        rw [enclosing?_eq ht, Option.bind_eq_some_iff] at h
        obtain ⟨b, hb, h⟩ := h
        split at h
        · next hkind =>
            cases h
            exact .parent hb hkind
        · next hkind => exact .outer hb (Bool.not_eq_true _ ▸ hkind) (ih b hb h)
  · intro h
    induction h with
    | parent hparent hkind => rw [enclosing?_eq ht, hparent, Option.bind_some, if_pos hkind]
    | outer hparent hkind _ ih =>
        rw [enclosing?_eq ht, hparent, Option.bind_some, hkind]
        exact ih

theorem Nearest.unique (ht : t.WellFormed) (ha : t.Nearest p x a) (hb : t.Nearest p x b) :
    a = b := by
  rw [← enclosing?_eq_some_iff ht] at ha hb
  exact Option.some.inj (ha.symm.trans hb)

theorem Nearest.kind (h : t.Nearest p x a) : (t.kind? (some a)).any p := by
  induction h with
  | parent _ hkind => exact hkind
  | outer _ _ _ ih => exact ih

theorem WellFormed.exists_scope (ht : t.WellFormed) (h : t.Nearest Kind.isScope x a) :
    ∃ scope, t.scope? (some a) = some scope := by
  have hkind := h.kind
  rw [kind?, form?, Option.map_map, Option.any_map, Option.any_eq_true] at hkind
  obtain ⟨n, hn, hopens⟩ := hkind
  rw [scope?, hn, Option.bind_some]
  exact Option.isSome_iff_exists.1 ((ht.isSome_scope hn).trans hopens)

/-! ## Returned values -/

theorem isReturnedValue_eq (ht : t.WellFormed) (x : NodeId) :
    t.isReturnedValue (some x) =
      (t.parent (some x)).any fun a =>
        match t.kind? (some a) with
        | some .parenthesizedExpression => t.isReturnedValue (some a)
        | some .returnStatement | some (.function .arrowFunction) => true
        | _ => false := by
  rw [isReturnedValue, ancestors_eq ht]
  cases t.parent (some x) with
  | none => rfl
  | some a => rfl

theorem isReturnedValue_iff (ht : t.WellFormed) :
    t.isReturnedValue (some x) = true ↔
      ∃ e r, t.InParentheses x e ∧ t.parent (some e) = some r ∧
        (t.kind? (some r) = some .returnStatement ∨
          t.kind? (some r) = some (.function .arrowFunction)) := by
  constructor
  · induction x using ht.induct_up with
    | h x ih =>
        intro h
        rw [isReturnedValue_eq ht, Option.any_eq_true] at h
        obtain ⟨a, ha, h⟩ := h
        split at h
        · next hkind =>
            obtain ⟨e, r, he, hr⟩ := ih a ha h
            exact ⟨e, r, .step ha hkind he, hr⟩
        · next hkind => exact ⟨x, a, .refl x, ha, Or.inl hkind⟩
        · next hkind => exact ⟨x, a, .refl x, ha, Or.inr hkind⟩
        · cases h
  · rintro ⟨e, r, he, hr, hkind⟩
    induction he with
    | refl x =>
        rw [isReturnedValue_eq ht, hr, Option.any_some]
        rcases hkind with hkind | hkind <;> rw [hkind]
    | step hparent hparens _ ih =>
        rw [isReturnedValue_eq ht, hparent, Option.any_some, hparens]
        exact ih hr

end Tree

end RedundantCast
