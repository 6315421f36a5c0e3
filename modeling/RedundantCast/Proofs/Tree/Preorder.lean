import Mathlib.Data.List.Nodup
import Mathlib.Logic.Relation
import RedundantCast.Proofs.Tree.WellFormed
import RedundantCast.Tree.Walk

/-!
# Descent in well-formed trees

The nodes above a node form a chain, so the subtrees of siblings are disjoint
and a walk lists every node once.
-/

namespace RedundantCast

namespace Tree

/-- The first node is the second one or lies below it. -/
def Under (t : Tree) : NodeId → NodeId → Prop :=
  Relation.ReflTransGen fun c p => t.parent (some c) = some p

variable {t : Tree} {x a b c d p : NodeId}

namespace Under

theorem refl (a : NodeId) : t.Under a a := Relation.ReflTransGen.refl

theorem trans (hab : t.Under a b) (hbc : t.Under b c) : t.Under a c :=
  Relation.ReflTransGen.trans hab hbc

theorem of_parent (hc : t.parent (some c) = some p) : t.Under c p :=
  Relation.ReflTransGen.single hc

theorem eq_or_parent (h : t.Under x a) :
    x = a ∨ ∃ p, t.parent (some x) = some p ∧ t.Under p a :=
  Relation.ReflTransGen.cases_head h

theorem total (ha : t.Under x a) (hb : t.Under x b) : t.Under a b ∨ t.Under b a := by
  apply Relation.ReflTransGen.total_of_right_unique _ ha hb
  intro x y z hy hz
  exact Option.some.inj (hy.symm.trans hz)

theorem le (h : t.Under x a) (ht : t.WellFormed) : x ≤ a := by
  induction h with
  | refl => exact Nat.le_refl x
  | tail _ hparent ih =>
      have hlt := ht.lt_of_mem_children (ht.mem_children_iff.2 hparent)
      exact Nat.le_trans ih (Nat.le_of_lt hlt)

theorem antisymm (hab : t.Under a b) (hba : t.Under b a) (ht : t.WellFormed) : a = b :=
  Nat.le_antisymm (hab.le ht) (hba.le ht)

end Under

/-- The subtrees of two children of a node have no node in common. -/
theorem not_under_of_siblings (ht : t.WellFormed) (hc : t.parent (some c) = some p)
    (hd : t.parent (some d) = some p) (hne : c ≠ d) (hx : t.Under x c) : ¬ t.Under x d := by
  intro hxd
  have hkey : ∀ {c d : NodeId}, t.parent (some c) = some p → t.parent (some d) = some p →
      c ≠ d → ¬ t.Under c d := by
    intro c d hc hd hne hcd
    rcases hcd.eq_or_parent with heq | ⟨q, hq, hqd⟩
    · exact hne heq
    · obtain rfl : p = q := Option.some.inj (hc.symm.trans hq)
      have hlt := ht.lt_of_mem_children (ht.mem_children_iff.2 hd)
      exact absurd (hqd.le ht) (Nat.not_le.2 hlt)
  rcases hx.total hxd with hcd | hdc
  · exact hkey hc hd hne hcd
  · exact hkey hd hc hne.symm hdc

/-! ## Walks -/

theorem under_of_mem_preorderWithin (ht : t.WellFormed) {depth : Nat}
    (hx : x ∈ t.preorderWithin depth a) : t.Under x a := by
  induction depth generalizing a with
  | zero =>
      rw [preorderWithin_zero, List.mem_singleton] at hx
      exact hx ▸ Under.refl x
  | succ depth ih =>
      rw [preorderWithin_succ, List.mem_cons, List.mem_flatMap] at hx
      rcases hx with rfl | ⟨c, hc, hxc⟩
      · exact Under.refl x
      · exact (ih hxc).trans (Under.of_parent (ht.mem_children_iff.1 hc))

/-- Below a node there are no more levels than positions before it. -/
theorem preorderWithin_eq (ht : t.WellFormed) {x m n : Nat} (hm : x ≤ m) (hn : x ≤ n) :
    t.preorderWithin m x = t.preorderWithin n x := by
  have hleaf : t.children (some 0) = [] := List.eq_nil_iff_forall_not_mem.2 fun c hc =>
    absurd (ht.lt_of_mem_children hc) (Nat.not_lt_zero c)
  induction m generalizing n x with
  | zero =>
      obtain rfl := Nat.le_zero.1 hm
      cases n with
      | zero => rfl
      | succ n => rw [preorderWithin_zero, preorderWithin_succ, hleaf, List.flatMap_nil]
  | succ m ih =>
      cases n with
      | zero =>
          obtain rfl := Nat.le_zero.1 hn
          rw [preorderWithin_zero, preorderWithin_succ, hleaf, List.flatMap_nil]
      | succ n =>
          have hbelow : (t.children (some x)).flatMap (t.preorderWithin m) =
              (t.children (some x)).flatMap (t.preorderWithin n) := by
            apply List.flatMap_congr
            intro c hc
            have hlt := ht.lt_of_mem_children hc
            exact ih (Nat.le_of_lt_succ (Nat.lt_of_lt_of_le hlt hm))
              (Nat.le_of_lt_succ (Nat.lt_of_lt_of_le hlt hn))
          rw [preorderWithin_succ, preorderWithin_succ, hbelow]

/-- A node is followed by the walks from its children. -/
theorem preorder_eq (ht : t.WellFormed) (ha : a < t.size) :
    t.preorder (some a) =
      a :: (t.children (some a)).flatMap fun c => t.preorder (some c) := by
  have hwithin : ∀ {x : NodeId}, x < t.size → t.preorder (some x) = t.preorderWithin x x := by
    intro x hx
    rw [preorder, if_pos hx]
    exact preorderWithin_eq ht (Nat.le_of_lt hx) (Nat.le_refl x)
  rw [hwithin ha, preorderWithin_eq ht (Nat.le_refl a) (Nat.le_succ a), preorderWithin_succ]
  congr 1
  apply List.flatMap_congr
  intro c hc
  have hlt := ht.lt_of_mem_children hc
  rw [hwithin (Nat.lt_trans hlt ha)]
  exact preorderWithin_eq ht (Nat.le_of_lt hlt) (Nat.le_refl c)

/-- A walk lists the node and all that lies below it. -/
theorem mem_preorder_iff (ht : t.WellFormed) (ha : a < t.size) :
    x ∈ t.preorder (some a) ↔ t.Under x a := by
  constructor
  · intro hx
    rw [preorder, if_pos ha] at hx
    exact under_of_mem_preorderWithin ht hx
  · intro hx
    induction hx with
    | refl =>
        rw [preorder_eq ht ha]
        exact List.mem_cons_self
    | @tail b a _ hparent ih =>
        have hb : b ∈ t.children (some a) := ht.mem_children_iff.2 hparent
        rw [preorder_eq ht ha]
        apply List.mem_cons_of_mem
        exact List.mem_flatMap.2 ⟨b, hb, ih (Nat.lt_trans (ht.lt_of_mem_children hb) ha)⟩

theorem nodup_preorderWithin (ht : t.WellFormed) (depth : Nat) (a : NodeId) :
    (t.preorderWithin depth a).Nodup := by
  induction depth generalizing a with
  | zero => simp
  | succ depth ih =>
      rw [preorderWithin_succ, List.nodup_cons, List.nodup_flatMap]
      refine ⟨?_, fun c _ => ih c, ?_⟩
      · intro ha
        obtain ⟨c, hc, hac⟩ := List.mem_flatMap.1 ha
        have hle := (under_of_mem_preorderWithin ht hac).le ht
        exact absurd hle (Nat.not_le.2 (ht.lt_of_mem_children hc))
      · apply (ht.nodup_children (p := a)).imp_of_mem
        intro c d hc hd hne x hxc hxd
        exact not_under_of_siblings ht (ht.mem_children_iff.1 hc) (ht.mem_children_iff.1 hd) hne
          (under_of_mem_preorderWithin ht hxc) (under_of_mem_preorderWithin ht hxd)

theorem nodup_preorder (ht : t.WellFormed) (root : NodeRef) : (t.preorder root).Nodup := by
  cases root with
  | none => exact List.nodup_nil
  | some id =>
      rw [preorder]
      split
      · exact nodup_preorderWithin ht _ id
      · exact List.nodup_nil

theorem nodup_casts (ht : t.WellFormed) (root : NodeRef) : (t.casts root).Nodup := by
  rw [casts_eq]
  exact (nodup_preorder ht root).filter _

end Tree

end RedundantCast
