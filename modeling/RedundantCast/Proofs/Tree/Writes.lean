import Mathlib.Logic.Relation
import RedundantCast.Proofs.Tree.Nearest
import RedundantCast.Tree.Writes

/-!
# Where the write scan looks

The scan of a function goes from node to child as long as the child shares the
variable. It finds a write exactly if one of the nodes on these ways writes to
the variable itself. A node outside any nested scope is on such a way.
-/

namespace RedundantCast

namespace Tree

/-- The node assigns to the variable, or has no rule of its own and the variable
as a direct child. -/
inductive WritesTo (t : Tree) (name : String) (x : NodeId) : Prop where
  | assignment {target value : NodeRef} :
      t.form? (some x) = some (.assignment target value) →
      t.form? target = some (.var name) → WritesTo t name x
  | other {items : List NodeRef} {item : NodeRef} :
      t.form? (some x) = some (.other items) → item ∈ items →
      t.form? item = some (.var name) → WritesTo t name x

/-- The node exists and may share the variable with what is around it. -/
def MayShare (t : Tree) (name : String) (x : NodeId) : Prop :=
  ∃ form, t.form? (some x) = some form ∧ form.sharesVariable name = true

/-- A step down to a child that may share the variable. -/
def StepsTo (t : Tree) (name : String) (a x : NodeId) : Prop :=
  t.parent (some x) = some a ∧ t.MayShare name x

variable {t : Tree} {name : String} {x a f s : NodeId}

theorem exists_form_of_parent (ht : t.WellFormed) (h : t.parent (some x) = some a) :
    ∃ form, t.form? (some a) = some form := by
  cases hform : t.form? (some a) with
  | none =>
      have hchild := ht.mem_children_iff.2 h
      simp [children, hform] at hchild
  | some form => exact ⟨form, rfl⟩

theorem isVariable_iff {ref : NodeRef} :
    t.isVariable name ref = true ↔ t.form? ref = some (.var name) := by
  have hvar : ∀ {form : Form}, form.var? = some name ↔ form = .var name := by
    intro form
    cases form <;> simp [Form.var?]
  rw [isVariable, beq_iff_eq, Option.bind_eq_some_iff]
  simp [hvar]

theorem formWrites_iff {form : Form} (hform : t.form? (some x) = some form) :
    t.formWrites name form = true ↔ t.WritesTo name x := by
  constructor
  · intro h
    cases form with
    | assignment target value => exact .assignment hform (isVariable_iff.1 h)
    | other items =>
        obtain ⟨item, hitem, hvar⟩ := List.any_eq_true.1 h
        exact .other hform hitem (isVariable_iff.1 hvar)
    | _ => cases h
  · intro h
    cases h with
    | assignment hform' hvar =>
        cases hform.symm.trans hform'
        exact isVariable_iff.2 hvar
    | other hform' hitem hvar =>
        cases hform.symm.trans hform'
        exact List.any_eq_true.2 ⟨_, hitem, isVariable_iff.2 hvar⟩

theorem mem_children_of_form {form : Form} (hform : t.form? (some a) = some form) {c : NodeId} :
    c ∈ form.children ↔ c ∈ t.children (some a) := by
  rw [children, hform, Option.elim_some]

/-- The node may share the variable, and a node that is reached from it without
leaving the reach of the variable writes to it. -/
def HoldsWrite (t : Tree) (name : String) (x : NodeId) : Prop :=
  t.MayShare name x ∧ ∃ y, Relation.ReflTransGen (t.StepsTo name) x y ∧ t.WritesTo name y

theorem holdsWrite_iff (ht : t.WellFormed) {form : Form} (hform : t.form? (some x) = some form) :
    t.HoldsWrite name x ↔ form.sharesVariable name = true ∧
      (t.formWrites name form = true ∨ ∃ c ∈ t.children (some x), t.HoldsWrite name c) := by
  have hshares : t.MayShare name x ↔ form.sharesVariable name = true := by
    simp [MayShare, hform]
  rw [HoldsWrite, hshares, formWrites_iff hform]
  apply and_congr_right
  intro _
  constructor
  · rintro ⟨y, hy, hwrites⟩
    rcases hy.cases_head with rfl | ⟨c, ⟨hc, hcshares⟩, hy⟩
    · exact Or.inl hwrites
    · exact Or.inr ⟨c, ht.mem_children_iff.2 hc, hcshares, y, hy, hwrites⟩
  · rintro (hwrites | ⟨c, hc, hcshares, y, hy, hwrites⟩)
    · exact ⟨x, .refl, hwrites⟩
    · exact ⟨y, .head ⟨ht.mem_children_iff.1 hc, hcshares⟩ hy, hwrites⟩

/-- The scan of a node that lies deep enough. -/
theorem writesWithin_iff (ht : t.WellFormed) {depth x : Nat} (hdepth : x < depth) :
    t.writesWithin name depth x = true ↔ t.HoldsWrite name x := by
  induction depth generalizing x with
  | zero => exact absurd hdepth (Nat.not_lt_zero x)
  | succ depth ih =>
      rw [writesWithin]
      cases hform : t.form? (some x) with
      | none => simp [HoldsWrite, MayShare, hform]
      | some form =>
          -- A child comes before its parent, so the depth that is left is enough for it.
          have hbelow : ∀ c ∈ t.children (some x), c < depth := fun c hc =>
            Nat.lt_of_lt_of_le (ht.lt_of_mem_children hc) (Nat.le_of_lt_succ hdepth)
          simp only [Bool.and_eq_true, Bool.or_eq_true, List.any_reverse, List.any_eq_true,
            holdsWrite_iff ht hform, mem_children_of_form hform]
          apply and_congr_right
          intro _
          apply or_congr_right
          exact exists_congr fun c => and_congr_right fun hc => ih (hbelow c hc)

theorem writes_iff_holdsWrite (ht : t.WellFormed) :
    t.writes (some f) name = true ↔ ∃ c ∈ t.children (some f), t.HoldsWrite name c := by
  rw [writes, List.any_reverse, List.any_eq_true]
  apply exists_congr
  intro c
  apply and_congr_right
  intro hc
  exact writesWithin_iff ht (Nat.lt_trans (ht.lt_of_mem_children hc) (lt_size_of_mem_children hc))

/-- The body of a function may write to a variable exactly if a node does that
is reached from the function without leaving the reach of the variable. -/
theorem writes_iff (ht : t.WellFormed) :
    t.writes (some f) name = true ↔
      ∃ x, Relation.TransGen (t.StepsTo name) f x ∧ t.WritesTo name x := by
  rw [writes_iff_holdsWrite ht]
  constructor
  · rintro ⟨c, hc, hshares, x, hx, hwrites⟩
    exact ⟨x, .head' ⟨ht.mem_children_iff.1 hc, hshares⟩ hx, hwrites⟩
  · rintro ⟨x, hx, hwrites⟩
    obtain ⟨c, ⟨hparent, hshares⟩, hx⟩ := Relation.TransGen.head'_iff.1 hx
    exact ⟨c, ht.mem_children_iff.2 hparent, hshares, x, hx, hwrites⟩

/-! ## The reach of a variable -/

theorem mayShare_of_not_scope {form : Form} (hform : t.form? (some x) = some form)
    (hscope : form.kind.isScope = false) : t.MayShare name x := by
  refine ⟨form, hform, ?_⟩
  cases form with
  | function parts => cases hscope
  | _ => rfl

theorem WritesTo.mayShare (h : t.WritesTo name x) : t.MayShare name x := by
  cases h with
  | assignment hform _ => exact mayShare_of_not_scope hform rfl
  | other hform _ _ => exact mayShare_of_not_scope hform rfl

/-- Between a scope and a node directly in it there is no other function. -/
theorem Nearest.reaches (ht : t.WellFormed) (h : t.Nearest Kind.isScope x s)
    (hx : t.MayShare name x) : Relation.TransGen (t.StepsTo name) s x := by
  induction h with
  | parent hparent _ => exact .single ⟨hparent, hx⟩
  | @outer x b s hparent hkind _ ih =>
      obtain ⟨form, hform⟩ := exists_form_of_parent ht hparent
      have hscope : form.kind.isScope = false := by simpa [kind?, hform] using hkind
      exact (ih (mayShare_of_not_scope hform hscope)).tail ⟨hparent, hx⟩

end Tree

end RedundantCast
