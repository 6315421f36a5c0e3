import Mathlib.Order.WellFoundedSet
import RedundantCast.Proofs.Ty.Subtype

/-!
# Equivalent types

Two types are equivalent if each is a subtype of the other. A member below another
member of its union adds nothing to it, so equivalent types need not be equal, also
where no class is above itself. They agree on their topmost members, and they are
equal if neither has a member below another one.
-/

namespace RedundantCast

namespace Hierarchy

variable {h : Hierarchy} {x x' y y' : ClassName}

/-- Steps from a class to one above it go from the first class to the second. -/
def Leads (h : Hierarchy) : ClassName → ClassName → Prop :=
  Relation.TransGen fun x y => (h x).contains y = true

/-- No class is above itself. -/
def IsAcyclic (h : Hierarchy) : Prop :=
  ∀ x y, h.Leads x y → (x == y) = false

theorem Leads.congr (hh : h.RespectsKeys) (hx : (x == x') = true) (hy : (y == y') = true)
    (hxy : h.Leads x y) : h.Leads x' y' := by
  have hleft : ∀ z, h.Leads x z → h.Leads x' z := by
    intro z hz
    obtain ⟨w, hxw, hwz⟩ := Relation.TransGen.head'_iff.1 hz
    exact Relation.TransGen.head'_iff.2 ⟨w, (hh x x' w w hx BEq.rfl).symm.trans hxw, hwz⟩
  obtain ⟨w, hxw, hwy⟩ := Relation.TransGen.tail'_iff.1 (hleft y hxy)
  exact Relation.TransGen.tail'_iff.2 ⟨w, hxw, (hh w w y y' BEq.rfl hy).symm.trans hwy⟩

theorem Leads.contains (htrans : h.TransitiveUpToEquality) (hacyclic : h.IsAcyclic)
    (hxy : h.Leads x y) : (h x).contains y = true := by
  induction hxy with
  | single hstep => exact hstep
  | @tail y z hxy hyz ih =>
      rcases htrans x y z ih hyz with hequal | hxz
      · rw [hacyclic x z (hxy.tail hyz)] at hequal
        cases hequal
      · exact hxz

end Hierarchy

namespace Ty

variable {h : Hierarchy} {a b m m' n n' p : Ty}

/-- Both types are objects, and the class of the first leads to that of the second. -/
def StrictlyBelow (h : Hierarchy) (m n : Ty) : Prop :=
  ∃ x y, m = .object x ∧ n = .object y ∧ h.Leads x y

/-- The second type is a member of the first that no member of it is above. -/
def IsTop (h : Hierarchy) (t m : Ty) : Prop :=
  t.hasMember m = true ∧ ∀ n, t.hasMember n = true → ¬ StrictlyBelow h m n

/-- No class of an object among the members is a subclass of another one. -/
def IsReduced (h : Hierarchy) (t : Ty) : Prop :=
  ∀ x y, .object x ∈ t.members → .object y ∈ t.members → (h x).contains y = false

/-! ## The order of members -/

theorem hasMember_of_mem (hm : m ∈ a.members) : a.hasMember m = true :=
  List.contains_iff_exists_mem_beq.2 ⟨m, hm, BEq.rfl⟩

theorem hasMember_congr (hmn : (m == n) = true) : a.hasMember m = a.hasMember n := by
  rw [hasMember, hasMember, Bool.eq_iff_iff, ← code_mem_map_iff, ← code_mem_map_iff,
    beq_iff_code_eq.1 hmn]

theorem StrictlyBelow.congr (hh : h.RespectsKeys) (hm : (m == m') = true) (hn : (n == n') = true)
    (hmn : StrictlyBelow h m n) : StrictlyBelow h m' n' := by
  obtain ⟨x, y, rfl, rfl, hxy⟩ := hmn
  cases m' with
  | object x' =>
      cases n' with
      | object y' => exact ⟨x', y', rfl, rfl, hxy.congr hh hm hn⟩
      | _ => cases rank_eq_of_beq hn
  | _ => cases rank_eq_of_beq hm

theorem StrictlyBelow.trans (hmn : StrictlyBelow h m n) (hnp : StrictlyBelow h n p) :
    StrictlyBelow h m p := by
  obtain ⟨x, y, rfl, rfl, hxy⟩ := hmn
  obtain ⟨_, z, hy, rfl, hyz⟩ := hnp
  cases hy
  exact ⟨x, z, rfl, rfl, Relation.TransGen.trans hxy hyz⟩

theorem StrictlyBelow.beq_eq_false (hacyclic : h.IsAcyclic) (hmn : StrictlyBelow h m n) :
    (m == n) = false := by
  obtain ⟨x, y, rfl, rfl, hxy⟩ := hmn
  exact hacyclic x y hxy

theorem Below.beq_or_strictlyBelow (hmn : Below h m n) :
    (m == n) = true ∨ StrictlyBelow h m n := by
  rcases hmn with hequal | ⟨x, y, rfl, rfl, hxy⟩
  · exact Or.inl hequal
  · exact Or.inr ⟨x, y, rfl, rfl, .single hxy⟩

theorem StrictlyBelow.trans_below (hh : h.RespectsKeys) (hmn : StrictlyBelow h m n)
    (hnp : Below h n p) : StrictlyBelow h m p := by
  rcases hnp.beq_or_strictlyBelow with hequal | hbelow
  · exact hmn.congr hh BEq.rfl hequal
  · exact hmn.trans hbelow

/-- What holds of a member as soon as it holds of those above it holds of all. -/
theorem induction_from_top (hacyclic : h.IsAcyclic) {ms : List Ty} {P : Ty → Prop}
    (hstep : ∀ m ∈ ms, (∀ n ∈ ms, StrictlyBelow h m n → P n) → P m) (hm : m ∈ ms) : P m := by
  have : IsStrictOrder Ty fun m n => StrictlyBelow h n m :=
    { irrefl := fun m hmm => by
        have hne := hmm.beq_eq_false hacyclic
        rw [BEq.rfl] at hne
        cases hne
      trans := fun _ _ _ hmn hnp => hnp.trans hmn }
  exact (List.finite_toSet ms).wellFoundedOn.induction hm hstep

/-- Every member is a topmost one or below one. -/
theorem exists_isTop (hh : h.RespectsKeys) (hacyclic : h.IsAcyclic) (hm : m ∈ a.members) :
    ∃ n, IsTop h a n ∧ ((m == n) = true ∨ StrictlyBelow h m n) := by
  refine induction_from_top hacyclic
    (P := fun m => ∃ n, IsTop h a n ∧ ((m == n) = true ∨ StrictlyBelow h m n)) ?_ hm
  intro m hm ih
  by_cases habove : ∃ n ∈ a.members, StrictlyBelow h m n
  · obtain ⟨n, hn, hmn⟩ := habove
    obtain ⟨p, hp, hnp⟩ := ih n hn hmn
    refine ⟨p, hp, Or.inr ?_⟩
    rcases hnp with hequal | hnp
    · exact hmn.congr hh BEq.rfl hequal
    · exact hmn.trans hnp
  · refine ⟨m, ⟨hasMember_of_mem hm, fun n hn hmn => habove ?_⟩, Or.inl BEq.rfl⟩
    obtain ⟨n', hn', hequal⟩ := List.contains_iff_exists_mem_beq.1 hn
    exact ⟨n', hn', hmn.congr hh BEq.rfl hequal⟩

/-! ## Equivalence -/

theorem eq_mixed_of_membersBelow (hb : b.isNormalized) (hab : MembersBelow h .mixed b) :
    b = .mixed := by
  obtain ⟨n, hn, hbeq | ⟨_, _, hmixed, -⟩⟩ := hab .mixed List.mem_cons_self
  · rw [← hasMember_mixed_iff hb, hasMember_congr hbeq]
    exact hasMember_of_mem hn
  · cases hmixed

/-- Types are equivalent if each member of one is below a member of the other. -/
theorem areEquivalent_iff (ha : a.isNormalized) (hb : b.isNormalized) :
    areEquivalent h a b = true ↔ MembersBelow h a b ∧ MembersBelow h b a := by
  rw [areEquivalent, Bool.and_eq_true, isSubtype_iff ha hb, isSubtype_iff hb ha]
  constructor
  · rintro ⟨rfl | ⟨hane, hab⟩, rfl | ⟨hbne, hba⟩⟩
    · exact ⟨membersBelow_of_beq BEq.rfl, membersBelow_of_beq BEq.rfl⟩
    · exact absurd rfl hbne
    · exact absurd rfl hane
    · exact ⟨hab, hba⟩
  · rintro ⟨hab, hba⟩
    by_cases hmixed : a = .mixed ∨ b = .mixed
    · have hboth : a = .mixed ∧ b = .mixed := by
        rcases hmixed with rfl | rfl
        · exact ⟨rfl, eq_mixed_of_membersBelow hb hab⟩
        · exact ⟨eq_mixed_of_membersBelow ha hba, rfl⟩
      exact ⟨Or.inl hboth.2, Or.inl hboth.1⟩
    · rw [not_or] at hmixed
      exact ⟨Or.inr ⟨hmixed.1, hab⟩, Or.inr ⟨hmixed.2, hba⟩⟩

theorem areEquivalent_of_beq (ha : a.isNormalized) (hb : b.isNormalized)
    (hab : (a == b) = true) : areEquivalent h a b = true :=
  (areEquivalent_iff ha hb).2 ⟨membersBelow_of_beq hab, membersBelow_of_beq (BEq.symm hab)⟩

theorem IsTop.of_membersBelow (hh : h.RespectsKeys) (hab : MembersBelow h a b)
    (hba : MembersBelow h b a) (hm : IsTop h a m) : IsTop h b m := by
  -- What is above the member in `b` would be below a member of `a` again.
  have hnone : ∀ n ∈ b.members, ¬ StrictlyBelow h m n := by
    intro n hn hmn
    obtain ⟨p, hp, hnp⟩ := hba n hn
    exact hm.2 p (hasMember_of_mem hp) (hmn.trans_below hh hnp)
  obtain ⟨n, hn, hmn⟩ := hab.of_hasMember hh hm.1
  have hequal : (m == n) = true := hmn.beq_or_strictlyBelow.resolve_right (hnone n hn)
  refine ⟨?_, fun p hp hmp => ?_⟩
  · rw [hasMember_congr hequal]
    exact hasMember_of_mem hn
  · obtain ⟨p', hp', hpp'⟩ := List.contains_iff_exists_mem_beq.1 hp
    exact hnone p' hp' (hmp.congr hh BEq.rfl hpp')

/-- Over a transitive hierarchy the topmost members decide. -/
theorem membersBelow_of_isTop (hh : h.RespectsKeys) (hacyclic : h.IsAcyclic)
    (htrans : h.TransitiveUpToEquality) (htop : ∀ m, IsTop h a m → IsTop h b m) :
    MembersBelow h a b := by
  intro m hm
  obtain ⟨n, hn, hmn⟩ := exists_isTop hh hacyclic hm
  obtain ⟨n', hn', hnn'⟩ := List.contains_iff_exists_mem_beq.1 (htop n hn).1
  refine ⟨n', hn', Below.congr hh BEq.rfl hnn' ?_⟩
  rcases hmn with hequal | ⟨x, y, rfl, rfl, hxy⟩
  · exact Or.inl hequal
  · exact Or.inr ⟨x, y, rfl, rfl, hxy.contains htrans hacyclic⟩

/-! ## Reduced types -/

/-- A member of a reduced type is shared if those above it are. -/
theorem IsReduced.hasMember (hh : h.RespectsKeys) (hreduced : IsReduced h a)
    (hab : MembersBelow h a b) (hm : m ∈ a.members)
    (habove : ∀ n ∈ b.members, StrictlyBelow h m n → a.hasMember n = true) :
    b.hasMember m = true := by
  obtain ⟨n, hn, hmn⟩ := hab m hm
  rcases hmn with hequal | ⟨x, y, rfl, rfl, hxy⟩
  · rw [hasMember_congr hequal]
    exact hasMember_of_mem hn
  · have hshared := habove (.object y) hn ⟨x, y, rfl, rfl, .single hxy⟩
    obtain ⟨n', hn', hequal⟩ := List.contains_iff_exists_mem_beq.1 hshared
    cases n' with
    | object y' =>
        have hxy' := (hh x x y y' BEq.rfl hequal).symm.trans hxy
        rw [hreduced x y' hm hn'] at hxy'
        cases hxy'
    | _ => cases rank_eq_of_beq hequal

/-- Equivalent types are equal if neither has a member below another one. -/
theorem IsReduced.beq (hh : h.RespectsKeys) (hacyclic : h.IsAcyclic) (ha : a.isNormalized)
    (hb : b.isNormalized) (hareduced : IsReduced h a) (hbreduced : IsReduced h b)
    (hab : MembersBelow h a b) (hba : MembersBelow h b a) : (a == b) = true := by
  -- From the topmost members of both types down, each is a member of the other type.
  have hshared : ∀ m ∈ a.members ++ b.members, a.hasMember m = true ∧ b.hasMember m = true := by
    intro m hm
    refine induction_from_top hacyclic
      (P := fun m => a.hasMember m = true ∧ b.hasMember m = true) ?_ hm
    intro m hm ih
    rcases List.mem_append.1 hm with hma | hmb
    · refine ⟨hasMember_of_mem hma, hareduced.hasMember hh hab hma fun n hn hmn => ?_⟩
      exact (ih n (List.mem_append_right _ hn) hmn).1
    · refine ⟨hbreduced.hasMember hh hba hmb fun n hn hmn => ?_, hasMember_of_mem hmb⟩
      exact (ih n (List.mem_append_left _ hn) hmn).2
  refine beq_of_hasMember_eq ha hb fun m => Bool.eq_iff_iff.2 ⟨fun hm => ?_, fun hm => ?_⟩
  · obtain ⟨n, hn, hmn⟩ := List.contains_iff_exists_mem_beq.1 hm
    rw [hasMember_congr hmn]
    exact (hshared n (List.mem_append_left _ hn)).2
  · obtain ⟨n, hn, hmn⟩ := List.contains_iff_exists_mem_beq.1 hm
    rw [hasMember_congr hmn]
    exact (hshared n (List.mem_append_right _ hn)).1

theorem IsPlain.hasMember (hn : n.IsPlain) (m : Ty) : n.hasMember m = (m == n) := by
  rw [Ty.hasMember, hn.members, List.contains_cons, List.contains_nil, Bool.or_false]

/-- The type without one of its members. -/
def without (t m : Ty) : Ty :=
  unionOf (t.members.filter fun n => !(n == m))

section

variable (ha : a.isNormalized) (hm : m ∈ a.members) (hne : (m == n) = false)
include ha hm hne

theorem isPlain_of_mem_filter (hp : p ∈ a.members.filter fun q => !(q == n))
    (hn : n ∈ a.members) : p.IsPlain := by
  refine isPlain_of_mem_members ha ?_ (List.mem_of_mem_filter hp)
  rintro rfl
  obtain rfl := List.mem_singleton.1 hm
  obtain rfl := List.mem_singleton.1 hn
  rw [BEq.rfl] at hne
  cases hne

theorem isNormalized_without (hn : n ∈ a.members) : (a.without n).isNormalized = true :=
  isNormalized_unionOf fun _ hp => (isPlain_of_mem_filter ha hm hne hp hn).isNormalized

theorem hasMember_without (hn : n ∈ a.members) (p : Ty) :
    (a.without n).hasMember p = true ↔ a.hasMember p = true ∧ (p == n) = false := by
  have hplain : ∀ q ∈ a.members.filter (fun q => !(q == n)), q.IsPlain :=
    fun q hq => isPlain_of_mem_filter ha hm hne hq hn
  have hmem : m ∈ a.members.filter fun q => !(q == n) := List.mem_filter.2 ⟨hm, by rw [hne]; rfl⟩
  have hmixed : .mixed ∉ a.members.filter fun q => !(q == n) :=
    fun hmixed => by cases (hplain .mixed hmixed).2
  rw [without, hasMember_unionOf (fun q hq => (hplain q hq).isNormalized)
    (List.ne_nil_of_mem hmem) hmixed]
  constructor
  · rintro ⟨q, hq, hpq⟩
    obtain ⟨hqa, hqn⟩ := List.mem_filter.1 hq
    rw [(hplain q hq).hasMember] at hpq
    rw [hasMember_congr hpq, BEq.congr_left hpq]
    exact ⟨hasMember_of_mem hqa, by simpa using hqn⟩
  · rintro ⟨hpa, hpn⟩
    obtain ⟨q, hq, hpq⟩ := List.contains_iff_exists_mem_beq.1 hpa
    rw [BEq.congr_left hpq] at hpn
    have hqmem : q ∈ a.members.filter fun q => !(q == n) :=
      List.mem_filter.2 ⟨hq, by rw [hpn]; rfl⟩
    exact ⟨q, hqmem, by rwa [(hplain q hqmem).hasMember]⟩

end

/-- A member below another one can be left out. -/
theorem exists_areEquivalent_of_not_isReduced (hh : h.RespectsKeys) (hacyclic : h.IsAcyclic)
    (ha : a.isNormalized) (hreduced : ¬ IsReduced h a) :
    ∃ b, b.isNormalized = true ∧ areEquivalent h a b = true ∧ (a == b) = false := by
  obtain ⟨x, y, hx, hy, hxy⟩ : ∃ x y, .object x ∈ a.members ∧ .object y ∈ a.members ∧
      (h x).contains y = true := by
    simpa [IsReduced] using hreduced
  have hne : (Ty.object y == .object x) = false := by
    rw [BEq.comm]
    exact hacyclic x y (.single hxy)
  have hb := isNormalized_without ha hy hne hx
  have hmember := hasMember_without ha hy hne hx
  refine ⟨a.without (.object x), hb, (areEquivalent_iff ha hb).2 ⟨fun m hm => ?_, ?_⟩, ?_⟩
  · by_cases hmx : (m == .object x) = true
    · obtain ⟨n, hn, hyn⟩ := List.contains_iff_exists_mem_beq.1
        ((hmember (.object y)).2 ⟨hasMember_of_mem hy, hne⟩)
      exact ⟨n, hn, Below.congr hh (BEq.symm hmx) hyn (Or.inr ⟨x, y, rfl, rfl, hxy⟩)⟩
    · obtain ⟨n, hn, hmn⟩ := List.contains_iff_exists_mem_beq.1
        ((hmember m).2 ⟨hasMember_of_mem hm, Bool.eq_false_iff.2 hmx⟩)
      exact ⟨n, hn, Or.inl hmn⟩
  · exact membersBelow_of_hasMember fun m hm => ((hmember m).1 hm).1
  · by_contra hequal
    have hself := hasMember_eq_of_beq (Bool.not_eq_false _ ▸ hequal) (.object x)
    rw [hasMember_of_mem hx] at hself
    have hxx := ((hmember (.object x)).1 hself.symm).2
    rw [BEq.rfl] at hxx
    cases hxx

end Ty

end RedundantCast
