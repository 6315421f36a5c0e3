import RedundantCast.Proofs.Ty.Union
import RedundantCast.Ty.Subtype

/-!
# Subtyping member by member

One normalized type is a subtype of another if each of its members equals a
member of the other or is an object of a class below one; `mixed` is above all
types and below none but itself. So subtyping is a preorder as soon as the class
hierarchy is transitive, and the union of two types is their least upper bound.
-/

namespace RedundantCast

namespace Hierarchy

/-- The hierarchy sees the keys of class names only. -/
def RespectsKeys (h : Hierarchy) : Prop :=
  ∀ x x' y y' : ClassName, (x == x') = true → (y == y') = true →
    (h x).contains y = (h x').contains y'

/-- Classes above a class above another are above it, or the same class again. -/
def TransitiveUpToEquality (h : Hierarchy) : Prop :=
  ∀ x y z : ClassName, (h x).contains y = true → (h y).contains z = true →
    (x == z) = true ∨ (h x).contains z = true

end Hierarchy

namespace Ty

variable {h : Hierarchy} {a b c m m' n n' p : Ty}

/-- The first type equals the second, or both are objects that the hierarchy
relates. -/
def Below (h : Hierarchy) (m n : Ty) : Prop :=
  (m == n) = true ∨ ∃ x y, m = .object x ∧ n = .object y ∧ (h x).contains y = true

/-- Each member of the first type is below a member of the second. -/
def MembersBelow (h : Hierarchy) (a b : Ty) : Prop :=
  ∀ m ∈ a.members, ∃ n ∈ b.members, Below h m n

/-! ## Members -/

theorem Below.congr (hh : h.RespectsKeys) (hm : (m == m') = true) (hn : (n == n') = true)
    (hmn : Below h m n) : Below h m' n' := by
  rcases hmn with hmn | ⟨x, y, rfl, rfl, hxy⟩
  · exact Or.inl (BEq.trans (BEq.symm hm) (BEq.trans hmn hn))
  · cases m' with
    | object x' =>
        cases n' with
        | object y' => exact Or.inr ⟨x', y', rfl, rfl, (hh x x' y y' hm hn).symm.trans hxy⟩
        | _ => cases rank_eq_of_beq hn
    | _ => cases rank_eq_of_beq hm

theorem Below.trans (hh : h.RespectsKeys) (htrans : h.TransitiveUpToEquality)
    (hmn : Below h m n) (hnp : Below h n p) : Below h m p := by
  rcases hmn with hmn | ⟨x, y, rfl, rfl, hxy⟩
  · exact hnp.congr hh (BEq.symm hmn) BEq.rfl
  · rcases hnp with hyp | ⟨y', z, hy, rfl, hyz⟩
    · exact Below.congr hh BEq.rfl hyp (Or.inr ⟨x, y, rfl, rfl, hxy⟩)
    · cases hy
      rcases htrans x y z hxy hyz with hxz | hxz
      · exact Or.inl hxz
      · exact Or.inr ⟨x, z, rfl, rfl, hxz⟩

theorem below_object_iff {x y : ClassName} :
    Below h (.object x) (.object y) ↔ (x == y) = true ∨ (h x).contains y = true := by
  constructor
  · rintro (hxy | ⟨_, _, hx, hy, hxy⟩)
    · exact Or.inl hxy
    · cases hx
      cases hy
      exact Or.inr hxy
  · exact Or.imp_right fun hxy => ⟨x, y, rfl, rfl, hxy⟩

/-- To fit a plain type is to be below it. -/
theorem fits_iff_below (hn : n.IsPlain) : fits m (m.above h) n = true ↔ Below h m n := by
  cases n with
  | object y =>
      cases m with
      | object x =>
          rw [below_object_iff, ← Bool.or_eq_true]
          rfl
      | _ =>
          refine iff_of_false (by simp [fits]) ?_
          rintro (hbeq | ⟨_, _, hx, -⟩)
          · cases rank_eq_of_beq hbeq
          · cases hx
  | union ns => cases hn.1
  | mixed => cases hn.2
  | _ =>
      refine (or_iff_left ?_).symm
      rintro ⟨_, _, -, hy, -⟩
      cases hy

theorem isSubtype_of_isPlain (hm : m.IsPlain) (b : Ty) :
    isSubtype h m b = fits m (m.above h) b := by
  cases m with
  | union ms => cases hm.1
  | mixed => cases hm.2
  | _ => rfl

/-! ## Types -/

theorem fits_iff (hb : b.isNormalized) (hmixed : b ≠ .mixed) :
    fits m (m.above h) b = true ↔ ∃ n ∈ b.members, Below h m n := by
  have hplain : ∀ n ∈ b.members, n.IsPlain := fun n hn => isPlain_of_mem_members hb hmixed hn
  cases b with
  | union ns =>
      rw [fits, fitsSome_eq_any, List.any_eq_true]
      exact exists_congr fun n => and_congr_right fun hn => fits_iff_below (hplain n hn)
  | mixed => exact absurd rfl hmixed
  | _ => exact (fits_iff_below ⟨rfl, rfl⟩).trans (by simp [members])

theorem isSubtype_mixed (h : Hierarchy) (a : Ty) : isSubtype h a .mixed = true := by
  cases a with
  | union ms => simp [isSubtype, isMixed]
  | _ => rfl

theorem membersBelow_of_hasMember (hab : ∀ m, a.hasMember m = true → b.hasMember m = true) :
    MembersBelow h a b := by
  intro m hm
  have hmember := hab m (List.contains_iff_exists_mem_beq.2 ⟨m, hm, BEq.rfl⟩)
  obtain ⟨n, hn, hmn⟩ := List.contains_iff_exists_mem_beq.1 hmember
  exact ⟨n, hn, Or.inl hmn⟩

theorem membersBelow_of_beq (hab : (a == b) = true) : MembersBelow h a b :=
  membersBelow_of_hasMember fun m hm => by rwa [← hasMember_eq_of_beq hab]

theorem MembersBelow.of_hasMember (hh : h.RespectsKeys) (hab : MembersBelow h a b)
    (hm : a.hasMember m = true) : ∃ n ∈ b.members, Below h m n := by
  obtain ⟨m', hm', hbeq⟩ := List.contains_iff_exists_mem_beq.1 hm
  obtain ⟨n, hn, hbelow⟩ := hab m' hm'
  exact ⟨n, hn, hbelow.congr hh (BEq.symm hbeq) BEq.rfl⟩

/-- Subtyping of normalized types is decided member by member. -/
theorem isSubtype_iff (ha : a.isNormalized) (hb : b.isNormalized) :
    isSubtype h a b = true ↔ b = .mixed ∨ a ≠ .mixed ∧ MembersBelow h a b := by
  by_cases hmixed : b = .mixed
  · subst hmixed
    exact iff_of_true (isSubtype_mixed h a) (Or.inl rfl)
  · rw [or_iff_right hmixed]
    have hbfalse : b.isMixed = false := by rwa [Bool.eq_false_iff, ne_eq, isMixed_iff]
    cases a with
    | mixed => simp [isSubtype, hbfalse]
    | union ms =>
        have hplain := (isNormalized_union_iff.1 ha).2.2
        have hall : (∀ m ∈ ms, isSubtype h m b = true) ↔ MembersBelow h (.union ms) b :=
          forall₂_congr fun m hm => by rw [isSubtype_of_isPlain (hplain m hm), fits_iff hb hmixed]
        -- The shortcut for equal types adds nothing: their members are equal.
        have hequal : beq (.union ms) b = true → MembersBelow h (.union ms) b := membersBelow_of_beq
        rw [isSubtype, hbfalse, Bool.or_false, Bool.or_eq_true, allSubtypes_eq_all, List.all_eq_true,
          hall, or_iff_right_of_imp hequal, and_iff_right (by simp)]
    | _ =>
        rw [isSubtype_of_isPlain ⟨rfl, rfl⟩, fits_iff hb hmixed]
        simp [MembersBelow, members]

/-! ## Laws -/

theorem MembersBelow.trans (hh : h.RespectsKeys) (htrans : h.TransitiveUpToEquality)
    (hab : MembersBelow h a b) (hbc : MembersBelow h b c) : MembersBelow h a c := by
  intro m hm
  obtain ⟨n, hn, hmn⟩ := hab m hm
  obtain ⟨p, hp, hnp⟩ := hbc n hn
  exact ⟨p, hp, hmn.trans hh htrans hnp⟩

theorem isSubtype_refl (h : Hierarchy) (ha : a.isNormalized) : isSubtype h a a = true := by
  rw [isSubtype_iff ha ha]
  by_cases hmixed : a = .mixed
  · exact Or.inl hmixed
  · exact Or.inr ⟨hmixed, membersBelow_of_beq BEq.rfl⟩

theorem isSubtype_trans (hh : h.RespectsKeys) (htrans : h.TransitiveUpToEquality)
    (ha : a.isNormalized) (hb : b.isNormalized) (hc : c.isNormalized)
    (hab : isSubtype h a b = true) (hbc : isSubtype h b c = true) : isSubtype h a c = true := by
  rw [isSubtype_iff ha hc]
  rcases (isSubtype_iff hb hc).1 hbc with hmixed | ⟨hmixed, hbc⟩
  · exact Or.inl hmixed
  · rcases (isSubtype_iff ha hb).1 hab with hmixed' | ⟨hmixed', hab⟩
    · exact absurd hmixed' hmixed
    · exact Or.inr ⟨hmixed', hab.trans hh htrans hbc⟩

section

variable {ts : List Ty} (hts : ∀ t ∈ ts, t.isNormalized = true)
include hts

theorem isSubtype_unionOf (h : Hierarchy) (ha : a ∈ ts) : isSubtype h a (unionOf ts) = true := by
  rw [isSubtype_iff (hts a ha) (isNormalized_unionOf hts),
    unionOf_eq_mixed_iff hts (List.ne_nil_of_mem ha)]
  by_cases hmixed : .mixed ∈ ts
  · exact Or.inl hmixed
  · refine Or.inr ⟨?_, ?_⟩
    · rintro rfl
      exact hmixed ha
    · apply membersBelow_of_hasMember
      intro m hm
      exact (hasMember_unionOf hts (List.ne_nil_of_mem ha) hmixed m).2 ⟨a, ha, hm⟩

theorem unionOf_isSubtype (hh : h.RespectsKeys) (hne : ts ≠ []) (hc : c.isNormalized = true)
    (hle : ∀ t ∈ ts, isSubtype h t c = true) : isSubtype h (unionOf ts) c = true := by
  rw [isSubtype_iff (isNormalized_unionOf hts) hc, ne_eq, unionOf_eq_mixed_iff hts hne]
  by_cases hmixed : c = .mixed
  · exact Or.inl hmixed
  · have hbelow : ∀ t ∈ ts, t ≠ .mixed ∧ MembersBelow h t c :=
      fun t ht => ((isSubtype_iff (hts t ht) hc).1 (hle t ht)).resolve_left hmixed
    have hnot : .mixed ∉ ts := fun hmem => (hbelow .mixed hmem).1 rfl
    refine Or.inr ⟨hnot, ?_⟩
    intro m hm
    have hmember : (unionOf ts).hasMember m = true :=
      List.contains_iff_exists_mem_beq.2 ⟨m, hm, BEq.rfl⟩
    obtain ⟨t, ht, hmt⟩ := (hasMember_unionOf hts hne hnot m).1 hmember
    exact (hbelow t ht).2.of_hasMember hh hmt

end

/-- Subtyping of normalized types is the order by members with `mixed` at the
top. It is reflexive, and transitive over a transitive hierarchy, and the union
of two types is their least upper bound. -/
theorem isSubtype_members_order {h : Hierarchy} (hh : h.RespectsKeys) {a b c : Ty}
    (ha : a.isNormalized = true) (hb : b.isNormalized = true) (hc : c.isNormalized = true) :
    (isSubtype h a b = true ↔
        b = .mixed ∨ a ≠ .mixed ∧ ∀ m ∈ a.members, ∃ n ∈ b.members,
          (m == n) = true ∨ ∃ x y, m = .object x ∧ n = .object y ∧ (h x).contains y = true) ∧
      isSubtype h a a = true ∧
      (h.TransitiveUpToEquality → isSubtype h a b = true → isSubtype h b c = true →
        isSubtype h a c = true) ∧
      isSubtype h a (union2 a b) = true ∧ isSubtype h b (union2 a b) = true ∧
      (isSubtype h a c = true → isSubtype h b c = true → isSubtype h (union2 a b) c = true) := by
  have hts := isNormalized_pair ha hb
  refine ⟨isSubtype_iff ha hb, isSubtype_refl h ha, ?_, ?_, ?_, ?_⟩
  · exact fun htrans => isSubtype_trans hh htrans ha hb hc
  · exact isSubtype_unionOf hts h List.mem_cons_self
  · exact isSubtype_unionOf hts h (List.mem_cons_of_mem a List.mem_cons_self)
  · intro hac hbc
    apply unionOf_isSubtype hts hh (List.cons_ne_nil a [b]) hc
    exact List.forall_mem_cons.2 ⟨hac, List.forall_mem_singleton.2 hbc⟩

/-- `\Dog` below `Mammal|null` below `Animal|null`, where dogs are mammals and
both are animals. -/
theorem isSubtype_members_order_dogs :
    let h : Hierarchy := fun x => ⟨fun y =>
      x.key == "dog" && y.key == "mammal" ||
        (x.key == "dog" || x.key == "mammal") && y.key == "animal"⟩
    let a := ofClass "\\Dog"
    let b := union [.null, ofClass "Mammal"]
    let c := union [.null, ofClass "Animal"]
    h.RespectsKeys ∧ h.TransitiveUpToEquality ∧
      a.isNormalized = true ∧ b.isNormalized = true ∧ c.isNormalized = true ∧
      isSubtype h a c = true ∧ isSubtype h (union2 a b) c = true ∧ isSubtype h c b = false := by
  intro h a b c
  have hh : h.RespectsKeys := by
    intro x x' y y' hx hy
    simp only [h, ClassName.beq_iff.1 hx, ClassName.beq_iff.1 hy]
  have htrans : h.TransitiveUpToEquality := by
    intro x y z hxy hyz
    simp only [h, Bool.or_eq_true, Bool.and_eq_true, beq_iff_eq] at hxy hyz ⊢
    grind
  have ha : a.isNormalized = true := by decide
  have hb : b.isNormalized = true := by decide
  have hc : c.isNormalized = true := by decide
  have hab : isSubtype h a b = true := by decide
  have hbc : isSubtype h b c = true := by decide
  obtain ⟨-, -, hchain, -, -, hleast⟩ := isSubtype_members_order hh ha hb hc
  have hac : isSubtype h a c = true := hchain htrans hab hbc
  exact ⟨hh, htrans, ha, hb, hc, hac, hleast hac hbc, by decide⟩

end Ty

end RedundantCast
