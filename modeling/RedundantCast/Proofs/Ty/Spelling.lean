import RedundantCast.Proofs.Ty.Union
import RedundantCast.Ty.Printer

/-!
# Spelled unions

Equal types may spell their classes differently, and a union keeps the first
spelling of each member. A normalized type is determined by how it spells its
members, so a union is the same, with its spellings, however its parts are
grouped, and wherever `null` stands among them.
-/

namespace RedundantCast

namespace Ty

open Std

variable {a b t m : Ty} {as bs ms ts us vs : List Ty}

/-- How a type spells a member: the first of its members that is equal to it. -/
def spelling? (t m : Ty) : Option Ty :=
  t.members.find? (m == ·)

/-! ## Sorted members -/

/-- Of equal types an insertion keeps the new one. -/
theorem find?_insertMember (t m : Ty) (ms : List Ty) :
    (insertMember t ms).find? (m == ·) = (t :: ms).find? (m == ·) := by
  induction ms with
  | nil => rfl
  | cons a ms ih =>
      rw [insertMember]
      cases hcmp : cmp t a with
      | lt => rfl
      | eq =>
          have hta : (t == a) = true := LawfulBEqCmp.compare_eq_iff_beq.1 hcmp
          simp only [List.find?_cons, ← BEq.congr_right hta]
          cases m == t <;> rfl
      | gt =>
          -- A type that is equal to both would make them equal to each other.
          have hne : (m == t) = true → (m == a) = false := by
            intro ht
            rw [Bool.eq_false_iff]
            intro ha
            have hta : cmp t a = .eq :=
              LawfulBEqCmp.compare_eq_iff_beq.2 (BEq.trans (BEq.symm ht) ha)
            cases hcmp.symm.trans hta
          simp only [List.find?_cons, ih]
          cases ht : m == t with
          | true => rw [hne ht]
          | false => rfl

theorem find?_sortMembers (m : Ty) (ts : List Ty) :
    (sortMembers ts).find? (m == ·) = ts.find? (m == ·) := by
  induction ts with
  | nil => rfl
  | cons t ts ih => rw [sortMembers_cons, find?_insertMember, List.find?_cons, List.find?_cons, ih]

theorem Ascending.find?_of_mem (h : Ascending ms) (hm : m ∈ ms) :
    ms.find? (m == ·) = some m := by
  induction ms with
  | nil => cases hm
  | cons a ms ih =>
      obtain ⟨ha, hms⟩ := List.pairwise_cons.1 h
      rcases List.mem_cons.1 hm with rfl | hm
      · rw [List.find?_cons_of_pos BEq.rfl]
      · have hne : ¬ (m == a) = true := by
          intro hma
          have hcmp : cmp a m = .eq := LawfulBEqCmp.compare_eq_iff_beq.2 (BEq.symm hma)
          cases (ha m hm).symm.trans hcmp
        rw [List.find?_cons_of_neg hne, ih hms hm]

theorem Ascending.eq_of_find?_eq (has : Ascending as) (hbs : Ascending bs)
    (h : ∀ m, as.find? (m == ·) = bs.find? (m == ·)) : as = bs := by
  have : Std.Irrefl fun a b : Ty => cmp a b = .lt := ⟨fun a ha => by
    cases ReflCmp.compare_self.symm.trans ha⟩
  have : Std.Antisymm fun a b : Ty => cmp a b = .lt := ⟨fun a b hab hba => by
    cases (OrientedCmp.gt_iff_lt.2 hab).symm.trans hba⟩
  refine List.Pairwise.eq_of_mem_iff has hbs fun m => ?_
  constructor
  · intro hm
    exact List.mem_of_find?_eq_some ((h m).symm.trans (has.find?_of_mem hm))
  · intro hm
    exact List.mem_of_find?_eq_some ((h m).trans (hbs.find?_of_mem hm))

/-- Normalized types that spell every member alike are the same. -/
theorem eq_of_spelling?_eq (ha : a.isNormalized) (hb : b.isNormalized)
    (h : ∀ m, a.spelling? m = b.spelling? m) : a = b := by
  rw [← ofMembers_members ha, ← ofMembers_members hb,
    (ascending_members ha).eq_of_find?_eq (ascending_members hb) h]

/-! ## Spellings of unions -/

section

variable (hts : ∀ t ∈ ts, t.isNormalized = true)
include hts

/-- The first part that has a member spells it. -/
theorem spelling?_unionOf (hne : ts ≠ []) (hmixed : .mixed ∉ ts) (m : Ty) :
    (unionOf ts).spelling? m = ts.findSome? (·.spelling? m) := by
  rw [spelling?, members_unionOf hts hne hmixed, find?_sortMembers, List.find?_flatMap]
  rfl

/-- Parts that spell every member alike have the same union. -/
theorem unionOf_eq_of_spelling?_eq (hus : ∀ u ∈ us, u.isNormalized = true) (hne : ts ≠ [])
    (hne' : us ≠ []) (hmixed : .mixed ∈ ts ↔ .mixed ∈ us)
    (h : ∀ m, ts.findSome? (·.spelling? m) = us.findSome? (·.spelling? m)) :
    unionOf ts = unionOf us := by
  by_cases hts' : .mixed ∈ ts
  · rw [unionOf_of_mixed hts', unionOf_of_mixed (hmixed.1 hts')]
  · apply eq_of_spelling?_eq (isNormalized_unionOf hts) (isNormalized_unionOf hus)
    intro m
    rw [spelling?_unionOf hts hne hts', spelling?_unionOf hus hne' fun hus' => hts' (hmixed.2 hus'),
      h]

end

theorem unionOf_singleton (h : t.isNormalized) : unionOf [t] = t := by
  have hts : ∀ u ∈ [t], u.isNormalized = true := List.forall_mem_singleton.2 h
  by_cases hmixed : t = .mixed
  · subst hmixed
    rfl
  · apply eq_of_spelling?_eq (isNormalized_unionOf hts) h
    intro m
    rw [spelling?_unionOf hts (List.cons_ne_nil t []) (by simpa using Ne.symm hmixed)]
    simp

/-- A union among the parts may be replaced by its own parts. -/
theorem unionOf_append_unionOf (hts : ∀ t ∈ ts, t.isNormalized = true)
    (hus : ∀ u ∈ us, u.isNormalized = true) (hvs : ∀ v ∈ vs, v.isNormalized = true)
    (hne : us ≠ []) : unionOf (ts ++ unionOf us :: vs) = unionOf (ts ++ us ++ vs) := by
  have hparts : ∀ t ∈ ts ++ unionOf us :: vs, t.isNormalized = true :=
    List.forall_mem_append.2 ⟨hts, List.forall_mem_cons.2 ⟨isNormalized_unionOf hus, hvs⟩⟩
  have hflat : ∀ t ∈ ts ++ us ++ vs, t.isNormalized = true :=
    List.forall_mem_append.2 ⟨List.forall_mem_append.2 ⟨hts, hus⟩, hvs⟩
  have hmember : Ty.mixed = unionOf us ↔ .mixed ∈ us :=
    eq_comm.trans (unionOf_eq_mixed_iff hus hne)
  have hmixed : .mixed ∈ ts ++ unionOf us :: vs ↔ .mixed ∈ ts ++ us ++ vs := by
    simp only [List.mem_append, List.mem_cons, hmember, or_assoc]
  by_cases h : .mixed ∈ us
  · rw [unionOf_of_mixed (hmixed.2 (by simp [h])), unionOf_of_mixed (by simp [h])]
  · apply unionOf_eq_of_spelling?_eq hparts hflat (by simp) (by simp [hne]) hmixed
    intro m
    simp only [List.findSome?_append, List.findSome?_cons, spelling?_unionOf hus hne h]
    cases us.findSome? (·.spelling? m) <;> simp

theorem unionOf_unionOf_cons (hus : ∀ u ∈ us, u.isNormalized = true)
    (hvs : ∀ v ∈ vs, v.isNormalized = true) (hne : us ≠ []) :
    unionOf (unionOf us :: vs) = unionOf (us ++ vs) :=
  unionOf_append_unionOf (List.forall_mem_nil _) hus hvs hne

theorem nullable_unionOf (hus : ∀ u ∈ us, u.isNormalized = true) (hne : us ≠ []) :
    nullable (unionOf us) = unionOf (us ++ [.null]) :=
  unionOf_unionOf_cons hus (List.forall_mem_singleton.2 rfl) hne

theorem union2_unionOf (hts : ∀ t ∈ ts, t.isNormalized = true)
    (hus : ∀ u ∈ us, u.isNormalized = true) (hne : ts ≠ []) (hne' : us ≠ []) :
    union2 (unionOf ts) (unionOf us) = unionOf (ts ++ us) := by
  have happend := unionOf_append_unionOf hts hus (List.forall_mem_nil _) hne'
  rw [List.append_nil] at happend
  rw [union2, unionOf_unionOf_cons hts (List.forall_mem_singleton.2 (isNormalized_unionOf hus)) hne,
    happend]

/-! ## Where `null` stands -/

theorem spelling?_null_of_ne (hm : m ≠ .null) : Ty.null.spelling? m = none := by
  cases m with
  | null => exact absurd rfl hm
  | _ => rfl

theorem eq_null_of_spelling?_null (h : t.spelling? .null = some m) : m = .null := by
  have hm := List.find?_some h
  cases m <;> first | rfl | cases hm

theorem findSome?_null (h : Ty.null ∈ ts) :
    ts.findSome? (fun t => t.spelling? .null) = some Ty.null := by
  obtain ⟨m, hm⟩ : ∃ m, ts.findSome? (fun t => t.spelling? .null) = some m :=
    Option.isSome_iff_exists.1 (List.findSome?_isSome_iff.2 ⟨.null, h, rfl⟩)
  obtain ⟨t, -, ht⟩ := List.exists_of_findSome?_eq_some hm
  rw [hm, eq_null_of_spelling?_null ht]

theorem findSome?_filter_isNull (hm : m ≠ .null) (ts : List Ty) :
    (ts.filter (!·.isNull)).findSome? (·.spelling? m) = ts.findSome? (·.spelling? m) := by
  induction ts with
  | nil => rfl
  | cons t ts ih =>
      cases ht : t.isNull with
      | true =>
          rw [isNull_iff] at ht
          subst ht
          rw [List.filter_cons_of_neg (by simp), ih, List.findSome?_cons, spelling?_null_of_ne hm]
      | false =>
          rw [List.filter_cons_of_pos (by simp [ht]), List.findSome?_cons, List.findSome?_cons, ih]

/-- A union depends on whether `null` is among its parts, but not on where it is. -/
theorem unionOf_eq_of_filter_eq (hts : ∀ t ∈ ts, t.isNormalized = true)
    (hus : ∀ u ∈ us, u.isNormalized = true) (hnull : .null ∈ ts ↔ .null ∈ us)
    (hrest : ts.filter (!·.isNull) = us.filter (!·.isNull)) (hne : ts ≠ []) (hne' : us ≠ []) :
    unionOf ts = unionOf us := by
  have hmixed : .mixed ∈ ts ↔ .mixed ∈ us := by
    have hmem : ∀ {vs : List Ty}, .mixed ∈ vs ↔ .mixed ∈ vs.filter (!·.isNull) := by
      simp [isNull]
    rw [hmem, hrest, ← hmem]
  apply unionOf_eq_of_spelling?_eq hts hus hne hne' hmixed
  intro m
  by_cases hm : m = .null
  · subst hm
    by_cases h : .null ∈ ts
    · rw [findSome?_null h, findSome?_null (hnull.1 h)]
    · have hall : ∀ {vs : List Ty}, .null ∉ vs → vs.filter (!·.isNull) = vs := by
        intro vs hvs
        rw [List.filter_eq_self]
        intro t ht
        have hnot : t.isNull ≠ true := fun heq => hvs (isNull_iff.1 heq ▸ ht)
        rw [Bool.eq_false_iff.2 hnot, Bool.not_false]
      rw [← hall h, hrest, hall fun h' => h (hnull.2 h')]
  · rw [← findSome?_filter_isNull hm ts, hrest, findSome?_filter_isNull hm us]

/-- Making the first part nullable makes the union nullable. -/
theorem unionOf_nullable_cons (hts : ∀ u ∈ t :: ts, u.isNormalized = true) :
    unionOf (nullable t :: ts) = nullable (unionOf (t :: ts)) := by
  obtain ⟨ht, hrest⟩ := List.forall_mem_cons.1 hts
  have hpair : ∀ u ∈ [t, .null], u.isNormalized = true := isNormalized_pair ht rfl
  have hfirst : ∀ u ∈ [t, .null] ++ ts, u.isNormalized = true :=
    List.forall_mem_append.2 ⟨hpair, hrest⟩
  have hlast : ∀ u ∈ t :: ts ++ [.null], u.isNormalized = true :=
    List.forall_mem_append.2 ⟨hts, List.forall_mem_singleton.2 rfl⟩
  rw [nullable_unionOf hts (List.cons_ne_nil t ts), nullable,
    unionOf_unionOf_cons hpair hrest (List.cons_ne_nil t _)]
  apply unionOf_eq_of_filter_eq hfirst hlast
  · simp
  · simp [List.filter_cons]
  · simp
  · simp

@[simp] theorem mem_nullLast : m ∈ nullLast ms ↔ m ∈ ms := by
  simp only [nullLast, List.mem_append, List.mem_filter]
  cases m.isNull <;> simp

theorem nullLast_ne_nil (h : (union ms).isNormalized) : nullLast ms ≠ [] := by
  obtain ⟨m, hm⟩ := List.exists_mem_of_ne_nil ms (members_ne_nil h)
  exact List.ne_nil_of_mem (mem_nullLast.2 hm)

/-- Written with `null` at the end, the members have the same union. -/
theorem unionOf_nullLast (h : (union ms).isNormalized) : unionOf (nullLast ms) = union ms := by
  have hms : ∀ m ∈ ms, m.isNormalized = true := by
    intro m hm
    have hunion := ((isNormalized_union_iff.1 h).2.2 m hm).1
    cases m with
    | union us => cases hunion
    | _ => rfl
  have hlast : ∀ m ∈ nullLast ms, m.isNormalized = true := fun m hm => hms m (mem_nullLast.1 hm)
  calc unionOf (nullLast ms) = unionOf ms := by
        apply unionOf_eq_of_filter_eq hlast hms mem_nullLast
        · simp [nullLast, List.filter_filter]
        · exact nullLast_ne_nil h
        · exact members_ne_nil h
    _ = union ms := unionOf_members h

end Ty

end RedundantCast
