import RedundantCast.Proofs.Ty.Spelling
import RedundantCast.Proofs.Ty.Subtype

/-!
# Nullable types

A nullable type has the member `null` besides those of the type, and without
`null` the other members stay, each spelled as before. So the two undo each
other up to `null`, and a nullable type is below what both the type and `null`
are below.
-/

namespace RedundantCast

namespace Ty

variable {h : Hierarchy} {t u m : Ty}

theorem hasMember_eq_isSome_spelling? (t m : Ty) : t.hasMember m = (t.spelling? m).isSome := by
  rw [Bool.eq_iff_iff, hasMember, spelling?, List.contains_iff_exists_mem_beq,
    List.find?_isSome]

/-- A normalized type spells its own members as they stand in it. -/
theorem mem_members_iff_spelling? (ht : t.isNormalized) :
    m ∈ t.members ↔ t.spelling? m = some m :=
  ⟨(ascending_members ht).find?_of_mem, List.mem_of_find?_eq_some⟩

/-! ## Adding `null` -/

theorem isNormalized_nullable (ht : t.isNormalized) : (nullable t).isNormalized = true :=
  isNormalized_unionOf (isNormalized_pair ht rfl)

section

variable (ht : t.isNormalized) (hmixed : t ≠ .mixed)
include ht hmixed

theorem spelling?_nullable (m : Ty) :
    (nullable t).spelling? m = (t.spelling? m).or (Ty.null.spelling? m) := by
  have hnot : Ty.mixed ∉ [t, .null] := by simpa using Ne.symm hmixed
  rw [nullable, spelling?_unionOf (isNormalized_pair ht rfl) (List.cons_ne_nil t _) hnot]
  cases h : t.spelling? m <;> cases h' : Ty.null.spelling? m <;> simp [h, h']

theorem spelling?_nullable_null : (nullable t).spelling? .null = some .null := by
  rw [spelling?_nullable ht hmixed]
  cases hm : t.spelling? .null with
  | none => rfl
  | some m => rw [eq_null_of_spelling?_null hm, Option.some_or]

theorem spelling?_nullable_of_ne (hm : m ≠ .null) : (nullable t).spelling? m = t.spelling? m := by
  rw [spelling?_nullable ht hmixed, spelling?_null_of_ne hm, Option.or_none]

theorem nullable_ne_mixed : nullable t ≠ .mixed := by
  rw [nullable, ne_eq, unionOf_eq_mixed_iff (isNormalized_pair ht rfl) (List.cons_ne_nil t _)]
  simpa using Ne.symm hmixed

theorem mem_members_nullable : m ∈ (nullable t).members ↔ m ∈ t.members ∨ m = .null := by
  rw [mem_members_iff_spelling? (isNormalized_nullable ht), mem_members_iff_spelling? ht]
  by_cases hm : m = .null
  · subst hm
    simp [spelling?_nullable_null ht hmixed]
  · simp [spelling?_nullable_of_ne ht hmixed hm, hm]

end

/-! ## Taking `null` away -/

theorem mixed_notMem_members (ht : t.isNormalized) (hmixed : t ≠ .mixed) :
    .mixed ∉ t.members := by
  intro hm
  cases (isPlain_of_mem_members ht hmixed hm).2

theorem isNormalized_of_mem_filter_members (ht : t.isNormalized) :
    ∀ m ∈ t.members.filter (!·.isNull), m.isNormalized = true :=
  fun _ hm => isNormalized_of_mem_members ht (List.mem_of_mem_filter hm)

section

variable (ht : t.isNormalized) (hnull : t ≠ .null)
include ht hnull

theorem withoutNull_eq : t.withoutNull = unionOf (t.members.filter (!·.isNull)) := by
  cases t with
  | null => exact absurd rfl hnull
  | union ms => rfl
  | _ => exact (unionOf_singleton ht).symm

/-- Two members of a union cannot both be `null`. -/
theorem filter_members_ne_nil : t.members.filter (!·.isNull) ≠ [] := by
  intro hnil
  have hall : ∀ m ∈ t.members, m = .null := by simpa using List.filter_eq_nil_iff.1 hnil
  cases t with
  | null => exact hnull rfl
  | union ms =>
      obtain ⟨hlength, hms, -⟩ := isNormalized_union_iff.1 ht
      match ms with
      | a :: b :: ms =>
        have hab : cmp a b = .lt := (List.pairwise_cons.1 hms).1 b List.mem_cons_self
        rw [hall a List.mem_cons_self, hall b (by simp)] at hab
        cases hab
  | _ => cases hall _ (List.mem_singleton.2 rfl)

theorem withoutNull_eq_mixed_iff_of_ne : t.withoutNull = .mixed ↔ t = .mixed := by
  refine ⟨?_, ?_⟩
  · rw [withoutNull_eq ht hnull,
      unionOf_eq_mixed_iff (isNormalized_of_mem_filter_members ht) (filter_members_ne_nil ht hnull)]
    intro hmem
    by_contra hmixed
    exact mixed_notMem_members ht hmixed (List.mem_of_mem_filter hmem)
  · rintro rfl
    rfl

theorem spelling?_withoutNull (hmixed : t ≠ .mixed) (m : Ty) :
    t.withoutNull.spelling? m = (t.members.filter (!·.isNull)).findSome? (·.spelling? m) := by
  have hnot : Ty.mixed ∉ t.members.filter (!·.isNull) :=
    fun hmem => mixed_notMem_members ht hmixed (List.mem_of_mem_filter hmem)
  rw [withoutNull_eq ht hnull, spelling?_unionOf (isNormalized_of_mem_filter_members ht)
    (filter_members_ne_nil ht hnull) hnot]

theorem spelling?_withoutNull_null (hmixed : t ≠ .mixed) :
    t.withoutNull.spelling? .null = none := by
  rw [spelling?_withoutNull ht hnull hmixed, List.findSome?_eq_none_iff]
  intro m hm
  obtain ⟨hmem, hother⟩ := List.mem_filter.1 hm
  have hplain := isPlain_of_mem_members ht hmixed hmem
  cases hspelled : m.spelling? .null with
  | none => rfl
  | some n =>
      have hn : n ∈ m.members := List.mem_of_find?_eq_some hspelled
      rw [hplain.members, List.mem_singleton, eq_null_of_spelling?_null hspelled] at hn
      subst hn
      cases hother

theorem spelling?_withoutNull_of_ne (hmixed : t ≠ .mixed) (hm : m ≠ .null) :
    t.withoutNull.spelling? m = t.spelling? m := by
  have hmembers : ∀ n ∈ t.members, n.isNormalized = true :=
    fun _ hn => isNormalized_of_mem_members ht hn
  rw [spelling?_withoutNull ht hnull hmixed, findSome?_filter_isNull hm,
    ← spelling?_unionOf hmembers (members_ne_nil ht) (mixed_notMem_members ht hmixed),
    unionOf_members ht]

end

theorem isNormalized_withoutNull (ht : t.isNormalized) : t.withoutNull.isNormalized = true := by
  by_cases hnull : t = .null
  · subst hnull
    rfl
  · rw [withoutNull_eq ht hnull]
    exact isNormalized_unionOf (isNormalized_of_mem_filter_members ht)

theorem withoutNull_ne_mixed (ht : t.isNormalized) (hmixed : t ≠ .mixed) :
    t.withoutNull ≠ .mixed := by
  by_cases hnull : t = .null
  · subst hnull
    exact hmixed
  · rwa [ne_eq, withoutNull_eq_mixed_iff_of_ne ht hnull]

theorem hasMember_withoutNull (ht : t.isNormalized) (hm : m ≠ .null) :
    t.withoutNull.hasMember m = t.hasMember m := by
  by_cases hnull : t = .null
  · subst hnull
    rfl
  by_cases hmixed : t = .mixed
  · subst hmixed
    rfl
  rw [hasMember_eq_isSome_spelling?, hasMember_eq_isSome_spelling?,
    spelling?_withoutNull_of_ne ht hnull hmixed hm]

theorem nullable_ne_null (ht : t.isNormalized) (hnull : t ≠ .null) (hmixed : t ≠ .mixed) :
    nullable t ≠ .null := by
  intro heq
  obtain ⟨m, hm⟩ := List.exists_mem_of_ne_nil _ (filter_members_ne_nil ht hnull)
  obtain ⟨hmem, hother⟩ := List.mem_filter.1 hm
  have hnullable := (mem_members_nullable ht hmixed).2 (Or.inl hmem)
  rw [heq] at hnullable
  obtain rfl := List.mem_singleton.1 hnullable
  cases hother

/-! ## Adding and taking away -/

theorem nullable_withoutNull (ht : t.isNormalized) : nullable t.withoutNull = nullable t := by
  by_cases hnull : t = .null
  · subst hnull
    rfl
  by_cases hmixed : t = .mixed
  · subst hmixed
    rfl
  have hrest := isNormalized_withoutNull ht
  have hrest' := withoutNull_ne_mixed ht hmixed
  apply eq_of_spelling?_eq (isNormalized_nullable hrest) (isNormalized_nullable ht)
  intro m
  by_cases hm : m = .null
  · rw [hm, spelling?_nullable_null hrest hrest', spelling?_nullable_null ht hmixed]
  · rw [spelling?_nullable_of_ne hrest hrest' hm, spelling?_nullable_of_ne ht hmixed hm,
      spelling?_withoutNull_of_ne ht hnull hmixed hm]

theorem withoutNull_nullable (ht : t.isNormalized) : (nullable t).withoutNull = t.withoutNull := by
  by_cases hnull : t = .null
  · subst hnull
    rfl
  by_cases hmixed : t = .mixed
  · subst hmixed
    rfl
  have hsum := isNormalized_nullable ht
  have hsum' := nullable_ne_null ht hnull hmixed
  have hsum'' := nullable_ne_mixed ht hmixed
  apply eq_of_spelling?_eq (isNormalized_withoutNull hsum) (isNormalized_withoutNull ht)
  intro m
  by_cases hm : m = .null
  · rw [hm, spelling?_withoutNull_null hsum hsum' hsum'',
      spelling?_withoutNull_null ht hnull hmixed]
  · rw [spelling?_withoutNull_of_ne hsum hsum' hsum'' hm, spelling?_nullable_of_ne ht hmixed hm,
      spelling?_withoutNull_of_ne ht hnull hmixed hm]

/-! ## Subtypes -/

/-- A member of a union is below any type that is equal to the union. -/
theorem isSubtype_of_mem_of_beq {ms : List Ty} (hplain : m.IsPlain) (hm : m ∈ ms)
    (hu : beq (.union ms) u = true) : isSubtype h m u = true := by
  have hmember : u.hasMember m = true := by
    rw [← hasMember_eq_of_beq hu]
    exact List.contains_iff_exists_mem_beq.2 ⟨m, hm, BEq.rfl⟩
  obtain ⟨n, hn, hmn⟩ := List.contains_iff_exists_mem_beq.1 hmember
  cases u with
  | union us =>
      rw [isSubtype_of_isPlain hplain, fits, fitsSome_eq_any, List.any_eq_true]
      exact ⟨n, hn, (fits_iff_below (hplain.congr hmn)).2 (Or.inl hmn)⟩
  | _ => cases rank_eq_of_beq hu

/-- A normalized type is below any type, also one that is not normalized, if its
members are. -/
theorem isSubtype_iff_forall_members (ht : t.isNormalized) (h : Hierarchy) (u : Ty) :
    isSubtype h t u = true ↔ ∀ m ∈ t.members, isSubtype h m u = true := by
  cases t with
  | union ms =>
      have hplain := (isNormalized_union_iff.1 ht).2.2
      rw [isSubtype, allSubtypes_eq_all, Bool.or_eq_true, Bool.or_eq_true, List.all_eq_true,
        members_union, isMixed_iff]
      refine ⟨?_, Or.inr⟩
      rintro ((hequal | rfl) | hall) m hm
      · exact isSubtype_of_mem_of_beq (hplain m hm) hm hequal
      · exact isSubtype_mixed h m
      · exact hall m hm
  | _ => simp [members]

theorem isSubtype_nullable_iff (ht : t.isNormalized) (h : Hierarchy) (u : Ty) :
    isSubtype h (nullable t) u = true ↔ isSubtype h t u = true ∧ isSubtype h .null u = true := by
  by_cases hmixed : t = .mixed
  · have hnullable : nullable t = .mixed := by rw [hmixed]; rfl
    rw [hnullable, hmixed, isSubtype, isMixed_iff, iff_self_and]
    rintro rfl
    exact isSubtype_mixed h .null
  · rw [isSubtype_iff_forall_members (isNormalized_nullable ht),
      isSubtype_iff_forall_members ht]
    simp only [mem_members_nullable ht hmixed, or_imp, forall_and, forall_eq]

/-- Adding `null` and taking it away give normalized types and undo each other up to
`null`, with the spellings of class names. Nothing but `null` comes or goes, and a
nullable type is the least type above the type and `null`. -/
theorem nullable_and_withoutNull (ht : t.isNormalized = true) :
    (nullable t).isNormalized = true ∧ t.withoutNull.isNormalized = true ∧
      nullable t.withoutNull = nullable t ∧ (nullable t).withoutNull = t.withoutNull ∧
      (t ≠ .mixed → t.withoutNull ≠ .mixed) ∧
      (∀ m : Ty, m ≠ .null → (t.hasMember m = true ↔ t.withoutNull.hasMember m = true)) ∧
      (∀ h : Hierarchy, isSubtype h t (nullable t) = true) ∧
      (t ≠ .null → t ≠ .mixed → ∀ (h : Hierarchy) (u : Ty),
        isSubtype h (nullable t) u = true ↔
          isSubtype h t u = true ∧ isSubtype h .null u = true) := by
  refine ⟨isNormalized_nullable ht, isNormalized_withoutNull ht, nullable_withoutNull ht,
    withoutNull_nullable ht, withoutNull_ne_mixed ht, ?_, ?_, ?_⟩
  · intro m hm
    rw [hasMember_withoutNull ht hm]
  · intro h
    exact isSubtype_unionOf (isNormalized_pair ht rfl) h List.mem_cons_self
  · intro _ _ h u
    exact isSubtype_nullable_iff ht h u

/-- `\Cat|null` is `\Cat` without `null` and is itself again with it. Where cats are
animals, it is below `Animal|null`, though the members of that are not in order. -/
theorem nullable_and_withoutNull_cat :
    let h : Hierarchy := fun x => ⟨fun y => x.key == "cat" && y.key == "animal"⟩
    let t := union [.null, ofClass "\\Cat"]
    let u := union [ofClass "Animal", .null]
    t.isNormalized = true ∧ u.isNormalized = false ∧
      t.withoutNull = ofClass "\\Cat" ∧ nullable t.withoutNull = nullable t ∧
      t.withoutNull ≠ .mixed ∧ t.withoutNull.hasMember (ofClass "cat") = true ∧
      isSubtype h (nullable (ofClass "\\Cat")) u = true := by
  intro h t u
  have ht : t.isNormalized = true := by decide
  have hcat : (ofClass "\\Cat").isNormalized = true := rfl
  obtain ⟨-, -, hagain, -, hne, hmember, -, -⟩ := nullable_and_withoutNull ht
  obtain ⟨-, -, -, -, -, -, -, hleast⟩ := nullable_and_withoutNull hcat
  refine ⟨ht, by decide, rfl, hagain, hne (by simp [t]), ?_, ?_⟩
  · exact (hmember (ofClass "cat") (by simp [ofClass])).1 (by decide)
  · exact (hleast (by simp [ofClass]) (by simp [ofClass]) h u).2 ⟨by decide, by decide⟩

end Ty

end RedundantCast
