import RedundantCast.Proofs.Ty.Order

/-!
# Canonical unions

A normalized type is determined by its members: they stand in the canonical
order, each once, so two lists of the same members are the same up to the
spelling of class names. The union of some types has the members of all of them
and does not depend on how the types are ordered, grouped or repeated.
-/

namespace RedundantCast

namespace Ty

open Std

variable {t m : Ty} {ms ts us : List Ty}

/-- Each type is followed by greater ones only. -/
def Ascending (ms : List Ty) : Prop :=
  ms.Pairwise fun a b => cmp a b = .lt

/-- Neither a union nor `mixed`. -/
def IsPlain (t : Ty) : Prop :=
  t.isUnion = false ∧ t.isMixed = false

/-! ## Sorted members -/

instance : Trans (fun a b => cmp a b = .lt) (fun a b => cmp a b = .lt)
    (fun a b => cmp a b = .lt) where
  trans := TransCmp.lt_trans

theorem strictlyAscending_iff : strictlyAscending ms = true ↔ Ascending ms := by
  rw [Ascending, ← List.isChain_iff_pairwise]
  fun_induction strictlyAscending ms with
  | case1 a b ts ih => simp [ih]
  | case2 ts hne =>
      rcases ts with _ | ⟨a, _ | ⟨b, ts⟩⟩
      · simp
      · simp
      · exact absurd rfl (hne a b ts)

theorem mem_of_mem_insertMember (h : m ∈ insertMember t ms) : m = t ∨ m ∈ ms := by
  induction ms with
  | nil => exact Or.inl (List.mem_singleton.1 h)
  | cons a ms ih =>
      rw [insertMember] at h
      split at h
      · exact List.mem_cons.1 h
      · rcases List.mem_cons.1 h with rfl | h
        · exact Or.inl rfl
        · exact Or.inr (List.mem_cons_of_mem a h)
      · rcases List.mem_cons.1 h with rfl | h
        · exact Or.inr List.mem_cons_self
        · exact (ih h).imp_right (List.mem_cons_of_mem a)

theorem contains_insertMember (t m : Ty) (ms : List Ty) :
    (insertMember t ms).contains m = (m == t || ms.contains m) := by
  induction ms with
  | nil => rfl
  | cons a ms ih =>
      rw [insertMember]
      cases hcmp : cmp t a with
      | lt => simp only [List.contains_cons]
      | eq =>
          -- The type takes the place of one that it is equal to.
          have hta : (t == a) = true := LawfulBEqCmp.compare_eq_iff_beq.1 hcmp
          simp only [List.contains_cons, ← BEq.congr_right hta, Bool.or_self_left]
      | gt => simp only [List.contains_cons, ih, Bool.or_left_comm]

theorem Ascending.insertMember (h : Ascending ms) (t : Ty) : Ascending (insertMember t ms) := by
  induction ms with
  | nil => exact List.pairwise_singleton _ t
  | cons a ms ih =>
      obtain ⟨ha, hms⟩ := List.pairwise_cons.1 h
      rw [Ty.insertMember]
      cases hcmp : cmp t a with
      | lt =>
          refine List.pairwise_cons.2 ⟨?_, h⟩
          intro b hb
          rcases List.mem_cons.1 hb with rfl | hb
          · exact hcmp
          · exact TransCmp.lt_trans hcmp (ha b hb)
      | eq => exact List.pairwise_cons.2 ⟨fun b hb => TransCmp.lt_of_eq_of_lt hcmp (ha b hb), hms⟩
      | gt =>
          refine List.pairwise_cons.2 ⟨?_, ih hms⟩
          intro b hb
          rcases mem_of_mem_insertMember hb with rfl | hb
          · exact OrientedCmp.gt_iff_lt.1 hcmp
          · exact ha b hb

theorem ascending_sortMembers (ts : List Ty) : Ascending (sortMembers ts) := by
  induction ts with
  | nil => exact .nil
  | cons t ts ih => exact ih.insertMember t

theorem mem_of_mem_sortMembers (h : m ∈ sortMembers ts) : m ∈ ts := by
  induction ts with
  | nil => exact h
  | cons t ts ih =>
      rcases mem_of_mem_insertMember h with rfl | h
      · exact List.mem_cons_self
      · exact List.mem_cons_of_mem t (ih h)

@[simp] theorem contains_sortMembers (ts : List Ty) (m : Ty) :
    (sortMembers ts).contains m = ts.contains m := by
  induction ts with
  | nil => rfl
  | cons t ts ih => rw [sortMembers_cons, contains_insertMember, ih, List.contains_cons]

theorem sortMembers_ne_nil (h : ts ≠ []) : sortMembers ts ≠ [] := by
  obtain ⟨t, ts, rfl⟩ := List.exists_cons_of_ne_nil h
  intro hnil
  have hcontains := contains_sortMembers (t :: ts) t
  rw [hnil] at hcontains
  simp at hcontains

theorem sortMembers_of_ascending (h : Ascending ms) : sortMembers ms = ms := by
  induction ms with
  | nil => rfl
  | cons m ms ih =>
      obtain ⟨hm, hms⟩ := List.pairwise_cons.1 h
      rw [sortMembers_cons, ih hms]
      cases ms with
      | nil => rfl
      | cons a ms => rw [insertMember, hm a List.mem_cons_self]

/-! ## Lists determined by their members -/

theorem code_mem_map_iff : m.code ∈ ms.map code ↔ ms.contains m = true := by
  simp only [List.mem_map, List.contains_iff_exists_mem_beq, beq_iff_code_eq, eq_comm (a := m.code)]

instance : Std.Irrefl fun c d : List Mark => compare c d = .lt where
  irrefl c h := by
    cases ReflCmp.compare_self.symm.trans h

instance : Std.Antisymm fun c d : List Mark => compare c d = .lt where
  antisymm c d hcd hdc := by
    rw [OrientedCmp.gt_iff_lt.2 hcd] at hdc
    cases hdc

/-- Ascending lists of the same members are the same lists of words. -/
theorem Ascending.map_code_eq {as bs : List Ty} (has : Ascending as) (hbs : Ascending bs)
    (h : ∀ m, as.contains m = bs.contains m) : as.map code = bs.map code := by
  have hsorted : ∀ {ms}, Ascending ms →
      (ms.map code).Pairwise fun c d => compare c d = .lt := by
    intro ms hms
    rw [List.pairwise_map]
    exact hms.imp fun hab => by rwa [← cmp_eq_compare_code]
  refine List.Pairwise.eq_of_mem_iff (hsorted has) (hsorted hbs) fun c => ?_
  constructor
  · intro hc
    obtain ⟨m, -, rfl⟩ := List.mem_map.1 hc
    rwa [code_mem_map_iff, ← h, ← code_mem_map_iff]
  · intro hc
    obtain ⟨m, -, rfl⟩ := List.mem_map.1 hc
    rwa [code_mem_map_iff, h, ← code_mem_map_iff]

theorem code_ofMembers_congr {as bs : List Ty} (h : as.map code = bs.map code) :
    (ofMembers as).code = (ofMembers bs).code := by
  have hlength : as.length = bs.length := by simpa using congrArg List.length h
  match as, bs with
  | [], [] => rfl
  | [a], [b] => simpa using h
  | a :: a' :: as, b :: b' :: bs =>
      rw [ofMembers_cons_cons, ofMembers_cons_cons, code, code, codeMembers_eq, codeMembers_eq, h]

/-! ## Normalized types -/

theorem IsPlain.members (h : t.IsPlain) : t.members = [t] := by
  cases t with
  | union ms => cases h.1
  | _ => rfl

theorem IsPlain.isNormalized (h : t.IsPlain) : t.isNormalized = true := by
  cases t with
  | union ms => cases h.1
  | _ => rfl

theorem isPlain_iff_rank_lt : t.IsPlain ↔ t.rank < 8 := by
  cases t <;> simp [IsPlain, isUnion, isMixed, rank]

theorem IsPlain.congr (h : t.IsPlain) (hbeq : (t == m) = true) : m.IsPlain := by
  rw [isPlain_iff_rank_lt, ← rank_eq_of_beq hbeq]
  exact isPlain_iff_rank_lt.1 h

theorem isNormalized_union_iff :
    (union ms).isNormalized = true ↔ 2 ≤ ms.length ∧ Ascending ms ∧ ∀ m ∈ ms, m.IsPlain := by
  simp [isNormalized, strictlyAscending_iff, IsPlain, and_assoc]

theorem members_ne_nil (h : t.isNormalized) : t.members ≠ [] := by
  cases t with
  | union ms =>
      rintro rfl
      simp [isNormalized] at h
  | _ => simp [members]

theorem ascending_members (h : t.isNormalized) : Ascending t.members := by
  cases t with
  | union ms => exact (isNormalized_union_iff.1 h).2.1
  | _ => exact List.pairwise_singleton _ _

theorem isPlain_of_mem_members (h : t.isNormalized) (hmixed : t ≠ .mixed) (hm : m ∈ t.members) :
    m.IsPlain := by
  cases t with
  | union ms => exact (isNormalized_union_iff.1 h).2.2 m hm
  | mixed => exact absurd rfl hmixed
  | _ =>
      obtain rfl := List.mem_singleton.1 hm
      exact ⟨rfl, rfl⟩

theorem isNormalized_of_mem_members (h : t.isNormalized) (hm : m ∈ t.members) :
    m.isNormalized = true := by
  by_cases hmixed : t = .mixed
  · subst hmixed
    obtain rfl := List.mem_singleton.1 hm
    rfl
  · exact (isPlain_of_mem_members h hmixed hm).isNormalized

theorem ofMembers_members (h : t.isNormalized) : ofMembers t.members = t := by
  cases t with
  | union ms =>
      have hlength := (isNormalized_union_iff.1 h).1
      match ms with
      | a :: b :: ms => rfl
  | _ => rfl

theorem isNormalized_ofMembers (hms : Ascending ms) (hplain : ∀ m ∈ ms, m.IsPlain) :
    (ofMembers ms).isNormalized := by
  match ms with
  | [] => rfl
  | [m] =>
      have hm := hplain m List.mem_cons_self
      cases m with
      | union ms => cases hm.1
      | _ => rfl
  | a :: b :: ms => exact isNormalized_union_iff.2 ⟨by simp, hms, hplain⟩

theorem members_ofMembers (hne : ms ≠ []) (hplain : ∀ m ∈ ms, m.IsPlain) :
    (ofMembers ms).members = ms := by
  match ms with
  | [] => exact absurd rfl hne
  | [m] => exact (hplain m List.mem_cons_self).members
  | a :: b :: ms => rfl

theorem ofMembers_ne_mixed (hne : ms ≠ []) (hplain : ∀ m ∈ ms, m.IsPlain) :
    ofMembers ms ≠ .mixed := by
  match ms with
  | [] => exact absurd rfl hne
  | [m] =>
      rintro rfl
      cases (hplain .mixed List.mem_cons_self).2
  | a :: b :: ms => simp

/-- Normalized types with the same members are equal. -/
theorem beq_of_hasMember_eq {a b : Ty} (ha : a.isNormalized) (hb : b.isNormalized)
    (h : ∀ m, a.hasMember m = b.hasMember m) : (a == b) = true := by
  rw [beq_iff_code_eq, ← ofMembers_members ha, ← ofMembers_members hb]
  exact code_ofMembers_congr ((ascending_members ha).map_code_eq (ascending_members hb) h)

theorem map_code_eq_of_beqMembers {as bs : List Ty} (h : beqMembers as bs = true) :
    as.map code = bs.map code := by
  induction as generalizing bs with
  | nil =>
      cases bs with
      | nil => rfl
      | cons b bs => cases h
  | cons a as ih =>
      cases bs with
      | nil => cases h
      | cons b bs =>
          obtain ⟨hhead, htail⟩ := Bool.and_eq_true_iff.1 h
          rw [List.map_cons, List.map_cons, beq_iff_code_eq.1 hhead, ih htail]

/-- Equal types have the same members. -/
theorem hasMember_eq_of_beq {a b : Ty} (h : (a == b) = true) (m : Ty) :
    a.hasMember m = b.hasMember m := by
  have hmembers : a.members.map code = b.members.map code := by
    have hrank := rank_eq_of_beq h
    have hcode := beq_iff_code_eq.1 h
    cases a with
    | union as =>
        cases b with
        | union bs => exact map_code_eq_of_beqMembers h
        | _ => cases hrank
    | _ =>
        cases b with
        | union bs => cases hrank
        | _ => exact congrArg (fun c => [c]) hcode
  rw [Bool.eq_iff_iff, hasMember, hasMember, ← code_mem_map_iff, ← code_mem_map_iff, hmembers]

/-! ## Unions of normalized types -/

theorem eq_mixed_of_beq (h : (m == .mixed) = true) : m = .mixed := by
  cases m with
  | mixed => rfl
  | _ => cases rank_eq_of_beq h

theorem hasMember_mixed_iff (h : t.isNormalized) : t.hasMember .mixed = true ↔ t = .mixed := by
  constructor
  · intro hmember
    by_contra hne
    obtain ⟨m, hm, hbeq⟩ := List.contains_iff_exists_mem_beq.1 hmember
    obtain rfl := eq_mixed_of_beq (BEq.symm hbeq)
    cases (isPlain_of_mem_members h hne hm).2
  · rintro rfl
    rfl

theorem unionOf_of_mixed_notMem (h : .mixed ∉ ts) :
    unionOf ts = ofMembers (sortMembers (ts.flatMap members)) := by
  have hany : ts.any isMixed = false := by
    rw [List.any_eq_false]
    intro t ht hmixed
    exact h (isMixed_iff.1 hmixed ▸ ht)
  simp [unionOf, hany]

section

variable (hts : ∀ t ∈ ts, t.isNormalized = true)
include hts

theorem isPlain_of_mem_sortMembers (hmixed : .mixed ∉ ts)
    (hm : m ∈ sortMembers (ts.flatMap members)) : m.IsPlain := by
  obtain ⟨t, ht, hmt⟩ := List.mem_flatMap.1 (mem_of_mem_sortMembers hm)
  exact isPlain_of_mem_members (hts t ht) (fun h => hmixed (h ▸ ht)) hmt

theorem isNormalized_unionOf : (unionOf ts).isNormalized = true := by
  by_cases hmixed : .mixed ∈ ts
  · rw [unionOf_of_mixed hmixed]
    rfl
  · rw [unionOf_of_mixed_notMem hmixed]
    exact isNormalized_ofMembers (ascending_sortMembers _)
      fun m hm => isPlain_of_mem_sortMembers hts hmixed hm

theorem sortMembers_flatMap_ne_nil (hne : ts ≠ []) : sortMembers (ts.flatMap members) ≠ [] := by
  obtain ⟨t, ts, rfl⟩ := List.exists_cons_of_ne_nil hne
  apply sortMembers_ne_nil
  rw [List.flatMap_cons]
  exact List.append_ne_nil_of_left_ne_nil (members_ne_nil (hts t List.mem_cons_self)) _

theorem members_unionOf (hne : ts ≠ []) (hmixed : .mixed ∉ ts) :
    (unionOf ts).members = sortMembers (ts.flatMap members) := by
  rw [unionOf_of_mixed_notMem hmixed]
  exact members_ofMembers (sortMembers_flatMap_ne_nil hts hne)
    fun m hm => isPlain_of_mem_sortMembers hts hmixed hm

theorem unionOf_eq_mixed_iff (hne : ts ≠ []) : unionOf ts = .mixed ↔ .mixed ∈ ts := by
  refine ⟨?_, unionOf_of_mixed⟩
  intro h
  by_contra hmixed
  rw [unionOf_of_mixed_notMem hmixed] at h
  exact ofMembers_ne_mixed (sortMembers_flatMap_ne_nil hts hne)
    (fun m hm => isPlain_of_mem_sortMembers hts hmixed hm) h

/-- A union has the members of its parts. -/
theorem hasMember_unionOf (hne : ts ≠ []) (hmixed : .mixed ∉ ts) (m : Ty) :
    (unionOf ts).hasMember m = true ↔ ∃ t ∈ ts, t.hasMember m = true := by
  rw [hasMember, members_unionOf hts hne hmixed, contains_sortMembers]
  simp only [hasMember, List.contains_iff_exists_mem_beq, List.mem_flatMap]
  constructor
  · rintro ⟨n, ⟨t, ht, hn⟩, hmn⟩
    exact ⟨t, ht, n, hn, hmn⟩
  · rintro ⟨t, ht, n, hn, hmn⟩
    exact ⟨n, ⟨t, ht, hn⟩, hmn⟩

theorem mixed_mem_iff : .mixed ∈ ts ↔ ∃ t ∈ ts, t.hasMember .mixed = true := by
  constructor
  · intro h
    exact ⟨.mixed, h, rfl⟩
  · rintro ⟨t, ht, hmember⟩
    exact (hasMember_mixed_iff (hts t ht)).1 hmember ▸ ht

/-- Parts with the same members have equal unions. -/
theorem unionOf_beq_of_same_members (hus : ∀ u ∈ us, u.isNormalized = true) (hne : ts ≠ [])
    (hne' : us ≠ [])
    (h : ∀ m, (∃ t ∈ ts, t.hasMember m = true) ↔ ∃ u ∈ us, u.hasMember m = true) :
    (unionOf ts == unionOf us) = true := by
  by_cases hmixed : .mixed ∈ ts
  · have hmixed' : .mixed ∈ us := by rwa [mixed_mem_iff hus, ← h, ← mixed_mem_iff hts]
    rw [unionOf_of_mixed hmixed, unionOf_of_mixed hmixed']
    exact BEq.rfl
  · have hmixed' : .mixed ∉ us := by rwa [mixed_mem_iff hus, ← h, ← mixed_mem_iff hts]
    apply beq_of_hasMember_eq (isNormalized_unionOf hts) (isNormalized_unionOf hus)
    intro m
    rw [Bool.eq_iff_iff, hasMember_unionOf hts hne hmixed, hasMember_unionOf hus hne' hmixed', h]

end

theorem pairwise_members_ne (h : t.isNormalized) : t.members.Pairwise fun m n => (m == n) = false := by
  apply (ascending_members h).imp
  intro a b hab
  rw [Bool.eq_false_iff, ne_eq, beq_def, ← cmp_eq_eq_iff, hab]
  decide

/-- A normalized type is the union of its members. -/
theorem unionOf_members (h : t.isNormalized) : unionOf t.members = t := by
  by_cases hmixed : t = .mixed
  · subst hmixed
    rfl
  · have hplain : ∀ m ∈ t.members, m.IsPlain := fun m hm => isPlain_of_mem_members h hmixed hm
    have hnot : .mixed ∉ t.members := fun hm => by cases (hplain .mixed hm).2
    have hflat : t.members.flatMap members = t.members := by
      rw [List.flatMap_congr fun m hm => (hplain m hm).members, List.flatMap_singleton']
    rw [unionOf_of_mixed_notMem hnot, hflat, sortMembers_of_ascending (ascending_members h),
      ofMembers_members h]

theorem isNormalized_pair {a b : Ty} (ha : a.isNormalized = true) (hb : b.isNormalized = true) :
    ∀ t ∈ [a, b], t.isNormalized = true := by
  simp [ha, hb]

theorem isNormalized_union2 {a b : Ty} (ha : a.isNormalized = true) (hb : b.isNormalized = true) :
    (union2 a b).isNormalized = true :=
  isNormalized_unionOf (isNormalized_pair ha hb)

end Ty

end RedundantCast
