import Mathlib.Data.List.Sort
import RedundantCast.Ty.Union

/-!
# The canonical order of types

A type is spelled as a word over marks: one for each constructor, with the key
of the class where there is one, and one behind the members of each union. The
canonical order compares these words letter by letter, and types are equal if
their words are. So the order is total, and its ties are the equal types.
-/

namespace RedundantCast

open Std

/-- A letter of the word of a type. -/
structure Mark where
  rank : Nat
  key : String
  deriving DecidableEq

namespace Mark

instance : Ord Mark where
  compare a b := (compare a.rank b.rank).then (compare a.key b.key)

theorem compare_def (a b : Mark) :
    compare a b = (compare a.rank b.rank).then (compare a.key b.key) := rfl

instance : TransOrd Mark :=
  inferInstanceAs (TransCmp (compareLex (compareOn Mark.rank) (compareOn Mark.key)))

instance : LawfulEqOrd Mark where
  eq_of_compare {a b} h := by
    obtain ⟨hrank, hkey⟩ := Ordering.then_eq_eq.1 h
    cases a
    cases b
    cases LawfulEqOrd.eq_of_compare hrank
    cases LawfulEqOrd.eq_of_compare hkey
    rfl

/-- The mark behind the members of a union, below all others. -/
def stop : Mark := ⟨0, ""⟩

end Mark

namespace Ty

mutual

/-- The word of a type. -/
def code : Ty → List Mark
  | .object name => [⟨8, name.key⟩]
  | .union ms => ⟨10, ""⟩ :: codeMembers ms
  | t => [⟨t.rank + 1, ""⟩]

def codeMembers : List Ty → List Mark
  | [] => [.stop]
  | m :: ms => code m ++ codeMembers ms

end

theorem codeMembers_eq (ms : List Ty) : codeMembers ms = (ms.map code).flatten ++ [.stop] := by
  induction ms with
  | nil => rfl
  | cons m ms ih => rw [codeMembers, ih, List.map_cons, List.flatten_cons, List.append_assoc]

theorem code_eq_cons (t : Ty) : ∃ key rest, t.code = ⟨t.rank + 1, key⟩ :: rest := by
  cases t with
  | object name => exact ⟨name.key, [], rfl⟩
  | union ms => exact ⟨"", codeMembers ms, rfl⟩
  | _ => exact ⟨"", [], rfl⟩

theorem cmp_of_rank_ne {a b : Ty} (h : a.rank ≠ b.rank) : cmp a b = compare a.rank b.rank := by
  cases a with
  | object x =>
      cases b with
      | object y => exact absurd rfl h
      | _ => rfl
  | union as =>
      cases b with
      | union bs => exact absurd rfl h
      | _ => rfl
  | _ => cases b <;> rfl

/-- Words of types with different constructors differ in their first mark. -/
theorem compare_code_append_of_rank_ne {a b : Ty} (h : a.rank ≠ b.rank) (xs ys : List Mark) :
    compare (a.code ++ xs) (b.code ++ ys) = (cmp a b).then (compare xs ys) := by
  obtain ⟨key, rest, ha⟩ := a.code_eq_cons
  obtain ⟨key', rest', hb⟩ := b.code_eq_cons
  have hrank : compare (a.rank + 1) (b.rank + 1) = compare a.rank b.rank := by
    simp only [Nat.compare_eq_ite_lt, Nat.add_lt_add_iff_right]
  have hne : compare a.rank b.rank ≠ .eq := fun heq => h (LawfulEqOrd.eq_of_compare heq)
  rw [ha, hb, List.cons_append, List.cons_append, List.compare_cons_cons, Mark.compare_def, hrank,
    cmp_of_rank_ne h]
  cases hcompare : compare a.rank b.rank with
  | eq => exact absurd hcompare hne
  | lt => rfl
  | gt => rfl

theorem compare_stop_code (t : Ty) (xs ys : List Mark) :
    compare (Mark.stop :: xs) (t.code ++ ys) = .lt := by
  obtain ⟨key, rest, ht⟩ := t.code_eq_cons
  have hrank : compare 0 (t.rank + 1) = .lt := Nat.compare_eq_lt.2 (Nat.succ_pos _)
  rw [ht, List.cons_append, List.compare_cons_cons, Mark.compare_def, Mark.stop, hrank]
  rfl

mutual

/-- Comparing two texts that begin with the words of types is comparing the
types first. -/
theorem compare_code_append (a b : Ty) (xs ys : List Mark) :
    compare (a.code ++ xs) (b.code ++ ys) = (cmp a b).then (compare xs ys) := by
  by_cases h : a.rank = b.rank
  · cases a with
    | object x =>
        cases b with
        | object y => simp [code, cmp, Mark.compare_def, ClassName.compare_def]
        | _ => cases h
    | union as =>
        cases b with
        | union bs => simp [code, cmp, compare_codeMembers_append]
        | _ => cases h
    | _ => cases b <;> cases h; simp [code, cmp]
  · exact compare_code_append_of_rank_ne h xs ys

theorem compare_codeMembers_append (as bs : List Ty) (xs ys : List Mark) :
    compare (codeMembers as ++ xs) (codeMembers bs ++ ys) =
      (cmpMembers as bs).then (compare xs ys) := by
  cases as with
  | nil =>
      cases bs with
      | nil => simp [codeMembers, cmpMembers]
      | cons b bs =>
          rw [codeMembers, codeMembers, List.append_assoc, List.singleton_append, compare_stop_code,
            cmpMembers]
          rfl
  | cons a as =>
      cases bs with
      | nil =>
          rw [codeMembers, codeMembers, List.append_assoc, List.singleton_append,
            OrientedCmp.gt_iff_lt.2 (compare_stop_code a ys _), cmpMembers]
          rfl
      | cons b bs =>
          rw [codeMembers, codeMembers, List.append_assoc, List.append_assoc, compare_code_append,
            compare_codeMembers_append, cmpMembers, Ordering.then_assoc]

end

theorem cmp_eq_compare_code (a b : Ty) : cmp a b = compare a.code b.code := by
  have h := compare_code_append a b [] []
  rw [List.append_nil, List.append_nil] at h
  rw [h]
  cases cmp a b <;> rfl

instance : TransCmp cmp := by
  have h : cmp = compareOn code := funext fun a => funext fun b => cmp_eq_compare_code a b
  rw [h]
  infer_instance

/-! ## Ties -/

theorem rank_eq_of_beq {a b : Ty} (h : beq a b = true) : a.rank = b.rank := by
  cases a with
  | object x =>
      cases b with
      | object y => rfl
      | _ => exact eq_of_beq h
  | union as =>
      cases b with
      | union bs => rfl
      | _ => exact eq_of_beq h
  | _ => cases b <;> exact eq_of_beq h

mutual

theorem cmp_eq_eq_iff (a b : Ty) : cmp a b = .eq ↔ beq a b = true := by
  by_cases h : a.rank = b.rank
  · cases a with
    | object x =>
        cases b with
        | object y => simp [cmp, beq, ClassName.compare_def, ClassName.beq_iff]
        | _ => cases h
    | union as =>
        cases b with
        | union bs => exact cmpMembers_eq_eq_iff as bs
        | _ => cases h
    | _ => cases b <;> cases h; simp [cmp, beq]
  · have hcmp : cmp a b ≠ .eq := by
      rw [cmp_of_rank_ne h]
      exact fun heq => h (LawfulEqOrd.eq_of_compare heq)
    exact iff_of_false hcmp fun heq => h (rank_eq_of_beq heq)

theorem cmpMembers_eq_eq_iff (as bs : List Ty) :
    cmpMembers as bs = .eq ↔ beqMembers as bs = true := by
  cases as with
  | nil => cases bs <;> simp [cmpMembers, beqMembers]
  | cons a as =>
      cases bs with
      | nil => simp [cmpMembers, beqMembers]
      | cons b bs =>
          rw [cmpMembers, beqMembers, Ordering.then_eq_eq, Bool.and_eq_true, cmp_eq_eq_iff,
            cmpMembers_eq_eq_iff]

end

instance : LawfulBEqCmp cmp where
  compare_eq_iff_beq {a b} := cmp_eq_eq_iff a b

/-- Types are equal if their words are. -/
theorem beq_iff_code_eq {a b : Ty} : (a == b) = true ↔ a.code = b.code := by
  rw [beq_def, ← cmp_eq_eq_iff, cmp_eq_compare_code, LawfulEqOrd.compare_eq_iff_eq]

instance : EquivBEq Ty where
  rfl := beq_iff_code_eq.2 rfl
  symm h := beq_iff_code_eq.2 (beq_iff_code_eq.1 h).symm
  trans h h' := beq_iff_code_eq.2 ((beq_iff_code_eq.1 h).trans (beq_iff_code_eq.1 h'))

/-! ## Spellings -/

/-- The second type is the first one with other spellings of the same class names. -/
inductive Respelled : Ty → Ty → Prop where
  | refl (t : Ty) : Respelled t t
  | object {x y : ClassName} : x.key = y.key → Respelled (.object x) (.object y)
  | union {as bs : List Ty} : List.Forall₂ Respelled as bs → Respelled (.union as) (.union bs)

mutual

theorem Respelled.of_beq {a b : Ty} (h : beq a b = true) : Respelled a b := by
  cases a with
  | object x =>
      cases b with
      | object y => exact .object (ClassName.beq_iff.1 h)
      | _ => cases rank_eq_of_beq h
  | union as =>
      cases b with
      | union bs => exact .union (forall₂_respelled_of_beqMembers h)
      | _ => cases rank_eq_of_beq h
  | _ => cases b <;> first | exact .refl _ | cases rank_eq_of_beq h

theorem forall₂_respelled_of_beqMembers {as bs : List Ty} (h : beqMembers as bs = true) :
    List.Forall₂ Respelled as bs := by
  cases as with
  | nil =>
      cases bs with
      | nil => exact .nil
      | cons b bs => cases h
  | cons a as =>
      cases bs with
      | nil => cases h
      | cons b bs =>
          obtain ⟨hhead, htail⟩ := Bool.and_eq_true_iff.1 h
          exact .cons (.of_beq hhead) (forall₂_respelled_of_beqMembers htail)

end

mutual

theorem Respelled.beq {a b : Ty} (h : Respelled a b) : beq a b = true := by
  cases h with
  | refl => exact BEq.rfl (α := Ty)
  | object hkey => exact ClassName.beq_iff.2 hkey
  | union hmembers => exact beqMembers_of_forall₂_respelled hmembers

theorem beqMembers_of_forall₂_respelled {as bs : List Ty} (h : List.Forall₂ Respelled as bs) :
    beqMembers as bs = true := by
  cases h with
  | nil => rfl
  | cons hhead htail =>
      exact Bool.and_eq_true_iff.2 ⟨hhead.beq, beqMembers_of_forall₂_respelled htail⟩

end

/-- Types are equal if they differ in the spellings of class names alone. -/
theorem beq_iff_respelled {a b : Ty} : (a == b) = true ↔ Respelled a b :=
  ⟨.of_beq, Respelled.beq⟩

theorem Respelled.cmp_eq {a a' b b' : Ty} (ha : Respelled a a') (hb : Respelled b b') :
    cmp a b = cmp a' b' := by
  rw [cmp_eq_compare_code, cmp_eq_compare_code, beq_iff_code_eq.1 (beq_iff_respelled.2 ha),
    beq_iff_code_eq.1 (beq_iff_respelled.2 hb)]

/-- The canonical order is a total order of all types, whatever is in their unions.
Its ties are the equal types, those that differ in spellings alone, and it depends on
the keys of class names only. -/
theorem cmp_total_order (a b c : Ty) :
    (cmp a b = .eq ↔ (a == b) = true) ∧
      cmp b a = (cmp a b).swap ∧
      ((cmp a b).isLE = true → (cmp b a).isLE = true → (a == b) = true) ∧
      ((cmp a b).isLE = true → (cmp b c).isLE = true → (cmp a c).isLE = true) ∧
      (cmp a b = .lt → cmp b c = .lt → cmp a c = .lt) ∧
      ((cmp a b).isLE = true ∨ (cmp b a).isLE = true) ∧
      (∀ x y : ClassName, cmp (.object x) (.object y) = compare x.key y.key ∧
        (Ty.object x == .object y) = (x.key == y.key)) ∧
      ((a == b) = true ↔ Respelled a b) ∧
      ∀ a' b', Respelled a a' → Respelled b b' → cmp a b = cmp a' b' ∧ (a == b) = (a' == b') := by
  have hswap : cmp b a = (cmp a b).swap := OrientedCmp.eq_swap
  refine ⟨cmp_eq_eq_iff a b, hswap, ?_, TransCmp.isLE_trans, TransCmp.lt_trans, ?_,
    fun x y => ⟨rfl, rfl⟩, beq_iff_respelled, ?_⟩
  · intro hab hba
    exact (cmp_eq_eq_iff a b).1 (OrientedCmp.isLE_antisymm hab hba)
  · rw [hswap]
    cases cmp a b with
    | lt => exact Or.inl rfl
    | eq => exact Or.inl rfl
    | gt => exact Or.inr rfl
  · intro a' b' ha hb
    have hcmp := ha.cmp_eq hb
    rw [Bool.eq_iff_iff, beq_def, beq_def, ← cmp_eq_eq_iff, ← cmp_eq_eq_iff, hcmp]
    exact ⟨rfl, Iff.rfl⟩

/-- Unions inside unions, of different lengths and with `mixed` among the members,
the first two with the same class spelled differently. -/
theorem cmp_total_order_nested :
    let a := union [union [.int, ofClass "Cat"], .mixed]
    let a' := union [union [.int, ofClass "\\cat"], .mixed]
    let b := union [union [.int, ofClass "CAT"], .mixed, .null]
    let c := union [union [.int, ofClass "Dog"]]
    cmp a b = .lt ∧ cmp b c = .lt ∧ cmp a c = .lt ∧ (a == a') = true ∧ Respelled a a' ∧
      cmp a' b = .lt := by
  intro a a' b c
  have hab : cmp a b = .lt := by decide
  have hbc : cmp b c = .lt := by decide
  obtain ⟨-, -, -, -, htrans, -⟩ := cmp_total_order a b c
  obtain ⟨-, -, hantisymm, -, -, -, -, hrespelled, -⟩ := cmp_total_order a a' a
  have hequal : (a == a') = true := hantisymm (by decide) (by decide)
  obtain ⟨-, -, -, -, -, -, -, -, hkeys⟩ := cmp_total_order a b c
  have hcmp := (hkeys a' b (hrespelled.1 hequal) (.refl b)).1
  exact ⟨hab, hbc, htrans hab hbc, hequal, hrespelled.1 hequal, hcmp ▸ hab⟩

end Ty

end RedundantCast
