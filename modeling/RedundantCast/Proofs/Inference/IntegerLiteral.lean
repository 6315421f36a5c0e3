import RedundantCast.Inference.SlicedLiteral
import RedundantCast.Proofs.Text.Digits

/-!
# Integer literals by value

A literal has a type exactly if its digits are digits of its radix and there is at
least one. The type then depends on nothing but the number they denote. The slices
that take the digits out of the text never fail, whatever the text is.
-/

namespace RedundantCast.IntegerLiteral

open Text

variable {c : Char} {cs digits : List Char} {radix : Nat}

/-- How a literal without underscores is made of a prefix for its radix and digits. -/
inductive Splits : List Char → Nat → List Char → Prop where
  | hexadecimal {c : Char} {cs : List Char} : c.toLower = 'x' → Splits ('0' :: c :: cs) 16 cs
  | binary {c : Char} {cs : List Char} : c.toLower = 'b' → Splits ('0' :: c :: cs) 2 cs
  | octal {c : Char} {cs : List Char} : c.toLower = 'o' → Splits ('0' :: c :: cs) 8 cs
  | leadingZero {c : Char} {cs : List Char} :
      c.toLower ∉ ['x', 'b', 'o'] → Splits ('0' :: c :: cs) 8 (c :: cs)
  | decimal {cs : List Char} : (∀ c rest, cs ≠ '0' :: c :: rest) → Splits cs 10 cs

theorem splits_radixAndDigits (cs : List Char) :
    Splits cs (radixAndDigits cs).1 (radixAndDigits cs).2 := by
  fun_cases radixAndDigits cs with
  | case1 c rest hc => exact .hexadecimal hc
  | case2 c rest hc => exact .binary hc
  | case3 c rest hc => exact .octal hc
  | case4 c rest hx hb ho => exact .leadingZero (by simpa using ⟨hx, hb, ho⟩)
  | case5 cs hcs => exact .decimal hcs

theorem Splits.eq (h : Splits cs radix digits) : radixAndDigits cs = (radix, digits) := by
  cases h with
  | hexadecimal hc | binary hc | octal hc => simp only [radixAndDigits, hc]
  | leadingZero hc =>
      simp only [List.mem_cons, List.not_mem_nil, or_false, not_or] at hc
      obtain ⟨hx, hb, ho⟩ := hc
      simp only [radixAndDigits]
  | decimal hcs =>
      simp only [radixAndDigits]

theorem Splits.radix_le (h : Splits cs radix digits) : radix ≤ 16 := by
  cases h <;> decide

/-! ## Slices -/

/-- A letter of a prefix takes one byte. -/
theorem utf8Size_of_mem_prefixes (hc : c.toLower ∈ ['x', 'b', 'o']) : c.utf8Size = 1 := by
  have hascii : c.toNat ≤ 127 := by
    rcases toLower_cases c with hsame | ⟨hupper, -⟩
    · rw [hsame] at hc
      simp only [List.mem_cons, List.not_mem_nil, or_false] at hc
      rcases hc with rfl | rfl | rfl <;> decide
    · have hrange := isUpper_iff.1 hupper
      omega
  exact Char.utf8Size_eq_one_iff.2 hascii

theorem firstBytes?_eq_some_iff {p : Char} (hp : p ∈ ['x', 'b', 'o']) :
    firstBytes? cs = some ['0', p] ↔ ∃ c rest, cs = '0' :: c :: rest ∧ c.toLower = p := by
  simp only [firstBytes?, Option.map_eq_some_iff, Prod.exists, splitAtByte?_eq_some_iff]
  constructor
  · rintro ⟨as, rest, ⟨rfl, -⟩, hlower⟩
    obtain ⟨a, bs, rfl, ha, hbs⟩ := List.map_eq_cons_iff.1 hlower
    obtain ⟨b, rfl, hb⟩ := List.map_eq_singleton_iff.1 hbs
    rcases toLower_cases a with hsame | ⟨-, hletter⟩
    · exact ⟨b, rest, by rw [← hsame, ha]; rfl, hb⟩
    · rw [ha] at hletter
      cases hletter
  · rintro ⟨c, rest, rfl, rfl⟩
    refine ⟨['0', c], rest, ⟨rfl, ?_⟩, rfl⟩
    rw [byteLength_cons, byteLength_cons, utf8Size_of_mem_prefixes hp]
    rfl

theorem digitsBehind?_append (offset radix : Nat) (as bs : List Char)
    (has : byteLength as = offset) : digitsBehind? offset radix (as ++ bs) = some (radix, bs) := by
  rw [digitsBehind?, splitAtByte?_eq_some_iff.2 ⟨rfl, has⟩, Option.map_some]

theorem digitsBehind?_mark (hc : c.toLower ∈ ['x', 'b', 'o']) (radix : Nat)
    (rest : List Char) : digitsBehind? 2 radix ('0' :: c :: rest) = some (radix, rest) := by
  refine digitsBehind?_append 2 radix ['0', c] rest ?_
  rw [byteLength_cons, byteLength_cons, utf8Size_of_mem_prefixes hc]
  rfl

theorem slicedRadixAndDigits?_mark (hc : c.toLower ∈ ['x', 'b', 'o']) (rest : List Char) :
    slicedRadixAndDigits? ('0' :: c :: rest) = some (radixAndDigits ('0' :: c :: rest)) := by
  have hfirst : firstBytes? ('0' :: c :: rest) = some ['0', c.toLower] :=
    (firstBytes?_eq_some_iff hc).2 ⟨c, rest, rfl, rfl⟩
  have hbehind := fun radix => digitsBehind?_mark hc radix rest
  rw [slicedRadixAndDigits?, hfirst]
  simp only [List.mem_cons, List.not_mem_nil, or_false] at hc
  rcases hc with hc | hc | hc <;> simp only [hc, hbehind, radixAndDigits]

theorem slicedRadixAndDigits?_of_firstBytes?_ne
    (h : ∀ p ∈ ['x', 'b', 'o'], firstBytes? cs ≠ some ['0', p]) :
    slicedRadixAndDigits? cs =
      if 1 < byteLength cs ∧ cs.head? = some '0' then digitsBehind? 1 8 cs else some (10, cs) := by
  rw [slicedRadixAndDigits?]
  split
  · next hx => exact absurd hx (h 'x' (by decide))
  · next hb => exact absurd hb (h 'b' (by decide))
  · next ho => exact absurd ho (h 'o' (by decide))
  · rfl

/-- No slice fails: two bytes are cut off only if they are a prefix, and one only if it
is a zero with something behind it. -/
theorem Splits.sliced (h : Splits cs radix digits) :
    slicedRadixAndDigits? cs = some (radix, digits) := by
  cases h with
  | hexadecimal hc | binary hc | octal hc =>
      rw [slicedRadixAndDigits?_mark (by simp [hc])]
      simp only [radixAndDigits, hc]
  | @leadingZero c rest hc =>
      have hne : ∀ p ∈ ['x', 'b', 'o'], firstBytes? ('0' :: c :: rest) ≠ some ['0', p] := by
        intro p hp hfirst
        obtain ⟨_, _, heq, rfl⟩ := (firstBytes?_eq_some_iff hp).1 hfirst
        cases heq
        exact hc hp
      have hlong : 1 < byteLength ('0' :: c :: rest) ∧ ('0' :: c :: rest).head? = some '0' := by
        have hzero := Char.utf8Size_pos '0'
        have hpos := Char.utf8Size_pos c
        refine ⟨?_, rfl⟩
        rw [byteLength_cons, byteLength_cons]
        omega
      rw [slicedRadixAndDigits?_of_firstBytes?_ne hne, if_pos hlong]
      exact digitsBehind?_append 1 8 ['0'] (c :: rest) rfl
  | decimal hcs =>
      have hne : ∀ p ∈ ['x', 'b', 'o'], firstBytes? cs ≠ some ['0', p] := by
        intro p hp hfirst
        obtain ⟨c, rest, heq, -⟩ := (firstBytes?_eq_some_iff hp).1 hfirst
        exact hcs c rest heq
      have hshort : ¬ (1 < byteLength cs ∧ cs.head? = some '0') := by
        rintro ⟨hlong, hhead⟩
        match cs with
        | [c] =>
            obtain rfl : c = '0' := by simpa using hhead
            exact absurd hlong (by decide)
        | c :: c' :: rest =>
            obtain rfl : c = '0' := by simpa using hhead
            exact hcs c' rest rfl
      rw [slicedRadixAndDigits?_of_firstBytes?_ne hne, if_neg hshort]

/-! ## Types -/

/-- A text is a literal exactly if its digits, behind the prefix for their radix, are
digits of it and not none, and then its type tells whether their value fits in 64
bits. No slice that takes them out of the text fails. -/
theorem type?_by_value (text : String) :
    ∃ radix digits,
      (∀ r ds, Splits (text.toList.filter (· != '_')) r ds ↔ r = radix ∧ ds = digits) ∧
      slicedRadixAndDigits? (text.toList.filter (· != '_')) = some (radix, digits) ∧
      (type? text = none ↔ digits = [] ∨ ∃ c ∈ digits, ¬ IsDigit radix c) ∧
      (type? text = some .int ↔ ∃ value, Denotes radix digits value ∧ value ≤ 2 ^ 63 - 1) ∧
      (type? text = some .float ↔ ∃ value, Denotes radix digits value ∧ 2 ^ 63 ≤ value) := by
  have htype : type? text = (number? (radixAndDigits (text.toList.filter (· != '_'))).1
      (radixAndDigits (text.toList.filter (· != '_'))).2).map
        fun value => if value ≤ maxInt then .int else .float := rfl
  generalize text.toList.filter (· != '_') = cs at htype ⊢
  have hradix : (radixAndDigits cs).1 ≤ 16 := (splits_radixAndDigits cs).radix_le
  refine ⟨(radixAndDigits cs).1, (radixAndDigits cs).2, fun r ds => ⟨fun h => ?_, ?_⟩,
    (splits_radixAndDigits cs).sliced, ?_, ?_, ?_⟩
  · simp [h.eq]
  · rintro ⟨rfl, rfl⟩
    exact splits_radixAndDigits cs
  · rw [htype, Option.map_eq_none_iff, number?_eq_none_iff hradix]
  · rw [htype, Option.map_eq_some_iff]
    simp only [number?_eq_some_iff hradix]
    refine exists_congr fun value => and_congr_right fun _ => ?_
    rw [ite_eq_left_iff]
    simp [maxInt]
  · rw [htype, Option.map_eq_some_iff]
    simp only [number?_eq_some_iff hradix]
    refine exists_congr fun value => and_congr_right fun _ => ?_
    rw [ite_eq_right_iff]
    simp [maxInt, Nat.lt_iff_add_one_le]

end RedundantCast.IntegerLiteral
