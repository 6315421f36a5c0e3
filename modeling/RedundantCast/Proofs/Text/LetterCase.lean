import RedundantCast.Text.Blank
import RedundantCast.Text.LetterCase

/-!
# Letter case and the parts of a text

Lowering the letters of a text twice is lowering them once. What is cut off a
text because it is no letter is cut off in any letter case.
-/

namespace RedundantCast.Text

theorem isUpper_iff {c : Char} : c.isUpper ↔ 65 ≤ c.toNat ∧ c.toNat ≤ 90 :=
  decide_eq_true_iff

theorem isLower_iff {c : Char} : c.isLower ↔ 97 ≤ c.toNat ∧ c.toNat ≤ 122 := by
  change (decide (c.val ≥ 'a'.val) && decide (c.val ≤ 'z'.val)) = true ↔ _
  rw [Bool.and_eq_true, decide_eq_true_iff, decide_eq_true_iff]
  exact Iff.rfl

theorem toNat_toLower {c : Char} (h : c.isUpper) : c.toLower.toNat = c.toNat + 32 := by
  have hrange := isUpper_iff.1 h
  have hlower : c.toLower = ⟨c.val + ('a'.val - 'A'.val), _⟩ := dif_pos hrange
  have hsum : c.toLower.toNat = (c.toNat + 32) % 4294967296 := by
    rw [hlower]
    rfl
  omega

theorem toLower_cases (c : Char) : c.toLower = c ∨ c.isUpper ∧ c.toLower.isLower := by
  cases h : c.isUpper with
  | false =>
      left
      apply dif_neg
      intro hrange
      have hupper : c.isUpper := isUpper_iff.2 hrange
      rw [h] at hupper
      cases hupper
  | true =>
      have hrange := isUpper_iff.1 h
      have hsum := toNat_toLower h
      exact Or.inr ⟨rfl, isLower_iff.2 (by omega)⟩

@[simp] theorem toLower_toLower (c : Char) : c.toLower.toLower = c.toLower := by
  rcases toLower_cases c with h | ⟨-, hlower⟩
  · rw [h, h]
  · rcases toLower_cases c.toLower with h | ⟨hupper, -⟩
    · exact h
    · have hlow := isLower_iff.1 hlower
      have hup := isUpper_iff.1 hupper
      omega

/-- A test that no letter passes does not see letter case. -/
theorem test_toLower {p : Char → Bool} (hp : ∀ c : Char, c.isAlpha → p c = false) (c : Char) :
    p c.toLower = p c := by
  rcases toLower_cases c with h | ⟨hupper, hlower⟩
  · rw [h]
  · have hletter : c.isAlpha := Bool.or_eq_true_iff.2 (Or.inl hupper)
    have hletter' : c.toLower.isAlpha := Bool.or_eq_true_iff.2 (Or.inr hlower)
    rw [hp c hletter, hp c.toLower hletter']

theorem isBlank_of_isAlpha (c : Char) (h : c.isAlpha) : isBlank c = false := by
  have hrange : 65 ≤ c.toNat ∧ c.toNat ≤ 122 := by
    rcases Bool.or_eq_true_iff.1 h with hupper | hlower
    · have hup := isUpper_iff.1 hupper
      omega
    · have hlow := isLower_iff.1 hlower
      omega
  simp only [isBlank, Bool.or_eq_false_iff, Bool.and_eq_false_iff, decide_eq_false_iff_not,
    beq_eq_false_iff_ne]
  omega

@[simp] theorem lower_lower (cs : List Char) : lower (lower cs) = lower cs := by
  simp [lower]

@[simp] theorem lowered_lowered (s : String) : lowered (lowered s) = lowered s := by
  simp [lowered]

theorem dropWhile_lower {p : Char → Bool} (hp : ∀ c : Char, c.isAlpha → p c = false)
    (cs : List Char) : (lower cs).dropWhile p = lower (cs.dropWhile p) := by
  have htest : p ∘ Char.toLower = p := funext (test_toLower hp)
  rw [lower, List.dropWhile_map, htest, lower]

@[simp] theorem dropBackslashes_lower (cs : List Char) :
    dropBackslashes (lower cs) = lower (dropBackslashes cs) := by
  apply dropWhile_lower
  intro c hc
  rw [beq_eq_false_iff_ne]
  rintro rfl
  exact absurd hc (by decide)

theorem reverse_lower (cs : List Char) : (lower cs).reverse = lower cs.reverse :=
  List.map_reverse.symm

@[simp] theorem trim_lower (cs : List Char) : trim (lower cs) = lower (trim cs) := by
  have hblank : ∀ cs, (lower cs).dropWhile isBlank = lower (cs.dropWhile isBlank) :=
    dropWhile_lower isBlank_of_isAlpha
  rw [trim, trim, trimStart, trimStart, trimEnd_eq, trimEnd_eq, hblank, reverse_lower, hblank,
    reverse_lower]

@[simp] theorem trimmed_lowered (s : String) : trimmed (lowered s) = lowered (trimmed s) := by
  simp [trimmed, lowered]

end RedundantCast.Text
