import Mathlib.Data.Nat.Digits.Defs
import RedundantCast.Proofs.Text.LetterCase
import RedundantCast.Text.Digits

/-!
# Digits and the numbers they denote

A text is read as a number exactly if it spells a nonempty list of digits below the
radix, in either letter case. The number is the sum of the digits times powers of the
radix, however many there are and however many of them are leading zeros.
-/

namespace RedundantCast.Text

variable {radix d n value : Nat} {c : Char} {cs : List Char}

/-- The character is a digit below the radix, in either letter case. -/
def IsDigit (radix : Nat) (c : Char) : Prop :=
  ∃ d < radix, c.toLower = Nat.digitChar d

/-- The text spells some digits below the radix, and the number is their value. -/
def Denotes (radix : Nat) (cs : List Char) (value : Nat) : Prop :=
  cs ≠ [] ∧ ∃ ds : List Nat, (∀ d ∈ ds, d < radix) ∧ lower cs = ds.map Nat.digitChar ∧
    value = Nat.ofDigits radix ds.reverse

/-! ## One digit -/

theorem digit?_ascii : ∀ n < 128, ∀ d < 16,
    digit? (Char.ofNat n) = some d ↔ (Char.ofNat n).toLower = Nat.digitChar d := by
  decide +kernel

theorem bounds_of_digit? (h : digit? c = some d) : c.toNat < 128 ∧ d < 16 := by
  have hle : ∀ a b : Char, a ≤ b → a.toNat ≤ b.toNat := fun _ _ hab => hab
  rw [digit?] at h
  split at h
  · next hdigit =>
    have hrange : 48 ≤ c.toNat ∧ c.toNat ≤ 57 := by
      simpa [Char.isDigit, UInt32.le_iff_toNat_le] using hdigit
    have hd : c.toNat - 48 = d := Option.some.inj h
    omega
  · split at h
    · next hrange =>
      have hlow := hle _ _ hrange.1
      have hhigh := hle _ _ hrange.2
      have hd : c.toNat - 97 + 10 = d := Option.some.inj h
      simp only [Char.reduceToNat] at hlow hhigh
      omega
    · split at h
      · next hrange =>
        have hlow := hle _ _ hrange.1
        have hhigh := hle _ _ hrange.2
        have hd : c.toNat - 65 + 10 = d := Option.some.inj h
        simp only [Char.reduceToNat] at hlow hhigh
        omega
      · cases h

theorem toNat_lt_of_toLower_eq_digitChar (hd : d < 16) (h : c.toLower = Nat.digitChar d) :
    c.toNat < 128 := by
  have hdigits : ∀ d < 16, (Nat.digitChar d).toNat < 128 := by decide
  rcases toLower_cases c with hsame | ⟨hupper, -⟩
  · rw [← hsame, h]
    exact hdigits d hd
  · have hrange := isUpper_iff.1 hupper
    omega

theorem digit?_eq_some_iff : digit? c = some d ↔ d < 16 ∧ c.toLower = Nat.digitChar d := by
  have hascii : c.toNat < 128 → d < 16 → (digit? c = some d ↔ c.toLower = Nat.digitChar d) := by
    intro hc hd
    have htable := digit?_ascii c.toNat hc d hd
    rwa [Char.ofNat_toNat] at htable
  constructor
  · intro h
    obtain ⟨hc, hd⟩ := bounds_of_digit? h
    exact ⟨hd, (hascii hc hd).1 h⟩
  · rintro ⟨hd, h⟩
    exact (hascii (toNat_lt_of_toLower_eq_digitChar hd h) hd).2 h

theorem digitBelow?_eq_some_iff (hradix : radix ≤ 16) :
    digitBelow? radix c = some d ↔ d < radix ∧ c.toLower = Nat.digitChar d := by
  rw [digitBelow?, Option.filter_eq_some_iff, digit?_eq_some_iff, decide_eq_true_iff]
  constructor
  · rintro ⟨⟨-, hc⟩, hd⟩
    exact ⟨hd, hc⟩
  · rintro ⟨hd, hc⟩
    exact ⟨⟨Nat.lt_of_lt_of_le hd hradix, hc⟩, hd⟩

theorem digitBelow?_eq_none_iff (hradix : radix ≤ 16) :
    digitBelow? radix c = none ↔ ¬ IsDigit radix c := by
  rw [Option.eq_none_iff_forall_ne_some, IsDigit, not_exists]
  exact forall_congr' fun d => not_congr (digitBelow?_eq_some_iff hradix)

/-! ## Numbers -/

/-- The digits that are read go behind those of the number so far. -/
theorem numberFrom?_eq_some_iff (hradix : radix ≤ 16) :
    numberFrom? radix n cs = some value ↔
      ∃ ds : List Nat, (∀ d ∈ ds, d < radix) ∧ lower cs = ds.map Nat.digitChar ∧
        value = Nat.ofDigits radix (ds.reverse ++ [n]) := by
  induction cs generalizing n with
  | nil =>
      constructor
      · intro h
        refine ⟨[], by simp, rfl, ?_⟩
        simpa [numberFrom?, eq_comm] using h
      · rintro ⟨ds, -, hds, rfl⟩
        obtain rfl : ds = [] := List.map_eq_nil_iff.1 hds.symm
        simp [numberFrom?]
  | cons c cs ih =>
      rw [numberFrom?]
      have hstep : ∀ (d : Nat) (ds : List Nat),
          Nat.ofDigits radix ((d :: ds).reverse ++ [n]) =
            Nat.ofDigits radix (ds.reverse ++ [n * radix + d]) := by
        intro d ds
        simp only [List.reverse_cons, List.append_assoc, List.singleton_append, Nat.ofDigits_append,
          Nat.ofDigits_cons, Nat.ofDigits_nil]
        simp only [Nat.mul_zero, Nat.add_zero, Nat.mul_comm radix n, Nat.add_comm d]
      constructor
      · intro h
        cases hd : digitBelow? radix c with
        | none => rw [hd] at h; cases h
        | some d =>
            rw [hd] at h
            obtain ⟨ds, hlt, hspell, rfl⟩ := ih.1 h
            obtain ⟨hdlt, hc⟩ := (digitBelow?_eq_some_iff hradix).1 hd
            refine ⟨d :: ds, List.forall_mem_cons.2 ⟨hdlt, hlt⟩, ?_, (hstep d ds).symm⟩
            rw [lower_cons, hspell, hc, List.map_cons]
      · rintro ⟨ds, hlt, hspell, rfl⟩
        cases ds with
        | nil => cases hspell
        | cons d ds =>
            obtain ⟨hdlt, hlt⟩ := List.forall_mem_cons.1 hlt
            obtain ⟨hc, hspell⟩ := List.cons.inj hspell
            rw [(digitBelow?_eq_some_iff hradix).2 ⟨hdlt, hc⟩]
            exact ih.2 ⟨ds, hlt, hspell, hstep d ds⟩

theorem numberFrom?_eq_none_iff (hradix : radix ≤ 16) :
    numberFrom? radix n cs = none ↔ ∃ c ∈ cs, ¬ IsDigit radix c := by
  induction cs generalizing n with
  | nil => simp [numberFrom?]
  | cons c cs ih =>
      simp only [numberFrom?, List.mem_cons, exists_eq_or_imp, ← digitBelow?_eq_none_iff hradix]
      cases hd : digitBelow? radix c with
      | none => simp
      | some d => simpa [digitBelow?_eq_none_iff hradix] using ih

theorem number?_cons (radix : Nat) (c : Char) (cs : List Char) :
    number? radix (c :: cs) = numberFrom? radix 0 (c :: cs) := rfl

theorem number?_eq_some_iff (hradix : radix ≤ 16) :
    number? radix cs = some value ↔ Denotes radix cs value := by
  cases cs with
  | nil => simp [Denotes]
  | cons c cs =>
      rw [number?_cons, numberFrom?_eq_some_iff hradix, Denotes,
        and_iff_right (List.cons_ne_nil c cs)]
      simp only [Nat.ofDigits_append, Nat.ofDigits_singleton, Nat.mul_zero, Nat.add_zero]

theorem number?_eq_none_iff (hradix : radix ≤ 16) :
    number? radix cs = none ↔ cs = [] ∨ ∃ c ∈ cs, ¬ IsDigit radix c := by
  cases cs with
  | nil => simp
  | cons c cs =>
      rw [number?_cons, numberFrom?_eq_none_iff hradix, or_iff_right (List.cons_ne_nil c cs)]

end RedundantCast.Text
