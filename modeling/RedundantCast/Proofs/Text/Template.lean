import Mathlib.Data.List.Infix
import RedundantCast.Text.Template

/-!
# Placeholders

A pass over a text leaves a part of it alone unless the pattern starts there. The
placeholders of two arguments never run into each other.
-/

namespace RedundantCast.Text

variable {pattern replacement as bs cs : List Char} {c : Char} {i j : Nat}

/-! ## Replacing a pattern -/

theorem replaceFrom_eq_replaceAll_drop (pattern replacement : List Char) (skip : Nat)
    (cs : List Char) :
    replaceFrom pattern replacement skip cs = replaceAll pattern replacement (cs.drop skip) := by
  induction cs generalizing skip with
  | nil => cases skip <;> rfl
  | cons c cs ih =>
      cases skip with
      | zero => rfl
      | succ skip => exact ih skip

theorem replaceAll_cons_of_not_start (h : ¬ pattern <+: c :: cs) :
    replaceAll pattern replacement (c :: cs) = c :: replaceAll pattern replacement cs := by
  have hpattern : pattern.isPrefixOf (c :: cs) = false := by
    rw [Bool.eq_false_iff, ne_eq, List.isPrefixOf_iff_prefix]
    exact h
  rw [replaceAll, replaceFrom, if_neg (by simp [hpattern]), replaceAll]

/-- Text in which no occurrence of the pattern starts is left as it is. -/
theorem replaceAll_append (h : ∀ n < as.length, ¬ pattern <+: (as ++ bs).drop n) :
    replaceAll pattern replacement (as ++ bs) = as ++ replaceAll pattern replacement bs := by
  induction as with
  | nil => rfl
  | cons a as ih =>
      have hfirst : ¬ pattern <+: a :: (as ++ bs) := h 0 (Nat.succ_pos _)
      have hrest : ∀ n < as.length, ¬ pattern <+: (as ++ bs).drop n := by
        intro n hn
        exact h (n + 1) (Nat.succ_lt_succ hn)
      rw [List.cons_append, replaceAll_cons_of_not_start hfirst, ih hrest, List.cons_append]

theorem replaceAll_append_self (hpattern : pattern ≠ []) (replacement cs : List Char) :
    replaceAll pattern replacement (pattern ++ cs) =
      replacement ++ replaceAll pattern replacement cs := by
  cases pattern with
  | nil => exact absurd rfl hpattern
  | cons a as =>
      have hprefix : (a :: as).isPrefixOf (a :: (as ++ cs)) = true := by
        rw [List.isPrefixOf_iff_prefix]
        exact List.prefix_append (a :: as) cs
      rw [List.cons_append, replaceAll, replaceFrom, if_pos hprefix, replaceFrom_eq_replaceAll_drop]
      simp

/-! ## Placeholders -/

theorem isDigit_of_mem_toDigits (h : c ∈ Nat.toDigits 10 i) : c.isDigit = true :=
  Nat.isDigit_of_mem_toDigits (by decide) (by decide) h

theorem toDigits_injective (h : Nat.toDigits 10 i = Nat.toDigits 10 j) : i = j := by
  have hvalue := congrArg (Nat.ofDigitChars 10 · 0) h
  simpa [Nat.ofDigitChars_toDigits] using hvalue

theorem placeholder_eq_cons (i : Nat) : placeholder i = '\x7b' :: (placeholder i).tail := rfl

theorem placeholder_ne_nil (i : Nat) : placeholder i ≠ [] :=
  List.cons_ne_nil _ _

theorem length_placeholder_pos (i : Nat) : 0 < (placeholder i).length :=
  List.length_pos_iff.2 (placeholder_ne_nil i)

theorem opening_not_mem_tail_placeholder (i : Nat) : '\x7b' ∉ (placeholder i).tail := by
  intro h
  rcases List.mem_append.1 h with hdigit | hclosing
  · exact absurd (isDigit_of_mem_toDigits hdigit) (by decide)
  · exact absurd hclosing (by decide)

theorem getElem?_last_placeholder (i : Nat) :
    (placeholder i)[(placeholder i).length - 1]? = some '\x7d' := by
  rw [← List.getLast?_eq_getElem?, placeholder, List.getLast?_concat]

theorem isDigit_of_getElem?_placeholder {q : Nat} (hfirst : 0 < q)
    (hlast : q + 1 < (placeholder i).length) (h : (placeholder i)[q]? = some c) :
    c.isDigit = true := by
  obtain ⟨q, rfl⟩ := Nat.exists_eq_succ_of_ne_zero hfirst.ne'
  have hdigits : q < (Nat.toDigits 10 i).length := by
    simpa [placeholder] using hlast
  have hq : (Nat.toDigits 10 i)[q]? = some c := by
    rw [← h, placeholder, List.cons_append, List.getElem?_cons_succ,
      List.getElem?_append_left hdigits]
  exact isDigit_of_mem_toDigits (List.mem_of_getElem? hq)

/-- No placeholder starts with another one. -/
theorem eq_of_placeholder_starts (h : placeholder i <+: placeholder j ++ cs) : i = j := by
  have hdigits : ∀ (k : Nat) (ds : List Char),
      (Nat.toDigits 10 k ++ '\x7d' :: ds).takeWhile Char.isDigit = Nat.toDigits 10 k := by
    intro k ds
    rw [List.takeWhile_append_of_pos fun d hd => isDigit_of_mem_toDigits hd]
    simp
  obtain ⟨rest, hrest⟩ := h
  have htails : Nat.toDigits 10 i ++ '\x7d' :: rest = Nat.toDigits 10 j ++ '\x7d' :: cs := by
    simpa [placeholder] using hrest
  apply toDigits_injective
  rw [← hdigits i rest, htails, hdigits]

/-- No placeholder starts inside another one. -/
theorem not_prefix_drop_placeholder (hne : i ≠ j) :
    ∀ n < (placeholder j).length, ¬ placeholder i <+: (placeholder j ++ cs).drop n := by
  intro n hn hprefix
  cases n with
  | zero => exact hne (eq_of_placeholder_starts hprefix)
  | succ n =>
      have htail : (placeholder j).tail[n]? = some '\x7b' := by
        obtain ⟨rest, hrest⟩ := hprefix
        have hfirst := congrArg List.head? hrest
        rw [List.head?_drop, List.getElem?_append_left hn, ← List.getElem?_tail] at hfirst
        exact hfirst.symm
      exact opening_not_mem_tail_placeholder j (List.mem_of_getElem? htail)

end RedundantCast.Text
