import Mathlib.Data.List.DropRight
import RedundantCast.Text.Blank

/-!
# Trimming

Blanks at the ends of a text do not count. A character that is not blank keeps
the two sides of a text apart: each is trimmed by itself.
-/

namespace RedundantCast.Text

variable {c : Char} {as bs cs : List Char}

theorem trimEnd_eq_rdropWhile (cs : List Char) : trimEnd cs = cs.rdropWhile isBlank :=
  trimEnd_eq cs

theorem trimStart_cons_of_isBlank (h : isBlank c) (cs : List Char) :
    trimStart (c :: cs) = trimStart cs :=
  List.dropWhile_cons_of_pos h

theorem trimStart_cons_of_not_isBlank (h : isBlank c = false) (cs : List Char) :
    trimStart (c :: cs) = c :: cs :=
  List.dropWhile_cons_of_neg (by simp [h])

theorem trimEnd_concat_of_isBlank (h : isBlank c) (cs : List Char) :
    trimEnd (cs ++ [c]) = trimEnd cs := by
  simp only [trimEnd_eq_rdropWhile, List.rdropWhile_concat_pos isBlank cs c h]

theorem trimStart_append (h : isBlank c = false) (as bs : List Char) :
    trimStart (as ++ c :: bs) = trimStart as ++ c :: bs := by
  induction as with
  | nil => exact trimStart_cons_of_not_isBlank h bs
  | cons a as ih =>
      cases ha : isBlank a with
      | true => rw [List.cons_append, trimStart_cons_of_isBlank ha, trimStart_cons_of_isBlank ha, ih]
      | false =>
          rw [List.cons_append, trimStart_cons_of_not_isBlank ha, trimStart_cons_of_not_isBlank ha,
            List.cons_append]

/-- Blanks at the end go before or after a character is put in front. -/
theorem trimEnd_cons_trimEnd (c : Char) (cs : List Char) :
    trimEnd (c :: trimEnd cs) = trimEnd (c :: cs) := by
  induction cs using List.reverseRecOn with
  | nil => rfl
  | append_singleton cs b ih =>
      cases hb : isBlank b with
      | true =>
          rw [trimEnd_concat_of_isBlank hb, ← List.cons_append, trimEnd_concat_of_isBlank hb, ih]
      | false =>
          have hkept : trimEnd (cs ++ [b]) = cs ++ [b] := by
            rw [trimEnd_eq_rdropWhile, List.rdropWhile_concat_neg isBlank cs b (by simp [hb])]
          rw [hkept]

theorem trimEnd_append (h : isBlank c = false) (as bs : List Char) :
    trimEnd (as ++ c :: bs) = as ++ c :: trimEnd bs := by
  induction bs using List.reverseRecOn with
  | nil =>
      rw [trimEnd_nil, trimEnd_eq_rdropWhile, List.rdropWhile_concat_neg isBlank as c (by simp [h])]
  | append_singleton bs b ih =>
      have hassoc : as ++ c :: (bs ++ [b]) = (as ++ c :: bs) ++ [b] := by simp
      rw [hassoc]
      cases hb : isBlank b with
      | true => rw [trimEnd_concat_of_isBlank hb, trimEnd_concat_of_isBlank hb, ih]
      | false =>
          simp only [trimEnd_eq_rdropWhile]
          rw [List.rdropWhile_concat_neg isBlank _ b (by simp [hb]),
            List.rdropWhile_concat_neg isBlank _ b (by simp [hb]), hassoc]

theorem trimEnd_eq_nil_iff : trimEnd cs = [] ↔ ∀ c ∈ cs, isBlank c = true := by
  rw [trimEnd_eq_rdropWhile]
  exact List.rdropWhile_eq_nil_iff

theorem trimEnd_cons (h : trimEnd cs ≠ []) (c : Char) : trimEnd (c :: cs) = c :: trimEnd cs := by
  obtain ⟨b, hb, hblank⟩ : ∃ b ∈ cs, isBlank b = false := by
    simpa [trimEnd_eq_nil_iff] using h
  obtain ⟨as, bs, rfl⟩ := List.append_of_mem hb
  rw [← List.cons_append, trimEnd_append hblank, trimEnd_append hblank, List.cons_append]

theorem mem_trimEnd_iff (h : isBlank c = false) : c ∈ trimEnd cs ↔ c ∈ cs := by
  constructor
  · intro hc
    rw [trimEnd_eq_rdropWhile] at hc
    exact (List.rdropWhile_prefix isBlank cs).subset hc
  · intro hc
    obtain ⟨as, bs, rfl⟩ := List.append_of_mem hc
    rw [trimEnd_append h]
    exact List.mem_append_right as List.mem_cons_self

theorem trim_append (h : isBlank c = false) (as bs : List Char) :
    trim (as ++ c :: bs) = trimStart as ++ c :: trimEnd bs := by
  rw [trim, trimStart_append h, trimEnd_append h]

theorem trim_cons_of_not_isBlank (h : isBlank c = false) (cs : List Char) :
    trim (c :: cs) = c :: trimEnd cs :=
  trim_append h [] cs

theorem trim_cons_of_isBlank (h : isBlank c) (cs : List Char) : trim (c :: cs) = trim cs := by
  rw [trim, trimStart_cons_of_isBlank h, trim]

/-- The two ends may be trimmed in either order. -/
theorem trimStart_trimEnd (cs : List Char) : trimStart (trimEnd cs) = trim cs := by
  by_cases h : ∃ c ∈ cs, isBlank c = false
  · obtain ⟨c, hc, hblank⟩ := h
    obtain ⟨as, bs, rfl⟩ := List.append_of_mem hc
    rw [trimEnd_append hblank, trimStart_append hblank, trim_append hblank]
  · have hall : ∀ c ∈ cs, isBlank c = true := by simpa using h
    have hstart : trimStart cs = [] := List.dropWhile_eq_nil_iff.2 hall
    have hend : trimEnd cs = [] := trimEnd_eq_nil_iff.2 hall
    rw [trim, hstart, hend, trimStart_nil, trimEnd_nil]

theorem trim_concat_of_isBlank (h : isBlank c) (cs : List Char) : trim (cs ++ [c]) = trim cs := by
  rw [← trimStart_trimEnd, trimEnd_concat_of_isBlank h, trimStart_trimEnd]

@[simp] theorem trimEnd_trimEnd (cs : List Char) : trimEnd (trimEnd cs) = trimEnd cs := by
  simp only [trimEnd_eq_rdropWhile]
  exact List.rdropWhile_idempotent isBlank cs

@[simp] theorem trim_trimStart (cs : List Char) : trim (trimStart cs) = trim cs := by
  rw [trim, trimStart, trimStart, List.dropWhile_idempotent]
  rfl

@[simp] theorem trim_trimEnd (cs : List Char) : trim (trimEnd cs) = trim cs := by
  rw [← trimStart_trimEnd, trimEnd_trimEnd, trimStart_trimEnd]

@[simp] theorem trim_trim (cs : List Char) : trim (trim cs) = trim cs := by
  rw [trim.eq_1 cs, trim_trimEnd, trim_trimStart, trim.eq_1]

/-! ## The ends of a trimmed text -/

theorem not_of_head?_dropWhile {p : Char → Bool} (h : (cs.dropWhile p).head? = some c) :
    p c = false := by
  have hfirst := List.head?_dropWhile_not p cs
  rw [h] at hfirst
  exact hfirst

theorem isBlank_of_head?_trim (h : (trim cs).head? = some c) : isBlank c = false := by
  rw [← trimStart_trimEnd] at h
  exact not_of_head?_dropWhile h

theorem isBlank_of_getLast?_trim (h : (trim cs).getLast? = some c) : isBlank c = false := by
  rw [trim, trimEnd_eq, List.getLast?_reverse] at h
  exact not_of_head?_dropWhile h

theorem trim_prefix_trimStart (cs : List Char) : trim cs <+: trimStart cs := by
  rw [trim, trimEnd_eq_rdropWhile]
  exact List.rdropWhile_prefix isBlank (trimStart cs)

theorem trim_suffix_trimEnd (cs : List Char) : trim cs <:+ trimEnd cs := by
  rw [← trimStart_trimEnd]
  exact List.dropWhile_suffix isBlank

theorem trim_infix_self (cs : List Char) : trim cs <:+: cs :=
  (trim_prefix_trimStart cs).isInfix.trans (List.dropWhile_suffix isBlank).isInfix

end RedundantCast.Text
