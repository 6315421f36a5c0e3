/-!
# Slices at byte offsets

A text is cut at an offset that counts the bytes of its UTF-8 form. There is nothing
to cut off at an offset behind the text or inside one of its characters.
-/

namespace RedundantCast.Text

/-- How many bytes a text takes. -/
def byteLength : List Char → Nat
  | [] => 0
  | c :: cs => c.utf8Size + byteLength cs

@[simp] theorem byteLength_nil : byteLength [] = 0 := rfl

@[simp] theorem byteLength_cons (c : Char) (cs : List Char) :
    byteLength (c :: cs) = c.utf8Size + byteLength cs := rfl

/-- The two parts of a text before and behind an offset, if it can be cut there. -/
def splitAtByte? : Nat → List Char → Option (List Char × List Char)
  | 0, cs => some ([], cs)
  | _ + 1, [] => none
  | n + 1, c :: cs =>
    if c.utf8Size ≤ n + 1 then
      (splitAtByte? (n + 1 - c.utf8Size) cs).map fun parts => (c :: parts.1, parts.2)
    else none

@[simp] theorem splitAtByte?_zero (cs : List Char) : splitAtByte? 0 cs = some ([], cs) := by
  cases cs <;> rfl

@[simp] theorem splitAtByte?_succ_nil (n : Nat) : splitAtByte? (n + 1) [] = none := rfl

theorem splitAtByte?_succ_cons (n : Nat) (c : Char) (cs : List Char) :
    splitAtByte? (n + 1) (c :: cs) =
      if c.utf8Size ≤ n + 1 then
        (splitAtByte? (n + 1 - c.utf8Size) cs).map fun parts => (c :: parts.1, parts.2)
      else none := rfl

/-- A text can be cut at an offset exactly if some of its characters take so many
bytes together. -/
theorem splitAtByte?_eq_some_iff {n : Nat} {cs as bs : List Char} :
    splitAtByte? n cs = some (as, bs) ↔ as ++ bs = cs ∧ byteLength as = n := by
  induction cs generalizing n as with
  | nil =>
    cases n with
    | zero =>
      cases as with
      | nil => simp [eq_comm]
      | cons a as => simp
    | succ n =>
      cases as with
      | nil => simp
      | cons a as => simp
  | cons c cs ih =>
    have hpos := Char.utf8Size_pos c
    cases n with
    | zero =>
      cases as with
      | nil => simp [eq_comm]
      | cons a as =>
        have hposa := Char.utf8Size_pos a
        simp only [splitAtByte?_zero, Option.some.injEq, Prod.mk.injEq, byteLength_cons]
        exact iff_of_false (fun h => nomatch h.1) (by omega)
    | succ n =>
      rw [splitAtByte?_succ_cons]
      cases as with
      | nil =>
        refine iff_of_false ?_ (by simp)
        split <;> simp
      | cons a as =>
        split
        · next hle =>
          have hih := @ih (n + 1 - c.utf8Size) as
          simp only [Option.map_eq_some_iff, Prod.exists, Prod.mk.injEq, List.cons.injEq,
            List.cons_append, byteLength_cons]
          constructor
          · rintro ⟨as', bs', hsplit, ⟨rfl, rfl⟩, rfl⟩
            obtain ⟨hcs, hbytes⟩ := hih.1 hsplit
            exact ⟨⟨rfl, hcs⟩, by omega⟩
          · rintro ⟨⟨rfl, hcs⟩, hbytes⟩
            exact ⟨as, bs, hih.2 ⟨hcs, by omega⟩, ⟨rfl, rfl⟩, rfl⟩
        · next hlt =>
          refine iff_of_false (by simp) ?_
          simp only [List.cons_append, List.cons.injEq, byteLength_cons]
          rintro ⟨⟨rfl, -⟩, hbytes⟩
          omega

end RedundantCast.Text
