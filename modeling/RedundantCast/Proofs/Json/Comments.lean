import Mathlib.Data.List.TakeWhile
import RedundantCast.Json.Comments
import RedundantCast.Proofs.Json.Lexeme

/-!
# Stripping without what is already written

`stripFrom` edits the text it has written when it meets a closing bracket.  Seen
from the front, only a comma is edited, and only if nothing but blanks and
comments stands between it and a closing bracket.  Every part of the text is then
stripped by itself.
-/

namespace RedundantCast

namespace Json

namespace Comments

def isCloserChar (c : Char) : Bool :=
  c == ']' || c == '\x7d'

/-- Whether nothing but blanks and comments stands before the next closing
bracket. -/
def closesFrom : Mode → List Char → Bool
  | _, [] => false
  | .string _, _ :: _ => false
  | .lineComment, c :: cs =>
    if c = '\n' then closesFrom .code cs else closesFrom .lineComment cs
  | .blockComment star, c :: cs =>
    if star && c = '/' then closesFrom .code cs else closesFrom (.blockComment (c == '*')) cs
  | .code, '/' :: '/' :: cs => closesFrom .lineComment cs
  | .code, '/' :: '*' :: cs => closesFrom (.blockComment false) cs
  | .code, c :: cs => isCloserChar c || Text.isBlank c && closesFrom .code cs

/-- The text written so far, last character first, and the text after it.  A
comma between them goes if the second one closes a bracket. -/
def settle (written after : List Char) (closes : Bool) : List Char :=
  match closes, written.dropWhile Text.isBlank with
  | true, ',' :: rest => rest.reverse ++ after.dropWhile Text.isBlank
  | _, _ => written.reverse ++ after

variable {c : Char} {written after cs : List Char} {closes : Bool}

/-! ## What is written so far -/

@[simp] theorem settle_nil (after : List Char) (closes : Bool) :
    settle [] after closes = after := by
  cases closes <;> rfl

@[simp] theorem settle_false (written after : List Char) :
    settle written after false = written.reverse ++ after := rfl

theorem settle_cons_of_isBlank (h : Text.isBlank c) :
    settle (c :: written) after closes = settle written (c :: after) closes := by
  cases closes with
  | false => simp
  | true =>
      unfold settle
      rw [List.dropWhile_cons_of_pos h, List.dropWhile_cons_of_pos h]
      split <;> simp

theorem settle_cons_of_not_isBlank (h : Text.isBlank c = false) (hcomma : c ≠ ',') :
    settle (c :: written) after closes = written.reverse ++ c :: after := by
  unfold settle
  rw [List.dropWhile_cons_of_neg (by simp [h])]
  split
  · next heq => exact absurd (List.cons.inj heq).1 hcomma
  · simp

theorem settle_comma : settle (',' :: written) after closes =
    written.reverse ++ if closes then after.dropWhile Text.isBlank else ',' :: after := by
  cases closes <;> simp [settle, show Text.isBlank ',' = false by decide]

theorem of_isCloserChar (h : isCloserChar c) : Text.isBlank c = false ∧ c ≠ ',' := by
  simp only [isCloserChar, Bool.or_eq_true, beq_iff_eq] at h
  rcases h with rfl | rfl <;> decide

theorem settle_closer (h : isCloserChar c) :
    settle written (c :: after) true = (dropComma written).reverse ++ c :: after := by
  have hblank := (of_isCloserChar h).1
  unfold settle dropComma
  split
  · next heq => simp only [heq, List.dropWhile_cons_of_neg (by simp [hblank] : ¬ Text.isBlank c)]
  · next hne =>
    split
    · next heq => exact (hne _ rfl heq).elim
    · rfl

/-! ## Steps -/

theorem writeCode_of_not_closer (h : isCloserChar c = false) :
    writeCode c written = c :: written := by
  simp only [isCloserChar, Bool.or_eq_false_iff, beq_eq_false_iff_ne] at h
  simp [writeCode, h.1, h.2]

theorem writeCode_of_closer (h : isCloserChar c) :
    writeCode c written = c :: dropComma written := by
  simp only [isCloserChar, Bool.or_eq_true, beq_iff_eq] at h
  rcases h with rfl | rfl <;> rfl

theorem stripFrom_code (hline : ∀ rest, c = '/' → cs = '/' :: rest → False)
    (hblock : ∀ rest, c = '/' → cs = '*' :: rest → False) (hquote : c ≠ '"') :
    stripFrom .code written (c :: cs) = stripFrom .code (writeCode c written) cs := by
  rw [stripFrom.eq_7 _ _ _ hline hblock, if_neg hquote]

theorem closesFrom_code (hline : ∀ rest, c = '/' → cs = '/' :: rest → False)
    (hblock : ∀ rest, c = '/' → cs = '*' :: rest → False) :
    closesFrom .code (c :: cs) = (isCloserChar c || Text.isBlank c && closesFrom .code cs) :=
  closesFrom.eq_7 _ _ hline hblock

theorem closesFrom_string (escaped : Bool) (cs : List Char) :
    closesFrom (.string escaped) cs = false := by
  cases cs <;> rfl

theorem afterStringChar_cases (escaped : Bool) (c : Char) :
    (∃ escaped', afterStringChar escaped c = .string escaped') ∨
      afterStringChar escaped c = .code ∧ c = '"' := by
  unfold afterStringChar
  split
  · exact .inl ⟨_, rfl⟩
  · split
    · exact .inl ⟨_, rfl⟩
    · split
      · next hquote => exact .inr ⟨rfl, hquote⟩
      · exact .inl ⟨_, rfl⟩

/-- What is written before a text is settled by whether the text closes a
bracket. -/
theorem stripFrom_eq_settle (mode : Mode) (written cs : List Char) :
    stripFrom mode written cs = settle written (stripFrom mode [] cs) (closesFrom mode cs) := by
  suffices h : ∀ v w : List Char,
      stripFrom mode w cs = settle w (stripFrom mode [] cs) (closesFrom mode cs) from h [] written
  have hbreak : Text.isBlank '\n' := by decide
  have hquote : Text.isBlank '"' = false := by decide
  -- The text written so far is not what the recursion is on, so it varies.
  intro v w
  induction mode, v, cs using stripFrom.induct generalizing w with
  | case1 => simp [stripFrom, closesFrom]
  | case2 escaped v c cs ih =>
      rw [stripFrom, stripFrom, ih (c :: w), ih [c], closesFrom_string, settle_false]
      rcases afterStringChar_cases escaped c with ⟨escaped', hmode⟩ | ⟨-, rfl⟩
      · simp [hmode, closesFrom_string]
      · simp [settle_cons_of_not_isBlank hquote]
  | case3 v cs ih =>
      simp only [stripFrom, closesFrom, if_true, ih ('\n' :: w), ih ['\n'],
        settle_cons_of_isBlank hbreak, settle_nil]
  | case4 v c cs hc ih => simp only [stripFrom, closesFrom, hc, if_false, ih w]
  | case5 star v c cs hc ih => simp only [stripFrom, closesFrom, hc, if_true, ih w]
  | case6 star v c cs hc ih =>
      rw [stripFrom, stripFrom, closesFrom, if_neg hc, if_neg hc, if_neg hc]
      split
      · next hc =>
        subst hc
        rw [ih ('\n' :: w), ih ['\n'], settle_cons_of_isBlank hbreak, settle_cons_of_isBlank hbreak,
          settle_nil]
      · exact ih w
  | case7 v cs ih => simp only [stripFrom, closesFrom, ih w]
  | case8 v cs ih => simp only [stripFrom, closesFrom, ih w]
  | case9 v cs hline hblock ih =>
      have hcloses : closesFrom .code ('"' :: cs) = false := closesFrom_code hline hblock
      rw [stripFrom.eq_7 _ _ _ hline hblock, stripFrom.eq_7 _ _ _ hline hblock, if_pos rfl,
        if_pos rfl, ih ('"' :: w), ih ['"'], hcloses, closesFrom_string]
      simp
  | case10 v c cs hline hblock hc ih =>
      rw [stripFrom_code hline hblock hc, stripFrom_code hline hblock hc,
        closesFrom_code hline hblock, ih (writeCode c w), ih (writeCode c [])]
      cases hcloser : isCloserChar c with
      | true =>
          obtain ⟨hblank, hcomma⟩ := of_isCloserChar hcloser
          rw [writeCode_of_closer hcloser, writeCode_of_closer hcloser, Bool.true_or,
            settle_cons_of_not_isBlank hblank hcomma, settle_cons_of_not_isBlank hblank hcomma,
            dropComma_nil, List.reverse_nil, List.nil_append, settle_closer hcloser]
      | false =>
          rw [writeCode_of_not_closer hcloser, writeCode_of_not_closer hcloser, Bool.false_or]
          cases hblank : Text.isBlank c with
          | true =>
              rw [settle_cons_of_isBlank hblank, settle_cons_of_isBlank hblank, settle_nil,
                Bool.true_and]
          | false =>
              rw [Bool.false_and, settle_false]
              by_cases hcomma : c = ','
              · subst hcomma
                rw [settle_comma, settle_comma, List.reverse_nil, List.nil_append]
              · rw [settle_cons_of_not_isBlank hblank hcomma,
                  settle_cons_of_not_isBlank hblank hcomma, List.reverse_nil, List.nil_append]

/-! ## Code -/

/-- A character that is neither a comma nor the start of a comment or a string
stays where it is. -/
theorem strip_cons (hline : ∀ rest, c = '/' → cs = '/' :: rest → False)
    (hblock : ∀ rest, c = '/' → cs = '*' :: rest → False) (hquote : c ≠ '"') (hcomma : c ≠ ',') :
    strip (c :: cs) = c :: strip cs := by
  rw [strip, stripFrom_code hline hblock hquote, stripFrom_eq_settle]
  cases hcloser : isCloserChar c with
  | true =>
      rw [writeCode_of_closer hcloser,
        settle_cons_of_not_isBlank (of_isCloserChar hcloser).1 hcomma]
      rfl
  | false =>
      rw [writeCode_of_not_closer hcloser]
      cases hblank : Text.isBlank c with
      | true => rw [settle_cons_of_isBlank hblank, settle_nil, strip]
      | false => rw [settle_cons_of_not_isBlank hblank hcomma]; rfl

theorem strip_eq_settle_comma (cs : List Char) :
    strip (',' :: cs) = settle [','] (strip cs) (closesFrom .code cs) := by
  have hcode : strip (',' :: cs) = stripFrom .code [','] cs :=
    stripFrom_code (fun _ h _ => by cases h) (fun _ h _ => by cases h) (by decide)
  rw [hcode, stripFrom_eq_settle]
  rfl

theorem strip_comma (h : closesFrom .code cs = false) : strip (',' :: cs) = ',' :: strip cs := by
  rw [strip_eq_settle_comma, h, settle_false]
  rfl

/-- A comma goes, with the blanks after it, if a closing bracket comes next. -/
theorem strip_danglingComma (h : closesFrom .code cs) :
    strip (',' :: cs) = (strip cs).dropWhile Text.isBlank := by
  rw [strip_eq_settle_comma, h, settle_comma]
  rfl

/-! ## Strings -/

theorem stripFrom_string_cons (escaped : Bool) (c : Char) (cs : List Char) :
    stripFrom (.string escaped) [] (c :: cs) =
      c :: stripFrom (afterStringChar escaped c) [] cs := by
  rw [stripFrom, stripFrom_eq_settle]
  rcases afterStringChar_cases escaped c with ⟨escaped', hmode⟩ | ⟨-, rfl⟩
  · rw [hmode, closesFrom_string]
    rfl
  · rw [settle_cons_of_not_isBlank (by decide) (by decide)]
    rfl

theorem stripFrom_string_eq_cons {escaped : Bool} {out : List Char} :
    stripFrom (.string escaped) [] cs = c :: out ↔
      ∃ cs', cs = c :: cs' ∧ stripFrom (afterStringChar escaped c) [] cs' = out := by
  cases cs with
  | nil => simp [stripFrom]
  | cons d cs =>
      rw [stripFrom_string_cons, List.cons.injEq]
      constructor
      · rintro ⟨rfl, hout⟩
        exact ⟨cs, rfl, hout⟩
      · rintro ⟨cs', heq, hout⟩
        cases heq
        exact ⟨rfl, hout⟩

/-- Text inside a string that is copied, and after which the string goes on. -/
def Copied (part : List Char) : Prop :=
  ∀ cs out : List Char, stripFrom (.string false) [] cs = part ++ out ↔
    ∃ cs', cs = part ++ cs' ∧ stripFrom (.string false) [] cs' = out

theorem Copied.append {part part' : List Char} (h : Copied part) (h' : Copied part') :
    Copied (part ++ part') := by
  intro cs out
  rw [List.append_assoc, h]
  constructor
  · rintro ⟨cs', rfl, hout⟩
    obtain ⟨cs'', rfl, htail⟩ := (h' _ _).1 hout
    exact ⟨cs'', by simp, htail⟩
  · rintro ⟨cs', rfl, hout⟩
    exact ⟨part' ++ cs', by simp, (h' _ _).2 ⟨cs', rfl, hout⟩⟩

theorem copied_plain (hback : c ≠ '\\') (hquote : c ≠ '"') : Copied [c] := by
  intro cs out
  rw [List.singleton_append, stripFrom_string_eq_cons]
  simp [afterStringChar, hback, hquote]

theorem copied_escape (e : Char) : Copied ['\\', e] := by
  intro cs out
  rw [List.cons_append, List.singleton_append, stripFrom_string_eq_cons]
  constructor
  · rintro ⟨cs', rfl, hout⟩
    obtain ⟨cs'', rfl, htail⟩ := stripFrom_string_eq_cons.1 hout
    exact ⟨cs'', rfl, htail⟩
  · rintro ⟨cs', rfl, hout⟩
    exact ⟨e :: cs', rfl, stripFrom_string_eq_cons.2 ⟨cs', rfl, hout⟩⟩

theorem copied_hexDigit (h : (Text.digit? c).isSome) : Copied [c] := by
  refine copied_plain ?_ ?_
  · rintro rfl
    exact absurd h (by decide)
  · rintro rfl
    exact absurd h (by decide)

theorem copied_of_isStringBody {raw : List Char} (h : IsStringBody raw) : Copied raw := by
  induction h with
  | nil => simp [Copied]
  | unicode hhex _ ih =>
      simp only [List.forall_mem_cons] at hhex
      obtain ⟨ha, hb, hc, hd, -⟩ := hhex
      exact (copied_escape 'u').append ((copied_hexDigit ha).append ((copied_hexDigit hb).append
        ((copied_hexDigit hc).append ((copied_hexDigit hd).append ih))))
  | escape _ _ ih => exact (copied_escape _).append ih
  | plain hback hquote _ _ ih => exact (copied_plain hback hquote).append ih

theorem strip_quote (cs : List Char) :
    strip ('"' :: cs) = '"' :: stripFrom (.string false) [] cs := by
  have hquote : strip ('"' :: cs) = stripFrom (.string false) ['"'] cs := by
    rw [strip, stripFrom.eq_7 _ _ _ (fun _ hc _ => by cases hc) (fun _ hc _ => by cases hc),
      if_pos rfl]
  rw [hquote, stripFrom_eq_settle, closesFrom_string]
  rfl

/-- A string is copied, whatever is in it. -/
theorem strip_quote_eq {raw out : List Char} (h : IsStringBody raw) :
    strip ('"' :: cs) = '"' :: (raw ++ '"' :: out) ↔
      ∃ cs', cs = raw ++ '"' :: cs' ∧ strip cs' = out := by
  rw [strip_quote, List.cons_inj_right, copied_of_isStringBody h]
  constructor
  · rintro ⟨cs', rfl, hout⟩
    obtain ⟨cs'', rfl, htail⟩ := stripFrom_string_eq_cons.1 hout
    exact ⟨cs'', rfl, htail⟩
  · rintro ⟨cs', rfl, hout⟩
    exact ⟨'"' :: cs', rfl, stripFrom_string_eq_cons.2 ⟨cs', rfl, hout⟩⟩

/-! ## Comments -/

theorem stripFrom_lineComment {body : List Char} (h : '\n' ∉ body) (cs : List Char) :
    stripFrom .lineComment [] (body ++ '\n' :: cs) = '\n' :: strip cs ∧
      closesFrom .lineComment (body ++ '\n' :: cs) = closesFrom .code cs := by
  induction body with
  | nil =>
      rw [List.nil_append, stripFrom, if_pos rfl, closesFrom, if_pos rfl, stripFrom_eq_settle,
        settle_cons_of_isBlank (by decide), settle_nil, strip]
      exact ⟨rfl, rfl⟩
  | cons c body ih =>
      obtain ⟨hc, hbody⟩ := List.ne_and_not_mem_of_not_mem_cons h
      rw [List.cons_append, stripFrom, if_neg (Ne.symm hc), closesFrom, if_neg (Ne.symm hc)]
      exact ih hbody

theorem strip_lineComment {body : List Char} (h : '\n' ∉ body) (cs : List Char) :
    strip ('/' :: '/' :: (body ++ '\n' :: cs)) = '\n' :: strip cs ∧
      closesFrom .code ('/' :: '/' :: (body ++ '\n' :: cs)) = closesFrom .code cs :=
  stripFrom_lineComment h cs

theorem strip_lastLine {body : List Char} (h : '\n' ∉ body) :
    strip ('/' :: '/' :: body) = [] ∧ closesFrom .code ('/' :: '/' :: body) = false := by
  suffices hline : stripFrom .lineComment [] body = [] ∧ closesFrom .lineComment body = false from
    hline
  induction body with
  | nil => exact ⟨rfl, rfl⟩
  | cons c body ih =>
      obtain ⟨hc, hbody⟩ := List.ne_and_not_mem_of_not_mem_cons h
      rw [stripFrom, if_neg (Ne.symm hc), closesFrom, if_neg (Ne.symm hc)]
      exact ih hbody

/-- A block comment may go on with a text: the text does not end it, nor does its
first character together with what came before. -/
def GoesOn (star : Bool) (body : List Char) : Prop :=
  ¬ ['*', '/'] <:+: body ∧ (star → body.head? ≠ some '/')

theorem GoesOn.tail {star : Bool} {body : List Char} (h : GoesOn star (c :: body)) :
    (star && c = '/') = false ∧ GoesOn (c == '*') body := by
  refine ⟨?_, fun hinfix => h.1 (List.infix_cons hinfix), fun hstar hhead => h.1 ?_⟩
  · cases star with
    | false => rfl
    | true =>
        have hc := h.2 rfl
        simpa using hc
  · obtain ⟨rest, rfl⟩ : ∃ rest, body = '/' :: rest := List.head?_eq_some_iff.1 hhead
    obtain rfl := eq_of_beq hstar
    exact ⟨[], rest, rfl⟩

theorem stripFrom_blockComment_cons {star : Bool} (h : (star && c = '/') = false)
    (cs : List Char) :
    stripFrom (.blockComment star) [] (c :: cs) =
        [c].filter (· == '\n') ++ stripFrom (.blockComment (c == '*')) [] cs ∧
      closesFrom (.blockComment star) (c :: cs) = closesFrom (.blockComment (c == '*')) cs := by
  have hneg : ¬ (star && c = '/') = true := by simp [h]
  rw [stripFrom, if_neg hneg, closesFrom, if_neg hneg]
  refine ⟨?_, rfl⟩
  by_cases hc : c = '\n'
  · rw [if_pos hc, stripFrom_eq_settle, settle_cons_of_isBlank (hc ▸ by decide), settle_nil]
    simp [hc]
  · simp [hc]

theorem stripFrom_blockComment {star : Bool} {body : List Char} (h : GoesOn star body)
    (cs : List Char) :
    stripFrom (.blockComment star) [] (body ++ '*' :: '/' :: cs) =
        body.filter (· == '\n') ++ strip cs ∧
      closesFrom (.blockComment star) (body ++ '*' :: '/' :: cs) = closesFrom .code cs := by
  induction body generalizing star with
  | nil =>
      have hstar : (star && '*' = '/') = false := by simp
      have hstep := stripFrom_blockComment_cons hstar ('/' :: cs)
      rw [List.nil_append, hstep.1, hstep.2]
      exact ⟨rfl, rfl⟩
  | cons c body ih =>
      obtain ⟨hc, hbody⟩ := h.tail
      have hstep := stripFrom_blockComment_cons hc (body ++ '*' :: '/' :: cs)
      rw [List.cons_append, hstep.1, hstep.2, (ih hbody).1, (ih hbody).2, ← List.append_assoc,
        ← List.filter_append, List.singleton_append]
      exact ⟨rfl, rfl⟩

theorem stripFrom_openComment {star : Bool} {body : List Char} (h : GoesOn star body) :
    stripFrom (.blockComment star) [] body = body.filter (· == '\n') ∧
      closesFrom (.blockComment star) body = false := by
  induction body generalizing star with
  | nil => exact ⟨rfl, rfl⟩
  | cons c body ih =>
      obtain ⟨hc, hbody⟩ := h.tail
      have hstep := stripFrom_blockComment_cons hc body
      rw [hstep.1, hstep.2, (ih hbody).1, (ih hbody).2, ← List.filter_append, List.singleton_append]
      exact ⟨rfl, rfl⟩

theorem goesOn_start {body : List Char} (h : ¬ ['*', '/'] <:+: body) : GoesOn false body :=
  ⟨h, nofun⟩

/-- Of a block comment the line breaks stay. -/
theorem strip_blockComment {body : List Char} (h : ¬ ['*', '/'] <:+: body) (cs : List Char) :
    strip ('/' :: '*' :: (body ++ '*' :: '/' :: cs)) = body.filter (· == '\n') ++ strip cs ∧
      closesFrom .code ('/' :: '*' :: (body ++ '*' :: '/' :: cs)) = closesFrom .code cs :=
  stripFrom_blockComment (goesOn_start h) cs

theorem strip_openComment {body : List Char} (h : ¬ ['*', '/'] <:+: body) :
    strip ('/' :: '*' :: body) = body.filter (· == '\n') ∧
      closesFrom .code ('/' :: '*' :: body) = false :=
  stripFrom_openComment (goesOn_start h)

/-- The first end of a block comment, if it has one. -/
theorem exists_commentEnd (cs : List Char) :
    ¬ ['*', '/'] <:+: cs ∨
      ∃ body rest, cs = body ++ '*' :: '/' :: rest ∧ ¬ ['*', '/'] <:+: body := by
  induction cs with
  | nil => exact .inl (by simp)
  | cons c cs ih =>
      by_cases hhead : ['*', '/'] <+: c :: cs
      · obtain ⟨rest, hrest⟩ := hhead
        exact .inr ⟨[], rest, hrest.symm, by simp⟩
      · rcases ih with hcs | ⟨body, rest, rfl, hbody⟩
        · exact .inl fun h => (List.infix_cons_iff.1 h).elim hhead hcs
        · refine .inr ⟨c :: body, rest, rfl, fun h => (List.infix_cons_iff.1 h).elim ?_ hbody⟩
          exact fun hbegins => hhead (hbegins.trans ⟨_, rfl⟩)

end Comments

end Json

end RedundantCast
