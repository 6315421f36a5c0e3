import Mathlib.Data.List.Chain
import Mathlib.Data.List.TakeWhile
import RedundantCast.Proofs.Json.Lexeme
import RedundantCast.Json.Reader
import RedundantCast.Text.Blank

/-!
# Texts that spell tokens

A text spells some tokens if it is their lexemes with white space anywhere
between them. The scanner finds the tokens of such a text as long as no two
values stand side by side, and a text without an error spells what it finds.
-/

namespace RedundantCast

namespace Json

/-- The text consists of the tokens, with white space before, between and after
them. -/
inductive Spells : List Token → List Char → Prop where
  | nil : Spells [] []
  | space {c : Char} {ts : List Token} {cs : List Char} :
      isSpace c → Spells ts cs → Spells ts (c :: cs)
  | token {t : Token} {ts : List Token} {cs : List Char} :
      t.IsLexeme → Spells ts cs → Spells (t :: ts) (t.text ++ cs)

namespace Token

/-- Whether a token can follow a value. -/
def endsValue : Token → Bool
  | closeBrace | closeBracket | colon | comma => true
  | _ => false

/-- What a token must be to follow another one: after a value only punctuation
comes, and after a comma no closing bracket. -/
structure MayFollow (t u : Token) : Prop where
  endsValue : t.isScalar → u.endsValue
  notCloser : t = .comma → u.isCloser = false

end Token

variable {c : Char} {cs gap rest : List Char} {t : Token} {ts : List Token}

/-! ## First characters of lexemes -/

theorem isBlank_of_isSpace (h : isSpace c) : Text.isBlank c := by
  simp only [isSpace, Bool.or_eq_true, beq_iff_eq] at h
  rcases h with ((rfl | rfl) | rfl) | rfl <;> decide

theorem isBlank_of_isWordChar (h : isWordChar c) : Text.isBlank c = false := by
  unfold isWordChar Char.isAlphanum Char.isAlpha Char.isUpper Char.isLower Char.isDigit at h
  simp only [Bool.or_eq_true, Bool.and_eq_true, decide_eq_true_eq, beq_iff_eq,
    UInt32.le_iff_toNat_le, ge_iff_le] at h
  rcases h with ((h | rfl) | rfl) | rfl
  · have hcode : c.toNat = c.val.toNat := rfl
    have hcodes : 'A'.val.toNat = 65 ∧ 'Z'.val.toNat = 90 ∧ 'a'.val.toNat = 97 ∧
        'z'.val.toNat = 122 ∧ '0'.val.toNat = 48 ∧ '9'.val.toNat = 57 := by decide
    simp only [Text.isBlank, hcode, Bool.or_eq_false_iff, Bool.and_eq_false_iff,
      decide_eq_false_iff_not, beq_eq_false_iff_ne]
    omega
  all_goals decide

/-- A lexeme is one character of punctuation, a string, or a word. -/
theorem Token.text_cases (ht : t.IsLexeme) :
    (∃ p ∈ ['\x7b', '\x7d', '[', ']', ':', ','], t.text = [p]) ∨
      (∃ raw, t = .string raw ∧ IsStringBody raw) ∨
      t.text ≠ [] ∧ ∀ c ∈ t.text, isWordChar c := by
  cases t with
  | openBrace | closeBrace | openBracket | closeBracket | colon | comma =>
      exact .inl ⟨_, by decide, rfl⟩
  | null | bool _ | number _ => exact .inr (.inr (Token.word ht rfl))
  | string raw => exact .inr (.inl ⟨raw, rfl, ht⟩)
  | bad => exact ht.elim

theorem Token.exists_text_eq_cons (ht : t.IsLexeme) :
    ∃ c w, t.text = c :: w ∧ Text.isBlank c = false := by
  rcases Token.text_cases ht with ⟨p, hp, htext⟩ | ⟨raw, rfl, -⟩ | ⟨hne, hword⟩
  · refine ⟨p, [], htext, ?_⟩
    simp only [List.mem_cons, List.not_mem_nil, or_false] at hp
    rcases hp with rfl | rfl | rfl | rfl | rfl | rfl <;> decide
  · exact ⟨'"', raw ++ ['"'], rfl, by decide⟩
  · obtain ⟨c, w, htext⟩ := List.exists_cons_of_ne_nil hne
    exact ⟨c, w, htext, isBlank_of_isWordChar (hword c (htext ▸ List.mem_cons_self))⟩

/-! ## White space -/

namespace Spells

theorem spaces (hgap : ∀ c ∈ gap, isSpace c) (h : Spells ts cs) : Spells ts (gap ++ cs) := by
  induction gap with
  | nil => exact h
  | cons c gap ih =>
      rw [List.forall_mem_cons] at hgap
      exact .space hgap.1 (ih hgap.2)

theorem dropWhile_isBlank (h : Spells ts cs) : Spells ts (cs.dropWhile Text.isBlank) := by
  induction h with
  | nil => exact .nil
  | space hc _ ih => rwa [List.dropWhile_cons_of_pos (isBlank_of_isSpace hc)]
  | @token t ts cs ht hcs =>
      obtain ⟨c, w, htext, hc⟩ := Token.exists_text_eq_cons ht
      rw [htext, List.cons_append, List.dropWhile_cons_of_neg (by simp [hc]), ← List.cons_append,
        ← htext]
      exact .token ht hcs

/-- What a text that begins with a character spells: the character is white
space, or a lexeme begins with it. -/
theorem uncons (h : Spells ts (c :: cs)) :
    (isSpace c ∧ Spells ts cs) ∨
      ∃ t ts' w rest, ts = t :: ts' ∧ t.IsLexeme ∧ t.text = c :: w ∧ cs = w ++ rest ∧
        Spells ts' rest := by
  generalize htext : c :: cs = text at h
  cases h with
  | nil => cases htext
  | space hc hcs =>
      cases htext
      exact .inl ⟨hc, hcs⟩
  | @token t ts' rest ht hrest =>
      obtain ⟨d, w, hd, -⟩ := Token.exists_text_eq_cons ht
      rw [hd, List.cons_append] at htext
      obtain ⟨rfl, rfl⟩ := List.cons.inj htext
      exact .inr ⟨t, ts', w, rest, rfl, ht, hd, rfl, hrest⟩

theorem eq_nil (h : Spells ts []) : ts = [] := by
  generalize hnil : ([] : List Char) = text at h
  cases h with
  | nil => rfl
  | space => cases hnil
  | token ht _ =>
      obtain ⟨c, w, htext, -⟩ := Token.exists_text_eq_cons ht
      rw [htext] at hnil
      cases hnil

theorem continuesNumber_eq_false (h : Spells ts cs) (hts : ∀ t ∈ ts.head?, t.endsValue) :
    continuesNumber cs = false := by
  cases h with
  | nil => rfl
  | @space c _ cs hc _ =>
      simp only [isSpace, Bool.or_eq_true, beq_iff_eq] at hc
      rcases hc with ((rfl | rfl) | rfl) | rfl <;> rfl
  | @token t ts cs ht hcs =>
      have hend := hts t rfl
      cases t <;> first | rfl | cases hend

end Spells

/-! ## Scanning -/

theorem tokens_eq_match (cs : List Char) :
    tokens cs =
      match cs.dropWhile isSpace with
      | [] => []
      | c :: rest => (scanToken (c :: rest)).1 :: tokens (scanToken (c :: rest)).2 := by
  rw [tokens]
  split
  · next hnil => simp only [hnil]
  · next hcons => simp only [hcons]

theorem tokens_cons_of_isSpace (h : isSpace c) (cs : List Char) : tokens (c :: cs) = tokens cs := by
  rw [tokens_eq_match, List.dropWhile_cons_of_pos h, ← tokens_eq_match]

theorem tokens_cons_of_scanToken (hc : isSpace c = false)
    (h : scanToken (c :: cs) = (t, rest)) : tokens (c :: cs) = t :: tokens rest := by
  rw [tokens_eq_match, List.dropWhile_cons_of_neg (by simp [hc])]
  simp only [h]

/-- The scanner finds the tokens that a text spells. -/
theorem tokens_of_spells (h : Spells ts cs) (hts : ts.IsChain Token.MayFollow) :
    tokens cs = ts := by
  induction h with
  | nil => exact tokens_nil
  | space hc _ ih => rw [tokens_cons_of_isSpace hc, ih hts]
  | @token t ts cs ht hcs ih =>
      obtain ⟨c, w, htext, hblank⟩ := Token.exists_text_eq_cons ht
      have hspace : isSpace c = false := by
        by_contra hc
        exact absurd (isBlank_of_isSpace (by simpa using hc)) (by simp [hblank])
      have hscan : scanToken (t.text ++ cs) = (t, cs) := by
        refine scanToken_append ht fun ⟨digits, hdigits⟩ => ?_
        refine hcs.continuesNumber_eq_false fun u hu => ?_
        cases ts with
        | nil => cases hu
        | cons v ts =>
            cases hu
            exact (List.isChain_cons_cons.1 hts).1.endsValue (by rw [hdigits]; rfl)
      rw [htext, List.cons_append] at hscan ⊢
      rw [tokens_cons_of_scanToken hspace hscan, ih hts.tail]

/-- A text without an error spells the tokens that the scanner finds. -/
theorem spells_tokens (h : Token.bad ∉ tokens cs) : Spells (tokens cs) cs := by
  fun_induction tokens cs with
  | case1 cs hnil =>
      have hall : ∀ c ∈ cs, isSpace c := List.dropWhile_eq_nil_iff.1 hnil
      have hspells := Spells.nil.spaces hall
      rwa [List.append_nil] at hspells
  | case2 cs c rest hcons _ ih =>
      obtain ⟨hbad, hrest⟩ := List.ne_and_not_mem_of_not_mem_cons h
      have hgap : ∀ c ∈ cs.takeWhile isSpace, isSpace c := List.all_eq_true.1 List.all_takeWhile
      have htail := ih hrest
      rcases hscan : scanToken (c :: rest) with ⟨t, rest'⟩
      rw [hscan] at hbad htail
      obtain ⟨htext, hlexeme⟩ := isLexeme_of_scanToken hscan (Ne.symm hbad)
      have hspells := (Spells.token hlexeme htail).spaces hgap
      rwa [← htext, ← hcons, List.takeWhile_append_dropWhile] at hspells

/-! ## Evaluation -/

/-- The first tokens of a text, at most so many. -/
def tokensWithin : Nat → List Char → List Token
  | 0, _ => []
  | n + 1, cs =>
    match cs.dropWhile isSpace with
    | [] => []
    | c :: rest => (scanToken (c :: rest)).1 :: tokensWithin n (scanToken (c :: rest)).2

theorem tokens_eq_tokensWithin {n : Nat} (h : cs.length ≤ n) : tokens cs = tokensWithin n cs := by
  induction n generalizing cs with
  | zero =>
      obtain rfl := List.length_eq_zero_iff.1 (Nat.le_zero.1 h)
      exact tokens_nil
  | succ n ih =>
      rw [tokens_eq_match, tokensWithin]
      split
      · rfl
      · next c rest hcons =>
        have hlt := length_scanToken_of_dropWhile hcons
        rw [ih (by omega)]

/-- Read a value that is all of the tokens. -/
def parseTokens {α : Type} (read : Reader α) (ts : List Token) : Except Fault α :=
  match read ts with
  | .error fault => .error fault
  | .ok (a, ⟨[], _⟩) => .ok a
  | .ok _ => .error .malformed

/-- What a text is read as depends on its tokens alone. -/
theorem parse_eq_parseTokens {α : Type} (read : Reader α) (cs : List Char) :
    parse read cs = parseTokens read (tokens cs) := by
  unfold parse parseTokens
  rcases read (tokens cs) with _ | ⟨_, _ | _, _⟩ <;> rfl

end Json

end RedundantCast
