import RedundantCast.Proofs.Json.Comments
import RedundantCast.Proofs.Json.Grammar

/-!
# Texts with comments

A text with comments consists of tokens with white space and comments anywhere
between them.  Stripped, it spells its tokens without the dangling commas.
-/

namespace RedundantCast

namespace Json

/-- The text consists of the tokens, with white space, line comments and closed
block comments before, between and after them. -/
inductive Commented : List Token → List Char → Prop where
  | nil : Commented [] []
  | space {c : Char} {ts : List Token} {cs : List Char} :
      isSpace c → Commented ts cs → Commented ts (c :: cs)
  | line {body : List Char} {ts : List Token} {cs : List Char} : '\n' ∉ body →
      Commented ts cs → Commented ts ('/' :: '/' :: (body ++ '\n' :: cs))
  | block {body : List Char} {ts : List Token} {cs : List Char} : ¬ ['*', '/'] <:+: body →
      Commented ts cs → Commented ts ('/' :: '*' :: (body ++ '*' :: '/' :: cs))
  | token {t : Token} {ts : List Token} {cs : List Char} :
      t.IsLexeme → Commented ts cs → Commented (t :: ts) (t.text ++ cs)

open Comments

variable {c : Char} {cs ds : List Char} {t : Token} {ts us : List Token} {opened : Bool}

theorem Spells.commented (h : Spells ts cs) : Commented ts cs := by
  induction h with
  | nil => exact .nil
  | space hc _ ih => exact .space hc ih
  | token ht _ ih => exact .token ht ih

/-! ## Single characters -/

theorem strip_plain (hslash : c ≠ '/') (hquote : c ≠ '"') (hcomma : c ≠ ',') (cs : List Char) :
    strip (c :: cs) = c :: strip cs :=
  strip_cons (fun _ h _ => hslash h) (fun _ h _ => hslash h) hquote hcomma

theorem closesFrom_plain (hslash : c ≠ '/') (cs : List Char) :
    closesFrom .code (c :: cs) = (isCloserChar c || Text.isBlank c && closesFrom .code cs) :=
  closesFrom_code (fun _ h _ => hslash h) (fun _ h _ => hslash h)

theorem of_isSpace (h : isSpace c) :
    c ≠ '/' ∧ c ≠ '"' ∧ c ≠ ',' ∧ isCloserChar c = false := by
  simp only [isSpace, Bool.or_eq_true, beq_iff_eq] at h
  rcases h with ((rfl | rfl) | rfl) | rfl <;> decide

theorem of_isWordChar (h : isWordChar c) :
    c ≠ '/' ∧ c ≠ '"' ∧ c ≠ ',' ∧ isCloserChar c = false := by
  have hne : ∀ d : Char, isWordChar d = false → c ≠ d := by
    rintro d hd rfl
    rw [hd] at h
    cases h
  refine ⟨hne _ rfl, hne _ rfl, hne _ rfl, ?_⟩
  simp [isCloserChar, hne ']' rfl, hne '\x7d' rfl]

theorem ne_of_isBlank (h : Text.isBlank c) : c ≠ '/' ∧ c ≠ '"' ∧ c ≠ ',' := by
  refine ⟨?_, ?_, ?_⟩
  · rintro rfl
    exact absurd h (by decide)
  · rintro rfl
    exact absurd h (by decide)
  · rintro rfl
    exact absurd h (by decide)

theorem ne_of_isCloserChar (h : isCloserChar c) : c ≠ '/' ∧ c ≠ '"' := by
  refine ⟨?_, ?_⟩
  · rintro rfl
    cases h
  · rintro rfl
    cases h

theorem strip_space (h : isSpace c) (cs : List Char) : strip (c :: cs) = c :: strip cs :=
  strip_plain (of_isSpace h).1 (of_isSpace h).2.1 (of_isSpace h).2.2.1 cs

theorem strip_wordChar (h : isWordChar c) (cs : List Char) : strip (c :: cs) = c :: strip cs :=
  strip_plain (of_isWordChar h).1 (of_isWordChar h).2.1 (of_isWordChar h).2.2.1 cs

theorem isSpace_of_mem_breaks {body : List Char} : ∀ c ∈ body.filter (· == '\n'), isSpace c := by
  intro c hc
  rw [eq_of_beq (List.mem_filter.1 hc).2]
  rfl

/-! ## Tokens -/

theorem strip_text_append (ht : t.IsLexeme) (hcomma : t ≠ .comma) (cs : List Char) :
    strip (t.text ++ cs) = t.text ++ strip cs := by
  have hword : ∀ w : List Char, (∀ c ∈ w, isWordChar c) → strip (w ++ cs) = w ++ strip cs := by
    intro w hw
    induction w with
    | nil => rfl
    | cons c w ih =>
        rw [List.forall_mem_cons] at hw
        rw [List.cons_append, strip_wordChar hw.1, ih hw.2, List.cons_append]
  cases t with
  | openBrace | closeBrace | openBracket | closeBracket | colon =>
      exact strip_plain (by decide) (by decide) (by decide) cs
  | comma => exact absurd rfl hcomma
  | null | bool _ | number _ => exact hword _ (Token.word ht rfl).2
  | string raw =>
      have hcopied := (strip_quote_eq ht).2 ⟨cs, rfl, rfl⟩
      simpa [Token.text] using hcopied
  | bad => exact ht.elim

theorem closesFrom_text_append (ht : t.IsLexeme) (cs : List Char) :
    closesFrom .code (t.text ++ cs) = t.isCloser := by
  have hword : ∀ w : List Char, (w ≠ [] ∧ ∀ c ∈ w, isWordChar c) →
      closesFrom .code (w ++ cs) = false := by
    rintro w ⟨hne, hw⟩
    obtain ⟨c, w, rfl⟩ := List.exists_cons_of_ne_nil hne
    have hc := hw c List.mem_cons_self
    rw [List.cons_append, closesFrom_plain (of_isWordChar hc).1, (of_isWordChar hc).2.2.2,
      isBlank_of_isWordChar hc]
    rfl
  cases t with
  | openBrace | closeBrace | openBracket | closeBracket | colon | comma | string raw => rfl
  | null | bool _ | number _ => exact hword _ (Token.word ht rfl)
  | bad => exact ht.elim

theorem Commented.closesFrom_eq (h : Commented ts cs) :
    closesFrom .code cs = ts.head?.any Token.isCloser := by
  induction h with
  | nil => rfl
  | space hc _ ih =>
      rw [closesFrom_plain (of_isSpace hc).1, (of_isSpace hc).2.2.2, isBlank_of_isSpace hc,
        Bool.false_or, Bool.true_and, ih]
  | line hbody _ ih => rw [(strip_lineComment hbody _).2, ih]
  | block hbody _ ih => rw [(strip_blockComment hbody _).2, ih]
  | token ht _ _ => exact closesFrom_text_append ht _

theorem Commented.text_infix (h : Commented ts cs) (ht : t ∈ ts) : t.text <:+: cs := by
  induction h with
  | nil => cases ht
  | space _ _ ih => exact List.infix_cons (ih ht)
  | @line body _ cs _ _ ih =>
      have hsuffix : cs <:+ '/' :: '/' :: (body ++ '\n' :: cs) :=
        ⟨'/' :: '/' :: (body ++ ['\n']), by simp⟩
      exact (ih ht).trans hsuffix.isInfix
  | @block body _ cs _ _ ih =>
      have hsuffix : cs <:+ '/' :: '*' :: (body ++ '*' :: '/' :: cs) :=
        ⟨'/' :: '*' :: (body ++ ['*', '/']), by simp⟩
      exact (ih ht).trans hsuffix.isInfix
  | token _ _ ih =>
      rcases List.mem_cons.1 ht with rfl | ht
      · exact (List.prefix_append _ _).isInfix
      · exact (ih ht).trans (List.suffix_append _ _).isInfix

/-! ## Whole texts -/

theorem Trailing.subset (h : Trailing opened ts us) : ts ⊆ us := by
  induction h with
  | nil => exact List.Subset.refl _
  | token _ ih => exact List.cons_subset_cons _ ih
  | comma _ _ ih => exact List.subset_cons_of_subset _ (List.cons_subset_cons _ ih)

theorem head?_isCloser_of_isChain_comma (h : (Token.comma :: ts).IsChain Token.MayFollow) :
    ts.head?.any Token.isCloser = false := by
  cases ts with
  | nil => rfl
  | cons u ts => exact (List.isChain_cons_cons.1 h).1.notCloser rfl

theorem Trailing.head?_eq (h : Trailing opened ts us) (hus : us.head?.any Token.isCloser) :
    ts.head? = us.head? := by
  cases h with
  | nil | token => rfl
  | comma => cases hus

/-- A text with comments and dangling commas is stripped to one that spells its
tokens without those commas. -/
theorem Commented.spells_strip (h : Commented us cs) (hus : Trailing opened ts us)
    (hts : ts.IsChain Token.MayFollow) : Spells ts (strip cs) := by
  induction h generalizing ts opened with
  | nil =>
      cases hus
      exact .nil
  | space hc _ ih =>
      rw [strip_space hc]
      exact .space hc (ih hus hts)
  | line hbody _ ih =>
      rw [(strip_lineComment hbody _).1]
      exact .space (by decide) (ih hus hts)
  | block hbody _ ih =>
      rw [(strip_blockComment hbody _).1]
      exact (ih hus hts).spaces isSpace_of_mem_breaks
  | @token t us cs ht hcs ih =>
      cases hus with
      | @token _ _ ts _ hus =>
          have htail := ih hus hts.tail
          by_cases hcomma : t = .comma
          · subst hcomma
            have hcloses : closesFrom .code cs = false := by
              rw [hcs.closesFrom_eq]
              by_contra hcloser
              rw [Bool.not_eq_false] at hcloser
              rw [← hus.head?_eq hcloser, head?_isCloser_of_isChain_comma hts] at hcloser
              cases hcloser
            exact strip_comma hcloses ▸ .token trivial htail
          · rw [strip_text_append ht hcomma]
            exact .token ht htail
      | @comma u ts us hcloser hus =>
          have hopener : u.isOpener = false := by cases u <;> first | rfl | cases hcloser
          have hundangled : Trailing false (u :: ts) (u :: us) := .token (hopener ▸ hus)
          have htail := ih hundangled hts
          have hcloses : closesFrom .code cs = true := by
            rw [hcs.closesFrom_eq]
            exact hcloser
          exact strip_danglingComma hcloses ▸ htail.dropWhile_isBlank

/-- A text without comments stays as it is. -/
theorem Spells.strip_eq (h : Spells ts cs) (hts : ts.IsChain Token.MayFollow) :
    strip cs = cs := by
  induction h with
  | nil => rfl
  | space hc _ ih => rw [strip_space hc, ih hts]
  | @token t ts cs ht hcs ih =>
      by_cases hcomma : t = .comma
      · subst hcomma
        have hcloses : closesFrom .code cs = false := by
          rw [hcs.commented.closesFrom_eq, head?_isCloser_of_isChain_comma hts]
        exact (strip_comma hcloses).trans (congrArg _ (ih hts.tail))
      · rw [strip_text_append ht hcomma, ih hts.tail]

end Json

end RedundantCast
