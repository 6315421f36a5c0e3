import RedundantCast.Proofs.Json.Commented

/-!
# What stripping hides

A text that is stripped to the spelling of some tokens is a text with comments, or
it has a flaw that stripping hides: a block comment without an end, a word with a
comment inside it, a comma alone between brackets, or a blank that is no white
space of JSON.
-/

namespace RedundantCast

namespace Json

open Comments

/-- Block comments that leave nothing behind. -/
inductive Silent : List Char → Prop where
  | nil : Silent []
  | block {body cs : List Char} : '\n' ∉ body → ¬ ['*', '/'] <:+: body → Silent cs →
      Silent ('/' :: '*' :: (body ++ '*' :: '/' :: cs))

/-- A fault at the start of a text that is not there once the text is stripped. -/
inductive Flaw : List Char → Prop where
  | openComment {body : List Char} : ¬ ['*', '/'] <:+: body → Flaw ('/' :: '*' :: body)
  | brokenWord {word gap cs : List Char} {c : Char} : word ≠ [] → (∀ d ∈ word, isWordChar d) →
      gap ≠ [] → Silent gap → isWordChar c → Flaw (word ++ gap ++ c :: cs)
  | loneComma {t u : Token} {brackets cs : List Char} : t.isOpener → u.isCloser →
      Commented [t, .comma, u] brackets → Flaw (brackets ++ cs)
  | wideBlank {c : Char} {cs : List Char} : Text.isBlank c → isSpace c = false → Flaw (c :: cs)

/-- A text with a flaw after some tokens, white space and comments. -/
def Flawed (text : List Char) : Prop :=
  ∃ us cs rest, Commented us cs ∧ text = cs ++ rest ∧ Flaw rest

/-- Nothing, or a line comment that ends with the text. -/
def IsLastLine (cs : List Char) : Prop :=
  cs = [] ∨ ∃ body, '\n' ∉ body ∧ cs = '/' :: '/' :: body

/-- JSON with comments and dangling commas. -/
def IsCommentedJson (text : List Char) : Prop :=
  ∃ ts us cs last, Derives .value ts ∧ Trailing false ts us ∧ Commented us cs ∧
    IsLastLine last ∧ text = cs ++ last

/-- Blanks and comments that end. -/
inductive Gap : List Char → Prop where
  | nil : Gap []
  | blank {c : Char} {cs : List Char} : Text.isBlank c → Gap cs → Gap (c :: cs)
  | line {body cs : List Char} : '\n' ∉ body → Gap cs → Gap ('/' :: '/' :: (body ++ '\n' :: cs))
  | block {body cs : List Char} : ¬ ['*', '/'] <:+: body → Gap cs →
      Gap ('/' :: '*' :: (body ++ '*' :: '/' :: cs))

/-- How a text begins: with a comment, or with a character of its own. -/
inductive Pieces : List Char → Prop where
  | nil : Pieces []
  | line {body cs : List Char} : '\n' ∉ body → Pieces cs →
      Pieces ('/' :: '/' :: (body ++ '\n' :: cs))
  | lastLine {body : List Char} : '\n' ∉ body → Pieces ('/' :: '/' :: body)
  | block {body cs : List Char} : ¬ ['*', '/'] <:+: body → Pieces cs →
      Pieces ('/' :: '*' :: (body ++ '*' :: '/' :: cs))
  | openComment {body : List Char} : ¬ ['*', '/'] <:+: body → Pieces ('/' :: '*' :: body)
  | char {c : Char} {cs : List Char} : (∀ rest, c = '/' → cs = '/' :: rest → False) →
      (∀ rest, c = '/' → cs = '*' :: rest → False) → Pieces cs → Pieces (c :: cs)

variable {c d : Char} {cs ds gap out rest : List Char} {t u : Token} {ts us : List Token}
  {opened : Bool}

theorem length_lt_append_cons (front cs : List Char) (c : Char) :
    cs.length < (front ++ c :: cs).length := by
  rw [List.length_append, List.length_cons]
  omega

theorem length_lt_line (body cs : List Char) :
    cs.length < ('/' :: '/' :: (body ++ '\n' :: cs)).length :=
  length_lt_append_cons ('/' :: '/' :: body) cs '\n'

theorem length_lt_block (body cs : List Char) :
    cs.length < ('/' :: '*' :: (body ++ '*' :: '/' :: cs)).length :=
  (Nat.lt_succ_self _).trans (length_lt_append_cons ('/' :: '*' :: body) ('/' :: cs) '*')

theorem pieces (cs : List Char) : Pieces cs := by
  induction hlength : cs.length using Nat.strong_induction_on generalizing cs with
  | _ n ih =>
      subst hlength
      have hshorter : ∀ ds : List Char, ds.length < cs.length → Pieces ds :=
        fun ds hds => ih _ hds ds rfl
      match cs with
      | [] => exact .nil
      | c :: cs =>
        by_cases hline : ∃ rest, c = '/' ∧ cs = '/' :: rest
        · obtain ⟨rest, rfl, rfl⟩ := hline
          by_cases hend : '\n' ∈ rest
          · obtain ⟨body, tail, rfl, hbody⟩ := List.eq_append_cons_of_mem hend
            exact .line hbody (hshorter tail (length_lt_line body tail))
          · exact .lastLine hend
        · by_cases hblock : ∃ rest, c = '/' ∧ cs = '*' :: rest
          · obtain ⟨rest, rfl, rfl⟩ := hblock
            rcases exists_commentEnd rest with hopen | ⟨body, tail, rfl, hbody⟩
            · exact .openComment hopen
            · exact .block hbody (hshorter tail (length_lt_block body tail))
          · refine .char (fun rest hc hcs => hline ⟨rest, hc, hcs⟩)
              (fun rest hc hcs => hblock ⟨rest, hc, hcs⟩) (hshorter cs (by simp))

/-! ## Texts one after another -/

theorem Commented.append (h : Commented ts cs) (h' : Commented us ds) :
    Commented (ts ++ us) (cs ++ ds) := by
  induction h with
  | nil => exact h'
  | space hc _ ih => exact .space hc ih
  | line hbody _ ih => simpa using Commented.line hbody ih
  | block hbody _ ih => simpa using Commented.block hbody ih
  | token ht _ ih => simpa using Commented.token ht ih

theorem Commented.singleton (ht : t.IsLexeme) : Commented [t] t.text := by
  simpa using Commented.token ht .nil

theorem Flawed.append (h : Commented ts ds) (hcs : Flawed cs) : Flawed (ds ++ cs) := by
  obtain ⟨us, front, rest, hfront, rfl, hrest⟩ := hcs
  exact ⟨ts ++ us, ds ++ front, rest, h.append hfront, by simp, hrest⟩

theorem Flaw.flawed (h : Flaw cs) : Flawed cs :=
  ⟨[], [], cs, .nil, rfl, h⟩

theorem Spells.of_spaces (hgap : ∀ c ∈ gap, isSpace c) (h : Spells ts (gap ++ cs)) :
    Spells ts cs := by
  induction gap with
  | nil => exact h
  | cons c gap ih =>
      rw [List.forall_mem_cons] at hgap
      rcases h.uncons with ⟨-, hcs⟩ | ⟨t, _, w, rest, -, ht, htext, -⟩
      · exact ih hgap.2 hcs
      · obtain ⟨d, _, hd, hblank⟩ := Token.exists_text_eq_cons ht
        obtain ⟨rfl, -⟩ := List.cons.inj (htext.symm.trans hd)
        exact absurd (isBlank_of_isSpace hgap.1) (by simp [hblank])

/-! ## What stands before a closing bracket -/

theorem Gap.closes (hgap : Gap gap) (hc : isCloserChar c) (rest : List Char) :
    closesFrom .code (gap ++ c :: rest) = true ∧
      (strip (gap ++ c :: rest)).dropWhile Text.isBlank = c :: strip rest := by
  induction hgap with
  | nil =>
      obtain ⟨hblank, hcomma⟩ := of_isCloserChar hc
      obtain ⟨hslash, hquote⟩ := ne_of_isCloserChar hc
      rw [List.nil_append, closesFrom_plain hslash, hc, strip_plain hslash hquote hcomma,
        List.dropWhile_cons_of_neg (by simp [hblank])]
      exact ⟨rfl, rfl⟩
  | @blank b gap hb _ ih =>
      obtain ⟨hslash, hquote, hcomma⟩ := ne_of_isBlank hb
      rw [List.cons_append, closesFrom_plain hslash, hb, ih.1, strip_plain hslash hquote hcomma,
        List.dropWhile_cons_of_pos hb]
      exact ⟨by simp, ih.2⟩
  | @line body gap hbody _ ih =>
      obtain ⟨hstrip, hcloses⟩ := strip_lineComment hbody (gap ++ c :: rest)
      have htext : '/' :: '/' :: (body ++ '\n' :: gap) ++ c :: rest =
          '/' :: '/' :: (body ++ '\n' :: (gap ++ c :: rest)) := by simp
      rw [htext, hstrip, hcloses, List.dropWhile_cons_of_pos (by decide)]
      exact ih
  | @block body gap hbody _ ih =>
      obtain ⟨hstrip, hcloses⟩ := strip_blockComment hbody (gap ++ c :: rest)
      have htext : '/' :: '*' :: (body ++ '*' :: '/' :: gap) ++ c :: rest =
          '/' :: '*' :: (body ++ '*' :: '/' :: (gap ++ c :: rest)) := by simp
      have hbreaks : ∀ d ∈ body.filter (· == '\n'), Text.isBlank d :=
        fun d hd => isBlank_of_isSpace (isSpace_of_mem_breaks d hd)
      rw [htext, hstrip, hcloses, List.dropWhile_append_of_pos hbreaks]
      exact ih

/-- Before the bracket that a text closes there is nothing but a gap. -/
theorem exists_gap (h : closesFrom .code cs) :
    ∃ gap c rest, cs = gap ++ c :: rest ∧ Gap gap ∧ isCloserChar c := by
  induction pieces cs with
  | nil => cases h
  | @line body cs hbody _ ih =>
      obtain ⟨gap, c, rest, rfl, hgap, hc⟩ := ih ((strip_lineComment hbody cs).2 ▸ h)
      exact ⟨_, c, rest, by simp, .line hbody hgap, hc⟩
  | lastLine hbody =>
      rw [(strip_lastLine hbody).2] at h
      cases h
  | @block body cs hbody _ ih =>
      obtain ⟨gap, c, rest, rfl, hgap, hc⟩ := ih ((strip_blockComment hbody cs).2 ▸ h)
      exact ⟨_, c, rest, by simp, .block hbody hgap, hc⟩
  | openComment hbody =>
      rw [(strip_openComment hbody).2] at h
      cases h
  | @char c cs hline hblock _ ih =>
      rw [closesFrom_code hline hblock, Bool.or_eq_true, Bool.and_eq_true] at h
      rcases h with hc | ⟨hblank, hcloses⟩
      · exact ⟨[], c, cs, rfl, .nil, hc⟩
      · obtain ⟨gap, d, rest, rfl, hgap, hd⟩ := ih hcloses
        exact ⟨c :: gap, d, rest, rfl, .blank hblank hgap, hd⟩

theorem Gap.commented_or_flawed_append (hgap : Gap gap) (cs : List Char) :
    Commented [] gap ∨ Flawed (gap ++ cs) := by
  induction hgap with
  | nil => exact .inl .nil
  | @blank c gap hc _ ih =>
      cases hspace : isSpace c with
      | true =>
          refine ih.imp (.space hspace) fun hflawed => ?_
          simpa using hflawed.append (.space hspace .nil)
      | false => exact .inr (Flaw.wideBlank hc hspace).flawed
  | line hbody _ ih =>
      refine ih.imp (.line hbody) fun hflawed => ?_
      simpa using hflawed.append (.line hbody .nil)
  | block hbody _ ih =>
      refine ih.imp (.block hbody) fun hflawed => ?_
      simpa using hflawed.append (.block hbody .nil)

/-- A text that closes a bracket has nothing but a gap before it, unless a blank
of another kind is there. -/
theorem of_closesFrom (h : closesFrom .code cs) :
    ∃ gap c rest, cs = gap ++ c :: rest ∧ isCloserChar c ∧
      (strip cs).dropWhile Text.isBlank = c :: strip rest ∧ (Commented [] gap ∨ Flawed cs) := by
  obtain ⟨gap, c, rest, rfl, hgap, hc⟩ := exists_gap h
  exact ⟨gap, c, rest, rfl, hc, (hgap.closes hc rest).2, hgap.commented_or_flawed_append _⟩

/-! ## Words -/

/-- Before the first character of a word that is left, only comments that leave
nothing behind can have stood. -/
theorem exists_silent (hd : isWordChar d) (h : strip cs = d :: out) :
    ∃ gap cs', Silent gap ∧ cs = gap ++ d :: cs' ∧ strip cs' = out := by
  have hbreak : d ≠ '\n' := by
    rintro rfl
    cases hd
  induction pieces cs with
  | nil => cases h
  | line hbody _ _ =>
      rw [(strip_lineComment hbody _).1] at h
      exact absurd (List.cons.inj h).1.symm hbreak
  | lastLine hbody =>
      rw [(strip_lastLine hbody).1] at h
      cases h
  | @block body cs hbody _ ih =>
      rw [(strip_blockComment hbody cs).1] at h
      cases hbreaks : body.filter (· == '\n') with
      | nil =>
          rw [hbreaks, List.nil_append] at h
          obtain ⟨gap, cs', hgap, rfl, hout⟩ := ih h
          have hnone : '\n' ∉ body := fun hmem => List.filter_eq_nil_iff.1 hbreaks _ hmem rfl
          exact ⟨_, cs', .block hnone hbody hgap, by simp, hout⟩
      | cons b breaks =>
          rw [hbreaks] at h
          obtain rfl : b = d := (List.cons.inj h).1
          have hmem : b ∈ body.filter (· == '\n') := hbreaks ▸ List.mem_cons_self
          exact absurd (eq_of_beq (List.mem_filter.1 hmem).2) hbreak
  | openComment hbody =>
      rw [(strip_openComment hbody).1] at h
      have hmem : d ∈ List.filter (· == '\n') _ := h ▸ List.mem_cons_self
      exact absurd (eq_of_beq (List.mem_filter.1 hmem).2) hbreak
  | @char c cs hline hblock _ _ =>
      by_cases hquote : c = '"'
      · subst hquote
        rw [strip_quote] at h
        exact absurd (List.cons.inj h).1.symm (of_isWordChar hd).2.1
      · by_cases hcomma : c = ','
        · subst hcomma
          cases hcloses : closesFrom .code cs with
          | false =>
              rw [strip_comma hcloses] at h
              exact absurd (List.cons.inj h).1.symm (of_isWordChar hd).2.2.1
          | true =>
              obtain ⟨gap, c, rest, -, hc, hdrop, -⟩ := of_closesFrom hcloses
              rw [strip_danglingComma hcloses, hdrop] at h
              obtain rfl : c = d := (List.cons.inj h).1
              rw [(of_isWordChar hd).2.2.2] at hc
              cases hc
        · rw [strip_cons hline hblock hquote hcomma] at h
          obtain ⟨rfl, hout⟩ := List.cons.inj h
          exact ⟨[], cs, .nil, rfl, hout⟩

/-- A word that is left is a word of the text, or the text has comments inside
it. -/
theorem flaw_or_word {word w : List Char} (hne : word ≠ []) (hword : ∀ c ∈ word, isWordChar c)
    (hw : ∀ c ∈ w, isWordChar c) (h : strip cs = w ++ out) :
    Flaw (word ++ cs) ∨ ∃ cs', cs = w ++ cs' ∧ strip cs' = out := by
  induction w generalizing word cs with
  | nil => exact .inr ⟨cs, rfl, h⟩
  | cons d w ih =>
      rw [List.forall_mem_cons] at hw
      obtain ⟨gap, cs', hgap, rfl, hout⟩ := exists_silent hw.1 h
      by_cases hnone : gap = []
      · subst hnone
        have hword' : ∀ c ∈ word ++ [d], isWordChar c :=
          List.forall_mem_append.2 ⟨hword, List.forall_mem_singleton.2 hw.1⟩
        rcases ih (by simp) hword' hw.2 hout with hflaw | ⟨cs'', rfl, hout'⟩
        · exact .inl (by simpa using hflaw)
        · exact .inr ⟨cs'', rfl, hout'⟩
      · have hflaw : Flaw (word ++ gap ++ d :: cs') := .brokenWord hne hword hnone hgap hw.1
        exact .inl (by simpa using hflaw)

/-! ## Whole texts -/

/-- Where the text comes from when tokens are left of it: it has a flaw, the
bracket before it and its first one have only a comma between them, or it is a
text with comments. -/
inductive Recovers (opened : Bool) (ts : List Token) (text : List Char) : Prop where
  | flawed : Flawed text → Recovers opened ts text
  | loneComma {u : Token} {brackets rest : List Char} : opened → u.isCloser →
      Commented [.comma, u] brackets → text = brackets ++ rest → Recovers opened ts text
  | commented {us : List Token} {cs last : List Char} : Trailing opened ts us → Commented us cs →
      IsLastLine last → text = cs ++ last → Recovers opened ts text

namespace Recovers

theorem append_gap (hgap : Commented [] gap) (h : Recovers opened ts cs) :
    Recovers opened ts (gap ++ cs) := by
  cases h with
  | flawed hflawed => exact .flawed (hflawed.append hgap)
  | loneComma hopened hu hbrackets htext =>
      exact .loneComma hopened hu (hgap.append hbrackets) (by rw [htext, List.append_assoc])
  | commented hus hcs hlast htext =>
      exact .commented hus (hgap.append hcs) hlast (by rw [htext, List.append_assoc])

theorem cons (ht : t.IsLexeme) (h : Recovers t.isOpener ts cs) :
    Recovers opened (t :: ts) (t.text ++ cs) := by
  cases h with
  | flawed hflawed => exact .flawed (hflawed.append (.singleton ht))
  | @loneComma u brackets rest hopener hu hbrackets htext =>
      have hflaw : Flaw (t.text ++ brackets ++ rest) :=
        .loneComma hopener hu (.token ht hbrackets)
      rw [htext, ← List.append_assoc]
      exact .flawed hflaw.flawed
  | commented hus hcs hlast htext =>
      exact .commented (.token hus) (.token ht hcs) hlast (by rw [htext, List.append_assoc])

theorem cons_dangling (ht : t.IsLexeme) (hcloser : t.isCloser) (hgap : Commented [] gap)
    (h : Recovers false ts cs) : Recovers opened (t :: ts) (',' :: (gap ++ (t.text ++ cs))) := by
  have hcomma : Commented [.comma] [','] := .singleton trivial
  have hbrackets : Commented [.comma, t] (',' :: (gap ++ t.text)) :=
    hcomma.append (hgap.append (.singleton ht))
  cases h with
  | flawed hflawed => exact .flawed (by simpa using hflawed.append hbrackets)
  | loneComma hopened => cases hopened
  | @commented us cs last hus hcs hlast htext =>
      subst htext
      have htext : ',' :: (gap ++ (t.text ++ (cs ++ last))) =
          ',' :: (gap ++ t.text) ++ (cs ++ last) := by simp
      cases opened with
      | true => exact .loneComma rfl hcloser hbrackets htext
      | false =>
          exact .commented (.comma hcloser hus) (hbrackets.append hcs) hlast
            (htext.trans (List.append_assoc _ _ _).symm)

end Recovers

/-- Shorter texts recover the tokens that are left of them. -/
def ShorterRecover (text : List Char) : Prop :=
  ∀ ⦃rest : List Char⦄ ⦃ts : List Token⦄ ⦃opened : Bool⦄, rest.length < text.length →
    Spells ts (strip rest) → Recovers opened ts rest

theorem recovers_of_quote (ih : ShorterRecover ('"' :: cs)) (h : Spells ts (strip ('"' :: cs))) :
    Recovers opened ts ('"' :: cs) := by
  have htext := h
  rw [strip_quote] at htext
  rcases htext.uncons with ⟨hspace, -⟩ | ⟨t, ts, w, rest, rfl, ht, hw, hcs, hrest⟩
  · cases hspace
  · obtain ⟨raw, rfl, hraw⟩ : ∃ raw, t = .string raw ∧ IsStringBody raw := by
      rcases Token.text_cases ht with ⟨p, hp, hp'⟩ | hstring | ⟨-, hword⟩
      · obtain rfl : p = '"' := (List.cons.inj (hp'.symm.trans hw)).1
        exact absurd hp (by decide)
      · exact hstring
      · have hquote := hword '"' (hw ▸ List.mem_cons_self)
        cases hquote
    obtain rfl : raw ++ ['"'] = w := (List.cons.inj hw).2
    have hstrip : strip ('"' :: cs) = '"' :: (raw ++ '"' :: rest) := by
      rw [strip_quote, hcs, List.append_assoc]
      rfl
    obtain ⟨cs', rfl, rfl⟩ := (strip_quote_eq hraw).1 hstrip
    have htail : Recovers false ts cs' := ih (length_lt_append_cons ('"' :: raw) cs' '"') hrest
    have hall : Recovers opened _ (Token.text (.string raw) ++ cs') := .cons ht htail
    simpa [Token.text] using hall

theorem recovers_of_kept (ih : ShorterRecover (c :: cs)) (hquote : c ≠ '"')
    (hkept : strip (c :: cs) = c :: strip cs) (h : Spells ts (strip (c :: cs))) :
    Recovers opened ts (c :: cs) := by
  rw [hkept] at h
  rcases h.uncons with ⟨hspace, hcs⟩ | ⟨t, ts, w, rest, rfl, ht, hw, hcs, hrest⟩
  · exact (ih (Nat.lt_succ_self _) hcs).append_gap (.space hspace .nil)
  · rcases Token.text_cases ht with ⟨p, -, hp⟩ | ⟨raw, rfl, -⟩ | ⟨-, hword⟩
    · obtain ⟨rfl, rfl⟩ := List.cons.inj (hp.symm.trans hw)
      have htail : Recovers t.isOpener ts cs := ih (Nat.lt_succ_self _) (hcs ▸ hrest)
      have hall : Recovers opened _ (t.text ++ cs) := .cons ht htail
      rwa [hw] at hall
    · exact absurd (List.cons.inj hw).1.symm hquote
    · rw [hw, List.forall_mem_cons] at hword
      have hfirst : ∀ d ∈ [c], isWordChar d := List.forall_mem_singleton.2 hword.1
      rcases flaw_or_word (by simp) hfirst hword.2 hcs with hflaw | ⟨cs', rfl, rfl⟩
      · exact .flawed hflaw.flawed
      · have hlt : cs'.length < (c :: (w ++ cs')).length :=
          Nat.lt_succ_of_le (List.suffix_append w cs').length_le
        have htail : Recovers t.isOpener ts cs' := ih hlt hrest
        have hall : Recovers opened _ (t.text ++ cs') := .cons ht htail
        rwa [hw] at hall

theorem recovers_of_dangling (ih : ShorterRecover (',' :: cs)) (hcloses : closesFrom .code cs)
    (h : Spells ts (strip (',' :: cs))) : Recovers opened ts (',' :: cs) := by
  obtain ⟨gap, c, rest, rfl, hc, hdrop, hgap⟩ := of_closesFrom hcloses
  rw [strip_danglingComma hcloses, hdrop] at h
  obtain ⟨hslash, -⟩ := ne_of_isCloserChar hc
  rcases h.uncons with ⟨hspace, -⟩ | ⟨t, ts, w, out, rfl, ht, hw, hcs, hrest⟩
  · exact absurd (isBlank_of_isSpace hspace) (by simp [(of_isCloserChar hc).1])
  · have hcloser : t.isCloser := by
      rw [← closesFrom_text_append ht [], hw, List.cons_append, closesFrom_plain hslash, hc]
      rfl
    obtain rfl : [] = w := by
      cases t <;> first | exact (List.cons.inj hw).2 | cases hcloser
    have htail : Recovers false ts rest :=
      ih (length_lt_append_cons (',' :: gap) rest c) (hcs ▸ hrest)
    rcases hgap with hgap | hflawed
    · have hall : Recovers opened _ _ := .cons_dangling ht hcloser hgap htail
      rwa [hw] at hall
    · exact .flawed (hflawed.append (.singleton (t := .comma) trivial))

/-- Whatever is stripped to the spelling of some tokens recovers them. -/
theorem recovers_of_spells (h : Spells ts (strip cs)) : Recovers opened ts cs := by
  induction hlength : cs.length using Nat.strong_induction_on generalizing cs ts opened with
  | _ n ih =>
      subst hlength
      have hshorter : ShorterRecover cs := fun rest ts opened hlt hrest => ih _ hlt hrest rfl
      cases pieces cs with
      | nil =>
          obtain rfl := h.eq_nil
          exact .commented .nil .nil (.inl rfl) rfl
      | @line body cs hbody _ =>
          rw [(strip_lineComment hbody cs).1] at h
          have hbreak : ∀ c ∈ ['\n'], isSpace c := List.forall_mem_singleton.2 rfl
          have htail : Recovers opened ts cs :=
            hshorter (length_lt_line body cs) (Spells.of_spaces hbreak h)
          simpa using htail.append_gap (.line hbody .nil)
      | @lastLine body hbody =>
          rw [(strip_lastLine hbody).1] at h
          obtain rfl := h.eq_nil
          exact .commented .nil .nil (.inr ⟨body, hbody, rfl⟩) rfl
      | @block body cs hbody _ =>
          rw [(strip_blockComment hbody cs).1] at h
          have htail : Recovers opened ts cs :=
            hshorter (length_lt_block body cs) (h.of_spaces isSpace_of_mem_breaks)
          simpa using htail.append_gap (.block hbody .nil)
      | openComment hbody => exact .flawed (Flaw.openComment hbody).flawed
      | @char c cs hline hblock _ =>
          by_cases hquote : c = '"'
          · subst hquote
            exact recovers_of_quote hshorter h
          · by_cases hcomma : c = ','
            · subst hcomma
              cases hcloses : closesFrom .code cs with
              | true => exact recovers_of_dangling hshorter hcloses h
              | false => exact recovers_of_kept hshorter hquote (strip_comma hcloses) h
            · exact recovers_of_kept hshorter hquote (strip_cons hline hblock hquote hcomma) h

end Json

end RedundantCast
