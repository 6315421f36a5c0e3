import RedundantCast.Proofs.Json.Flaw
import RedundantCast.Text.Split

/-!
# Lines of stripped texts

Line breaks in strings and comments stay. Those between a dangling comma and its
bracket go with the comma, and no others do. So a text keeps its lines unless a
bracket stands on a later line than the comma that dangles before it.
-/

namespace RedundantCast

namespace Json

open Comments

/-- Characters between quotes: each backslash takes the next character with it, and no
other quote stands among them. -/
inductive IsQuoted : List Char → Prop where
  | nil : IsQuoted []
  | escape (e : Char) {cs : List Char} : IsQuoted cs → IsQuoted ('\\' :: e :: cs)
  | plain {c : Char} {cs : List Char} : c ≠ '\\' → c ≠ '"' → IsQuoted cs → IsQuoted (c :: cs)

/-- Text that ends outside strings and comments. -/
inductive Outside : List Char → Prop where
  | nil : Outside []
  | char {c : Char} {cs : List Char} : (∀ rest, c = '/' → cs = '/' :: rest → False) →
      (∀ rest, c = '/' → cs = '*' :: rest → False) → c ≠ '"' → Outside cs → Outside (c :: cs)
  | string {raw cs : List Char} : IsQuoted raw → Outside cs → Outside ('"' :: (raw ++ '"' :: cs))
  | line {body cs : List Char} : '\n' ∉ body → Outside cs →
      Outside ('/' :: '/' :: (body ++ '\n' :: cs))
  | block {body cs : List Char} : ¬ ['*', '/'] <:+: body → Outside cs →
      Outside ('/' :: '*' :: (body ++ '*' :: '/' :: cs))

/-- After `front` the text has a comma that only `gap` separates from the bracket `c`. -/
structure Dangles (cs front gap : List Char) (c : Char) (rest : List Char) : Prop where
  text_eq : cs = front ++ ',' :: (gap ++ c :: rest)
  outside : Outside front
  gap : Gap gap
  closer : isCloserChar c

/-- A bracket stands on a later line than the comma that dangles before it. -/
def SpansLines (cs : List Char) : Prop :=
  ∃ front gap c rest, Dangles cs front gap c rest ∧ '\n' ∈ gap

variable {c : Char} {after body cs front gap raw rest written : List Char}

/-! ## Strings -/

theorem copied_of_isQuoted (h : IsQuoted raw) : Copied raw := by
  induction h with
  | nil => simp [Copied]
  | escape e _ ih => exact (copied_escape e).append ih
  | plain hback hquote _ ih => exact (copied_plain hback hquote).append ih

theorem strip_quoted (h : IsQuoted raw) (cs : List Char) :
    strip ('"' :: (raw ++ '"' :: cs)) = '"' :: (raw ++ '"' :: strip cs) := by
  rw [strip_quote, List.cons_inj_right]
  exact (copied_of_isQuoted h _ _).2 ⟨'"' :: cs, rfl, stripFrom_string_cons false '"' cs⟩

/-- A text in a string closes the string, or it is copied to its end. -/
theorem exists_quoted (escaped : Bool) (cs : List Char) :
    stripFrom (.string escaped) [] cs = cs ∨
      ∃ raw rest, cs = raw ++ '"' :: rest ∧ IsQuoted (if escaped then '\\' :: raw else raw) := by
  induction cs generalizing escaped with
  | nil => exact .inl rfl
  | cons c cs ih =>
      rw [stripFrom_string_cons, List.cons_inj_right]
      cases escaped with
      | true =>
          rcases ih false with hcopied | ⟨raw, rest, rfl, hraw⟩
          · exact .inl hcopied
          · exact .inr ⟨c :: raw, rest, rfl, .escape c hraw⟩
      | false =>
          by_cases hback : c = '\\'
          · subst hback
            rcases ih true with hcopied | ⟨raw, rest, rfl, hraw⟩
            · exact .inl hcopied
            · exact .inr ⟨'\\' :: raw, rest, rfl, hraw⟩
          · by_cases hquote : c = '"'
            · subst hquote
              exact .inr ⟨[], cs, rfl, .nil⟩
            · have hmode : afterStringChar false c = .string false := by
                simp [afterStringChar, hback, hquote]
              rw [hmode]
              rcases ih false with hcopied | ⟨raw, rest, rfl, hraw⟩
              · exact .inl hcopied
              · exact .inr ⟨c :: raw, rest, rfl, .plain hback hquote hraw⟩

theorem strip_openString (h : stripFrom (.string false) [] cs = cs) :
    strip ('"' :: cs) = '"' :: cs := by
  rw [strip_quote, h]

/-! ## What stands before a place outside -/

theorem settle_reverse_append {blanks : List Char} (h : ∀ b ∈ blanks, Text.isBlank b)
    (written after : List Char) (closes : Bool) :
    settle (blanks.reverse ++ written) after closes = settle written (blanks ++ after) closes := by
  induction blanks generalizing written with
  | nil => rfl
  | cons b blanks ih =>
      obtain ⟨hb, hblanks⟩ := List.forall_mem_cons.1 h
      rw [List.reverse_cons, List.append_assoc, List.singleton_append, ih hblanks,
        settle_cons_of_isBlank hb, List.cons_append]

theorem stripFrom_code_eq_settle (written cs : List Char) :
    stripFrom .code written cs = settle written (strip cs) (closesFrom .code cs) :=
  stripFrom_eq_settle .code written cs

theorem stripFrom_line (h : '\n' ∉ body) (written cs : List Char) :
    stripFrom .code written ('/' :: '/' :: (body ++ '\n' :: cs)) =
      stripFrom .code ('\n' :: written) cs := by
  obtain ⟨hstrip, hcloses⟩ := strip_lineComment h cs
  rw [stripFrom_code_eq_settle, hstrip, hcloses, stripFrom_code_eq_settle ('\n' :: written),
    settle_cons_of_isBlank (by decide)]

theorem stripFrom_block (h : ¬ ['*', '/'] <:+: body) (written cs : List Char) :
    stripFrom .code written ('/' :: '*' :: (body ++ '*' :: '/' :: cs)) =
      stripFrom .code ((body.filter (· == '\n')).reverse ++ written) cs := by
  obtain ⟨hstrip, hcloses⟩ := strip_blockComment h cs
  have hbreaks : ∀ b ∈ body.filter (· == '\n'), Text.isBlank b :=
    fun b hb => isBlank_of_isSpace (isSpace_of_mem_breaks b hb)
  rw [stripFrom_code_eq_settle, hstrip, hcloses, stripFrom_code_eq_settle (_ ++ written),
    settle_reverse_append hbreaks]

theorem stripFrom_quote (written cs : List Char) :
    stripFrom .code written ('"' :: cs) = written.reverse ++ strip ('"' :: cs) := by
  rw [stripFrom_code_eq_settle]
  exact settle_false written _

theorem stripFrom_quoted (h : IsQuoted raw) (written cs : List Char) :
    stripFrom .code written ('"' :: (raw ++ '"' :: cs)) =
      stripFrom .code ('"' :: (raw.reverse ++ '"' :: written)) cs := by
  rw [stripFrom_quote, strip_quoted h, stripFrom_code_eq_settle ('"' :: _),
    settle_cons_of_not_isBlank (by decide) (by decide)]
  simp

/-- Text that ends outside strings and comments is stripped before what follows it is
read, unless a slash at its end begins a comment with that. -/
theorem Outside.stripFrom_append (h : Outside front) (hslash : cs.head? ≠ some '/')
    (hstar : cs.head? ≠ some '*') (written : List Char) :
    stripFrom .code written (front ++ cs) =
      stripFrom .code (stripFrom .code written front).reverse cs := by
  induction h generalizing written with
  | nil => simp [stripFrom]
  | @char c front hline hblock hquote _ ih =>
      have hnext : ∀ d, cs.head? ≠ some d → (∀ rest, c = '/' → front = d :: rest → False) →
          ∀ rest, c = '/' → front ++ cs = d :: rest → False := by
        intro d hd hfront rest hc heq
        cases front with
        | nil => exact hd (by rw [← List.nil_append cs, heq]; rfl)
        | cons e front => exact hfront front hc (by rw [(List.cons.inj heq).1])
      rw [List.cons_append, stripFrom_code (hnext _ hslash hline) (hnext _ hstar hblock) hquote,
        stripFrom_code hline hblock hquote, ih]
  | @string raw front hraw _ ih =>
      rw [List.cons_append, List.append_assoc, List.cons_append, stripFrom_quoted hraw,
        stripFrom_quoted hraw, ih]
  | @line body front hbody _ ih =>
      rw [List.cons_append, List.cons_append, List.append_assoc, List.cons_append,
        stripFrom_line hbody, stripFrom_line hbody, ih]
  | @block body front hbody _ ih =>
      rw [List.cons_append, List.cons_append, List.append_assoc, List.cons_append,
        List.cons_append, stripFrom_block hbody, stripFrom_block hbody, ih]

theorem Outside.strip_quoted (h : Outside front) (hraw : IsQuoted raw) (cs : List Char) :
    strip (front ++ '"' :: (raw ++ '"' :: cs)) =
      strip front ++ '"' :: (raw ++ '"' :: strip cs) := by
  rw [strip, h.stripFrom_append (by simp) (by simp), stripFrom_quote, List.reverse_reverse,
    Json.strip_quoted hraw]
  rfl

/-- With a dangling comma goes what separates it from its bracket, and nothing else. -/
theorem Dangles.strip_eq (h : Dangles cs front gap c rest) :
    strip cs = strip front ++ c :: strip rest := by
  obtain ⟨hcloses, hdrop⟩ := h.gap.closes h.closer rest
  have hcomma : stripFrom .code (strip front).reverse (',' :: (gap ++ c :: rest)) =
      stripFrom .code (',' :: (strip front).reverse) (gap ++ c :: rest) :=
    stripFrom_code (fun _ h _ => by cases h) (fun _ h _ => by cases h) (by decide)
  calc strip cs = stripFrom .code (strip front).reverse (',' :: (gap ++ c :: rest)) := by
        rw [h.text_eq]
        exact h.outside.stripFrom_append (by simp) (by simp) []
    _ = settle (',' :: (strip front).reverse) (strip (gap ++ c :: rest)) true := by
        rw [hcomma, stripFrom_code_eq_settle, hcloses]
    _ = strip front ++ c :: strip rest := by
        rw [settle_comma, List.reverse_reverse, if_pos rfl, hdrop]

/-! ## What is left -/

theorem dropComma_suffix (written : List Char) : dropComma written <:+ written := by
  unfold dropComma
  split
  · next rest heq =>
    have hblanks : ',' :: rest <:+ written := heq ▸ List.dropWhile_suffix Text.isBlank
    exact (List.suffix_cons ',' rest).trans hblanks
  · exact List.suffix_rfl

theorem writeCode_sublist (c : Char) (written : List Char) :
    (writeCode c written).Sublist (c :: written) := by
  unfold writeCode
  split
  · exact (dropComma_suffix written).sublist.cons_cons c
  · exact List.Sublist.refl _

/-- Nothing is put into a text. -/
theorem stripFrom_sublist (mode : Mode) (written cs : List Char) :
    (stripFrom mode written cs).Sublist (written.reverse ++ cs) := by
  have hskip : ∀ (written : List Char) (c : Char) (cs : List Char),
      (written.reverse ++ cs).Sublist (written.reverse ++ c :: cs) :=
    fun written c cs => (List.sublist_cons_self c cs).append_left written.reverse
  have hread : ∀ (written : List Char) (c : Char) (cs : List Char),
      (c :: written).reverse ++ cs = written.reverse ++ c :: cs := by simp
  fun_induction stripFrom mode written cs with
  | case1 => simp
  | case2 escaped written c cs ih => rwa [hread] at ih
  | case3 written cs ih => rwa [hread] at ih
  | case4 written c cs _ ih => exact ih.trans (hskip written c cs)
  | case5 star written c cs _ ih => exact ih.trans (hskip written c cs)
  | case6 star written c cs _ ih =>
      by_cases hc : c = '\n'
      · rw [if_pos hc] at ih ⊢
        rwa [hread] at ih
      · rw [if_neg hc] at ih ⊢
        exact ih.trans (hskip written c cs)
  | case7 written cs ih => exact ih.trans ((hskip _ _ _).trans (hskip _ _ _))
  | case8 written cs ih => exact ih.trans ((hskip _ _ _).trans (hskip _ _ _))
  | case9 written cs _ _ ih => rwa [hread] at ih
  | case10 written c cs _ _ _ ih =>
      have hwritten := (writeCode_sublist c written).reverse.append_right cs
      rw [hread] at hwritten
      exact ih.trans hwritten

theorem strip_sublist (cs : List Char) : (strip cs).Sublist cs :=
  stripFrom_sublist .code [] cs

/-! ## Texts that span lines -/

theorem Outside.plain (hslash : c ≠ '/') (hquote : c ≠ '"') (h : Outside cs) : Outside (c :: cs) :=
  .char (fun _ h _ => hslash h) (fun _ h _ => hslash h) hquote h

theorem Gap.outside_append (hgap : Gap gap) (h : Outside front) : Outside (gap ++ front) := by
  induction hgap with
  | nil => exact h
  | @blank c gap hc _ ih =>
      obtain ⟨hslash, hquote, -⟩ := ne_of_isBlank hc
      exact .plain hslash hquote ih
  | line hbody _ ih => simpa using Outside.line hbody ih
  | block hbody _ ih => simpa using Outside.block hbody ih

/-- A text behind a dangling comma and its bracket is outside as it is by itself. -/
theorem Gap.outside_dangling (hgap : Gap gap) (hc : isCloserChar c) (h : Outside front) :
    Outside (',' :: (gap ++ c :: front)) := by
  obtain ⟨hslash, hquote⟩ := ne_of_isCloserChar hc
  apply Outside.plain (by decide) (by decide)
  apply hgap.outside_append
  exact .plain hslash hquote h

namespace SpansLines

theorem append (h : SpansLines front) (cs : List Char) : SpansLines (front ++ cs) := by
  obtain ⟨front, gap, c, rest, ⟨rfl, hfront, hgap, hc⟩, hbreak⟩ := h
  exact ⟨front, gap, c, rest ++ cs, ⟨by simp, hfront, hgap, hc⟩, hbreak⟩

theorem cons (hline : ∀ rest, c = '/' → cs = '/' :: rest → False)
    (hblock : ∀ rest, c = '/' → cs = '*' :: rest → False) (hquote : c ≠ '"') (h : SpansLines cs) :
    SpansLines (c :: cs) := by
  obtain ⟨front, gap, d, rest, ⟨rfl, hfront, hgap, hd⟩, hbreak⟩ := h
  refine ⟨c :: front, gap, d, rest, ⟨rfl, ?_, hgap, hd⟩, hbreak⟩
  apply Outside.char
  · rintro front hc rfl
    exact hline _ hc (List.cons_append ..)
  · rintro front hc rfl
    exact hblock _ hc (List.cons_append ..)
  · exact hquote
  · exact hfront

theorem of_append (part : List Char) (hpart : ∀ front, Outside front → Outside (part ++ front))
    (h : SpansLines cs) : SpansLines (part ++ cs) := by
  obtain ⟨front, gap, c, rest, ⟨rfl, hfront, hgap, hc⟩, hbreak⟩ := h
  exact ⟨part ++ front, gap, c, rest, ⟨by simp, hpart front hfront, hgap, hc⟩, hbreak⟩

theorem danglingComma (hgap : Gap gap) (hc : isCloserChar c) (h : SpansLines rest) :
    SpansLines (',' :: (gap ++ c :: rest)) := by
  have hpart : ∀ front, Outside front → Outside (',' :: (gap ++ [c]) ++ front) :=
    fun front hfront => by simpa using hgap.outside_dangling hc hfront
  simpa using h.of_append _ hpart

theorem string (hraw : IsQuoted raw) (h : SpansLines cs) :
    SpansLines ('"' :: (raw ++ '"' :: cs)) := by
  have hpart : ∀ front, Outside front → Outside ('"' :: (raw ++ ['"']) ++ front) :=
    fun front hfront => by simpa using Outside.string hraw hfront
  simpa using h.of_append _ hpart

theorem line (hbody : '\n' ∉ body) (h : SpansLines cs) :
    SpansLines ('/' :: '/' :: (body ++ '\n' :: cs)) := by
  have hpart : ∀ front, Outside front → Outside ('/' :: '/' :: (body ++ ['\n']) ++ front) :=
    fun front hfront => by simpa using Outside.line hbody hfront
  simpa using h.of_append _ hpart

theorem block (hbody : ¬ ['*', '/'] <:+: body) (h : SpansLines cs) :
    SpansLines ('/' :: '*' :: (body ++ '*' :: '/' :: cs)) := by
  have hpart : ∀ front, Outside front → Outside ('/' :: '*' :: (body ++ ['*', '/']) ++ front) :=
    fun front hfront => by simpa using Outside.block hbody hfront
  simpa using h.of_append _ hpart

end SpansLines

/-! ## Line breaks -/

theorem count_strip_lt (h : SpansLines cs) : (strip cs).count '\n' < cs.count '\n' := by
  obtain ⟨front, gap, c, rest, hdangles, hbreak⟩ := h
  have hfront := (strip_sublist front).count_le '\n'
  have hrest := (strip_sublist rest).count_le '\n'
  have hgap : 0 < gap.count '\n' := List.count_pos_iff.2 hbreak
  rw [hdangles.strip_eq, hdangles.text_eq]
  simp only [List.count_append, List.count_cons]
  omega

/-- How a text is read on: by a string, a comment, a dangling comma up to its bracket, or
any other character. -/
inductive Parts : List Char → Prop where
  | nil : Parts []
  | char {c : Char} {cs : List Char} : (∀ rest, c = '/' → cs = '/' :: rest → False) →
      (∀ rest, c = '/' → cs = '*' :: rest → False) → c ≠ '"' →
      (c = ',' → closesFrom .code cs = false) → Parts cs → Parts (c :: cs)
  | danglingComma {gap rest : List Char} {c : Char} : Gap gap → isCloserChar c → Parts rest →
      Parts (',' :: (gap ++ c :: rest))
  | string {raw cs : List Char} : IsQuoted raw → Parts cs → Parts ('"' :: (raw ++ '"' :: cs))
  | openString {cs : List Char} : stripFrom (.string false) [] cs = cs → Parts ('"' :: cs)
  | line {body cs : List Char} : '\n' ∉ body → Parts cs → Parts ('/' :: '/' :: (body ++ '\n' :: cs))
  | lastLine {body : List Char} : '\n' ∉ body → Parts ('/' :: '/' :: body)
  | block {body cs : List Char} : ¬ ['*', '/'] <:+: body → Parts cs →
      Parts ('/' :: '*' :: (body ++ '*' :: '/' :: cs))
  | openComment {body : List Char} : ¬ ['*', '/'] <:+: body → Parts ('/' :: '*' :: body)

theorem parts (cs : List Char) : Parts cs := by
  induction hlength : cs.length using Nat.strong_induction_on generalizing cs with
  | _ n ih =>
      subst hlength
      have hshorter : ∀ ds : List Char, ds.length < cs.length → Parts ds :=
        fun ds hds => ih _ hds ds rfl
      cases pieces cs with
      | nil => exact .nil
      | @line body cs hbody _ => exact .line hbody (hshorter cs (length_lt_line body cs))
      | lastLine hbody => exact .lastLine hbody
      | @block body cs hbody _ => exact .block hbody (hshorter cs (length_lt_block body cs))
      | openComment hbody => exact .openComment hbody
      | @char c cs hline hblock _ =>
          have htail : Parts cs := hshorter cs (Nat.lt_succ_self _)
          by_cases hquote : c = '"'
          · subst hquote
            rcases exists_quoted false cs with hcopied | ⟨raw, rest, rfl, hraw⟩
            · exact .openString hcopied
            · exact .string hraw (hshorter rest (length_lt_append_cons ('"' :: raw) rest '"'))
          · by_cases hdangling : c = ',' ∧ closesFrom .code cs = true
            · obtain ⟨rfl, hcloses⟩ := hdangling
              obtain ⟨gap, d, rest, rfl, hgap, hd⟩ := exists_gap hcloses
              exact .danglingComma hgap hd
                (hshorter rest (length_lt_append_cons (',' :: gap) rest d))
            · refine .char hline hblock hquote (fun hcomma => ?_) htail
              rw [Bool.eq_false_iff]
              exact fun hcloses => hdangling ⟨hcomma, hcloses⟩

theorem strip_cons_of_not_dangling (hline : ∀ rest, c = '/' → cs = '/' :: rest → False)
    (hblock : ∀ rest, c = '/' → cs = '*' :: rest → False) (hquote : c ≠ '"')
    (hcomma : c = ',' → closesFrom .code cs = false) : strip (c :: cs) = c :: strip cs := by
  by_cases hc : c = ','
  · subst hc
    exact strip_comma (hcomma rfl)
  · exact strip_cons hline hblock hquote hc

/-- If each bracket stands on the line of the comma that dangles before it, every line
break stays. -/
theorem count_strip (h : ¬ SpansLines cs) : (strip cs).count '\n' = cs.count '\n' := by
  induction parts cs with
  | nil => rfl
  | @char c cs hline hblock hquote hcomma _ ih =>
      have hcs : ¬ SpansLines cs := fun hcs => h (hcs.cons hline hblock hquote)
      rw [strip_cons_of_not_dangling hline hblock hquote hcomma, List.count_cons, List.count_cons,
        ih hcs]
  | @danglingComma gap rest c hgap hc _ ih =>
      have hdangles : Dangles (',' :: (gap ++ c :: rest)) [] gap c rest := ⟨rfl, .nil, hgap, hc⟩
      have hbreak : '\n' ∉ gap := fun hbreak => h ⟨_, _, _, _, hdangles, hbreak⟩
      have hrest : ¬ SpansLines rest := fun hrest => h (hrest.danglingComma hgap hc)
      rw [hdangles.strip_eq]
      simp [List.count_cons, List.count_eq_zero.2 hbreak, ih hrest]
  | @string raw cs hraw _ ih =>
      have hcs : ¬ SpansLines cs := fun hcs => h (hcs.string hraw)
      rw [strip_quoted hraw]
      simp [ih hcs]
  | openString hcopied => rw [strip_openString hcopied]
  | @line body cs hbody _ ih =>
      have hcs : ¬ SpansLines cs := fun hcs => h (hcs.line hbody)
      rw [(strip_lineComment hbody cs).1]
      simp [List.count_eq_zero.2 hbody, ih hcs]
  | lastLine hbody =>
      rw [(strip_lastLine hbody).1]
      simp [List.count_eq_zero.2 hbody]
  | @block body cs hbody _ ih =>
      have hcs : ¬ SpansLines cs := fun hcs => h (hcs.block hbody)
      rw [(strip_blockComment hbody cs).1]
      simp [List.count_filter, ih hcs]
  | openComment hbody =>
      rw [(strip_openComment hbody).1]
      simp [List.count_filter]

/-! ## Lines -/

/-- What is left of a text with all its separators is left of each part by itself. -/
theorem forall₂_sublist_splitOn {sep : Char} {out : List Char} (h : out.Sublist cs)
    (hcount : out.count sep = cs.count sep) :
    List.Forall₂ List.Sublist (Text.splitOn sep out) (Text.splitOn sep cs) := by
  induction h with
  | slnil => exact .cons .slnil .nil
  | @cons out cs c hsub ih =>
      have hle := hsub.count_le sep
      have hc : c ≠ sep := by
        rintro rfl
        rw [List.count_cons_self] at hcount
        omega
      rw [List.count_cons_of_ne hc] at hcount
      obtain ⟨part, parts, hs⟩ := List.exists_cons_of_ne_nil (Text.splitOn_ne_nil sep cs)
      have hparts := ih hcount
      rw [hs] at hparts
      obtain ⟨part', parts', hhead, htail, hs'⟩ := List.forall₂_cons_right_iff.1 hparts
      rw [Text.splitOn_cons_of_ne hc hs, hs']
      exact .cons (hhead.cons c) htail
  | @cons_cons out cs c _ ih =>
      by_cases hc : c = sep
      · subst hc
        rw [List.count_cons_self, List.count_cons_self, Nat.add_right_cancel_iff] at hcount
        rw [Text.splitOn_sep_cons, Text.splitOn_sep_cons]
        exact .cons .slnil (ih hcount)
      · rw [List.count_cons_of_ne hc, List.count_cons_of_ne hc] at hcount
        obtain ⟨part, parts, hs⟩ := List.exists_cons_of_ne_nil (Text.splitOn_ne_nil sep cs)
        obtain ⟨part', parts', hs'⟩ := List.exists_cons_of_ne_nil (Text.splitOn_ne_nil sep out)
        have hparts := ih hcount
        rw [Text.splitOn_cons_of_ne hc hs, Text.splitOn_cons_of_ne hc hs']
        rw [hs, hs'] at hparts
        obtain ⟨hhead, htail⟩ := List.forall₂_cons.1 hparts
        exact .cons (hhead.cons_cons c) htail

/-- A text keeps its line breaks exactly if no bracket stands on a later line than the
comma that dangles before it. Then each line of the result is left over from the same
line of the text, and each string is kept with as many line breaks before it. With a
dangling comma all that separates it from its bracket goes, line breaks too. -/
theorem strip_lines (cs : List Char) :
    (strip cs).Sublist cs ∧
      (¬ SpansLines cs →
        (strip cs).count '\n' = cs.count '\n' ∧
          List.Forall₂ List.Sublist (Text.splitOn '\n' (strip cs)) (Text.splitOn '\n' cs) ∧
          ∀ front raw rest, Outside front → IsQuoted raw →
            cs = front ++ '"' :: (raw ++ '"' :: rest) →
            strip cs = strip front ++ '"' :: (raw ++ '"' :: strip rest) ∧
              (strip front).count '\n' = front.count '\n') ∧
      (SpansLines cs → (strip cs).count '\n' < cs.count '\n') ∧
      ∀ front gap c rest, Dangles cs front gap c rest →
        strip cs = strip front ++ c :: strip rest := by
  refine ⟨strip_sublist cs, fun hlevel => ⟨count_strip hlevel, ?_, ?_⟩, count_strip_lt,
    fun _ _ _ _ => Dangles.strip_eq⟩
  · exact forall₂_sublist_splitOn (strip_sublist cs) (count_strip hlevel)
  · rintro front raw rest hfront hraw rfl
    refine ⟨hfront.strip_quoted hraw rest, count_strip fun hspans => hlevel ?_⟩
    exact hspans.append _

/-- The comma before `]` loses the line break after it, with the comment between them,
and the comma before the closing brace stands on its line. -/
theorem strip_lines_arrayAndObject :
    let array := ['[', '1', ',', ' ', '/', '/', 'x', '\n', ']']
    let value := [':', '1', ',', ' ', '\x7d', '\n']
    let object := '\x7b' :: '"' :: 'a' :: '\n' :: '"' :: value
    Dangles array ['[', '1'] [' ', '/', '/', 'x', '\n'] ']' [] ∧
      strip array = strip ['[', '1'] ++ ']' :: strip [] ∧
      (strip array).count '\n' < array.count '\n' ∧
      ¬ SpansLines object ∧
      List.Forall₂ List.Sublist (Text.splitOn '\n' (strip object)) (Text.splitOn '\n' object) ∧
      strip object = strip ['\x7b'] ++ '"' :: (['a', '\n'] ++ '"' :: strip value) := by
  intro array value object
  have hfront : Outside ['[', '1'] :=
    .plain (by decide) (by decide) (.plain (by decide) (by decide) .nil)
  have hcomment : Gap ('/' :: '/' :: (['x'] ++ '\n' :: [])) := .line (by decide) .nil
  have hgap : Gap [' ', '/', '/', 'x', '\n'] := .blank (by decide) hcomment
  have hdangles : Dangles array ['[', '1'] [' ', '/', '/', 'x', '\n'] ']' [] :=
    ⟨rfl, hfront, hgap, rfl⟩
  obtain ⟨-, -, hlost, hdropped⟩ := strip_lines array
  obtain ⟨-, hkept, hlost', -⟩ := strip_lines object
  have hlevel : ¬ SpansLines object := fun hspans => absurd (hlost' hspans) (by decide)
  obtain ⟨-, hlines, hstrings⟩ := hkept hlevel
  have hraw : IsQuoted ['a', '\n'] :=
    .plain (by decide) (by decide) (.plain (by decide) (by decide) .nil)
  have hbrace : Outside ['\x7b'] := .plain (by decide) (by decide) .nil
  exact ⟨hdangles, hdropped _ _ _ _ hdangles, hlost ⟨_, _, _, _, hdangles, by decide⟩, hlevel,
    hlines, (hstrings _ _ _ hbrace hraw rfl).1⟩

/-- Stripped, this text with the error on its third line has it on the second. -/
theorem not_forall_count_strip :
    ¬ ∀ cs : List Char, (strip cs).count '\n' = cs.count '\n' := by
  intro h
  have hcount := h
    "\x7b\"inspection\":\x7b\"maxInferenceDepth\":64,\n\x7d,\n\"extends\":base\x7d".toList
  exact absurd hcount (by decide)

end Json

end RedundantCast
