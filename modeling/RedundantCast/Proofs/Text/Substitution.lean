import RedundantCast.Proofs.Text.Template
import RedundantCast.Text.Substitution

/-!
# Filling a template in passes

One pass replaces the placeholder of one argument. As long as no placeholder takes in
text of an argument that an earlier pass has put in, the passes come to the same as
putting in all arguments at once.
-/

namespace RedundantCast.Text

variable {args front rest : List (List Char)} {arg : List Char} {ps before after : List Piece}
  {p : Piece} {cs : List Char} {c : Char} {i count : Nat}

/-- An occurrence of the pattern takes in a part of the middle text, or spans the
place where it is, if it is empty. -/
def Overlaps (pattern before text after : List Char) : Prop :=
  ∃ n, n < before.length + text.length ∧ before.length < n + pattern.length ∧
    pattern <+: (before ++ text ++ after).drop n

/-- Where the arguments in front are put in, the placeholder of the next one takes in
some of the text of this one. -/
def TakesIn (front : List (List Char)) (ps : List Piece) (arg : List Char) : Prop :=
  ∃ before i after, ps = before ++ .hole i :: after ∧ front[i]? = some arg ∧
    Overlaps (placeholder front.length) (render front before) arg (render front after)

/-- No character of the pieces starts a placeholder of the first `count`. -/
def IsScanned (count : Nat) (ps : List Piece) : Prop :=
  ∀ before c after, ps = before ++ .char c :: after →
    ∀ i < count, ¬ placeholder i <+: c :: render [] after

/-- Text without braces that is not made of digits alone. -/
def IsPlain (text : List Char) : Prop :=
  '\x7b' ∉ text ∧ '\x7d' ∉ text ∧ ∃ c ∈ text, c.isDigit = false

/-! ## The pieces of a template -/

theorem placeholder_prefix_of_holeAt? (h : holeAt? count cs = some i) : placeholder i <+: cs := by
  have hstart := List.find?_some h
  exact List.isPrefixOf_iff_prefix.1 hstart

theorem not_prefix_of_holeAt? (h : holeAt? count cs = none) (hi : i < count) :
    ¬ placeholder i <+: cs := by
  have hnone := List.find?_eq_none.1 h i (List.mem_range.2 hi)
  rwa [List.isPrefixOf_iff_prefix] at hnone

/-- With the placeholders put back, the pieces are the template. -/
theorem render_nil_piecesFrom (count skip : Nat) (cs : List Char) :
    render [] (piecesFrom count skip cs) = cs.drop skip := by
  induction cs generalizing skip with
  | nil => cases skip <;> rfl
  | cons c cs ih =>
      cases skip with
      | succ skip => exact ih skip
      | zero =>
          rw [piecesFrom]
          cases hhole : holeAt? count (c :: cs) with
          | none => exact congrArg (c :: ·) (ih 0)
          | some i =>
              have hcut := List.prefix_iff_eq_append.1 (placeholder_prefix_of_holeAt? hhole)
              exact (congrArg (placeholder i ++ ·) (ih ((placeholder i).length - 1))).trans hcut

theorem IsScanned.tail (h : IsScanned count (p :: ps)) : IsScanned count ps := by
  intro before c after heq
  exact h (p :: before) c after (by rw [heq, List.cons_append])

theorem isScanned_piecesFrom (count skip : Nat) (cs : List Char) :
    IsScanned count (piecesFrom count skip cs) := by
  induction cs generalizing skip with
  | nil =>
      intro before c after heq
      cases skip <;> simp [piecesFrom] at heq
  | cons c cs ih =>
      cases skip with
      | succ skip => exact ih skip
      | zero =>
          rw [piecesFrom]
          cases hhole : holeAt? count (c :: cs) with
          | none =>
              intro before d after heq i hi
              rcases List.cons_eq_append_iff.1 heq with ⟨rfl, hchar⟩ | ⟨before, rfl, hlater⟩
              · cases hchar
                rw [render_nil_piecesFrom]
                exact not_prefix_of_holeAt? hhole hi
              · exact ih 0 before d after hlater i hi
          | some i =>
              intro before d after heq
              rcases List.cons_eq_append_iff.1 heq with ⟨-, hchar⟩ | ⟨before, rfl, hlater⟩
              · cases hchar
              · exact ih _ before d after hlater

/-! ## One pass -/

theorem TakesIn.cons (h : TakesIn front ps arg) (p : Piece) : TakesIn front (p :: ps) arg := by
  obtain ⟨before, i, after, heq, harg, n, hleft, hright, hprefix⟩ := h
  refine ⟨p :: before, i, after, by rw [heq, List.cons_append], harg,
    (p.text front).length + n, ?_, ?_, ?_⟩
  · rw [render_cons, List.length_append]
    omega
  · rw [render_cons, List.length_append]
    omega
  · rw [render_cons, List.append_assoc, List.append_assoc, List.drop_length_add_append,
      ← List.append_assoc]
    exact hprefix

theorem text_of_lt (h : front[i]? = some arg) : Piece.text front (.hole i) = arg := by
  rw [Piece.text, List.getD_eq_getElem?_getD, h, Option.getD_some]

theorem text_of_le (h : front.length ≤ i) : Piece.text front (.hole i) = placeholder i := by
  rw [Piece.text, List.getD_eq_getElem?_getD, List.getElem?_eq_none h, Option.getD_none]

theorem render_split (heq : ps = before ++ .hole i :: after) (harg : front[i]? = some arg) :
    render front ps = render front before ++ arg ++ render front after := by
  rw [heq, render, List.flatMap_append, List.flatMap_cons, text_of_lt harg, ← List.append_assoc]
  rfl

/-- Text without an opening brace that is found before the first argument that was put
in stands in the template. -/
theorem prefix_render_nil {word : List Char} (hword : '\x7b' ∉ word)
    (hshort : ∀ before i after arg, ps = before ++ .hole i :: after → front[i]? = some arg →
      word.length ≤ (render front before).length)
    (h : word <+: render front ps) : word <+: render [] ps := by
  induction ps generalizing word with
  | nil => exact h
  | cons p ps ih =>
      cases word with
      | nil => exact List.nil_prefix
      | cons d word =>
          cases p with
          | char c =>
              obtain ⟨rfl, hrest⟩ := List.cons_prefix_cons.1 h
              apply List.cons_prefix_cons.2 ⟨rfl, ih (List.not_mem_of_not_mem_cons hword) ?_ hrest⟩
              intro before i after arg heq harg
              have hlength := hshort (.char d :: before) i after arg (by rw [heq]; rfl) harg
              simpa [Piece.text] using hlength
          | hole i =>
              rcases lt_or_ge i front.length with hi | hi
              · have hlength := hshort [] i ps _ rfl (List.getElem?_eq_getElem hi)
                simp at hlength
              · rw [render_cons, text_of_le hi] at h
                have hd : d = '\x7b' := (List.cons_prefix_cons.1 h).1
                exact absurd (by simp [hd]) hword

theorem not_prefix_render_char (hscan : IsScanned count (.char c :: ps))
    (hapart : ∀ arg, ¬ TakesIn front (.char c :: ps) arg) (hcount : front.length < count) :
    ¬ placeholder front.length <+: c :: render front ps := by
  intro hprefix
  have htail : (placeholder front.length).tail <+: render front ps := by
    rw [placeholder_eq_cons] at hprefix
    exact (List.cons_prefix_cons.1 hprefix).2
  have hshort : ∀ before i after arg, ps = before ++ .hole i :: after → front[i]? = some arg →
      (placeholder front.length).tail.length ≤ (render front before).length := by
    intro before i after arg heq harg
    by_contra hlong
    rw [List.length_tail] at hlong
    have hlength : (render front (.char c :: before)).length = (render front before).length + 1 := rfl
    refine hapart arg ⟨.char c :: before, i, after, by rw [heq, List.cons_append], harg,
      0, ?_, ?_, ?_⟩
    · omega
    · omega
    · rw [render_split heq harg] at hprefix
      exact hprefix
  have hprinted : (placeholder front.length).tail <+: render [] ps :=
    prefix_render_nil (opening_not_mem_tail_placeholder front.length) hshort htail
  apply hscan [] c ps rfl front.length hcount
  rw [placeholder_eq_cons] at hprefix ⊢
  exact List.cons_prefix_cons.2 ⟨(List.cons_prefix_cons.1 hprefix).1, hprinted⟩

theorem replaceAll_render (hscan : IsScanned count ps) (hapart : ∀ arg, ¬ TakesIn front ps arg)
    (hcount : front.length < count) (arg : List Char) :
    replaceAll (placeholder front.length) arg (render front ps) = render (front ++ [arg]) ps := by
  induction ps with
  | nil => rfl
  | cons p ps ih =>
      have hrest := ih hscan.tail fun arg h => hapart arg (h.cons p)
      rw [render_cons, render_cons]
      cases p with
      | char c =>
          have hprefix := not_prefix_render_char hscan hapart hcount
          exact (replaceAll_cons_of_not_start hprefix).trans (congrArg (c :: ·) hrest)
      | hole i =>
          rcases lt_trichotomy i front.length with hi | rfl | hi
          · have hold : front[i]? = some front[i] := List.getElem?_eq_getElem hi
            have hnew : (front ++ [arg])[i]? = some front[i] := by
              rw [List.getElem?_append_left hi, hold]
            rw [text_of_lt hold, text_of_lt hnew, replaceAll_append, hrest]
            intro n hn hprefix
            refine hapart _ ⟨[], i, ps, rfl, hold, n, ?_, ?_, hprefix⟩
            · simpa using hn
            · exact Nat.add_pos_right n (length_placeholder_pos front.length)
          · rw [text_of_le le_rfl, text_of_lt List.getElem?_concat_length,
              replaceAll_append_self (placeholder_ne_nil _), hrest]
          · have hlater : (front ++ [arg]).length ≤ i := by
              rw [List.length_append, List.length_singleton]
              exact hi
            rw [text_of_le hi.le, text_of_le hlater, replaceAll_append, hrest]
            exact not_prefix_drop_placeholder hi.ne

/-! ## All passes -/

theorem fillFrom_render (hscan : IsScanned (front ++ rest).length ps)
    (hapart : ∀ k < (front ++ rest).length, ∀ arg, ¬ TakesIn ((front ++ rest).take k) ps arg) :
    fillFrom front.length (render front ps) rest = render (front ++ rest) ps := by
  induction rest generalizing front with
  | nil => rw [fillFrom_nil, List.append_nil]
  | cons arg rest ih =>
      have hsplit := List.append_cons front arg rest
      have hcount : front.length < (front ++ arg :: rest).length := by simp
      have hfirst : ∀ arg, ¬ TakesIn front ps arg := by simpa using hapart front.length hcount
      rw [fillFrom_cons, replaceAll_render hscan hfirst hcount]
      rw [hsplit] at hscan hapart ⊢
      simpa using ih hscan hapart

theorem fill_of_not_takesIn {template : String} {args : List String}
    (hapart : ∀ k < args.length, ∀ arg, ¬ TakesIn ((args.map String.toList).take k)
      (pieces args.length template.toList) arg) :
    fill template args = substitute template args := by
  have hlength : (args.map String.toList).length = args.length := List.length_map _
  have hprinted : render [] (pieces args.length template.toList) = template.toList :=
    render_nil_piecesFrom args.length 0 template.toList
  have hscan : IsScanned ([] ++ args.map String.toList).length
      (pieces args.length template.toList) := by
    rw [List.nil_append, hlength]
    exact isScanned_piecesFrom args.length 0 template.toList
  have hfill := fillFrom_render hscan (by rw [List.nil_append, hlength]; exact hapart)
  rw [hprinted] at hfill
  exact congrArg String.ofList hfill

/-! ## Plain arguments -/

theorem getElem?_of_prefix_drop {pattern text before after : List Char} {n k : Nat}
    (h : pattern <+: (before ++ text ++ after).drop n) (hn : n ≤ k)
    (hpattern : k < n + pattern.length) (hbefore : before.length ≤ k)
    (htext : k < before.length + text.length) : pattern[k - n]? = text[k - before.length]? := by
  obtain ⟨rest, hrest⟩ := h
  have hk := congrArg (·[k - n]?) hrest
  rw [List.getElem?_append_left (by omega), List.getElem?_drop, Nat.add_sub_of_le hn,
    List.append_assoc, List.getElem?_append_right hbefore, List.getElem?_append_left (by omega)] at hk
  exact hk

/-- A placeholder takes in nothing of plain text, whatever stands around it. -/
theorem not_overlaps_of_isPlain {text : List Char} (h : IsPlain text) (i : Nat)
    (before after : List Char) : ¬ Overlaps (placeholder i) before text after := by
  obtain ⟨hopening, hclosing, c, hc, hdigit⟩ := h
  rintro ⟨n, hleft, hright, hprefix⟩
  -- the opening brace stands before the text and the closing one behind it
  have hstart : n < before.length := by
    by_contra hle
    apply hopening
    apply List.mem_of_getElem? (i := n - before.length)
    rw [← getElem?_of_prefix_drop hprefix le_rfl (Nat.lt_add_of_pos_right (length_placeholder_pos i))
      (Nat.le_of_not_lt hle) hleft, Nat.sub_self]
    rfl
  have hend : before.length + text.length < n + (placeholder i).length := by
    by_contra hle
    apply hclosing
    apply List.mem_of_getElem? (i := n + (placeholder i).length - 1 - before.length)
    rw [← getElem?_of_prefix_drop hprefix (by omega) (by omega) (by omega) (by omega),
      ← getElem?_last_placeholder i]
    congr 1
    omega
  -- so all of the text is digits
  obtain ⟨m, hm, hmc⟩ := List.mem_iff_getElem.1 hc
  have hmem : (placeholder i)[before.length + m - n]? = some c := by
    rw [getElem?_of_prefix_drop hprefix (by omega) (by omega) (by omega) (by omega),
      Nat.add_sub_cancel_left, List.getElem?_eq_getElem hm, hmc]
  have hinner := isDigit_of_getElem?_placeholder (by omega) (by omega) hmem
  rw [hdigit] at hinner
  cases hinner

/-- Text that a placeholder takes in is that of an argument before its own. -/
theorem exists_of_takesIn {args : List String} {k : Nat}
    (h : TakesIn ((args.map String.toList).take k) ps arg) :
    ∃ word ∈ args.take k, word.toList = arg ∧ ¬ IsPlain arg := by
  obtain ⟨before, i, after, -, harg, hoverlaps⟩ := h
  have hmem : arg ∈ (args.take k).map String.toList := by
    rw [List.map_take]
    exact List.mem_of_getElem? harg
  obtain ⟨word, hword, rfl⟩ := List.mem_map.1 hmem
  exact ⟨word, hword, rfl, fun hplain => not_overlaps_of_isPlain hplain _ _ _ hoverlaps⟩

/-- A template filled in passes holds every argument as it is, or else a placeholder takes
in text of an argument before its own. That argument has braces in it or is spelled with
digits alone. -/
theorem fill_eq_substitute_or_takesIn (template : String) (args : List String) :
    fill template args = substitute template args ∨
      ∃ k < args.length, ∃ arg ∈ args.take k, ¬ IsPlain arg.toList ∧
        TakesIn ((args.map String.toList).take k) (pieces args.length template.toList)
          arg.toList := by
  by_cases hapart : ∀ k < args.length, ∀ arg, ¬ TakesIn ((args.map String.toList).take k)
      (pieces args.length template.toList) arg
  · exact Or.inl (fill_of_not_takesIn hapart)
  · right
    simp only [not_forall, not_not] at hapart
    obtain ⟨k, hk, arg, htakes⟩ := hapart
    obtain ⟨word, hword, rfl, hplain⟩ := exists_of_takesIn htakes
    exact ⟨k, hk, word, hword, hplain, htakes⟩

/-- What the first argument brings along is filled in the second pass. -/
theorem not_forall_fill_eq_substitute :
    ¬ ∀ (template : String) (args : List String),
      fill template args = substitute template args := by
  intro h
  exact absurd (h "\x7b0\x7d" ["\x7b1\x7d", "x"]) (by decide)

/-- Plain arguments are shown as they are, and the last one is whatever it holds. -/
theorem fill_of_isPlain (template : String) {args : List String}
    (h : ∀ arg ∈ args.dropLast, IsPlain arg.toList) :
    fill template args = substitute template args := by
  apply fill_of_not_takesIn
  intro k hk arg htakes
  obtain ⟨word, hword, rfl, hplain⟩ := exists_of_takesIn htakes
  apply hplain
  apply h word
  rw [List.dropLast_eq_take]
  exact (List.take_sublist_take_left (by omega)).subset hword

example : fill "\x7b1\x7d for \x7b0\x7d" ["int", "\x7b0\x7d"] = "\x7b0\x7d for int" := by decide

/-- A message with one argument always shows it as it is. -/
theorem fill_singleton (template arg : String) :
    fill template [arg] = substitute template [arg] :=
  fill_of_isPlain template (by simp)

end RedundantCast.Text
