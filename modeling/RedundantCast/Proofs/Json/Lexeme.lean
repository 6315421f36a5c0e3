import RedundantCast.Json.Token

/-!
# Lexemes

How tokens are spelled, by the grammar of JSON and without the scanner. The
scanner takes the lexeme of a token from the front of a text, and whatever it
takes is a lexeme. Only numbers have an end that the next character can move.
-/

namespace RedundantCast

namespace Json

/-- The digits before the point of a number. -/
inductive IsWhole : List Char → Prop where
  | zero : IsWhole ['0']
  | digits {d : Char} {ds : List Char} :
      d ≠ '0' → (∀ c ∈ d :: ds, c.isDigit) → IsWhole (d :: ds)

inductive IsFraction : List Char → Prop where
  | absent : IsFraction []
  | point {ds : List Char} : ds ≠ [] → (∀ c ∈ ds, c.isDigit) → IsFraction ('.' :: ds)

inductive IsExponent : List Char → Prop where
  | absent : IsExponent []
  | mark {e : Char} {sign ds : List Char} : e = 'e' ∨ e = 'E' →
      sign = [] ∨ sign = ['+'] ∨ sign = ['-'] → ds ≠ [] → (∀ c ∈ ds, c.isDigit) →
      IsExponent (e :: (sign ++ ds))

/-- A number without a sign. -/
inductive IsMagnitude : List Char → Prop where
  | parts {whole fraction exponent : List Char} : IsWhole whole → IsFraction fraction →
      IsExponent exponent → IsMagnitude (whole ++ fraction ++ exponent)

inductive IsNumber : List Char → Prop where
  | unsigned {cs : List Char} : IsMagnitude cs → IsNumber cs
  | negative {cs : List Char} : IsMagnitude cs → IsNumber ('-' :: cs)

/-- What stands between the quotes of a string. -/
inductive IsStringBody : List Char → Prop where
  | nil : IsStringBody []
  | unicode {a b c d : Char} {cs : List Char} : (∀ h ∈ [a, b, c, d], (Text.digit? h).isSome) →
      IsStringBody cs → IsStringBody ('\\' :: 'u' :: a :: b :: c :: d :: cs)
  | escape {e : Char} {cs : List Char} : (shortEscape? e).isSome →
      IsStringBody cs → IsStringBody ('\\' :: e :: cs)
  | plain {c : Char} {cs : List Char} : c ≠ '\\' → c ≠ '"' → 0x20 ≤ c.toNat →
      IsStringBody cs → IsStringBody (c :: cs)

namespace Token

/-- The characters of a token. -/
def text : Token → List Char
  | openBrace => ['\x7b']
  | closeBrace => ['\x7d']
  | openBracket => ['[']
  | closeBracket => [']']
  | colon => [':']
  | comma => [',']
  | null => ['n', 'u', 'l', 'l']
  | bool true => ['t', 'r', 'u', 'e']
  | bool false => ['f', 'a', 'l', 's', 'e']
  | number digits => digits
  | string raw => '"' :: (raw ++ ['"'])
  | bad => []

/-- Whether a token is spelled as the grammar says. -/
def IsLexeme : Token → Prop
  | number digits => IsNumber digits
  | string raw => IsStringBody raw
  | bad => False
  | _ => True

def isOpener : Token → Bool
  | openBrace | openBracket => true
  | _ => false

def isCloser : Token → Bool
  | closeBrace | closeBracket => true
  | _ => false

/-- Whether a token is spelled without punctuation and quotes. -/
def isWord : Token → Bool
  | null | bool _ | number _ => true
  | _ => false

/-- Whether a token is a value by itself. -/
def isScalar : Token → Bool
  | null | bool _ | number _ | string _ => true
  | _ => false

end Token

/-- A character that can belong to a number or a keyword. -/
def isWordChar (c : Char) : Bool :=
  c.isAlphanum || c == '.' || c == '+' || c == '-'

/-- Whether a number would go on with the characters that follow it. -/
def continuesNumber (cs : List Char) : Bool :=
  cs.head?.any fun c => c.isDigit || c == '.' || c == 'e' || c == 'E'

variable {cs ds raw rest : List Char} {t : Token}

/-! ## Characters -/

theorem isWordChar_of_isDigit {c : Char} (h : c.isDigit) : isWordChar c := by
  simp [isWordChar, Char.isAlphanum, h]

theorem IsWhole.word (h : IsWhole cs) : ∀ c ∈ cs, isWordChar c := by
  cases h with
  | zero => exact List.forall_mem_singleton.2 rfl
  | digits _ hds => exact fun c hc => isWordChar_of_isDigit (hds c hc)

theorem IsFraction.word (h : IsFraction cs) : ∀ c ∈ cs, isWordChar c := by
  cases h with
  | absent => simp
  | point _ hds =>
      intro c hc
      rcases List.mem_cons.1 hc with rfl | hc
      · decide
      · exact isWordChar_of_isDigit (hds c hc)

theorem IsExponent.word (h : IsExponent cs) : ∀ c ∈ cs, isWordChar c := by
  cases h with
  | absent => simp
  | mark he hsign _ hds =>
      intro c hc
      rcases List.mem_cons.1 hc with rfl | hc
      · rcases he with rfl | rfl <;> decide
      · rcases List.mem_append.1 hc with hc | hc
        · rcases hsign with rfl | rfl | rfl
          · cases hc
          · exact List.mem_singleton.1 hc ▸ (by decide)
          · exact List.mem_singleton.1 hc ▸ (by decide)
        · exact isWordChar_of_isDigit (hds c hc)

theorem IsMagnitude.word (h : IsMagnitude cs) : ∀ c ∈ cs, isWordChar c := by
  obtain ⟨hwhole, hfraction, hexponent⟩ := h
  intro c hc
  rcases List.mem_append.1 hc with hc | hc
  · rcases List.mem_append.1 hc with hc | hc
    · exact hwhole.word c hc
    · exact hfraction.word c hc
  · exact hexponent.word c hc

theorem IsNumber.word (h : IsNumber cs) : ∀ c ∈ cs, isWordChar c := by
  cases h with
  | unsigned hcs => exact hcs.word
  | negative hcs =>
      intro c hc
      rcases List.mem_cons.1 hc with rfl | hc
      · decide
      · exact hcs.word c hc

theorem IsWhole.exists_cons (h : IsWhole cs) : ∃ d ds, cs = d :: ds ∧ d.isDigit := by
  cases h with
  | zero => exact ⟨'0', [], rfl, rfl⟩
  | @digits d ds _ hds => exact ⟨d, ds, rfl, hds d List.mem_cons_self⟩

theorem IsMagnitude.exists_cons (h : IsMagnitude cs) : ∃ d ds, cs = d :: ds ∧ d.isDigit := by
  obtain ⟨hwhole, -, -⟩ := h
  obtain ⟨d, ds, rfl, hd⟩ := hwhole.exists_cons
  exact ⟨d, _, rfl, hd⟩

theorem IsNumber.ne_nil (h : IsNumber cs) : cs ≠ [] := by
  cases h with
  | unsigned hcs =>
      obtain ⟨d, ds, rfl, -⟩ := hcs.exists_cons
      exact List.cons_ne_nil d ds
  | negative => exact List.cons_ne_nil _ _

theorem Token.word (ht : t.IsLexeme) (h : t.isWord) :
    t.text ≠ [] ∧ ∀ c ∈ t.text, isWordChar c := by
  cases t with
  | null => exact ⟨List.cons_ne_nil _ _, List.all_eq_true.1 rfl⟩
  | bool value =>
      cases value <;> exact ⟨List.cons_ne_nil _ _, List.all_eq_true.1 rfl⟩
  | number digits => exact ⟨ht.ne_nil, ht.word⟩
  | _ => cases h

/-! ## Strings -/

theorem scanString_append (h : IsStringBody raw) (cs : List Char) :
    scanString (raw ++ '"' :: cs) = some (raw, cs) := by
  induction h with
  | nil => simp [scanString]
  | unicode hhex _ ih =>
      have hall := List.all_eq_true.2 hhex
      simp only [List.cons_append, scanString, hall, if_true, ih, Option.map_some]
  | @escape e cs' he _ ih =>
      have hne : e ≠ 'u' := by
        rintro rfl
        cases he
      simp [scanString, hne, he, ih]
  | plain hback hquote hcode _ ih =>
      have hlow : ¬ (0x20 > _) := Nat.not_lt.2 hcode
      simp [scanString, hback, hlow, ih]

theorem isStringBody_of_scanString (h : scanString cs = some (raw, rest)) :
    cs = raw ++ '"' :: rest ∧ IsStringBody raw := by
  fun_induction scanString cs generalizing raw rest with
  | case1 => cases h
  | case2 cs =>
      cases h
      exact ⟨rfl, .nil⟩
  | case3 a b c d cs hhex ih =>
      obtain ⟨⟨raw', rest'⟩, hs, heq⟩ := Option.map_eq_some_iff.1 h
      cases heq
      obtain ⟨rfl, hraw⟩ := ih hs
      exact ⟨rfl, .unicode (List.all_eq_true.1 hhex) hraw⟩
  | case4 => cases h
  | case5 e cs _ he ih =>
      obtain ⟨⟨raw', rest'⟩, hs, heq⟩ := Option.map_eq_some_iff.1 h
      cases heq
      obtain ⟨rfl, hraw⟩ := ih hs
      exact ⟨rfl, .escape he hraw⟩
  | case6 => cases h
  | case7 => cases h
  | case8 c cs hquote _ _ hplain ih =>
      obtain ⟨⟨raw', rest'⟩, hs, heq⟩ := Option.map_eq_some_iff.1 h
      cases heq
      obtain ⟨rfl, hraw⟩ := ih hs
      simp only [Bool.or_eq_true, decide_eq_true_eq, not_or, Nat.not_lt] at hplain
      exact ⟨rfl, .plain hplain.1 (fun hc => hquote hc) hplain.2 hraw⟩

/-! ## Numbers -/

theorem takeWhile_append_stop {p : Char → Bool} (hds : ∀ c ∈ ds, p c)
    (hcs : cs.head?.any p = false) :
    (ds ++ cs).takeWhile p = ds ∧ (ds ++ cs).dropWhile p = cs := by
  have htail : cs.takeWhile p = [] ∧ cs.dropWhile p = cs := by
    cases cs with
    | nil => exact ⟨rfl, rfl⟩
    | cons c cs =>
        have hc : ¬ p c := by simpa using hcs
        exact ⟨List.takeWhile_cons_of_neg hc, List.dropWhile_cons_of_neg hc⟩
  rw [List.takeWhile_append_of_pos hds, List.dropWhile_append_of_pos hds, htail.1, htail.2,
    List.append_nil]
  exact ⟨rfl, rfl⟩

theorem scanDigits_append (hne : ds ≠ []) (hds : ∀ c ∈ ds, c.isDigit)
    (hcs : cs.head?.any Char.isDigit = false) : scanDigits (ds ++ cs) = some (ds, cs) := by
  obtain ⟨htake, hdrop⟩ := takeWhile_append_stop hds hcs
  rw [scanDigits, htake, hdrop, if_neg hne]

theorem digits_of_scanDigits (h : scanDigits cs = some (ds, rest)) :
    cs = ds ++ rest ∧ ds ≠ [] ∧ ∀ c ∈ ds, c.isDigit := by
  unfold scanDigits at h
  split at h
  · cases h
  · next hne =>
    cases h
    exact ⟨List.takeWhile_append_dropWhile.symm, hne, List.all_eq_true.1 List.all_takeWhile⟩

theorem scanWhole_append (h : IsWhole ds) (hcs : cs.head?.any Char.isDigit = false) :
    scanWhole (ds ++ cs) = some (ds, cs) := by
  cases h with
  | zero => simp [scanWhole, hcs]
  | @digits d ds hd hds =>
      rw [← scanDigits_append (List.cons_ne_nil d ds) hds hcs]
      exact scanWhole.eq_2 _ fun cs' heq => hd (List.cons.inj heq).1

theorem isWhole_of_scanWhole (h : scanWhole cs = some (ds, rest)) :
    cs = ds ++ rest ∧ IsWhole ds := by
  unfold scanWhole at h
  split at h
  · split at h
    · cases h
    · cases h
      exact ⟨rfl, .zero⟩
  · next hzero =>
    obtain ⟨rfl, hne, hds⟩ := digits_of_scanDigits h
    obtain ⟨d, ds, rfl⟩ := List.exists_cons_of_ne_nil hne
    exact ⟨rfl, .digits (fun hd => hzero (ds ++ rest) (hd ▸ rfl)) hds⟩

theorem scanFraction_append (h : IsFraction ds) (hdigit : cs.head?.any Char.isDigit = false)
    (hpoint : cs.head? ≠ some '.') : scanFraction (ds ++ cs) = some (ds, cs) := by
  cases h with
  | absent =>
      refine scanFraction.eq_2 cs fun rest heq => hpoint ?_
      rw [heq]
      rfl
  | point hne hds => simp [scanFraction, scanDigits_append hne hds hdigit]

theorem isFraction_of_scanFraction (h : scanFraction cs = some (ds, rest)) :
    cs = ds ++ rest ∧ IsFraction ds := by
  unfold scanFraction at h
  split at h
  · obtain ⟨⟨ds', rest'⟩, hs, heq⟩ := Option.map_eq_some_iff.1 h
    cases heq
    obtain ⟨rfl, hne, hds⟩ := digits_of_scanDigits hs
    exact ⟨rfl, .point hne hds⟩
  · cases h
    exact ⟨rfl, .absent⟩

theorem scanSign_append {sign : List Char} (hsign : sign = [] ∨ sign = ['+'] ∨ sign = ['-'])
    (hne : ds ≠ []) (hds : ∀ c ∈ ds, c.isDigit) :
    scanSign (sign ++ ds ++ cs) = (sign, ds ++ cs) := by
  rcases hsign with rfl | rfl | rfl
  · obtain ⟨d, ds, rfl⟩ := List.exists_cons_of_ne_nil hne
    have hd := hds d List.mem_cons_self
    refine scanSign.eq_3 _ (fun cs' heq => ?_) fun cs' heq => ?_
    · exact absurd ((List.cons.inj heq).1 ▸ hd) (by decide)
    · exact absurd ((List.cons.inj heq).1 ▸ hd) (by decide)
  · rfl
  · rfl

theorem sign_of_scanSign (cs : List Char) :
    cs = (scanSign cs).1 ++ (scanSign cs).2 ∧
      ((scanSign cs).1 = [] ∨ (scanSign cs).1 = ['+'] ∨ (scanSign cs).1 = ['-']) := by
  unfold scanSign
  split <;> simp

theorem head_of_continuesNumber (h : continuesNumber cs = false) :
    cs.head?.any Char.isDigit = false ∧ cs.head? ≠ some '.' := by
  cases cs with
  | nil => simp
  | cons c cs =>
      simp only [continuesNumber, List.head?_cons, Option.any_some, Bool.or_eq_false_iff,
        beq_eq_false_iff_ne] at h
      simp [h.1.1.1, h.1.1.2]

theorem scanExponent_append (h : IsExponent ds) (hcs : continuesNumber cs = false) :
    scanExponent (ds ++ cs) = some (ds, cs) := by
  cases h with
  | absent =>
      cases cs with
      | nil => rfl
      | cons c cs =>
          simp only [continuesNumber, List.head?_cons, Option.any_some, Bool.or_eq_false_iff,
            beq_eq_false_iff_ne] at hcs
          simp [scanExponent, hcs.1.2, hcs.2]
  | @mark e sign ds he hsign hne hds =>
      have hdigit := (head_of_continuesNumber hcs).1
      have hmark : (e = 'e' || e = 'E') = true := by simpa using he
      simp only [List.cons_append, scanExponent, hmark, if_true, scanSign_append hsign hne hds,
        scanDigits_append hne hds hdigit, Option.map_some]

theorem isExponent_of_scanExponent (h : scanExponent cs = some (ds, rest)) :
    cs = ds ++ rest ∧ IsExponent ds := by
  unfold scanExponent at h
  split at h
  · next c cs =>
    split at h
    · next he =>
      obtain ⟨⟨ds', rest'⟩, hs, heq⟩ := Option.map_eq_some_iff.1 h
      cases heq
      obtain ⟨hsplit, hsign⟩ := sign_of_scanSign cs
      obtain ⟨hrest, hne, hds⟩ := digits_of_scanDigits hs
      rw [hrest] at hsplit
      refine ⟨?_, .mark (by simpa using he) hsign hne hds⟩
      simpa using hsplit
    · cases h
      exact ⟨rfl, .absent⟩
  · cases h
    exact ⟨rfl, .absent⟩

/-- The scanner takes a whole number if what follows does not go on with it. -/
theorem scanMagnitude_append (h : IsMagnitude ds) (hcs : continuesNumber cs = false) :
    scanMagnitude (ds ++ cs) = some (ds, cs) := by
  obtain ⟨hwhole, hfraction, hexponent⟩ := h
  rename_i whole fraction exponent
  have hfractionEnd : (exponent ++ cs).head?.any Char.isDigit = false ∧
      (exponent ++ cs).head? ≠ some '.' := by
    cases hexponent with
    | absent => exact head_of_continuesNumber hcs
    | mark he => rcases he with rfl | rfl <;> simp
  have hwholeEnd : (fraction ++ (exponent ++ cs)).head?.any Char.isDigit = false := by
    cases hfraction with
    | absent => exact hfractionEnd.1
    | point => rfl
  simp only [scanMagnitude, List.append_assoc, scanWhole_append hwhole hwholeEnd,
    scanFraction_append hfraction hfractionEnd.1 hfractionEnd.2, scanExponent_append hexponent hcs,
    Option.bind_eq_bind, Option.bind_some, Option.pure_def]

theorem isMagnitude_of_scanMagnitude (h : scanMagnitude cs = some (ds, rest)) :
    cs = ds ++ rest ∧ IsMagnitude ds := by
  simp only [scanMagnitude, Option.bind_eq_bind, Option.bind_eq_some_iff, Prod.exists,
    Option.pure_def, Option.some.injEq, Prod.mk.injEq] at h
  obtain ⟨whole, _, hw, fraction, _, hf, exponent, rest, he, rfl, rfl⟩ := h
  obtain ⟨rfl, hwhole⟩ := isWhole_of_scanWhole hw
  obtain ⟨rfl, hfraction⟩ := isFraction_of_scanFraction hf
  obtain ⟨rfl, hexponent⟩ := isExponent_of_scanExponent he
  exact ⟨by simp, .parts hwhole hfraction hexponent⟩

/-! ## Tokens -/

theorem scanToken_append (ht : t.IsLexeme)
    (hend : (∃ digits, t = .number digits) → continuesNumber cs = false) :
    scanToken (t.text ++ cs) = (t, cs) := by
  cases t with
  | openBrace | closeBrace | openBracket | closeBracket | colon | comma | null => rfl
  | bool value => cases value <;> rfl
  | bad => exact ht.elim
  | string raw => simp [Token.text, scanToken, scanString_append ht cs]
  | number digits =>
      have hcs := hend ⟨digits, rfl⟩
      cases ht with
      | unsigned hm =>
          have hscan := scanMagnitude_append hm hcs
          obtain ⟨d, ds, rfl, hd⟩ := hm.exists_cons
          have hne : ∀ c, c.isDigit = false → d ≠ c := by
            rintro c hc rfl
            rw [hd] at hc
            cases hc
          simp only [Token.text, List.cons_append] at hscan ⊢
          rw [scanToken.eq_12]
          · rw [hscan]
          all_goals
            intro cs' heq
            exact hne _ (by decide) (List.cons.inj heq).1
      | negative hm => simp [Token.text, scanToken, scanMagnitude_append hm hcs]

theorem isLexeme_of_scanToken (h : scanToken cs = (t, rest)) (ht : t ≠ .bad) :
    cs = t.text ++ rest ∧ t.IsLexeme := by
  unfold scanToken at h
  split at h
  case h_10 =>
    split at h
    · next hs =>
      cases h
      obtain ⟨rfl, hraw⟩ := isStringBody_of_scanString hs
      exact ⟨by simp [Token.text], hraw⟩
    · cases h
      exact (ht rfl).elim
  case h_11 =>
    split at h
    · next hs =>
      cases h
      obtain ⟨rfl, hm⟩ := isMagnitude_of_scanMagnitude hs
      exact ⟨rfl, .negative hm⟩
    · cases h
      exact (ht rfl).elim
  case h_12 =>
    split at h
    · next hs =>
      cases h
      obtain ⟨rfl, hm⟩ := isMagnitude_of_scanMagnitude hs
      exact ⟨rfl, .unsigned hm⟩
    · cases h
      exact (ht rfl).elim
  all_goals
    cases h
    exact ⟨rfl, trivial⟩

end Json

end RedundantCast
