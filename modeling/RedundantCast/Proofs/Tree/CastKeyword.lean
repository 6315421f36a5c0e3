import RedundantCast.Proofs.Text.Blank
import RedundantCast.Proofs.Text.LetterCase
import RedundantCast.Proofs.Tree.Arena

/-!
# Cast keywords

A cast keeps its keyword without the blanks and parentheses around it, and the kind
that this word stands for. Where blanks stand between two parentheses, only the outer
ones are taken off. The keyword then stands for no kind, but the word that is kept may.
-/

namespace RedundantCast

namespace CastKind

open Text

variable {cs : List Char} {c : Char}

/-- No parenthesis is left around the text. -/
def IsBare (cs : List Char) : Prop :=
  cs.head? ≠ some '(' ∧ cs.getLast? ≠ some ')'

instance (cs : List Char) : Decidable (IsBare cs) :=
  inferInstanceAs (Decidable (_ ∧ _))

/-- Blanks, and nothing else, stand between two occurrences of the character. -/
def HasGap (c : Char) (cs : List Char) : Prop :=
  ∃ gap, gap ≠ [] ∧ (∀ b ∈ gap, isBlank b = true) ∧ c :: gap ++ [c] <:+: cs

/-! ## Gaps -/

theorem HasGap.mono {as : List Char} (h : HasGap c as) (hcs : as <:+: cs) : HasGap c cs := by
  obtain ⟨gap, hne, hblank, hgap⟩ := h
  exact ⟨gap, hne, hblank, hgap.trans hcs⟩

theorem HasGap.of_reverse (h : HasGap c cs.reverse) : HasGap c cs := by
  obtain ⟨gap, hne, hblank, hgap⟩ := h
  refine ⟨gap.reverse, by simpa using hne, by simpa using hblank, ?_⟩
  have hrev : (c :: gap ++ [c]).reverse <:+: cs.reverse.reverse := List.reverse_infix.2 hgap
  simpa using hrev

theorem head?_eq_of_start {as : List Char} (h : as <+: cs) (hhead : as.head? = some c) :
    cs.head? = some c := by
  obtain ⟨tail, rfl⟩ := h
  rw [List.head?_append, hhead, Option.some_or]

/-- A text does not start with a blank. If it starts with a character once those in front
and then the blanks are taken off, then blanks stand between two of them. -/
theorem hasGap_of_head? {us vs : List Char} (hus : ∀ b, us.head? = some b → isBlank b = false)
    (hvs : vs <+: us.dropWhile (· == c)) (hhead : (trimStart vs).head? = some c) :
    HasGap c us := by
  have hc : isBlank c = false := not_of_head?_dropWhile hhead
  obtain ⟨rest, hrest⟩ : ∃ rest, trimStart vs = c :: rest := by
    cases htrim : trimStart vs with
    | nil => rw [htrim] at hhead; cases hhead
    | cons d rest =>
        rw [htrim] at hhead
        cases hhead
        exact ⟨rest, rfl⟩
  -- what follows the parentheses in front: blanks, then one more
  obtain ⟨gap, hgap, hblank⟩ : ∃ gap, vs = gap ++ c :: rest ∧ ∀ b ∈ gap, isBlank b = true :=
    ⟨vs.takeWhile isBlank, by rw [← hrest, trimStart, List.takeWhile_append_dropWhile],
      fun b hb => List.mem_takeWhile_imp hb⟩
  obtain ⟨tail, htail⟩ := hvs
  have hsplit : us = us.takeWhile (· == c) ++ (gap ++ c :: (rest ++ tail)) := by
    have h := (List.takeWhile_append_dropWhile (p := (· == c)) (l := us)).symm
    rw [← htail, hgap] at h
    simpa using h
  cases gap with
  | nil =>
      have hother : (us.dropWhile (· == c)).head? = some c := by
        rw [← htail, hgap]
        rfl
      simpa using not_of_head?_dropWhile hother
  | cons b gap =>
      refine ⟨b :: gap, List.cons_ne_nil b gap, hblank, ?_⟩
      rcases List.eq_nil_or_concat (us.takeWhile (· == c)) with hnil | ⟨front, d, hfront⟩
      · rw [hnil] at hsplit
        have hb : isBlank b = false := hus b (by rw [hsplit]; rfl)
        rw [hblank b List.mem_cons_self] at hb
        cases hb
      · have hd : d = c := by
          have hmem : d ∈ us.takeWhile (· == c) := by rw [hfront]; simp
          simpa using List.mem_takeWhile_imp hmem
        rw [hfront, hd] at hsplit
        exact ⟨front, rest ++ tail, by rw [hsplit]; simp⟩

/-! ## The word of a keyword -/

theorem keyword_eq (cs : List Char) :
    keyword cs = trim (((trim cs).dropWhile (· == '(')).rdropWhile (· == ')')) := rfl

/-- Where a parenthesis is left around the word, blanks kept it from being taken off. -/
theorem hasGap_of_not_isBare (h : ¬ IsBare (keyword cs)) : HasGap '(' cs ∨ HasGap ')' cs := by
  rw [keyword_eq] at h
  set us := trim cs with hus
  set ws := us.dropWhile (· == '(') with hws
  set vs := ws.rdropWhile (· == ')') with hvs
  have hcs : us <:+: cs := trim_infix_self cs
  have hsuffix : ws <:+ us := List.dropWhile_suffix (· == '(')
  rcases not_and_or.1 h with hhead | hlast
  · left
    have hstart : (trimStart vs).head? = some '(' :=
      head?_eq_of_start (trim_prefix_trimStart vs) (not_not.1 hhead)
    have hgap : HasGap '(' us :=
      hasGap_of_head? (fun _ => isBlank_of_head?_trim) (List.rdropWhile_prefix _ ws) hstart
    exact hgap.mono hcs
  · -- The end of a text is the start of the reversed one.
    right
    have hstart : (trimStart vs.reverse).head? = some ')' := by
      have hback : (trim vs).reverse <+: (trimEnd vs).reverse :=
        List.reverse_prefix.2 (trim_suffix_trimEnd vs)
      rw [trimEnd_eq, List.reverse_reverse] at hback
      exact head?_eq_of_start hback (by rw [List.head?_reverse]; exact not_not.1 hlast)
    have hfirst : ∀ b, ws.reverse.head? = some b → isBlank b = false := by
      intro b hb
      have hb' := head?_eq_of_start (List.reverse_prefix.2 hsuffix) hb
      rw [List.head?_reverse] at hb'
      exact isBlank_of_getLast?_trim hb'
    have hdropped : vs.reverse = ws.reverse.dropWhile (· == ')') := by
      rw [hvs, List.rdropWhile, List.reverse_reverse]
    have hgap : HasGap ')' ws.reverse :=
      hasGap_of_head? hfirst (hdropped ▸ List.prefix_rfl) hstart
    exact hgap.of_reverse.mono (hsuffix.isInfix.trans hcs)

/-- Taking the parentheses off once more changes nothing if none are left. -/
theorem keyword_keyword (h : IsBare (keyword cs)) : keyword (keyword cs) = keyword cs := by
  obtain ⟨hfirst, hlast⟩ := h
  set word := keyword cs with hword
  have htrim : trim word = word := by rw [hword, keyword_eq, trim_trim]
  have hfront : word.dropWhile (· == '(') = word := by
    rw [List.dropWhile_eq_self_iff]
    intro hpos heq
    apply hfirst
    rw [List.head?_eq_getElem?, List.getElem?_eq_getElem hpos, beq_iff_eq.1 heq]
  have hback : word.rdropWhile (· == ')') = word := by
    rw [List.rdropWhile_eq_self_iff]
    intro hne heq
    apply hlast
    rw [List.getLast?_eq_some_getLast hne, beq_iff_eq.1 heq]
  rw [keyword_eq word, htrim, hfront, hback, htrim]

/-- A keyword that is left in parentheses is unknown. -/
theorem ofKeyword_of_not_isBare {text : String} (h : ¬ IsBare (keyword text.toList)) :
    ofKeyword text = .unrecognized := by
  have hkeywords : ∀ p ∈ keywords, IsBare p.1.toList := by decide
  have hlookup : keywords.lookup (String.ofList (lower (keyword text.toList))) = none := by
    rw [List.lookup_eq_none_iff]
    intro p hp
    rw [bne_iff_ne]
    intro heq
    have hbare : IsBare (lower (keyword text.toList)) := by
      have hkeyword := hkeywords p hp
      rw [← heq, String.toList_ofList] at hkeyword
      exact hkeyword
    apply h
    constructor
    · intro hhead
      exact hbare.1 (by rw [lower, List.head?_map, hhead]; rfl)
    · intro hlast
      exact hbare.2 (by rw [lower, List.getLast?_map, hlast]; rfl)
  rw [ofKeyword, hlookup, Option.getD_none]

end CastKind

namespace Arena

theorem stored?_insert (a : Arena) (kind : Kind) (span : Span) {p : Pool} (entry : p.Entry)
    (children : List NodeRef) (hp : p.holds kind) :
    (a.insert kind span p entry children).2.stored? p (some (a.insert kind span p entry children).1) =
      some entry := by
  have hheader : (a.push kind span p entry).header? (some a.size) =
      some ⟨kind, span, (a.pools.get p).size⟩ := Array.getElem?_push_size
  have hentry : (a.push kind span p entry).stored? p (some a.size) = some entry := by
    rw [stored?, hheader, Option.bind_some, if_pos hp]
    change ((a.pools.push p entry).get p)[(a.pools.get p).size]? = some entry
    rw [Pools.get_push_self, Array.getElem?_push_size]
  rw [insert, foldl_setParent]
  exact hentry

/-- A cast that is added keeps the word of its keyword, and its kind is that of the
word. It is the kind of the keyword as well, unless parentheses are left around the
word. Then the keyword is unknown, and blanks stand between two of its parentheses. -/
theorem addCast_kind (a : Arena) (text : String) (token : Span) (operand : NodeRef) :
    ∃ entry,
      (a.addCast text token operand).2.stored? .cast (some (a.addCast text token operand).1) =
        some entry ∧
      CastKind.ofKeyword entry.keyword = entry.kind ∧
      CastKind.ofKeyword text =
        (if CastKind.IsBare entry.keyword.toList then entry.kind else .unrecognized) ∧
      (CastKind.IsBare entry.keyword.toList ∨ CastKind.HasGap '(' text.toList ∨
        CastKind.HasGap ')' text.toList) := by
  obtain ⟨word, hword⟩ : ∃ word, CastKind.keyword text.toList = word := ⟨_, rfl⟩
  have hstored :
      (a.addCast text token operand).2.stored? .cast (some (a.addCast text token operand).1) =
        some ⟨.ofKeyword (String.ofList word), String.ofList word, token, operand⟩ := by
    rw [addCast, hword]
    exact stored?_insert (p := .cast) a .castExpression _ _ [operand] rfl
  refine ⟨_, hstored, by dsimp only, ?_⟩
  dsimp only
  rw [String.toList_ofList]
  by_cases hbare : CastKind.IsBare word
  · rw [if_pos hbare]
    refine ⟨?_, Or.inl hbare⟩
    subst hword
    rw [CastKind.ofKeyword, CastKind.ofKeyword, String.toList_ofList,
      CastKind.keyword_keyword hbare]
  · subst hword
    rw [if_neg hbare]
    exact ⟨CastKind.ofKeyword_of_not_isBare hbare, Or.inr (CastKind.hasGap_of_not_isBare hbare)⟩

/-- In parentheses and once more, after a blank, `int` is unknown, but what is kept of it
is `(int)`. -/
theorem not_forall_addCast_kind :
    ¬ ∀ (a : Arena) (text : String) (token : Span) (operand : NodeRef),
      ((a.addCast text token operand).2.stored? .cast
        (some (a.addCast text token operand).1)).map (·.kind) = some (.ofKeyword text) := by
  intro h
  exact absurd (h .empty "( (int) )" ⟨0, 9⟩ none) (by decide)

end Arena

end RedundantCast
