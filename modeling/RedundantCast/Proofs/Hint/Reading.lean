import RedundantCast.Proofs.Hint.Alternatives
import RedundantCast.Proofs.Ty.Spelling

/-!
# Reading hints

A hint reads as the union of what its alternatives read as, also where a `?` in
front is meant for all of it. So reading goes through bars at depth zero, and
through parentheses around a balanced text.
-/

namespace RedundantCast

namespace Hint

open Text Ty

variable {P : Ty → Prop} {c : Char} {a b cs : List Char}

/-- The type of a hint with blanks around it. -/
def read (cs : List Char) : Ty :=
  ofChars (trim cs)

/-- The type of an alternative with blanks around it. -/
def readAlternative (cs : List Char) : Ty :=
  ofAlternative (trim cs)

@[simp] theorem read_trim (cs : List Char) : read (trim cs) = read cs := by
  rw [read, trim_trim, read]

theorem parse_ofList (cs : List Char) : parse (String.ofList cs) = read cs := by
  rw [parse, String.toList_ofList, read]

/-! ## What is read is built from words -/

/-- A property of the types of words that unions keep. -/
structure KeptByReading (P : Ty → Prop) : Prop where
  mixed : P .mixed
  array : P .array
  null : P .null
  ofWord : ∀ cs, trim cs = cs → P (ofWord cs)
  unionOf : ∀ ts, (∀ t ∈ ts, P t) → P (unionOf ts)

namespace KeptByReading

theorem nullable (h : KeptByReading P) {t : Ty} (ht : P t) : P (nullable t) :=
  h.unionOf _ (List.forall_mem_cons.2 ⟨ht, List.forall_mem_singleton.2 h.null⟩)

/-- Reading calls itself on shorter texts only, and on a whole hint before its only
alternative. -/
theorem ofChars_and_ofAlternative (h : KeptByReading P) (htrim : trim cs = cs) :
    P (ofChars cs) ∧ P (ofAlternative cs) := by
  induction hn : cs.length using Nat.strong_induction_on generalizing cs with
  | h n ih =>
      subst hn
      have htail : cs.head? = some '?' →
          P (ofChars (trimStart cs.tail)) ∧ P (ofAlternative (trimStart cs.tail)) := by
        intro hhead
        obtain ⟨rest, rfl⟩ := List.head?_eq_some_iff.1 hhead
        -- Behind the `?` only the start can have blanks, so what is read next is trimmed.
        rw [trim_cons_of_not_isBlank (by decide)] at htrim
        have hrest : trimEnd rest = rest := (List.cons.inj htrim).2
        have hboth : trimStart rest = trim rest := by rw [← trimStart_trimEnd, hrest]
        rw [List.tail_cons, hboth]
        exact ih _ (Nat.lt_succ_of_le (length_trim_le rest)) (trim_trim rest) rfl
      have halternative : P (ofAlternative cs) := by
        rw [ofAlternative]
        split
        · next hhead => exact h.nullable (htail hhead).2
        · split
          · next inner hinner =>
            have hlt := Nat.lt_of_le_of_lt (length_trim_le inner) (length_unparenthesized? hinner)
            exact (ih _ hlt (trim_trim inner) rfl).1
          · split
            · exact h.mixed
            · split
              · exact h.array
              · exact h.ofWord cs htrim
      refine ⟨?_, halternative⟩
      rw [ofChars]
      split
      · exact h.mixed
      · split
        · next hhead => exact h.nullable (htail hhead).1
        · split
          · next hbar =>
            apply h.unionOf
            intro t ht
            obtain ⟨part, -, rfl⟩ := List.mem_map.1 ht
            have hlength := length_le_of_mem_alternatives part.2
            have hle := length_trim_le part.1
            have htwo : 2 ≤ (alternatives cs).length := (hasBarFrom_iff 0 cs).1 hbar
            have hlt : (trim part.1).length < cs.length := by omega
            exact (ih _ hlt (trim_trim part.1) rfl).2
          · exact halternative

theorem read (h : KeptByReading P) (cs : List Char) : P (read cs) :=
  (h.ofChars_and_ofAlternative (trim_trim cs)).1

theorem readAlternative (h : KeptByReading P) (cs : List Char) : P (readAlternative cs) :=
  (h.ofChars_and_ofAlternative (trim_trim cs)).2

end KeptByReading

theorem mem_of_lookup_eq_some {α β : Type} [BEq α] [LawfulBEq α] {k : α} {v : β}
    {entries : List (α × β)} (h : entries.lookup k = some v) : (k, v) ∈ entries := by
  obtain ⟨before, after, rfl, -⟩ := List.lookup_eq_some_iff.1 h
  exact List.mem_append_right _ List.mem_cons_self

theorem isUnion_ofWord (cs : List Char) : (ofWord cs).isUnion = false := by
  have hwords : ∀ w ∈ words, w.2.isUnion = false := by decide
  rw [ofWord]
  split
  · next t hlookup => exact hwords _ (mem_of_lookup_eq_some hlookup)
  · split
    · rfl
    · split <;> rfl

theorem isNormalized_ofWord (cs : List Char) : (ofWord cs).isNormalized = true := by
  have hword := isUnion_ofWord cs
  cases ht : ofWord cs with
  | union ms =>
      rw [ht] at hword
      cases hword
  | _ => rfl

theorem keptByReading_isNormalized : KeptByReading fun t => t.isNormalized = true where
  mixed := rfl
  array := rfl
  null := rfl
  ofWord cs _ := isNormalized_ofWord cs
  unionOf _ hts := isNormalized_unionOf hts

@[simp] theorem isNormalized_read (cs : List Char) : (read cs).isNormalized = true :=
  keptByReading_isNormalized.read cs

@[simp] theorem isNormalized_readAlternative (cs : List Char) :
    (readAlternative cs).isNormalized = true :=
  keptByReading_isNormalized.readAlternative cs

/-! ## Question marks -/

theorem read_question (cs : List Char) : read ('?' :: cs) = nullable (read cs) := by
  rw [read, trim_cons_of_not_isBlank (by decide), ofChars, if_neg (List.cons_ne_nil _ _),
    if_pos (List.head?_cons), List.tail_cons, trimStart_trimEnd, read]

theorem readAlternative_question (cs : List Char) :
    readAlternative ('?' :: cs) = nullable (readAlternative cs) := by
  rw [readAlternative, trim_cons_of_not_isBlank (by decide), ofAlternative,
    if_pos (List.head?_cons), List.tail_cons, trimStart_trimEnd, readAlternative]

/-! ## Alternatives -/

theorem ofAlternative_of_unparenthesized? {inner : List Char} (hhead : cs.head? ≠ some '?')
    (h : unparenthesized? cs = some inner) : ofAlternative cs = read inner := by
  rw [ofAlternative, if_neg hhead]
  split
  · next inner' h' =>
    obtain rfl := Option.some.inj (h.symm.trans h')
    rfl
  · next hnone => cases h.symm.trans hnone

theorem ofAlternative_of_unparenthesized?_eq_none (hhead : cs.head? ≠ some '?')
    (h : unparenthesized? cs = none) :
    ofAlternative cs =
      if cs.contains '&' then .mixed
      else if ['[', ']'].isSuffixOf cs then .array
      else ofWord cs := by
  rw [ofAlternative, if_neg hhead]
  split
  · next inner h' => cases h.symm.trans h'
  · rfl

theorem readAlternative_nil : readAlternative [] = .mixed := by
  rw [readAlternative, trim_nil, ofAlternative_of_unparenthesized?_eq_none (by simp) rfl]
  rfl

theorem map_readAlternative_trim (cs : List Char) :
    (alternatives (trim cs)).map readAlternative = (alternatives cs).map readAlternative := by
  have hcomp : readAlternative = ofAlternative ∘ trim := rfl
  rw [hcomp, ← List.map_map, ← List.map_map, map_trim_alternatives_trim]

theorem isNormalized_of_mem_map_readAlternative (css : List (List Char)) :
    ∀ t ∈ css.map readAlternative, t.isNormalized = true := by
  intro t ht
  obtain ⟨cs, -, rfl⟩ := List.mem_map.1 ht
  exact isNormalized_readAlternative cs

/-- Without a `?` in front, the alternatives are what is read. -/
theorem ofChars_eq_unionOf (hhead : cs.head? ≠ some '?') (htrim : trim cs = cs) :
    ofChars cs = unionOf ((alternatives cs).map readAlternative) := by
  by_cases hnil : cs = []
  · subst hnil
    rw [ofChars, if_pos rfl, alternatives, alternativesFrom_nil, List.map_singleton,
      readAlternative_nil, unionOf_singleton rfl]
  · rw [ofChars, if_neg hnil, if_neg hhead]
    split
    · rw [List.attach_map_val (f := fun part => ofAlternative (trim part))]
      rfl
    · next hbar =>
      rw [alternatives_eq_singleton (Bool.not_eq_true _ ▸ hbar), List.map_singleton,
        unionOf_singleton (isNormalized_readAlternative cs), readAlternative, htrim]

/-- A hint is the union of its alternatives, also behind a `?`. -/
theorem read_eq_unionOf (cs : List Char) :
    read cs = unionOf ((alternatives cs).map readAlternative) := by
  induction hn : cs.length using Nat.strong_induction_on generalizing cs with
  | h n ih =>
      subst hn
      rw [← map_readAlternative_trim]
      by_cases hhead : (trim cs).head? = some '?'
      · obtain ⟨rest, hrest⟩ := List.head?_eq_some_iff.1 hhead
        have hlt : rest.length < cs.length := by
          have hle := length_trim_le cs
          rw [hrest, List.length_cons] at hle
          omega
        obtain ⟨part, parts, hparts⟩ := List.exists_cons_of_ne_nil (alternativesFrom_ne_nil 0 rest)
        -- The `?` makes all of the hint nullable, and stands before its first alternative.
        have hquestion : alternatives ('?' :: rest) = ('?' :: part) :: parts := by
          have hstep : depthStep '?' = 0 := by decide
          rw [alternatives, alternativesFrom_cons (by decide), hstep, Int.add_zero, hparts,
            List.modifyHead_cons]
        have hnormalized := isNormalized_of_mem_map_readAlternative (part :: parts)
        rw [List.map_cons] at hnormalized
        rw [← read_trim, hrest, read_question, ih _ hlt rest rfl, hquestion, alternatives, hparts]
        rw [List.map_cons, List.map_cons, readAlternative_question,
          unionOf_nullable_cons hnormalized]
      · rw [read, ofChars_eq_unionOf hhead (trim_trim cs)]

theorem read_append_bar (h : depth a = 0) (b : List Char) :
    read (a ++ '|' :: b) = union2 (read a) (read b) := by
  have hne : ∀ cs, (alternatives cs).map readAlternative ≠ [] := by
    intro cs hnil
    exact alternativesFrom_ne_nil 0 cs (List.map_eq_nil_iff.1 hnil)
  rw [read_eq_unionOf, read_eq_unionOf a, read_eq_unionOf b, alternatives_append_bar h,
    List.map_append, union2_unionOf (isNormalized_of_mem_map_readAlternative _)
      (isNormalized_of_mem_map_readAlternative _) (hne a) (hne b)]

theorem readAlternative_parenthesized (a : List Char) :
    readAlternative ('(' :: a ++ [')']) = read a := by
  have htrim : trim ('(' :: a ++ [')']) = '(' :: a ++ [')'] := by
    rw [List.cons_append, trim_cons_of_not_isBlank (by decide), trimEnd_append (by decide),
      trimEnd_nil]
  have hinner : unparenthesized? ('(' :: a ++ [')']) = some a := by
    simp [unparenthesized?]
  rw [readAlternative, htrim, ofAlternative_of_unparenthesized? (by simp) hinner]

theorem read_parenthesized (h : Balanced a) : read ('(' :: a ++ [')']) = read a := by
  rw [read_eq_unionOf, alternatives_eq_singleton h.isUnionHint_parenthesized, List.map_singleton,
    readAlternative_parenthesized, unionOf_singleton (isNormalized_read a)]

/-! ## Names -/

/-- A character of a class name. -/
def isNameChar (c : Char) : Bool :=
  continuesName c || c == '\\'

theorem notMem_of_isNameChar (h : ∀ c ∈ cs, isNameChar c = true) {x : Char}
    (hx : isNameChar x = false) : x ∉ cs := by
  intro hmem
  cases hx.symm.trans (h x hmem)

theorem continuesName_of_startsName (h : startsName c = true) : continuesName c = true := by
  simp only [startsName, continuesName, Char.isAlphanum, Bool.or_eq_true] at h ⊢
  rcases h with (h | h) | h
  · exact .inl (.inl (.inl h))
  · exact .inl (.inr h)
  · exact .inr h

theorem continuesName_of_isSegment (h : isSegment cs = true) : ∀ c ∈ cs, continuesName c = true := by
  cases cs with
  | nil => cases h
  | cons a cs =>
      obtain ⟨ha, hcs⟩ := Bool.and_eq_true_iff.1 h
      exact List.forall_mem_cons.2 ⟨continuesName_of_startsName ha, List.all_eq_true.1 hcs⟩

theorem mem_splitOn {sep : Char} (h : c ∈ cs) : c = sep ∨ ∃ part ∈ splitOn sep cs, c ∈ part := by
  induction cs with
  | nil => cases h
  | cons a cs ih =>
      by_cases ha : a = sep
      · subst ha
        rw [splitOn_sep_cons]
        rcases List.mem_cons.1 h with rfl | h
        · exact .inl rfl
        · rcases ih h with hsep | ⟨part, hpart, hc⟩
          · exact .inl hsep
          · exact .inr ⟨part, List.mem_cons_of_mem [] hpart, hc⟩
      · obtain ⟨part, parts, hparts⟩ := List.exists_cons_of_ne_nil (splitOn_ne_nil sep cs)
        rw [splitOn_cons_of_ne ha hparts]
        rcases List.mem_cons.1 h with rfl | h
        · exact .inr ⟨_, List.mem_cons_self, List.mem_cons_self⟩
        · rw [hparts] at ih
          rcases ih h with hsep | ⟨other, hother, hc⟩
          · exact .inl hsep
          · rcases List.mem_cons.1 hother with rfl | hother
            · exact .inr ⟨_, List.mem_cons_self, List.mem_cons_of_mem a hc⟩
            · exact .inr ⟨other, List.mem_cons_of_mem _ hother, hc⟩

theorem isNameChar_of_isClassName (h : isClassName cs = true) : ∀ c ∈ cs, isNameChar c = true := by
  have hsegments := List.all_eq_true.1 h
  intro c hc
  rw [isNameChar, Bool.or_eq_true, beq_iff_eq]
  rw [← List.takeWhile_append_dropWhile (p := (· == '\\')) (l := cs)] at hc
  rcases List.mem_append.1 hc with hslash | hname
  · have hc := List.mem_takeWhile_imp (p := (· == '\\')) hslash
    exact .inr (eq_of_beq hc)
  · rcases mem_splitOn hname with hslash | ⟨part, hpart, hc⟩
    · exact .inr hslash
    · exact .inl (continuesName_of_isSegment (hsegments part hpart) c hc)

theorem readAlternative_of_isNameChar (h : ∀ c ∈ cs, isNameChar c = true) (htrim : trim cs = cs) :
    readAlternative cs = ofWord cs := by
  have hhead : cs.head? ≠ some '?' := fun hhead =>
    notMem_of_isNameChar h (x := '?') (by decide) (List.mem_of_head? hhead)
  have hparens : unparenthesized? cs = none := by
    unfold unparenthesized?
    split
    · next rest =>
      exact absurd List.mem_cons_self (notMem_of_isNameChar h (x := '(') (by decide))
    · rfl
  have hand : ¬ cs.contains '&' = true := by
    rw [List.contains_iff_mem]
    exact notMem_of_isNameChar h (by decide)
  have harray : ¬ ['[', ']'].isSuffixOf cs = true := by
    rw [List.isSuffixOf_iff_suffix]
    intro hsuffix
    exact notMem_of_isNameChar h (x := '[') (by decide) (hsuffix.subset List.mem_cons_self)
  rw [readAlternative, htrim, ofAlternative_of_unparenthesized?_eq_none hhead hparens,
    if_neg hand, if_neg harray]

theorem read_of_isNameChar (h : ∀ c ∈ cs, isNameChar c = true) (htrim : trim cs = cs) :
    read cs = ofWord cs := by
  have hbar : isUnionHint cs = false := isUnionHint_of_notMem (notMem_of_isNameChar h (by decide))
  rw [read_eq_unionOf, alternatives_eq_singleton hbar, List.map_singleton,
    unionOf_singleton (isNormalized_readAlternative cs), readAlternative_of_isNameChar h htrim]

theorem read_null : read ['n', 'u', 'l', 'l'] = .null :=
  read_of_isNameChar (List.all_eq_true.1 (by decide)) (by decide)

end Hint

end RedundantCast
