import RedundantCast.Proofs.Hint.Reading

/-!
# Callable types

`callable(a): r` says nothing about a value, but a text is read by its last
characters before its first ones. Where the first alternative of `r` ends in `[]`,
the callable type is read as an array, unless a `&` stands before it.
-/

namespace RedundantCast

namespace Hint

open Text Ty

variable {c : Char} {a r s cs first : List Char} {others : List (List Char)}

def callableWord : List Char :=
  ['c', 'a', 'l', 'l', 'a', 'b', 'l', 'e']

/-- What stands before the result in the text of a callable type. -/
def callablePrefix (a : List Char) : List Char :=
  callableWord ++ ('(' :: a ++ [')']) ++ [':', ' ']

/-! ## Suffixes -/

theorem suffix_append_cons_iff (hc : c ∉ s) (as bs : List Char) :
    s <:+ as ++ c :: bs ↔ s <:+ bs := by
  constructor
  · intro h
    rcases List.suffix_or_suffix_of_suffix h (List.suffix_append as (c :: bs)) with hs | hs
    · rcases List.suffix_cons_iff.1 hs with rfl | hs
      · exact absurd List.mem_cons_self hc
      · exact hs
    · exact absurd (hs.subset List.mem_cons_self) hc
  · intro h
    exact h.trans ((List.suffix_cons c bs).trans (List.suffix_append as (c :: bs)))

theorem suffix_trimEnd_cons_iff (hc : c ∉ s) (hblank : isBlank c = true) :
    s <:+ trimEnd (c :: cs) ↔ s <:+ trimEnd cs := by
  by_cases hcs : trimEnd cs = []
  · -- With nothing but blanks behind it, the blank is trimmed as well.
    have hcons : trimEnd (c :: cs) = [] :=
      trimEnd_eq_nil_iff.2 (List.forall_mem_cons.2 ⟨hblank, trimEnd_eq_nil_iff.1 hcs⟩)
    rw [hcons, hcs]
  · rw [trimEnd_cons hcs]
    exact suffix_append_cons_iff hc [] (trimEnd cs)

/-! ## Words -/

/-- A word with a parenthesis in it says nothing. -/
theorem ofWord_eq_mixed (h : '(' ∈ cs.takeWhile (!opensArguments ·)) : ofWord cs = .mixed := by
  have hwords : ∀ w ∈ words, '(' ∉ w.1.toList := by decide
  have hlower : '(' ∈ lower (cs.takeWhile (!opensArguments ·)) := List.mem_map.2 ⟨'(', h, rfl⟩
  have hname : isClassName (cs.takeWhile (!opensArguments ·)) ≠ true := fun hname =>
    notMem_of_isNameChar (isNameChar_of_isClassName hname) (by decide) h
  rw [ofWord]
  split
  · next t hlookup =>
    have hnone := hwords _ (mem_of_lookup_eq_some hlookup)
    rw [String.toList_ofList] at hnone
    exact absurd hlower hnone
  · rw [if_neg hname]
    split <;> rfl

/-! ## Alternatives -/

theorem depth_callableWord : depth callableWord = 0 := by decide

theorem depth_callablePrefix (ha : Balanced a) : depth (callablePrefix a) = 0 := by
  have hend : depth [':', ' '] = 0 := by decide
  rw [callablePrefix, depth_append, depth_append, depth_callableWord, depth_parenthesized,
    ha.depth_eq, hend]
  rfl

theorem isUnionHint_callablePrefix (ha : Balanced a) : isUnionHint (callablePrefix a) = false := by
  have hword : isUnionHint callableWord = false := by decide
  have hend : ∀ d, hasBarFrom d [':', ' '] = false := fun d => rfl
  rw [callablePrefix, isUnionHint, hasBarFrom_append, hasBarFrom_append, depth_callableWord,
    Int.add_zero, ← isUnionHint, ← isUnionHint, hword, ha.isUnionHint_parenthesized, hend]
  rfl

theorem trim_callablePrefix (a first : List Char) :
    trim (callablePrefix a ++ first) =
      callableWord ++ ('(' :: a ++ [')']) ++ ':' :: trimEnd (' ' :: first) := by
  have htext : callablePrefix a ++ first =
      (callableWord ++ ('(' :: a ++ [')'])) ++ ':' :: ' ' :: first := by
    simp [callablePrefix, callableWord]
  have hstart : trimStart (callableWord ++ ('(' :: a ++ [')'])) =
      callableWord ++ ('(' :: a ++ [')']) :=
    trimStart_cons_of_not_isBlank (by decide) _
  rw [htext, trim_append (by decide), hstart]

/-- The end of the text is looked at first, and then its first characters. -/
theorem readAlternative_callablePrefix (a first : List Char) :
    readAlternative (callablePrefix a ++ first) =
      if '&' ∉ a ∧ '&' ∉ first ∧ ['[', ']'] <:+ trimEnd first then .array else .mixed := by
  have hand : '&' ∈ trim (callablePrefix a ++ first) ↔ '&' ∈ a ∨ '&' ∈ first := by
    simp [trim_callablePrefix, callableWord, mem_trimEnd_iff (c := '&') (by decide)]
  have hsuffix : ['[', ']'] <:+ trim (callablePrefix a ++ first) ↔
      ['[', ']'] <:+ trimEnd first := by
    rw [trim_callablePrefix, suffix_append_cons_iff (by decide),
      suffix_trimEnd_cons_iff (by decide) (by decide)]
  have hword : ofWord (trim (callablePrefix a ++ first)) = .mixed := by
    apply ofWord_eq_mixed
    rw [trim_callablePrefix]
    simp [callableWord, opensArguments]
  have hhead : (trim (callablePrefix a ++ first)).head? ≠ some '?' := by
    simp [trim_callablePrefix, callableWord]
  have hparens : unparenthesized? (trim (callablePrefix a ++ first)) = none := by
    rw [trim_callablePrefix]
    rfl
  rw [readAlternative, ofAlternative_of_unparenthesized?_eq_none hhead hparens, hword]
  simp only [List.contains_iff_mem, List.isSuffixOf_iff_suffix, hand, hsuffix]
  by_cases ha : '&' ∈ a <;> by_cases hf : '&' ∈ first <;> simp [ha, hf]

theorem read_callablePrefix (ha : Balanced a) (hr : alternatives r = first :: others) :
    read (callablePrefix a ++ r) =
      if '&' ∉ a ∧ '&' ∉ first ∧ ['[', ']'] <:+ trimEnd first then
        unionOf (.array :: others.map readAlternative)
      else .mixed := by
  have hparts : alternatives (callablePrefix a ++ r) = (callablePrefix a ++ first) :: others := by
    rw [alternatives, alternativesFrom_append (isUnionHint_callablePrefix ha),
      depth_callablePrefix ha, Int.add_zero, ← alternatives, hr, List.modifyHead_cons]
  rw [read_eq_unionOf, hparts, List.map_cons, readAlternative_callablePrefix]
  split
  · rfl
  · exact unionOf_of_mixed List.mem_cons_self

/-- A callable type says nothing, unless the first alternative of its result ends in
`[]` and no `&` stands before that. Then it is an array or one of the other
alternatives. -/
theorem parse_callable (a r : String) (first : List Char) (others : List (List Char))
    (ha : Balanced a.toList) (hr : alternatives r.toList = first :: others) :
    parse ("callable(" ++ a ++ "): " ++ r) =
      if '&' ∉ a.toList ∧ '&' ∉ first ∧ ['[', ']'] <:+ trimEnd first then
        unionOf (.array :: others.map readAlternative)
      else .mixed := by
  have htext : ("callable(" ++ a ++ "): " ++ r).toList = callablePrefix a.toList ++ r.toList := by
    simp [callablePrefix, callableWord]
  exact (congrArg read htext).trans (read_callablePrefix ha hr)

theorem parse_callable_arraysOrNull :
    Balanced "int".toList ∧
      alternatives "string[]|null".toList = ["string[]".toList, "null".toList] ∧
      parse ("callable(" ++ "int" ++ "): " ++ "string[]|null") = union2 .array .null := by
  have hint : Balanced "int".toList := by decide
  have hparts : alternatives "string[]|null".toList = ["string[]".toList, "null".toList] := by
    decide
  have hnull : readAlternative "null".toList = .null :=
    readAlternative_of_isNameChar (List.all_eq_true.1 (by decide)) (by decide)
  have hends : '&' ∉ "int".toList ∧ '&' ∉ "string[]".toList ∧
      ['[', ']'] <:+ trimEnd "string[]".toList := by decide
  refine ⟨hint, hparts, ?_⟩
  rw [parse_callable "int" "string[]|null" _ _ hint hparts, if_pos hends, List.map_singleton, hnull,
    union2]

/-- A callable type with a list as its result is read as an array. -/
theorem not_forall_parse_callable_eq_mixed :
    ¬ ∀ a r : String, Balanced a.toList → Balanced r.toList →
      parse ("callable(" ++ a ++ "): " ++ r) = .mixed := by
  intro h
  have hmixed := h "int" "string[]" (by decide) (by decide)
  have hparts : alternatives ['s', 't', 'r', 'i', 'n', 'g', '[', ']'] =
      [['s', 't', 'r', 'i', 'n', 'g', '[', ']']] := by decide
  have harray : parse ("callable(" ++ "int" ++ "): " ++ "string[]") = .array :=
    (read_callablePrefix (a := ['i', 'n', 't']) (by decide) hparts).trans (if_pos (by decide))
  cases harray.symm.trans hmixed

end Hint

end RedundantCast
