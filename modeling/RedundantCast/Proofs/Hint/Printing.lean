import RedundantCast.Proofs.Hint.Reading

/-!
# Hints survive printing

What is read is a union of types that are written as single words. A class name
holds no separator and is none of the words for other types, so a written type is
read word by word.
-/

namespace RedundantCast

namespace Hint

open Text Ty

variable {t : Ty} {cs : List Char} {parts : List (List Char)}

/-! ## Types that are words -/

/-- The type is written as a single word, and the word reads as the type. -/
structure IsWord (t : Ty) : Prop where
  isNameChar : ∀ c ∈ t.chars, isNameChar c = true
  trim_eq : trim t.chars = t.chars
  ofWord_eq : ofWord t.chars = t

theorem IsWord.readAlternative (h : IsWord t) : readAlternative t.chars = t := by
  rw [readAlternative_of_isNameChar h.isNameChar h.trim_eq, h.ofWord_eq]

theorem IsWord.read (h : IsWord t) : read t.chars = t := by
  rw [read_of_isNameChar h.isNameChar h.trim_eq, h.ofWord_eq]

theorem isWord_of_word (h : t.word ≠ "") : IsWord t := by
  have hchars : t.chars = t.word.toList := by
    cases t with
    | object name => exact absurd rfl h
    | union ms => exact absurd rfl h
    | _ => rw [chars] <;> simp
  cases t with
  | object name => exact absurd rfl h
  | union ms => exact absurd rfl h
  | _ =>
      refine ⟨?_, ?_, ?_⟩ <;> rw [hchars]
      · exact List.all_eq_true.1 (by decide)
      · decide
      · rfl

/-- An object type is read only where the whole text is the name of the class. -/
theorem of_ofWord_eq_object {name : ClassName} (h : ofWord cs = .object name) :
    isClassName cs = true ∧ name = ClassName.ofText (String.ofList cs) := by
  have hwords : ∀ w ∈ words, w.2.word ≠ "" := by decide
  rw [ofWord] at h
  split at h
  · next t hlookup =>
    subst h
    exact absurd rfl (hwords _ (mem_of_lookup_eq_some hlookup))
  · split at h
    · cases h
    · next hopens =>
      -- A text with arguments is never a class, so there is nothing to cut off.
      have hbase : cs.takeWhile (!opensArguments ·) = cs := by
        rw [List.takeWhile_eq_self_iff]
        intro c hc
        rw [Bool.not_eq_true', Bool.eq_false_iff]
        intro hopen
        exact hopens (Bool.or_eq_true_iff.2 (.inl (List.any_eq_true.2 ⟨c, hc, hopen⟩)))
      rw [hbase] at h
      split at h
      · next hname =>
        cases h
        exact ⟨hname, rfl⟩
      · cases h

theorem isWord_ofWord (htrim : trim cs = cs) : IsWord (ofWord cs) := by
  cases h : ofWord cs with
  | object name =>
      obtain ⟨hname, rfl⟩ := of_ofWord_eq_object h
      have hchars : (Ty.object (ClassName.ofText (String.ofList cs))).chars = cs := by
        rw [chars, ClassName.ofText, ClassName.text_spelled, trimmed, String.toList_ofList,
          String.toList_ofList, htrim]
      refine ⟨?_, ?_, ?_⟩ <;> rw [hchars]
      · exact isNameChar_of_isClassName hname
      · exact htrim
      · exact h
  | union ms =>
      have hunion := isUnion_ofWord cs
      rw [h] at hunion
      cases hunion
  | _ => exact isWord_of_word (by decide)

/-! ## Types of hints -/

/-- What is read is normalized, and its members are words. -/
structure IsReadable (t : Ty) : Prop where
  isNormalized : t.isNormalized = true
  isWord : ∀ m ∈ t.members, IsWord m

theorem isReadable_of_isWord (h : IsWord t) (hunion : t.isUnion = false) : IsReadable t := by
  cases t with
  | union ms => cases hunion
  | _ => exact ⟨rfl, List.forall_mem_singleton.2 h⟩

theorem isReadable_of_word (h : t.word ≠ "") : IsReadable t := by
  apply isReadable_of_isWord (isWord_of_word h)
  cases t with
  | union ms => exact absurd rfl h
  | _ => rfl

theorem isReadable_unionOf {ts : List Ty} (h : ∀ t ∈ ts, IsReadable t) : IsReadable (unionOf ts) := by
  have hts : ∀ t ∈ ts, t.isNormalized = true := fun t ht => (h t ht).isNormalized
  have hmixed : IsReadable .mixed := isReadable_of_word (by decide)
  by_cases hne : ts = []
  · subst hne
    exact hmixed
  · by_cases hmem : .mixed ∈ ts
    · rw [unionOf_of_mixed hmem]
      exact hmixed
    · refine ⟨isNormalized_unionOf hts, ?_⟩
      rw [members_unionOf hts hne hmem]
      intro m hm
      obtain ⟨t, ht, hmt⟩ := List.mem_flatMap.1 (mem_of_mem_sortMembers hm)
      exact (h t ht).isWord m hmt

theorem isReadable_read (cs : List Char) : IsReadable (read cs) :=
  KeptByReading.read
    { mixed := isReadable_of_word (by decide)
      array := isReadable_of_word (by decide)
      null := isReadable_of_word (by decide)
      ofWord := fun cs htrim => isReadable_of_isWord (isWord_ofWord htrim) (isUnion_ofWord cs)
      unionOf := fun _ => isReadable_unionOf } cs

/-! ## Reading what is written -/

theorem alternatives_joinBars (hne : parts ≠ [])
    (hparts : ∀ part ∈ parts, ∀ c ∈ part, isNameChar c = true) :
    alternatives (joinBars parts) = parts := by
  induction parts with
  | nil => exact absurd rfl hne
  | cons part parts ih =>
      obtain ⟨hpart, hrest⟩ := List.forall_mem_cons.1 hparts
      have hword : alternatives part = [part] :=
        alternatives_eq_singleton (isUnionHint_of_notMem (notMem_of_isNameChar hpart (by decide)))
      cases parts with
      | nil => exact hword
      | cons part' parts =>
          have hdepth : depth part = 0 :=
            depth_eq_zero fun c hc => depthStep_eq_zero (p := isNameChar) (by decide) (hpart c hc)
          rw [joinBars_cons_cons, alternatives_append_bar hdepth, hword,
            ih (List.cons_ne_nil _ _) hrest, List.singleton_append]

theorem IsReadable.read_chars (h : IsReadable t) : read t.chars = t := by
  cases t with
  | union ms =>
      -- The parts are in the order of writing, which is not that of the members.
      have hwords : ∀ m ∈ nullLast ms, IsWord m := fun m hm => h.isWord m (mem_nullLast.1 hm)
      have hne : (nullLast ms).map chars ≠ [] :=
        mt List.map_eq_nil_iff.1 (nullLast_ne_nil h.isNormalized)
      have hparts : ∀ part ∈ (nullLast ms).map chars, ∀ c ∈ part, isNameChar c = true := by
        intro part hpart
        obtain ⟨m, hm, rfl⟩ := List.mem_map.1 hpart
        exact (hwords m hm).isNameChar
      have hmembers : (nullLast ms).map (readAlternative ∘ chars) = nullLast ms :=
        (List.map_congr_left fun m hm => (hwords m hm).readAlternative).trans (List.map_id _)
      rw [chars_union, read_eq_unionOf, alternatives_joinBars hne hparts, List.map_map, hmembers,
        unionOf_nullLast h.isNormalized]
  | _ => exact (h.isWord _ (List.mem_singleton_self _)).read

/-- The type of a hint is normalized, it is read back from its written form, and so
types of hints that are written alike are the same. -/
theorem parse_survives_printing (text : String) :
    (parse text).isNormalized = true ∧ parse (parse text).text = parse text ∧
      ∀ text', (parse text).text = (parse text').text ↔ parse text = parse text' := by
  have hback : ∀ text, parse (parse text).text = parse text := by
    intro text
    rw [Ty.text, parse_ofList]
    exact (isReadable_read text.toList).read_chars
  refine ⟨isNormalized_read text.toList, hback text, fun text' => ⟨fun h => ?_, congrArg Ty.text⟩⟩
  calc parse text = parse (parse text).text := (hback text).symm
    _ = parse (parse text').text := by rw [h]
    _ = parse text' := hback text'

/-- The printer writes `null` last and the reader takes the `?` for it. -/
theorem parse_survives_printing_nullable :
    parse "Cat|?int" = .union [.null, .int, .ofClass "Cat"] ∧
      (parse "Cat|?int").text = "int|Cat|null" ∧ parse "int|Cat|null" = parse "Cat|?int" := by
  have hclass : read ['C', 'a', 't'] = .ofClass "Cat" :=
    read_of_isNameChar (List.all_eq_true.1 (by decide)) (by decide)
  have hint : read ['i', 'n', 't'] = .int :=
    read_of_isNameChar (List.all_eq_true.1 (by decide)) (by decide)
  have hdepth : depth ['C', 'a', 't'] = 0 := by decide
  have hparse : parse "Cat|?int" = .union [.null, .int, .ofClass "Cat"] := by
    calc parse "Cat|?int" = union2 (read ['C', 'a', 't']) (read ['?', 'i', 'n', 't']) :=
          read_append_bar hdepth ['?', 'i', 'n', 't']
      _ = union2 (.ofClass "Cat") (nullable .int) := by rw [hclass, read_question, hint]
      _ = .union [.null, .int, .ofClass "Cat"] := rfl
  have htext : (parse "Cat|?int").text = "int|Cat|null" := by
    rw [hparse]
    rfl
  obtain ⟨-, hback, -⟩ := parse_survives_printing "Cat|?int"
  rw [htext] at hback
  exact ⟨hparse, htext, hback⟩

end Hint

end RedundantCast
