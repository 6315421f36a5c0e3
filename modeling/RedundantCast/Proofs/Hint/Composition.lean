import RedundantCast.Proofs.Hint.Reading

/-!
# Hints are composed

A hint is written from smaller ones with bars, parentheses, question marks and
blanks. What it reads as is the union of what the smallest ones read as, with
`null` for each question mark. So their order, their grouping and their repetition
do not matter.
-/

namespace RedundantCast

namespace Hint

open Text Ty

/-- A way to write a hint. -/
inductive Phrase where
  | text (cs : List Char)
  | either (left right : Phrase)
  | parenthesized (inner : Phrase)
  /-- A `?` in front. -/
  | optional (inner : Phrase)
  /-- Blanks around. -/
  | spaced (before : List Char) (inner : Phrase) (after : List Char)

namespace Phrase

def chars : Phrase → List Char
  | text cs => cs
  | either left right => left.chars ++ '|' :: right.chars
  | parenthesized inner => '(' :: inner.chars ++ [')']
  | optional inner => '?' :: inner.chars
  | spaced before inner after => before ++ inner.chars ++ after

def toString (w : Phrase) : String :=
  String.ofList w.chars

/-- What the smallest hints read as, and `null` for each question mark. -/
def types : Phrase → List Ty
  | text cs => [read cs]
  | either left right => left.types ++ right.types
  | parenthesized inner => inner.types
  | optional inner => inner.types ++ [.null]
  | spaced _ inner _ => inner.types

/-- Bars stand behind texts of depth zero, parentheses around balanced texts, and
what is meant for blanks is blank. -/
def WellWritten : Phrase → Prop
  | text _ => True
  | either left right => left.WellWritten ∧ right.WellWritten ∧ depth left.chars = 0
  | parenthesized inner => inner.WellWritten ∧ Balanced inner.chars
  | optional inner => inner.WellWritten
  | spaced before inner after =>
    (∀ c ∈ before, isBlank c = true) ∧ inner.WellWritten ∧ ∀ c ∈ after, isBlank c = true

variable {v w : Phrase}

theorem types_ne_nil (w : Phrase) : w.types ≠ [] := by
  induction w with
  | text cs => exact List.cons_ne_nil _ _
  | either left right ihl _ => exact List.append_ne_nil_of_left_ne_nil ihl _
  | parenthesized inner ih => exact ih
  | optional inner ih => exact List.append_ne_nil_of_left_ne_nil ih _
  | spaced before inner after ih => exact ih

theorem isNormalized_of_mem_types (w : Phrase) : ∀ t ∈ w.types, t.isNormalized = true := by
  induction w with
  | text cs => exact List.forall_mem_singleton.2 (isNormalized_read cs)
  | either left right ihl ihr => exact List.forall_mem_append.2 ⟨ihl, ihr⟩
  | parenthesized inner ih => exact ih
  | optional inner ih => exact List.forall_mem_append.2 ⟨ih, List.forall_mem_singleton.2 rfl⟩
  | spaced before inner after ih => exact ih

theorem read_append_blanks {before after : List Char} (hbefore : ∀ c ∈ before, isBlank c = true)
    (hafter : ∀ c ∈ after, isBlank c = true) (cs : List Char) :
    read (before ++ cs ++ after) = read cs := by
  have hend : ∀ cs, trim (cs ++ after) = trim cs := by
    induction after with
    | nil => simp
    | cons c after ih =>
        obtain ⟨hc, hafter⟩ := List.forall_mem_cons.1 hafter
        intro cs
        rw [List.append_cons, ih hafter, trim_concat_of_isBlank hc]
  have hstart : trim (before ++ cs) = trim cs := by
    induction before with
    | nil => rfl
    | cons c before ih =>
        obtain ⟨hc, hbefore⟩ := List.forall_mem_cons.1 hbefore
        rw [List.cons_append, trim_cons_of_isBlank hc, ih hbefore]
  rw [read, hend, hstart, read]

/-- A written hint reads as the union of what its smallest hints read as. -/
theorem read_chars (hw : w.WellWritten) : read w.chars = unionOf w.types := by
  induction w with
  | text cs => exact (unionOf_singleton (isNormalized_read cs)).symm
  | either left right ihl ihr =>
      obtain ⟨hleft, hright, hdepth⟩ := hw
      rw [chars, read_append_bar hdepth, ihl hleft, ihr hright,
        union2_unionOf left.isNormalized_of_mem_types right.isNormalized_of_mem_types
          left.types_ne_nil right.types_ne_nil, types]
  | parenthesized inner ih =>
      obtain ⟨hinner, hbalanced⟩ := hw
      rw [chars, read_parenthesized hbalanced, ih hinner, types]
  | optional inner ih =>
      rw [chars, read_question, ih hw, types,
        nullable_unionOf inner.isNormalized_of_mem_types inner.types_ne_nil]
  | spaced before inner after ih =>
      rw [chars, read_append_blanks hw.1 hw.2.2, ih hw.2.1, types]

end Phrase

/-- A hint that is written from smaller ones has the union of their types. So hints
written from smaller ones with the same members have equal types, and the two ways to
say that `null` is meant as well have the same. -/
theorem parse_compositional :
    (∀ a b : String, depth a.toList = 0 → parse (a ++ "|" ++ b) = union2 (parse a) (parse b)) ∧
      (∀ t : String, Balanced t.toList → parse ("(" ++ t ++ ")") = parse t) ∧
      (∀ t : String, depth t.toList = 0 → parse ("?" ++ t) = parse (t ++ "|null")) ∧
      (∀ w : Phrase, w.WellWritten → parse w.toString = unionOf w.types) ∧
      ∀ v w : Phrase, v.WellWritten → w.WellWritten →
        (∀ m, (∃ t ∈ v.types, t.hasMember m = true) ↔ ∃ t ∈ w.types, t.hasMember m = true) →
        (parse v.toString == parse w.toString) = true := by
  have hphrase : ∀ w : Phrase, w.WellWritten → parse w.toString = unionOf w.types := by
    intro w hw
    rw [Phrase.toString, parse_ofList, Phrase.read_chars hw]
  refine ⟨fun a b ha => ?_, fun t ht => ?_, fun t ht => ?_, hphrase, fun v w hv hw h => ?_⟩
  · have htext : (a ++ "|" ++ b).toList = a.toList ++ '|' :: b.toList := by simp
    exact (congrArg read htext).trans (read_append_bar ha b.toList)
  · have htext : ("(" ++ t ++ ")").toList = '(' :: t.toList ++ [')'] := by simp
    exact (congrArg read htext).trans (read_parenthesized ht)
  · have hquestion : ("?" ++ t).toList = '?' :: t.toList := by simp
    have hbar : (t ++ "|null").toList = t.toList ++ '|' :: ['n', 'u', 'l', 'l'] := by simp
    calc parse ("?" ++ t) = read ('?' :: t.toList) := congrArg read hquestion
      _ = union2 (read t.toList) .null := read_question t.toList
      _ = read (t.toList ++ '|' :: ['n', 'u', 'l', 'l']) := by rw [read_append_bar ht, read_null]
      _ = parse (t ++ "|null") := (congrArg read hbar).symm
  · rw [hphrase v hv, hphrase w hw]
    exact unionOf_beq_of_same_members v.isNormalized_of_mem_types w.isNormalized_of_mem_types
      v.types_ne_nil w.types_ne_nil h

theorem parse_compositional_regrouped :
    (depth "A<int|B>".toList = 0 ∧ Balanced " int|(?A) ".toList ∧ depth "?A|int".toList = 0) ∧
      parse ("A<int|B>" ++ "|" ++ "?C") = union2 (parse "A<int|B>") (parse "?C") ∧
      parse ("(" ++ " int|(?A) " ++ ")") = parse " int|(?A) " ∧
      parse ("?" ++ "?A|int") = parse ("?A|int" ++ "|null") ∧
      parse "?(A|int)" = .union [.null, .int, .ofClass "A"] ∧
      (parse "?(A|int)" == parse "int|null| A|int") = true := by
  let v : Phrase := .optional (.parenthesized (.either (.text ['A']) (.text ['i', 'n', 't'])))
  let spaced : Phrase := .spaced [' '] (.text ['A']) []
  let w : Phrase := .either (.text ['i', 'n', 't'])
    (.either (.text ['n', 'u', 'l', 'l']) (.either spaced (.text ['i', 'n', 't'])))
  have hv : v.WellWritten := ⟨⟨trivial, trivial, by decide⟩, by decide⟩
  have hspaced : spaced.WellWritten :=
    ⟨List.forall_mem_singleton.2 rfl, trivial, List.forall_mem_nil _⟩
  have hw : w.WellWritten :=
    ⟨trivial, ⟨trivial, ⟨hspaced, trivial, by decide⟩, by decide⟩, by decide⟩
  have hmembers : ∀ m, (∃ t ∈ v.types, t.hasMember m = true) ↔
      ∃ t ∈ w.types, t.hasMember m = true := by
    intro m
    simp only [v, w, spaced, Phrase.types, read_null, List.cons_append, List.nil_append,
      List.exists_mem_cons_iff, List.not_mem_nil, false_and, exists_false, or_false]
    tauto
  obtain ⟨hbar, hparens, hquestion, hphrase, hphrases⟩ := parse_compositional
  have htypes : unionOf v.types = .union [.null, .int, .ofClass "A"] := by
    have hclass : read ['A'] = .ofClass "A" :=
      read_of_isNameChar (List.all_eq_true.1 (by decide)) (by decide)
    have hint : read ['i', 'n', 't'] = .int :=
      read_of_isNameChar (List.all_eq_true.1 (by decide)) (by decide)
    simp only [v, Phrase.types, hclass, hint]
    rfl
  have hdepths : depth "A<int|B>".toList = 0 ∧ Balanced " int|(?A) ".toList ∧
      depth "?A|int".toList = 0 := by decide
  exact ⟨hdepths, hbar _ _ hdepths.1, hparens _ hdepths.2.1, hquestion _ hdepths.2.2,
    (hphrase v hv).trans htypes, hphrases v w hv hw hmembers⟩

end Hint

end RedundantCast
