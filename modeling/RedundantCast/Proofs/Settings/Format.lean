import RedundantCast.Proofs.Json.Reading
import RedundantCast.Settings.Format

/-!
# The format of settings is one of values

Settings that are read are, without their comments, one value of the JSON
grammar.
-/

namespace RedundantCast

open Json

namespace Settings

theorem readsValue_switch : ReadsValue readSwitch := by
  intro ts a rest hread
  unfold readSwitch at hread
  split at hread
  · cases hread
    exact ⟨[.bool a], rfl, .scalar rfl⟩
  · next raw _ =>
    split at hread
    · cases hread
    · split at hread
      · cases hread
        exact ⟨[.string raw], rfl, .scalar rfl⟩
      · cases hread
  · cases hread

theorem readsValue_category : ReadsValue readCategory := by
  intro ts a rest hread
  unfold readCategory at hread
  split at hread
  · next raw _ =>
    obtain ⟨category, -, heq⟩ := map_eq_ok hread
    cases heq
    exact ⟨[.string raw], rfl, .scalar rfl⟩
  · next raw _ =>
    obtain ⟨category, -, heq⟩ := map_eq_ok hread
    cases heq
    have hmember : Derives .members [.string raw, .colon, .null] := .member (.scalar rfl)
    exact ⟨_, rfl, .object hmember⟩
  · cases hread

theorem readsValue_field {σ α : Type} {read : Reader α} (h : ReadsValue read) (name : String)
    (set : σ → α → σ) (record : σ) : ReadsValue ((field name read set).read record) := by
  intro ts a rest hread
  obtain ⟨⟨value, rest'⟩, hvalue, heq⟩ := map_eq_ok hread
  cases heq
  exact h hvalue

theorem readsValue_inspectionFields :
    ∀ field ∈ inspectionFields, ∀ record, ReadsValue (field.read record) := by
  simp only [inspectionFields, List.forall_mem_cons]
  refine ⟨readsValue_field (readsValue_optional readsValue_category) _ _,
    readsValue_field (readsValue_optional readsValue_switch) _ _,
    readsValue_field (readsValue_optional readsValue_switch) _ _,
    readsValue_field (readsValue_optional (readsValue_nat maxDepth)) _ _, nofun⟩

theorem readsValue_configFields :
    ∀ field ∈ configFields, ∀ record, ReadsValue (field.read record) := by
  have hinspection := readsValue_record readsValue_inspectionFields .empty
  simp only [configFields, List.forall_mem_cons]
  exact ⟨readsValue_field (readsValue_optional readsValue_text) _ _,
    readsValue_field (readsValue_optional hinspection) _ _, nofun⟩

end Settings

namespace Config

/-- Settings are read from tokens that a bound on the length of the text finds. -/
theorem parse_eq_parseTokens (text : String) :
    parse text =
      let cs := Comments.strip text.toList
      parseTokens (readRecord Settings.configFields .empty) (tokensWithin cs.length cs) := by
  rw [parse, parseBy, decode, Json.parse_eq_parseTokens, tokens_eq_tokensWithin (Nat.le_refl _)]

theorem readsTokens_decode : ReadsTokens decode :=
  readsTokens_parse _

theorem readsOnlyJson_decode : ReadsOnlyJson decode :=
  readsOnlyJson_parse (readsValue_record Settings.readsValue_configFields .empty)

end Config

end RedundantCast
