import Mathlib
import RedundantCast.Proofs.Json.Flaw
import RedundantCast.Proofs.Settings.Format

/-!
# Comments in settings

Comments and dangling commas do not change what settings are read as.
-/

namespace RedundantCast

open Json Comments

namespace Config

/-- Settings with comments and dangling commas have the tokens of the plain
settings, and are read or refused like them, also by any other decoder that reads
tokens. -/
theorem parse_commented {ts us : List Token} {plain text : String} (hts : Derives .value ts)
    (hplain : Spells ts plain.toList) (hus : Trailing false ts us)
    (htext : Commented us text.toList) :
    strip plain.toList = plain.toList ∧ tokens plain.toList = ts ∧
      Spells ts (strip text.toList) ∧ tokens (strip text.toList) = ts ∧
      Config.parse text = Config.parse plain ∧
      ∀ decode : Decoder Config, ReadsTokens decode →
        Config.parseBy decode text = Config.parseBy decode plain := by
  have hchain := hts.isChain
  have hspells := htext.spells_strip hus hchain
  have hkept := hplain.strip_eq hchain
  have hparse : ∀ decode : Decoder Config, ReadsTokens decode →
      Config.parseBy decode text = Config.parseBy decode plain := by
    intro decode hdecode
    rw [parseBy, parseBy, hkept]
    exact hdecode hts hspells hplain
  exact ⟨hkept, tokens_of_spells hplain hchain, hspells, tokens_of_spells hspells hchain,
    hparse Config.decode readsTokens_decode, hparse⟩

theorem parse_commented_markersInString :
    ReadsTokens decode ∧
      Config.parseBy decode "/*/ **/ \x7b\"extends\": \"//,]\", // last\n\x7d" =
        Config.parseBy decode "\x7b\"extends\":\"//,]\"\x7d" := by
  have hkey : IsStringBody "extends".toList :=
    (isStringBody_of_scanString (show scanString "extends\"".toList = some (_, []) by decide)).2
  have hvalue : IsStringBody "//,]".toList :=
    (isStringBody_of_scanString (show scanString "//,]\"".toList = some (_, []) by decide)).2
  have hmembers : Derives .members [.string "extends".toList, .colon, .string "//,]".toList] :=
    .member (.scalar rfl)
  have hplain : Spells [.openBrace, .string "extends".toList, .colon, .string "//,]".toList,
      .closeBrace] "\x7b\"extends\":\"//,]\"\x7d".toList :=
    .token trivial (.token hkey (.token trivial (.token hvalue (.token trivial .nil))))
  have hend : Commented [.comma, .closeBrace] ", // last\n\x7d".toList :=
    .token trivial (.space rfl (.line (show '\n' ∉ " last".toList by decide)
      (.token trivial .nil)))
  have htext : Commented [.openBrace, .string "extends".toList, .colon, .string "//,]".toList,
      .comma, .closeBrace] "/*/ **/ \x7b\"extends\": \"//,]\", // last\n\x7d".toList :=
    .block (show ¬ ['*', '/'] <:+: "/ *".toList by decide) (.space rfl
      (.token trivial (.token hkey (.token trivial (.space rfl (.token hvalue hend))))))
  have htrailing : Trailing false
      [.openBrace, .string "extends".toList, .colon, .string "//,]".toList, .closeBrace]
      [.openBrace, .string "extends".toList, .colon, .string "//,]".toList, .comma, .closeBrace] :=
    .token (.token (.token (.token (.comma rfl .nil))))
  obtain ⟨-, -, -, -, -, hparse⟩ := parse_commented (.object hmembers) hplain htrailing htext
  exact ⟨readsTokens_decode, hparse decode readsTokens_decode⟩

/-- Settings that are accepted are JSON with comments and dangling commas, or have
a flaw that stripping hides. So are those that any other decoder accepts that reads
only JSON. -/
theorem commented_or_flawed (text : String) :
    (∀ c, Config.parse text = .ok c → IsCommentedJson text.toList ∨ Flawed text.toList) ∧
      ∀ decode : Decoder Config, ReadsOnlyJson decode → ∀ c, Config.parseBy decode text = .ok c →
        IsCommentedJson text.toList ∨ Flawed text.toList := by
  have hparse : ∀ decode : Decoder Config, ReadsOnlyJson decode → ∀ c,
      Config.parseBy decode text = .ok c → IsCommentedJson text.toList ∨ Flawed text.toList := by
    intro decode hdecode c hc
    obtain ⟨ts, hts, hspells⟩ := hdecode hc
    have hrecovers : Recovers false ts text.toList := recovers_of_spells hspells
    cases hrecovers with
    | flawed hflawed => exact .inr hflawed
    | loneComma hopened => cases hopened
    | commented hus hcs hlast htext => exact .inl ⟨_, _, _, _, hts, hus, hcs, hlast, htext⟩
  exact ⟨hparse Config.decode readsOnlyJson_decode, hparse⟩

theorem commented_or_flawed_lastLine :
    ReadsOnlyJson decode ∧
      Config.parseBy decode "\x7b\"extends\": null,\x7d // end" = .ok .empty ∧
      (IsCommentedJson "\x7b\"extends\": null,\x7d // end".toList ∨
        Flawed "\x7b\"extends\": null,\x7d // end".toList) := by
  have hparse : Config.parseBy decode "\x7b\"extends\": null,\x7d // end" = .ok .empty := by
    change Config.parse _ = _
    rw [Config.parse_eq_parseTokens]
    cbv
  obtain ⟨-, hdecoders⟩ := commented_or_flawed "\x7b\"extends\": null,\x7d // end"
  exact ⟨readsOnlyJson_decode, hparse, hdecoders decode readsOnlyJson_decode _ hparse⟩

/-- A comment that leaves nothing behind makes one number of two. -/
theorem parse_brokenNumber :
    Config.parse "\x7b\"inspection\":\x7b\"maxInferenceDepth\":1/**/2\x7d\x7d" =
        .ok ⟨none, some { Inspection.empty with maxInferenceDepth := some 12 }⟩ ∧
      ¬ IsCommentedJson "\x7b\"inspection\":\x7b\"maxInferenceDepth\":1/**/2\x7d\x7d".toList := by
  refine ⟨?_, ?_⟩
  · rw [Config.parse_eq_parseTokens]
    cbv
  · rintro ⟨ts, us, cs, last, hts, hus, hcs, hlast, htext⟩
    obtain rfl : last = [] := by
      rcases hlast with hempty | ⟨body, -, rfl⟩
      · exact hempty
      · have hinfix : ['/', '/'] <:+: cs ++ '/' :: '/' :: body := ⟨cs, body, by simp⟩
        rw [← htext] at hinfix
        exact absurd hinfix (by decide +kernel)
    rw [List.append_nil] at htext
    subst htext
    have htokens := tokens_of_spells (hcs.spells_strip hus hts.isChain) hts.isChain
    have hnumber : Token.number ['1', '2'] ∈ ts := by
      rw [← htokens, tokens_eq_tokensWithin (Nat.le_refl _)]
      decide +kernel
    have hinfix := hcs.text_infix (hus.subset hnumber)
    exact absurd hinfix (by decide +kernel)

end Config

end RedundantCast
