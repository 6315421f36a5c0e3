import RedundantCast.Proofs.Json.Spelling

/-!
# The grammar of JSON values

The token lists that are values, by the strict grammar: no comma stands before a
closing bracket.  `Trailing` is the one liberty that settings take with it.
-/

namespace RedundantCast

namespace Json

/-- What some tokens form: one value, the items of an array, or the members of an
object. -/
inductive Phrase where
  | value
  | items
  | members
  deriving DecidableEq, Repr

inductive Derives : Phrase → List Token → Prop where
  | scalar {t : Token} : t.isScalar → Derives .value [t]
  | emptyArray : Derives .value [.openBracket, .closeBracket]
  | array {ts : List Token} : Derives .items ts →
      Derives .value (.openBracket :: (ts ++ [.closeBracket]))
  | emptyObject : Derives .value [.openBrace, .closeBrace]
  | object {ts : List Token} : Derives .members ts →
      Derives .value (.openBrace :: (ts ++ [.closeBrace]))
  | item {ts : List Token} : Derives .value ts → Derives .items ts
  | items {ts us : List Token} : Derives .value ts → Derives .items us →
      Derives .items (ts ++ .comma :: us)
  | member {raw : List Char} {ts : List Token} : Derives .value ts →
      Derives .members (.string raw :: .colon :: ts)
  | members {raw : List Char} {ts us : List Token} : Derives .value ts → Derives .members us →
      Derives .members (.string raw :: .colon :: (ts ++ .comma :: us))

/-- `us` are the tokens `ts` with at most one more comma before each closing
bracket, but none where `opened` says that an opening one has just come. -/
inductive Trailing : Bool → List Token → List Token → Prop where
  | nil {opened : Bool} : Trailing opened [] []
  | token {opened : Bool} {t : Token} {ts us : List Token} : Trailing t.isOpener ts us →
      Trailing opened (t :: ts) (t :: us)
  | comma {t : Token} {ts us : List Token} : t.isCloser → Trailing false ts us →
      Trailing false (t :: ts) (.comma :: t :: us)

variable {phrase : Phrase} {t u : Token} {ts us : List Token}

namespace Token

theorem mayFollow_comma (t : Token) : t.MayFollow .comma :=
  ⟨fun _ => rfl, fun _ => rfl⟩

theorem mayFollow_closer (ht : t ≠ .comma) (hu : u.isCloser) : t.MayFollow u := by
  refine ⟨fun _ => ?_, fun h => absurd h ht⟩
  cases u <;> first | rfl | cases hu

theorem mayFollow_of_not_isScalar (ht : t.isScalar = false) (hu : u.isCloser = false) :
    t.MayFollow u :=
  ⟨fun h => absurd h (by simp [ht]), fun _ => hu⟩

end Token

namespace Derives

/-- A phrase begins with no closing bracket and ends with no comma. -/
theorem ends (h : Derives phrase ts) :
    (∃ t ts', ts = t :: ts' ∧ t.isCloser = false) ∧ ∃ ts' t, ts = ts' ++ [t] ∧ t ≠ .comma := by
  induction h with
  | @scalar t ht =>
      refine ⟨⟨t, [], rfl, ?_⟩, [], t, rfl, ?_⟩
      · cases t <;> first | rfl | cases ht
      · rintro rfl
        cases ht
  | emptyArray => exact ⟨⟨_, _, rfl, rfl⟩, [.openBracket], _, rfl, by decide⟩
  | emptyObject => exact ⟨⟨_, _, rfl, rfl⟩, [.openBrace], _, rfl, by decide⟩
  | @array ts => exact ⟨⟨_, _, rfl, rfl⟩, .openBracket :: ts, _, rfl, by decide⟩
  | @object ts => exact ⟨⟨_, _, rfl, rfl⟩, .openBrace :: ts, _, rfl, by decide⟩
  | item _ ih => exact ih
  | items _ _ ih₁ ih₂ =>
      obtain ⟨⟨t, ts, rfl, ht⟩, -⟩ := ih₁
      obtain ⟨-, us, u, rfl, hu⟩ := ih₂
      exact ⟨⟨t, _, rfl, ht⟩, t :: (ts ++ .comma :: us), u, by simp, hu⟩
  | @member raw _ _ ih =>
      obtain ⟨-, us, u, rfl, hu⟩ := ih
      exact ⟨⟨_, _, rfl, rfl⟩, .string raw :: .colon :: us, u, rfl, hu⟩
  | @members raw ts _ _ _ _ ih =>
      obtain ⟨-, us, u, rfl, hu⟩ := ih
      exact ⟨⟨_, _, rfl, rfl⟩, .string raw :: .colon :: (ts ++ .comma :: us), u, by simp, hu⟩

theorem cons_isChain (ht : t.isScalar = false) (h : Derives phrase ts) (hbegins : ts <+: us)
    (hus : us.IsChain Token.MayFollow) : (t :: us).IsChain Token.MayFollow := by
  obtain ⟨⟨u, ts, rfl, hu⟩, -⟩ := h.ends
  obtain ⟨vs, rfl⟩ := hbegins
  exact List.isChain_cons_cons.2 ⟨Token.mayFollow_of_not_isScalar ht hu, hus⟩

theorem isChain_append (h : Derives phrase ts) (hts : ts.IsChain Token.MayFollow)
    (hu : ∀ t ≠ Token.comma, t.MayFollow u) (hus : (u :: us).IsChain Token.MayFollow) :
    (ts ++ u :: us).IsChain Token.MayFollow := by
  obtain ⟨-, ts, t, rfl, ht⟩ := h.ends
  rw [List.append_assoc, List.singleton_append, List.isChain_append_cons_cons]
  exact ⟨hts, hu t ht, hus⟩

/-- The tokens of a phrase stand in an order in which a scanner finds them. -/
theorem isChain (h : Derives phrase ts) : ts.IsChain Token.MayFollow := by
  have hcloser : ∀ u : Token, u.isCloser → ∀ t ≠ Token.comma, t.MayFollow u :=
    fun u hu t ht => Token.mayFollow_closer ht hu
  have hcomma : ∀ t ≠ Token.comma, t.MayFollow .comma := fun t _ => t.mayFollow_comma
  have hcolon : ∀ raw, (Token.string raw).MayFollow .colon :=
    fun raw => ⟨fun _ => rfl, fun _ => rfl⟩
  induction h with
  | scalar => exact .singleton _
  | emptyArray | emptyObject => exact List.isChain_cons_cons.2 ⟨⟨nofun, nofun⟩, .singleton _⟩
  | array hts ih | object hts ih =>
      refine hts.cons_isChain rfl (List.prefix_append _ _) ?_
      exact hts.isChain_append ih (hcloser _ rfl) (.singleton _)
  | item _ ih => exact ih
  | items hts hus ih₁ ih₂ =>
      exact hts.isChain_append ih₁ hcomma (hus.cons_isChain rfl List.prefix_rfl ih₂)
  | member hts ih =>
      refine List.isChain_cons_cons.2 ⟨hcolon _, ?_⟩
      exact hts.cons_isChain rfl List.prefix_rfl ih
  | members hts hus ih₁ ih₂ =>
      refine List.isChain_cons_cons.2 ⟨hcolon _, hts.cons_isChain rfl (List.prefix_append _ _) ?_⟩
      exact hts.isChain_append ih₁ hcomma (hus.cons_isChain rfl List.prefix_rfl ih₂)

theorem bad_not_mem (h : Derives phrase ts) : Token.bad ∉ ts := by
  induction h with
  | @scalar t ht =>
      intro hbad
      obtain rfl := List.mem_singleton.1 hbad
      cases ht
  | emptyArray | emptyObject => decide
  | array _ ih | object _ ih | member _ ih => simpa using ih
  | item _ ih => exact ih
  | items _ _ ih₁ ih₂ | members _ _ ih₁ ih₂ => simp [ih₁, ih₂]

end Derives

end Json

end RedundantCast
