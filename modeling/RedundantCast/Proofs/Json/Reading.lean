import RedundantCast.Proofs.Json.Grammar

/-!
# Readers take values

Whatever a reader takes from the front of some tokens is one value of the
grammar.  A skipped value is read by a machine with a stack; `Closes` says what
its open containers still need, and each step hands that on.
-/

namespace RedundantCast

namespace Json

/-- What the open containers need after a value inside the innermost one. -/
inductive Closes : List Container → List Token → Prop where
  | nil : Closes [] []
  | array {stack : List Container} {rest : List Token} : Closes stack rest →
      Closes (.array :: stack) (.closeBracket :: rest)
  | items {stack : List Container} {ts rest : List Token} : Derives .items ts →
      Closes stack rest → Closes (.array :: stack) (.comma :: (ts ++ .closeBracket :: rest))
  | object {stack : List Container} {rest : List Token} : Closes stack rest →
      Closes (.object :: stack) (.closeBrace :: rest)
  | members {stack : List Container} {ts rest : List Token} : Derives .members ts →
      Closes stack rest → Closes (.object :: stack) (.comma :: (ts ++ .closeBrace :: rest))

/-- Tokens that take the machine to the end of the value it is inside of. -/
inductive Completes : List Container → Expected → List Token → Prop where
  | value {stack : List Container} {ts rest : List Token} : Derives .value ts →
      Closes stack rest → Completes stack .value (ts ++ rest)
  | separator {stack : List Container} {rest : List Token} : Closes stack rest →
      Completes stack .separator rest
  | noItem {stack : List Container} {rest : List Token} : Closes stack rest →
      Completes (.array :: stack) .firstItem (.closeBracket :: rest)
  | firstItem {stack : List Container} {ts rest : List Token} : Derives .items ts →
      Closes stack rest → Completes (.array :: stack) .firstItem (ts ++ .closeBracket :: rest)
  | noKey {stack : List Container} {rest : List Token} : Closes stack rest →
      Completes (.object :: stack) .firstKey (.closeBrace :: rest)
  | firstKey {stack : List Container} {ts rest : List Token} : Derives .members ts →
      Closes stack rest → Completes (.object :: stack) .firstKey (ts ++ .closeBrace :: rest)
  | key {stack : List Container} {ts rest : List Token} : Derives .members ts →
      Closes stack rest → Completes (.object :: stack) .key (ts ++ .closeBrace :: rest)
  | colon {stack : List Container} {ts rest : List Token} :
      (∀ raw, Derives .members (.string raw :: ts)) → Closes stack rest →
      Completes (.object :: stack) .colon (ts ++ .closeBrace :: rest)

/-- What the machine expects is something that the innermost container has. -/
def Fits (stack : List Container) : Expected → Prop
  | .value | .separator => True
  | .firstItem => ∃ outer, stack = .array :: outer
  | .firstKey | .key | .colon => ∃ outer, stack = .object :: outer

variable {stack stack' : List Container} {expected expected' : Expected} {t : Token}
  {ts rest : List Token}

/-! ## The machine -/

namespace Completes

theorem items_of_value (h : Completes (.array :: stack) .value ts) :
    ∃ us rest, ts = us ++ .closeBracket :: rest ∧ Derives .items us ∧ Closes stack rest := by
  cases h with
  | @value _ ts _ hts hrest =>
      cases hrest with
      | array hrest => exact ⟨ts, _, rfl, .item hts, hrest⟩
      | @items _ us _ hus hrest =>
          exact ⟨ts ++ .comma :: us, _, by simp, .items hts hus, hrest⟩

theorem members_of_value (h : Completes (.object :: stack) .value ts) :
    ∃ us rest, ts = us ++ .closeBrace :: rest ∧
      (∀ raw, Derives .members (.string raw :: .colon :: us)) ∧ Closes stack rest := by
  cases h with
  | @value _ ts _ hts hrest =>
      cases hrest with
      | object hrest => exact ⟨ts, _, rfl, fun _ => .member hts, hrest⟩
      | @members _ us _ hus hrest =>
          exact ⟨ts ++ .comma :: us, _, by simp, fun _ => .members hts hus, hrest⟩

theorem cons_of_beginValue (h : beginValue stack t = some (stack', expected'))
    (hts : Completes stack' expected' ts) : Completes stack .value (t :: ts) := by
  have hscalar : ∀ u : Token, u.isScalar → Closes stack ts → Completes stack .value (u :: ts) :=
    fun u hu hrest => .value (.scalar hu) hrest
  cases t <;> cases h
  case openBracket =>
    cases hts with
    | noItem hrest =>
        have hvalue := Completes.value .emptyArray hrest
        exact hvalue
    | firstItem hts hrest =>
        have hvalue := Completes.value (.array hts) hrest
        simpa using hvalue
  case openBrace =>
    cases hts with
    | noKey hrest =>
        have hvalue := Completes.value .emptyObject hrest
        exact hvalue
    | firstKey hts hrest =>
        have hvalue := Completes.value (.object hts) hrest
        simpa using hvalue
  all_goals
    cases hts with
    | separator hrest => exact hscalar _ rfl hrest

/-- What completes a value after a token completes it together with the token. -/
theorem cons (hfits : Fits stack expected)
    (h : advance stack expected t = some (stack', expected'))
    (hts : Completes stack' expected' ts) : Completes stack expected (t :: ts) := by
  have hbegin : ∀ outer, beginValue (.array :: outer) t = some (stack', expected') →
      Completes (.array :: outer) .firstItem (t :: ts) := by
    intro outer hbegin
    obtain ⟨us, rest, htext, hus, hrest⟩ := (cons_of_beginValue hbegin hts).items_of_value
    rw [htext]
    exact .firstItem hus hrest
  have hkey : ∀ outer raw, Completes (.object :: outer) .colon ts →
      ∃ us rest, .string raw :: ts = us ++ .closeBrace :: rest ∧ Derives .members us ∧
        Closes outer rest := by
    intro outer raw hcolon
    cases hcolon with
    | @colon _ us rest hus hrest => exact ⟨.string raw :: us, rest, rfl, hus raw, hrest⟩
  cases expected with
  | value => exact cons_of_beginValue h hts
  | firstItem =>
      obtain ⟨outer, rfl⟩ := hfits
      cases t <;> first | exact hbegin outer h | cases h
      cases hts with
      | separator hrest => exact .noItem hrest
  | firstKey =>
      obtain ⟨outer, rfl⟩ := hfits
      cases t <;> cases h
      · cases hts with
        | separator hrest => exact .noKey hrest
      · obtain ⟨us, rest, htext, hus, hrest⟩ := hkey outer _ hts
        rw [htext]
        exact .firstKey hus hrest
  | key =>
      obtain ⟨outer, rfl⟩ := hfits
      cases t <;> cases h
      obtain ⟨us, rest, htext, hus, hrest⟩ := hkey outer _ hts
      rw [htext]
      exact .key hus hrest
  | colon =>
      obtain ⟨outer, rfl⟩ := hfits
      cases t <;> cases h
      obtain ⟨us, rest, rfl, hus, hrest⟩ := hts.members_of_value
      have hcolon := Completes.colon hus hrest
      exact hcolon
  | separator =>
      rcases stack with _ | ⟨_ | _, outer⟩
      · cases t <;> cases h
      · cases t <;> cases h
        · cases hts with
          | separator hrest => exact .separator (.array hrest)
        · obtain ⟨us, rest, rfl, hus, hrest⟩ := hts.items_of_value
          exact .separator (.items hus hrest)
      · cases t <;> cases h
        · cases hts with
          | separator hrest => exact .separator (.object hrest)
        · cases hts with
          | key hus hrest => exact .separator (.members hus hrest)

end Completes

theorem fits_of_beginValue (h : beginValue stack t = some (stack', expected')) :
    Fits stack' expected' := by
  cases t <;> cases h
  case openBracket => exact ⟨stack, rfl⟩
  case openBrace => exact ⟨stack, rfl⟩
  all_goals trivial

theorem Fits.advance (hfits : Fits stack expected)
    (h : advance stack expected t = some (stack', expected')) : Fits stack' expected' := by
  have hbegin : beginValue stack t = some (stack', expected') → Fits stack' expected' :=
    fits_of_beginValue
  cases expected with
  | value => exact hbegin h
  | firstItem =>
      cases t <;> first | exact hbegin h | cases h
      trivial
  | firstKey | key =>
      cases t <;> cases h
      all_goals first | exact hfits | trivial
  | colon =>
      cases t <;> cases h
      trivial
  | separator =>
      rcases stack with _ | ⟨_ | _, outer⟩
      · cases t <;> cases h
      · cases t <;> cases h
        all_goals trivial
      · cases t <;> cases h
        · trivial
        · exact ⟨outer, rfl⟩

theorem completes_of_skipFrom (hfits : Fits stack expected)
    (h : skipFrom stack expected ts = some rest) :
    ∃ taken, ts = taken ++ rest ∧ Completes stack expected taken := by
  induction ts generalizing stack expected with
  | nil => cases h
  | cons t ts ih =>
      rw [skipFrom] at h
      split at h
      · cases h
      · next hadvance =>
        cases h
        exact ⟨[t], rfl, Completes.cons hfits hadvance (.separator .nil)⟩
      · next hadvance =>
        obtain ⟨taken, rfl, htaken⟩ := ih (hfits.advance hadvance) h
        exact ⟨t :: taken, rfl, htaken.cons hfits hadvance⟩

theorem derives_of_skip {rest : Rest ts} (h : skip ts = .ok rest) :
    ∃ taken, ts = taken ++ rest.1 ∧ Derives .value taken := by
  unfold skip at h
  split at h
  · next hskip =>
    cases h
    have hfits : Fits [] .value := trivial
    obtain ⟨taken, rfl, htaken⟩ := completes_of_skipFrom hfits hskip
    cases htaken with
    | value hts hrest =>
        cases hrest
        exact ⟨_, by simp, hts⟩
  · cases h

/-! ## Readers -/

/-- Whatever the reader takes is a value. -/
def ReadsValue {α : Type} (read : Reader α) : Prop :=
  ∀ ⦃ts : List Token⦄ ⦃a : α⦄ ⦃rest : Rest ts⦄, read ts = .ok (a, rest) →
    ∃ taken, ts = taken ++ rest.1 ∧ Derives .value taken

theorem map_eq_ok {ε α β : Type} {f : α → β} {x : Except ε α} {b : β} (h : x.map f = .ok b) :
    ∃ a, x = .ok a ∧ f a = b := by
  cases x with
  | error e => cases h
  | ok a => exact ⟨a, rfl, Except.ok.inj h⟩

theorem readsValue_optional {α : Type} {read : Reader α} (h : ReadsValue read) :
    ReadsValue (readOptional read) := by
  intro ts a rest hread
  unfold readOptional at hread
  split at hread
  · cases hread
    exact ⟨[.null], rfl, .scalar rfl⟩
  · obtain ⟨⟨a', rest'⟩, hread', heq⟩ := map_eq_ok hread
    cases heq
    exact h hread'

theorem readsValue_text : ReadsValue readText := by
  intro ts a rest hread
  unfold readText at hread
  split at hread
  · next raw _ =>
    split at hread
    · cases hread
      exact ⟨[.string raw], rfl, .scalar rfl⟩
    · cases hread
  · cases hread

theorem readsValue_nat (bound : Nat) : ReadsValue (readNat bound) := by
  intro ts a rest hread
  unfold readNat at hread
  split at hread
  · next digits _ =>
    split at hread
    · split at hread
      · cases hread
        exact ⟨[.number digits], rfl, .scalar rfl⟩
      · cases hread
    · cases hread
  · cases hread

section Records

variable {σ : Type} {fields : List (RecordField σ)}

theorem readsValue_member (h : ∀ field ∈ fields, ∀ record, ReadsValue (field.read record))
    (seen : List String) (record : σ) (key : String) :
    ReadsValue (readMember fields seen record key) := by
  intro ts a rest hread
  unfold readMember at hread
  split at hread
  · next field hfind =>
    split at hread
    · cases hread
    · exact h field (List.mem_of_find?_eq_some hfind) record hread
  · obtain ⟨rest', hskip, heq⟩ := map_eq_ok hread
    cases heq
    exact derives_of_skip hskip

theorem derives_of_readMembers (h : ∀ field ∈ fields, ∀ record, ReadsValue (field.read record))
    {seen : List String} {record a : σ} {rest : Rest ts}
    (hread : readMembers fields seen record ts = .ok (a, rest)) :
    ∃ taken, ts = taken ++ .closeBrace :: rest.1 ∧ Derives .members taken := by
  fun_induction readMembers fields seen record ts generalizing a with
  | case4 seen record raw inner key _ record' more _ hmember record'' rest' hmore ih =>
      cases hread
      obtain ⟨taken, htext, htaken⟩ := readsValue_member h seen record key hmember
      obtain ⟨taken', hmore', htaken'⟩ := ih hmore
      refine ⟨.string raw :: .colon :: (taken ++ .comma :: taken'), ?_, .members htaken htaken'⟩
      simp [htext, hmore']
  | case5 seen record raw inner key _ record' more _ hmember =>
      cases hread
      obtain ⟨taken, htext, htaken⟩ := readsValue_member h seen record key hmember
      exact ⟨.string raw :: .colon :: taken, by simp [htext], .member htaken⟩
  | _ => cases hread

theorem derives_of_readItems (h : ∀ field ∈ fields, ∀ record, ReadsValue (field.read record))
    {record a : σ} {rest : Rest ts} (hread : readItems fields record ts = .ok (a, rest)) :
    ∃ taken, ts = taken ++ .closeBracket :: rest.1 ∧ Derives .items taken := by
  fun_induction readItems fields record ts generalizing a with
  | case4 field fields record ts record' more _ hitem record'' rest' hmore ih =>
      cases hread
      rw [List.forall_mem_cons] at h
      obtain ⟨taken, htext, htaken⟩ := h.1 record hitem
      obtain ⟨taken', hmore', htaken'⟩ := ih h.2 hmore
      refine ⟨taken ++ .comma :: taken', ?_, .items htaken htaken'⟩
      simp [htext, hmore']
  | case5 field fields record ts record' more _ hitem =>
      cases hread
      obtain ⟨taken, htext, htaken⟩ := h field List.mem_cons_self record hitem
      exact ⟨taken, htext, .item htaken⟩
  | _ => cases hread

theorem readsValue_record (h : ∀ field ∈ fields, ∀ record, ReadsValue (field.read record))
    (record : σ) : ReadsValue (readRecord fields record) := by
  intro ts a rest hread
  unfold readRecord at hread
  split at hread
  · cases hread
    exact ⟨_, rfl, .emptyObject⟩
  · cases hread
    exact ⟨_, rfl, .emptyArray⟩
  · obtain ⟨⟨a', rest'⟩, hread', heq⟩ := map_eq_ok hread
    cases heq
    obtain ⟨taken, htext, htaken⟩ := derives_of_readMembers h hread'
    exact ⟨.openBrace :: (taken ++ [.closeBrace]), by simp [Rest.later, htext], .object htaken⟩
  · obtain ⟨⟨a', rest'⟩, hread', heq⟩ := map_eq_ok hread
    cases heq
    obtain ⟨taken, htext, htaken⟩ := derives_of_readItems h hread'
    exact ⟨.openBracket :: (taken ++ [.closeBracket]), by simp [Rest.later, htext], .array htaken⟩
  · cases hread

end Records

/-- A text that is read is one value. -/
theorem derives_of_parse {α : Type} {read : Reader α} (h : ReadsValue read) {cs : List Char} {a : α}
    (hparse : parse read cs = .ok a) : Derives .value (tokens cs) := by
  unfold parse at hparse
  split at hparse
  · cases hparse
  · next hread =>
    obtain ⟨taken, htext, htaken⟩ := h hread
    rwa [htext, List.append_nil]
  · cases hparse

/-! ## Decoders -/

/-- What a JSON text is read as depends on its tokens alone. -/
def ReadsTokens {α : Type} (decode : Decoder α) : Prop :=
  ∀ ⦃ts : List Token⦄ ⦃cs ds : List Char⦄, Derives .value ts → Spells ts cs → Spells ts ds →
    decode cs = decode ds

/-- Nothing is read but JSON texts. -/
def ReadsOnlyJson {α : Type} (decode : Decoder α) : Prop :=
  ∀ ⦃cs : List Char⦄ ⦃a : α⦄, decode cs = .ok a → ∃ ts, Derives .value ts ∧ Spells ts cs

theorem readsTokens_parse {α : Type} (read : Reader α) : ReadsTokens (parse read) := by
  intro ts cs ds hts hcs hds
  rw [parse_eq_parseTokens, parse_eq_parseTokens, tokens_of_spells hcs hts.isChain,
    tokens_of_spells hds hts.isChain]

theorem readsOnlyJson_parse {α : Type} {read : Reader α} (h : ReadsValue read) :
    ReadsOnlyJson (parse read) := by
  intro cs a hparse
  have hts := derives_of_parse h hparse
  exact ⟨tokens cs, hts, spells_tokens hts.bad_not_mem⟩

end Json

end RedundantCast
