import RedundantCast.Proofs.Check.DocumentedReturn
import RedundantCast.Proofs.Check.Providers
import RedundantCast.Proofs.Inference.Variable

/-!
# What findings owe to the options

With a higher depth limit, more trust or fewer exemptions, nothing that was
inferred is lost and nothing that was found is. A limit that no chain of calls
below a cast reaches does not matter, and the exemption of returned casts takes
away exactly the findings about casts that may keep a promise.
-/

namespace RedundantCast

/-- The first options stop earlier, trust less and exempt more. -/
structure Options.Below (o o' : Options) : Prop where
  depth : o.depthLimit ≤ o'.depthLimit
  trust : o.trustPropertyDocs → o'.trustPropertyDocs
  skip : o'.skipDocOnlyReturns → o.skipDocOnlyReturns

/-- The options may differ in the depth limit and in the category alone. -/
structure Options.SameRules (o o' : Options) : Prop where
  trust : o.trustPropertyDocs = o'.trustPropertyDocs
  skip : o.skipDocOnlyReturns = o'.skipDocOnlyReturns

/-- The options with the exemption of returned casts on or off. -/
def Options.exempting (o : Options) (skip : Bool) : Options :=
  { o with skipDocOnlyReturns := skip }

namespace Context

/-- No more than so many calls of inference nest when the type of the operand
of a cast of the unit is inferred, the call for the operand included. -/
def CastsNestAtMost (ctx : Context) (root : NodeRef) (n : Nat) : Prop :=
  ∀ id ∈ ctx.tree.casts root, ∀ keyword token operand,
    ctx.tree.form? (some id) = some (.cast keyword token operand) →
    ∀ calls, ctx.Nested (operand :: calls) → (operand :: calls).length ≤ n

variable {t : Tree} {p : Provider} {o o' : Options} {root : NodeRef}

/-! ## Monotonicity -/

theorem withholds_refl (p : Provider) (o : Options) : p.Withholds o p := by
  have hfails : p.FailsMore p :=
    ⟨fun _ _ => Or.inl rfl, fun _ => Or.inl rfl, fun _ _ => Or.inl rfl⟩
  exact hfails.withholds o

theorem restricts_of_below (h : o.Below o') (t : Tree) (p : Provider) :
    Restricts ⟨t, p, o⟩ ⟨t, p, o'⟩ where
  tree := rfl
  depth := h.depth
  trust := h.trust
  skip := h.skip
  provider := withholds_refl p o

/-! ## The depth limit -/

theorem formType_congr (htrust : o.trustPropertyDocs = o'.trustPropertyDocs) (ref : NodeRef)
    (answers : List Inference) (written : Bool) (form : Form) :
    formType ⟨t, p, o⟩ ref answers written form = formType ⟨t, p, o'⟩ ref answers written form := by
  have htrusted : trustedType ⟨t, p, o⟩ = trustedType ⟨t, p, o'⟩ := trustedType_congr htrust
  have hproperty : propertyType ⟨t, p, o⟩ = propertyType ⟨t, p, o'⟩ := by
    funext owner name
    simp only [propertyType, htrusted]
  cases form with
  | var name => exact variableType_congr ⟨t, p, o⟩ ⟨t, p, o'⟩ rfl htrust (fun _ => rfl) ref written
  | propertyAccess receiver name => simp only [formType, hproperty]
  | staticPropertyAccess className name =>
      simp only [formType, hproperty]
      rfl
  | literal kind text => cases kind <;> rfl
  | _ => rfl

theorem written_congr_options (ref : NodeRef) :
    written ⟨t, p, o⟩ ref = written ⟨t, p, o'⟩ ref := by
  cases hform : t.form? ref with
  | none => simp only [written, scanned?, hform, Option.bind_none]
  | some form =>
      cases form with
      | var name => exact written_congr ⟨t, p, o⟩ ⟨t, p, o'⟩ rfl hform fun _ => rfl
      | _ => simp only [written, scanned?, hform, Option.bind_some, Form.var?]

/-- Without a memory, only the trusted sources among the options matter. -/
theorem inferFresh_congr (htrust : o.trustPropertyDocs = o'.trustPropertyDocs) (n : Nat)
    (ref : NodeRef) : inferFresh ⟨t, p, o⟩ n ref = inferFresh ⟨t, p, o'⟩ n ref := by
  induction n generalizing ref with
  | zero => rfl
  | succ n ih =>
      have hanswers : (operands ⟨t, p, o⟩ ref).map (inferFresh ⟨t, p, o⟩ n) =
          (operands ⟨t, p, o'⟩ ref).map (inferFresh ⟨t, p, o'⟩ n) :=
        List.map_congr_left fun operand _ => ih operand
      have hwritten : written ⟨t, p, o⟩ ref = written ⟨t, p, o'⟩ ref := written_congr_options ref
      have hrule : ∀ answers written, rule ⟨t, p, o⟩ ref answers written =
          rule ⟨t, p, o'⟩ ref answers written := by
        intro answers written
        simp only [rule, formType_congr htrust]
      exact (hrule _ _).trans (congrArg₂ _ hanswers hwritten)

theorem castsNestAtMost_iff {ctx : Context} {n : Nat} :
    ctx.CastsNestAtMost root n ↔ ∀ id ∈ ctx.tree.casts root,
      ∀ cast ∈ (ctx.tree.form? (some id)).bind Form.cast?, ctx.NestsWithin n cast.2.2 := by
  have hcast : ∀ {form : Form} {keyword token operand},
      form.cast? = some (keyword, token, operand) ↔ form = .cast keyword token operand := by
    intro form keyword token operand
    cases form <;> simp [Form.cast?]
  constructor
  · rintro h id hid ⟨keyword, token, operand⟩ hmem
    obtain ⟨form, hform, hparts⟩ := Option.bind_eq_some_iff.1 hmem
    rw [hcast] at hparts
    exact nestsWithin_iff.2 (h id hid keyword token operand (hparts ▸ hform))
  · intro h id hid keyword token operand hform calls hcalls
    have hwithin := h id hid (keyword, token, operand) (by simp [hform, Form.cast?])
    exact nestsWithin_iff.1 hwithin calls hcalls

instance (ctx : Context) (root : NodeRef) (n : Nat) : Decidable (ctx.CastsNestAtMost root n) :=
  decidable_of_iff _ castsNestAtMost_iff.symm

theorem exempts_congr (hskip : o.skipDocOnlyReturns = o'.skipDocOnlyReturns) (ref : NodeRef) :
    exempts ⟨t, p, o⟩ ref = exempts ⟨t, p, o'⟩ ref := by
  unfold exempts
  rw [hskip]
  rfl

theorem findings_eq_of_nesting (ht : t.WellFormed) (h : o.SameRules o')
    (hnests : CastsNestAtMost ⟨t, p, o⟩ root o.depthLimit)
    (hnests' : CastsNestAtMost ⟨t, p, o'⟩ root o'.depthLimit) :
    (findings ⟨t, p, o⟩ root .empty).1 = (findings ⟨t, p, o'⟩ root .empty).1 := by
  rw [findings_empty ht, findings_empty ht]
  apply List.filterMap_congr
  intro id hid
  have hquestion : question? ⟨t, p, o⟩ (some id) = question? ⟨t, p, o'⟩ (some id) := by
    unfold question?
    rw [exempts_congr h.skip]
  rw [findingBy, findingBy, ← hquestion]
  cases hq : question? ⟨t, p, o⟩ (some id) with
  | none => rfl
  | some q =>
      -- Neither limit cuts anything off below this cast: both give the unlimited answer.
      have hform := (node?_of_question? hq).2
      have hreach : inferFresh ⟨t, p, o⟩ o.depthLimit q.operand =
          inferUnlimited ⟨t, p, o⟩ q.operand :=
        inferFresh_eq_inferUnlimited ht (nestsWithin_iff.2 (hnests id hid _ _ _ hform))
      have hreach' : inferFresh ⟨t, p, o'⟩ o'.depthLimit q.operand =
          inferUnlimited ⟨t, p, o'⟩ q.operand :=
        inferFresh_eq_inferUnlimited ht (nestsWithin_iff.2 (hnests' id hid _ _ _ hform))
      have hunlimited : inferUnlimited ⟨t, p, o⟩ q.operand =
          inferUnlimited ⟨t, p, o'⟩ q.operand := inferFresh_congr h.trust _ _
      simp only [Option.bind_some, hreach, hreach', hunlimited]

/-! ## Exemptions -/

theorem exempts_exempting (skip : Bool) (ref : NodeRef) :
    exempts ⟨t, p, o.exempting skip⟩ ref = (skip && servesDocumentedReturn ⟨t, p, o⟩ ref) := rfl

theorem findingBy_skip (known : NodeRef → Inference) (ref : NodeRef) :
    findingBy ⟨t, p, o.exempting true⟩ known ref =
      if servesDocumentedReturn ⟨t, p, o⟩ ref then none
      else findingBy ⟨t, p, o.exempting false⟩ known ref := by
  simp only [findingBy, question?, exempts_exempting, Bool.true_and, Bool.false_and]
  split <;> rfl

open Classical in
/-- The exemption takes away the findings about casts that may keep a promise,
and no others. -/
theorem findings_skip (ht : t.WellFormed) :
    (findings ⟨t, p, o.exempting true⟩ root .empty).1 =
      (findings ⟨t, p, o.exempting false⟩ root .empty).1.filter
        fun f => ¬ KeepsPromise ⟨t, p, o⟩ f.cast := by
  have htrust : (o.exempting true).trustPropertyDocs = (o.exempting false).trustPropertyDocs := rfl
  have hknown : inferFresh ⟨t, p, o.exempting true⟩ o.depthLimit =
      inferFresh ⟨t, p, o.exempting false⟩ o.depthLimit :=
    funext fun ref => inferFresh_congr htrust _ ref
  rw [findings_empty ht, findings_empty ht, List.filter_filterMap]
  apply List.filterMap_congr
  intro id _
  have hpromise : servesDocumentedReturn ⟨t, p, o⟩ (some id) = true ↔ KeepsPromise ⟨t, p, o⟩ id :=
    servesDocumentedReturn_iff ht
  have hlimit : ∀ b, (o.exempting b).depthLimit = o.depthLimit := fun _ => rfl
  rw [findingBy_skip, hlimit, hlimit, hknown]
  cases hf : findingBy ⟨t, p, o.exempting false⟩
      (inferFresh ⟨t, p, o.exempting false⟩ o.depthLimit) (some id) with
  | none => simp
  | some f =>
      have hcast := cast_of_findingBy hf
      by_cases hserves : servesDocumentedReturn ⟨t, p, o⟩ (some id) = true
      · simp [hserves, Option.filter, hcast, hpromise.1 hserves]
      · have hfree : ¬ KeepsPromise ⟨t, p, o⟩ id := fun h => hserves (hpromise.2 h)
        simp [hserves, Option.filter, hcast, hfree]

open Classical in
/-- Options that say more lose nothing that was inferred or found. A limit that
no chain of calls below a cast exceeds leaves the findings as they are, and
exempting returned casts takes away the findings about casts that may keep a
documented promise. -/
theorem options_monotone (ht : t.WellFormed) (p : Provider) {σ : Type} (sink : Sink σ)
    (root : NodeRef) (collected : σ) :
    (∀ o o' : Options, o.Below o' →
        (∀ ref, (infer ⟨t, p, o⟩ ref .empty).1.Below (infer ⟨t, p, o'⟩ ref .empty).1) ∧
          (checkUnit ⟨t, p, o⟩ sink root .empty collected).1.Sublist
            (checkUnit ⟨t, p, o'⟩ sink root .empty collected).1) ∧
      (∀ o o' : Options, o.SameRules o' → CastsNestAtMost ⟨t, p, o⟩ root o.depthLimit →
        CastsNestAtMost ⟨t, p, o'⟩ root o'.depthLimit →
        (checkUnit ⟨t, p, o⟩ sink root .empty collected).1 =
          (checkUnit ⟨t, p, o'⟩ sink root .empty collected).1) ∧
      ∀ o : Options,
        (checkUnit ⟨t, p, o.exempting true⟩ sink root .empty collected).1 =
          (checkUnit ⟨t, p, o.exempting false⟩ sink root .empty
            collected).1.filter fun f => ¬ KeepsPromise ⟨t, p, o⟩ f.cast := by
  refine ⟨?_, ?_, ?_⟩
  · intro o o' h
    have hrestricts := restricts_of_below h t p
    exact ⟨hrestricts.infer_below ht, hrestricts.findings_sublist ht root⟩
  · intro o o' h hnests hnests'
    exact findings_eq_of_nesting ht h hnests hnests'
  · intro o
    exact findings_skip ht

/-- The nodes of `function f() { return (int) 1; } (int) (2);` in a file. -/
def returnedCast : List (Form × Span) :=
  [(.literal .integer "1", ⟨30, 31⟩), (.cast "int" ⟨24, 29⟩ (some 0), .dummy),
    (.returnStatement (some 1), ⟨17, 32⟩),
    (.function ⟨.functionDeclaration, some "f", [], [], false, false, [some 2]⟩, ⟨0, 34⟩),
    (.literal .integer "2", ⟨42, 43⟩), (.parenthesized (some 4), ⟨41, 44⟩),
    (.cast "int" ⟨35, 40⟩ (some 5), .dummy),
    (.sourceFile "a.php" [some 3, some 6], ⟨0, 45⟩)]

/-- A provider to which every function is documented to return an `int`. -/
def documentedReturns : Provider :=
  { Provider.empty with returnType := fun _ => .ok (some ⟨"f", .int, .returnDocHint⟩) }

/-- The returned cast keeps a promise, and one level of inference does not see
through the parentheses of the other cast. -/
theorem options_monotone_returnedCast :
    let t := Tree.ofForms returnedCast
    let all : Options := { Options.default with skipDocOnlyReturns := false }
    let shallow : Options := { all with maxInferenceDepth := 1 }
    let enough : Options := { all with maxInferenceDepth := 2 }
    let found (o : Options) : List Finding :=
      (checkUnit ⟨t, documentedReturns, o⟩ .log (some 7) .empty []).1
    t.WellFormed ∧ shallow.Below all ∧ (found shallow).Sublist (found all) ∧
      CastsNestAtMost ⟨t, documentedReturns, enough⟩ (some 7) 2 ∧ found enough = found all ∧
      (found all).map Finding.cast = [1, 6] ∧ (found shallow).map Finding.cast = [1] ∧
      (found .default).map Finding.cast = [6] ∧
      KeepsPromise ⟨t, documentedReturns, .default⟩ 1 ∧
      ∀ f ∈ found .default,
        f ∈ found all ∧ ¬ KeepsPromise ⟨t, documentedReturns, .default⟩ f.cast := by
  intro t all shallow enough found
  have ht : t.WellFormed := Tree.wellFormed_ofForms (by decide)
  obtain ⟨hbelow, hnesting, hskip⟩ := options_monotone ht documentedReturns .log (some 7) []
  have hshallow : shallow.Below all := ⟨by decide, id, id⟩
  have hnests : CastsNestAtMost ⟨t, documentedReturns, enough⟩ (some 7) 2 := by decide
  have hnests' : CastsNestAtMost ⟨t, documentedReturns, all⟩ (some 7) all.depthLimit := by
    intro id hid keyword token operand hform calls hcalls
    have hlength := hnests id hid keyword token operand hform calls hcalls
    exact Nat.le_trans hlength (by decide)
  refine ⟨ht, hshallow, (hbelow shallow all hshallow).2, hnests, ?_, by decide, by decide,
    by decide, ?_, ?_⟩
  · exact hnesting enough all ⟨rfl, rfl⟩ hnests hnests'
  · exact (servesDocumentedReturn_iff ht).1 (by decide)
  · intro f hf
    have hdefault : found .default = (found all).filter _ := hskip .default
    rw [hdefault, List.mem_filter] at hf
    exact ⟨hf.1, by simpa using hf.2⟩

end Context

end RedundantCast
