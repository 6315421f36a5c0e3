import RedundantCast.Proofs.Check.Restriction

/-!
# What findings owe to the provider

Types that are not trusted have no influence on inference and on findings, and
a provider that fails more often only leads to fewer findings.
-/

namespace RedundantCast

open Declaration (AgreeExcept)

/-- Both answers are the same error, or neither is an error and the two are
related. -/
inductive SameAnswer {α : Type} (R : α → α → Prop) :
    Except ProviderError α → Except ProviderError α → Prop where
  | error (e : ProviderError) : SameAnswer R (.error e) (.error e)
  | ok {a b : α} : R a b → SameAnswer R (.ok a) (.ok b)

namespace SameAnswer

variable {α : Type} {R : α → α → Prop} {x y : Except ProviderError α}

theorem symm (hR : ∀ a b, R a b → R b a) (h : SameAnswer R x y) : SameAnswer R y x := by
  cases h with
  | error e => exact .error e
  | ok hab => exact .ok (hR _ _ hab)

theorem answeredBy (h : SameAnswer R x y) : AnsweredBy R x y := by
  intro a ha
  cases h with
  | error e => cases ha
  | ok hab =>
      cases ha
      exact ⟨_, rfl, hab⟩

end SameAnswer

namespace Provider

/-- The providers answer every question alike, except for the types of
declarations that are not trusted. -/
structure AgreesOnTrusted (options : Options) (p q : Provider) : Prop where
  variableTypes : ∀ scope name,
    SameAnswer (List.Forall₂ (AgreeExcept (Source.isUntrusted options)))
      (p.variableTypes scope name) (q.variableTypes scope name)
  returnType : ∀ callable,
    SameAnswer (Option.Rel (AgreeExcept Source.isUntrustedReturn))
      (p.returnType callable) (q.returnType callable)
  memberType : ∀ owner name,
    SameAnswer (Option.Rel (AgreeExcept (Source.isUntrusted options)))
      (p.memberType owner name) (q.memberType owner name)

/-- To every question the first provider gives the answer of the second or an
error. -/
structure FailsMore (q p : Provider) : Prop where
  variableTypes : ∀ scope name, q.variableTypes scope name = p.variableTypes scope name ∨
    ∃ error, q.variableTypes scope name = .error error
  returnType : ∀ callable, q.returnType callable = p.returnType callable ∨
    ∃ error, q.returnType callable = .error error
  memberType : ∀ owner name, q.memberType owner name = p.memberType owner name ∨
    ∃ error, q.memberType owner name = .error error

variable {options : Options} {p q : Provider}

theorem rel_symm {untrusted : Source → Bool} (d d' : Option Declaration)
    (h : Option.Rel (AgreeExcept untrusted) d d') : Option.Rel (AgreeExcept untrusted) d' d := by
  cases h with
  | none => exact .none
  | some h => exact .some h.symm

theorem rel_refl {untrusted : Source → Bool} (d : Option Declaration) :
    Option.Rel (AgreeExcept untrusted) d d := by
  cases d with
  | none => exact .none
  | some d => exact .some (.refl d)

namespace AgreesOnTrusted

theorem symm (h : p.AgreesOnTrusted options q) : q.AgreesOnTrusted options p where
  variableTypes scope name :=
    (h.variableTypes scope name).symm fun _ _ hds => hds.flip.imp fun _ _ hd => hd.symm
  returnType callable := (h.returnType callable).symm rel_symm
  memberType owner name := (h.memberType owner name).symm rel_symm

theorem withholds (h : p.AgreesOnTrusted options q) : p.Withholds options q where
  variableTypes scope name := (h.variableTypes scope name).answeredBy
  returnType callable := (h.returnType callable).answeredBy
  memberType owner name := (h.memberType owner name).answeredBy

end AgreesOnTrusted

theorem answeredBy_of_eq_or_error {α : Type} {R : α → α → Prop} (hR : ∀ a, R a a)
    {x y : Except ProviderError α} (h : x = y ∨ ∃ error, x = .error error) :
    AnsweredBy R x y := by
  rintro a rfl
  rcases h with rfl | ⟨error, herror⟩
  · exact ⟨a, rfl, hR a⟩
  · cases herror

theorem FailsMore.withholds (h : q.FailsMore p) (options : Options) : q.Withholds options p where
  variableTypes scope name :=
    answeredBy_of_eq_or_error (fun _ => List.forall₂_same.2 fun d _ => .refl d)
      (h.variableTypes scope name)
  returnType callable := answeredBy_of_eq_or_error rel_refl (h.returnType callable)
  memberType owner name := answeredBy_of_eq_or_error rel_refl (h.memberType owner name)

/-- A provider fails more often when some of its questions are made to fail. -/
theorem failsMore_failing (p : Provider) (queries : List Query) (error : ProviderError) :
    (p.failing queries error).FailsMore p where
  variableTypes scope name := by
    by_cases hquery : Query.variableTypes ∈ queries
    · exact Or.inr ⟨error, if_pos hquery⟩
    · exact Or.inl (if_neg hquery)
  returnType callable := by
    by_cases hquery : Query.returnTypes ∈ queries
    · exact Or.inr ⟨error, if_pos hquery⟩
    · exact Or.inl (if_neg hquery)
  memberType owner name := by
    by_cases hquery : Query.memberTypes ∈ queries
    · exact Or.inr ⟨error, if_pos hquery⟩
    · exact Or.inl (if_neg hquery)

end Provider

namespace Context

variable {t : Tree} {p q : Provider}

theorem restricts_of_withholds {options : Options} (h : p.Withholds options q) (t : Tree) :
    Restricts ⟨t, p, options⟩ ⟨t, q, options⟩ where
  tree := rfl
  depth := Nat.le_refl _
  trust := id
  skip := id
  provider := h

/-- Two providers that differ in untrusted types only lead to the same types and
to the same findings. -/
theorem untrusted_types_irrelevant (ht : t.WellFormed) (options : Options)
    (h : p.AgreesOnTrusted options q) :
    (∀ ref, (infer ⟨t, p, options⟩ ref .empty).1 = (infer ⟨t, q, options⟩ ref .empty).1) ∧
      ∀ {σ : Type} (sink : Sink σ) (root : NodeRef) (collected : σ),
        (checkUnit ⟨t, p, options⟩ sink root .empty collected).1 =
            (checkUnit ⟨t, q, options⟩ sink root .empty collected).1 ∧
          (checkUnit ⟨t, p, options⟩ sink root .empty collected).2.2 =
            (checkUnit ⟨t, q, options⟩ sink root .empty collected).2.2 := by
  have hpq := restricts_of_withholds h.withholds t
  have hqp := restricts_of_withholds h.symm.withholds t
  refine ⟨fun ref => ?_, fun sink root collected => ?_⟩
  · exact (hpq.infer_below ht ref).antisymm (hqp.infer_below ht ref)
  · have hfindings := (hpq.findings_sublist ht root).antisymm (hqp.findings_sublist ht root)
    exact ⟨hfindings, congrArg (fun findings => sink.reportAll findings collected) hfindings⟩

/-- The nodes of `(int) $x; (int) $y;` in a file. -/
def castVariables : List (Form × Span) :=
  [(.var "x", ⟨6, 8⟩), (.cast "int" ⟨0, 5⟩ (some 0), .dummy), (.var "y", ⟨16, 18⟩),
    (.cast "int" ⟨10, 15⟩ (some 2), .dummy), (.sourceFile "a.php" [some 1, some 3], ⟨0, 19⟩)]

/-- A provider to which `$x` is a documented parameter of the given type, and
`$y` an `int`. -/
def documented (type : Ty) : Provider :=
  { Provider.empty with
    variableTypes := fun _ name =>
      .ok (if name = "x" then [⟨"x", type, .parameterDocHint⟩] else [⟨"y", .int, .localDocHint⟩]) }

/-- The documented type of the parameter does not matter. -/
theorem untrusted_types_irrelevant_documented :
    let t := Tree.ofForms castVariables
    let found (type : Ty) : List Finding :=
      (checkUnit ⟨t, documented type, .default⟩ .log (some 4) .empty []).1
    t.WellFormed ∧ (documented .int).AgreesOnTrusted .default (documented .string) ∧
      found .int = found .string ∧ (found .string).map Finding.cast = [3] := by
  intro t found
  have ht : t.WellFormed := Tree.wellFormed_ofForms (by decide)
  have hagrees : (documented .int).AgreesOnTrusted .default (documented .string) := by
    refine ⟨fun _ name => .ok ?_, fun _ => .ok .none, fun _ _ => .ok .none⟩
    split
    · exact .cons ⟨rfl, rfl, fun htrusted => absurd htrusted (by decide)⟩ .nil
    · exact .cons (.refl _) .nil
  have hsame := (untrusted_types_irrelevant ht .default hagrees).2 .log (some 4) []
  exact ⟨ht, hagrees, hsame.1, by decide⟩

/-- Under a provider that fails more often, less is inferred and less is found,
and what is still found is the same. -/
theorem findings_sublist_of_failsMore (ht : t.WellFormed) (options : Options)
    (h : q.FailsMore p) :
    (∀ ref, (infer ⟨t, q, options⟩ ref .empty).1.Below (infer ⟨t, p, options⟩ ref .empty).1) ∧
      ∀ {σ : Type} (sink : Sink σ) (root : NodeRef) (collected : σ),
        (checkUnit ⟨t, q, options⟩ sink root .empty collected).1.Sublist
          (checkUnit ⟨t, p, options⟩ sink root .empty collected).1 := by
  have hqp := restricts_of_withholds (h.withholds options) t
  exact ⟨fun ref => hqp.infer_below ht ref, fun _ root _ => hqp.findings_sublist ht root⟩

/-- Without the types of variables, the finding about `$y` is gone. -/
theorem findings_sublist_of_failing :
    let t := Tree.ofForms castVariables
    let p := documented .int
    let q := p.failing [.variableTypes] .unavailable
    let found (p : Provider) : List Finding :=
      (checkUnit ⟨t, p, .default⟩ .log (some 4) .empty []).1
    t.WellFormed ∧ q.FailsMore p ∧ (found q).Sublist (found p) ∧ found q = [] ∧
      (found p).map Finding.cast = [3] := by
  intro t p q found
  have ht : t.WellFormed := Tree.wellFormed_ofForms (by decide)
  have hfails : q.FailsMore p := p.failsMore_failing _ _
  have hsublist := (findings_sublist_of_failsMore ht .default hfails).2 .log (some 4) []
  refine ⟨ht, hfails, hsublist, ?_, by decide⟩
  exact List.map_eq_nil_iff.1 (by decide : (found q).map Finding.cast = [])

end Context

end RedundantCast
