import RedundantCast.Proofs.Declaration.Agreement
import RedundantCast.Proofs.Inference.Comparison

/-!
# Restricted contexts

A context restricts another if its provider withholds answers, if it trusts
fewer sources, or if inference stops earlier. A lookup under the restricted
context fails or finds a declaration that agrees, in the same scope, so that
the restricted context knows less.
-/

namespace RedundantCast

open Declaration (AgreeExcept)

namespace AnsweredBy

variable {ε α β : Type} {R : α → α → Prop}

theorem bind {S : β → β → Prop} {x y : Except ε α} {f g : α → Except ε β}
    (h : AnsweredBy R x y) (hfg : ∀ a b, R a b → AnsweredBy S (f a) (g b)) :
    AnsweredBy S (x >>= f) (y >>= g) := by
  cases x with
  | error error =>
      intro b hb
      cases hb
  | ok a =>
      obtain ⟨b, rfl, hab⟩ := h a rfl
      exact hfg a b hab

theorem bind_orSame {x y : Except Failure α} {f g : α → Except Failure β}
    (h : AnsweredBy R x y) (hfg : ∀ a b, R a b → Failure.OrSame (f a) (g b)) :
    Failure.OrSame (x >>= f) (y >>= g) := by
  have hbind : AnsweredBy Eq (x >>= f) (y >>= g) :=
    h.bind fun a b hab c hc => ⟨c, hfg a b hab c hc, rfl⟩
  intro c hc
  obtain ⟨c', hc', rfl⟩ := hbind c hc
  exact hc'

theorem answered {x y : Except ProviderError α} (h : AnsweredBy R x y) :
    AnsweredBy R (answered x) (answered y) := by
  intro a ha
  cases x with
  | error error => cases ha
  | ok a' =>
      obtain ⟨b, rfl, hab⟩ := h a' rfl
      cases ha
      exact ⟨b, rfl, hab⟩

theorem resolved {x y : Option α} (h : Option.Rel R x y) :
    AnsweredBy R (resolved x) (resolved y) := by
  intro a ha
  cases h with
  | none => cases ha
  | some hab =>
      cases ha
      exact ⟨_, rfl, hab⟩

end AnsweredBy

namespace Context

theorem trusts_eq (ctx : Context) (s : Source) :
    ctx.trusts s = !s.isUntrusted ctx.options := by
  cases s with
  | propertyDocHint => exact (Bool.not_not _).symm
  | _ => rfl

/-- The first context is the second with answers withheld, with less trust, with
more casts left alone, or with less depth. -/
structure Restricts (less more : Context) : Prop where
  tree : less.tree = more.tree
  depth : less.options.depthLimit ≤ more.options.depthLimit
  trust : less.options.trustPropertyDocs → more.options.trustPropertyDocs
  skip : more.options.skipDocOnlyReturns → less.options.skipDocOnlyReturns
  provider : less.provider.Withholds less.options more.provider

namespace Restricts

variable {less more : Context} {ref : NodeRef} {name : String} {d d' : Declaration}

theorem isUntrusted (h : less.Restricts more) {s : Source}
    (hs : s.isUntrusted less.options = false) : s.isUntrusted more.options = false := by
  cases s with
  | propertyDocHint =>
      simp only [Source.isUntrusted, Bool.not_eq_false'] at hs ⊢
      exact h.trust hs
  | _ => exact hs

theorem trustedType (h : less.Restricts more)
    (hd : AgreeExcept (Source.isUntrusted less.options) d d') :
    Failure.OrSame (less.trustedType d) (more.trustedType d') := by
  unfold Context.trustedType
  cases htrusts : less.trusts d.source with
  | false => exact Failure.OrSame.of_error _ _
  | true =>
      have htrusted : d.source.isUntrusted less.options = false := by
        rw [trusts_eq] at htrusts
        exact (Bool.not_eq_true' _).mp htrusts
      have htrusts' : more.trusts d'.source = true := by
        rw [trusts_eq, ← hd.source, h.isUntrusted htrusted]
        rfl
      rw [htrusts', hd.type htrusted]
      exact Failure.OrSame.refl _

theorem continuesOutward (h : less.Restricts more) :
    less.continuesOutward = more.continuesOutward := by
  unfold Context.continuesOutward
  rw [h.tree]

/-- A lookup goes the same way, unless the provider withholds an answer on it. -/
theorem lookupWithin (h : less.Restricts more) (name : String) (n : Nat) (ref : NodeRef) :
    AnsweredBy
      (fun found found' => found.1 = found'.1 ∧
        AgreeExcept (Source.isUntrusted less.options) found.2 found'.2)
      (less.lookupWithin name n ref) (more.lookupWithin name n ref) := by
  induction n generalizing ref with
  | zero =>
      intro found hfound
      cases hfound
  | succ n ih =>
      rw [lookupWithin_succ, lookupWithin_succ, h.tree]
      apply AnsweredBy.bind (R := Eq) fun scope hscope => ⟨scope, hscope, rfl⟩
      rintro scope _ rfl
      apply (h.provider.variableTypes scope name).answered.bind
      intro ds ds' hds
      have hwinner := Declaration.rel_winner? hds
      generalize Declaration.winner? ds = winner at hwinner ⊢
      generalize Declaration.winner? ds' = winner' at hwinner ⊢
      cases hwinner with
      | some hd =>
          rintro found ⟨⟩
          exact ⟨_, rfl, rfl, hd⟩
      | none =>
          dsimp only
          rw [h.continuesOutward]
          split
          · exact ih _
          · intro found hfound
            cases hfound

theorem variableType (h : less.Restricts more)
    (hform : less.tree.form? ref = some (.var name)) :
    Failure.OrSame (less.variableType ref name (less.written ref))
      (more.variableType ref name (more.written ref)) := by
  rw [variableType_written less hform, variableType_written more (h.tree ▸ hform)]
  split
  · have hthis : less.thisType ref = more.thisType ref := by
      simp only [thisType, enclosingClassName?, h.tree]
    rw [hthis]
    exact Failure.OrSame.refl _
  · apply (h.lookupWithin name maxScopes ref).bind_orSame
    rintro ⟨function, d⟩ ⟨_, d'⟩ ⟨rfl, hd⟩
    dsimp only at hd ⊢
    rw [h.tree, ← hd.source]
    split
    · exact Failure.OrSame.refl _
    · exact h.trustedType hd

theorem propertyType (h : less.Restricts more) (owner : ClassName) (name : String) :
    Failure.OrSame (less.propertyType owner name) (more.propertyType owner name) := by
  apply (h.provider.memberType owner name).answered.bind_orSame
  intro d? d'? hd
  exact (AnsweredBy.resolved hd).bind_orSame fun d d' hd => h.trustedType hd

theorem callType (h : less.Restricts more) (callable : Callable) :
    Failure.OrSame (less.callType callable) (more.callType callable) := by
  apply (h.provider.returnType callable).answered.bind_orSame
  intro d? d'? hd
  apply (AnsweredBy.resolved hd).bind_orSame
  intro d d' hd
  rw [← hd.source]
  split
  · next hsource =>
      have htype := hd.type (by rw [hsource]; rfl)
      rw [htype]
      exact Failure.OrSame.refl _
  · exact Failure.OrSame.of_error _ _

theorem knowsLess (h : less.Restricts more) : less.KnowsLess more where
  tree := h.tree
  depth := h.depth
  variableType _ _ hform := h.variableType hform
  propertyType := h.propertyType
  callType := h.callType

end Restricts

end Context

end RedundantCast
