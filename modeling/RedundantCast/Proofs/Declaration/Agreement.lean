import Mathlib.Data.List.Forall2
import RedundantCast.Declaration.Provider
import RedundantCast.Options

/-!
# Agreement of declarations

Declarations may agree in all but a type that nobody trusts. A provider
withholds from another if it fails on some questions and agrees in this sense
on all others.
-/

namespace RedundantCast

/-- The sources whose types are never trusted under the options. -/
def Source.isUntrusted (options : Options) : Source → Bool
  | parameterDocHint | returnDocHint => true
  | propertyDocHint => !options.trustPropertyDocs
  | parameterHint | returnHint | propertyHint | localDocHint | inferred => false

/-- Only an enforced return type is trusted as the type of a call. -/
def Source.isUntrustedReturn (s : Source) : Bool :=
  s != returnHint

namespace Declaration

/-- The declarations are the same, except for the type if it is not trusted. -/
structure AgreeExcept (untrusted : Source → Bool) (d d' : Declaration) : Prop where
  name : d.name = d'.name
  source : d.source = d'.source
  type : untrusted d.source = false → d.type = d'.type

variable {untrusted : Source → Bool} {d d' c c' : Declaration} {ds ds' : List Declaration}

namespace AgreeExcept

theorem refl (d : Declaration) : AgreeExcept untrusted d d :=
  ⟨rfl, rfl, fun _ => rfl⟩

theorem symm (h : AgreeExcept untrusted d d') : AgreeExcept untrusted d' d where
  name := h.name.symm
  source := h.source.symm
  type := by
    intro htrusted
    rw [← h.source] at htrusted
    exact (h.type htrusted).symm

theorem prefer (hd : AgreeExcept untrusted d d') (hc : AgreeExcept untrusted c c') :
    AgreeExcept untrusted (d.prefer c) (d'.prefer c') := by
  unfold Declaration.prefer
  rw [hd.source, hc.source]
  split
  · exact hc
  · exact hd

theorem foldl_prefer (hd : AgreeExcept untrusted d d')
    (h : List.Forall₂ (AgreeExcept untrusted) ds ds') :
    AgreeExcept untrusted (ds.foldl Declaration.prefer d) (ds'.foldl Declaration.prefer d') := by
  induction h generalizing d d' with
  | nil => exact hd
  | cons hc _ ih => exact ih (hd.prefer hc)

end AgreeExcept

/-- An untrusted type has no say in which declaration wins. -/
theorem rel_winner? (h : List.Forall₂ (AgreeExcept untrusted) ds ds') :
    Option.Rel (AgreeExcept untrusted) (winner? ds) (winner? ds') := by
  cases h with
  | nil => exact .none
  | cons hd h => exact .some (hd.foldl_prefer h)

end Declaration

/-- Where the first answer is no error, neither is the second, and the two are
related. -/
def AnsweredBy {ε α : Type} (R : α → α → Prop) (x y : Except ε α) : Prop :=
  ∀ a, x = .ok a → ∃ b, y = .ok b ∧ R a b

namespace Provider

/-- What the first provider answers, the second answers as well, except for the
types of declarations that are not trusted. -/
structure Withholds (options : Options) (less more : Provider) : Prop where
  variableTypes : ∀ scope name,
    AnsweredBy (List.Forall₂ (Declaration.AgreeExcept (Source.isUntrusted options)))
      (less.variableTypes scope name) (more.variableTypes scope name)
  returnType : ∀ callable,
    AnsweredBy (Option.Rel (Declaration.AgreeExcept Source.isUntrustedReturn))
      (less.returnType callable) (more.returnType callable)
  memberType : ∀ owner name,
    AnsweredBy (Option.Rel (Declaration.AgreeExcept (Source.isUntrusted options)))
      (less.memberType owner name) (more.memberType owner name)

end Provider

end RedundantCast
