import Mathlib.Data.List.Forall2
import RedundantCast.Proofs.Inference.Rule

/-!
# Information

An unknown type says less than any other, and a failure less than any answer.
Every rule keeps this order: it never turns missing information about operands
or declarations into an answer of its own.
-/

namespace RedundantCast

/-- The first inference is unknown or the same as the second. -/
def Inference.Below (a b : Inference) : Prop :=
  a = .unknown ∨ a = b

/-- The first answer is a failure or the same as the second. -/
def Failure.OrSame {α : Type} (x y : Except Failure α) : Prop :=
  ∀ a, x = .ok a → y = .ok a

namespace Inference

theorem Below.antisymm {a b : Inference} (hab : a.Below b) (hba : b.Below a) : a = b := by
  rcases hab with rfl | rfl
  · rcases hba with rfl | rfl
    · rfl
    · rfl
  · rfl

theorem Below.type? {a b : Inference} (h : a.Below b) {t : Ty} (ha : a.type? = some t) :
    b.type? = some t := by
  rcases h with rfl | rfl
  · cases ha
  · exact ha

theorem below_ofExcept {x y : Except Failure Ty} (h : Failure.OrSame x y) :
    (ofExcept x).Below (ofExcept y) := by
  cases x with
  | error failure => exact Or.inl rfl
  | ok t => exact Or.inr (by rw [h t rfl])

end Inference

namespace Failure.OrSame

variable {α β : Type}

theorem refl (x : Except Failure α) : OrSame x x :=
  fun _ h => h

theorem of_error (failure : Failure) (y : Except Failure α) : OrSame (.error failure) y := by
  intro a h
  cases h

theorem bind {x y : Except Failure α} {f g : α → Except Failure β} (h : OrSame x y)
    (hfg : ∀ a, OrSame (f a) (g a)) : OrSame (x >>= f) (y >>= g) := by
  cases x with
  | error failure => exact of_error failure _
  | ok a =>
      rw [h a rfl]
      exact hfg a

theorem resolved {x y : Option α} (h : ∀ a, x = some a → y = some a) :
    OrSame (resolved x) (resolved y) := by
  cases x with
  | none => exact of_error _ _
  | some a =>
      rw [h a rfl]
      exact refl _

theorem receiverClass {x y : Option Ty} (h : ∀ t, x = some t → y = some t) :
    OrSame (receiverClass x) (receiverClass y) := by
  cases x with
  | none => exact of_error _ _
  | some t =>
      rw [h t rfl]
      exact refl _

end Failure.OrSame

theorem operand_of_below {answers answers' : List Inference}
    (h : List.Forall₂ Inference.Below answers answers') {index : Nat} {t : Ty}
    (ht : operand answers index = some t) : operand answers' index = some t := by
  induction h generalizing index with
  | nil => exact ht
  | cons hab _ ih =>
      cases index with
      | zero => exact hab.type? ht
      | succ index => exact ih ht

/-! ## Operators -/

section Operators

variable {l r l' r' : Option Ty}

theorem eq_none_or_eq (h : ∀ t, l = some t → l' = some t) : l = none ∨ l = l' := by
  cases l with
  | none => exact Or.inl rfl
  | some t => exact Or.inr (h t rfl).symm

theorem numericPromotion_float_right (l : Option Ty) :
    numericPromotion l (some .float) = some .float := by
  unfold numericPromotion
  split <;> simp_all

theorem numericPromotion_mono (hl : ∀ t, l = some t → l' = some t)
    (hr : ∀ t, r = some t → r' = some t) {t : Ty} (h : numericPromotion l r = some t) :
    numericPromotion l' r' = some t := by
  rcases eq_none_or_eq hl with rfl | rfl
  · -- Only a float on the right decides without the left operand.
    have hfloat : r = some .float ∧ t = .float := by
      unfold numericPromotion at h
      split at h <;> simp_all
    obtain ⟨rfl, rfl⟩ := hfloat
    rw [hr _ rfl]
    exact numericPromotion_float_right l'
  · rcases eq_none_or_eq hr with rfl | rfl
    · have hfloat : l = some .float ∧ t = .float := by
        unfold numericPromotion at h
        split at h <;> simp_all
      obtain ⟨rfl, rfl⟩ := hfloat
      rfl
    · exact h

theorem BinaryOperator.result_add_eq_some {t : Ty} :
    BinaryOperator.add.result l r = some t ↔
      (l = some .array ∧ r = some .array ∧ t = .array) ∨ numericPromotion l r = some t := by
  by_cases harray : l = some .array ∧ r = some .array
  · obtain ⟨rfl, rfl⟩ := harray
    simp [result, numericPromotion, eq_comm]
  · have hsum : BinaryOperator.add.result l r = numericPromotion l r := by
      simp only [result]
      split
      · exact absurd ⟨rfl, rfl⟩ harray
      · rfl
    rw [hsum]
    constructor
    · exact Or.inr
    · rintro (⟨hl, hr, -⟩ | h)
      · exact absurd ⟨hl, hr⟩ harray
      · exact h

theorem BinaryOperator.result_mono (op : BinaryOperator) (hl : ∀ t, l = some t → l' = some t)
    (hr : ∀ t, r = some t → r' = some t) {t : Ty} (h : op.result l r = some t) :
    op.result l' r' = some t := by
  cases op with
  | add =>
      rw [result_add_eq_some] at h ⊢
      rcases h with ⟨hal, har, rfl⟩ | h
      · exact Or.inl ⟨hl _ hal, hr _ har, rfl⟩
      · exact Or.inr (numericPromotion_mono hl hr h)
  | sub | mul => exact numericPromotion_mono hl hr h
  | div | pow =>
      cases hquotient : numericPromotion l r with
      | none => simp [result, hquotient] at h
      | some u =>
          have hquotient' := numericPromotion_mono hl hr hquotient
          simp only [result, hquotient, hquotient'] at h ⊢
          exact h
  | mod | bitAnd | bitOr | bitXor | shiftLeft | shiftRight =>
      rcases eq_none_or_eq hl with rfl | rfl
      · simp [result, isKnownNumeric] at h
      · rcases eq_none_or_eq hr with rfl | rfl
        · simp [result, isKnownNumeric] at h
        · exact h
  | _ => exact h

theorem UnaryOperator.result_mono (op : UnaryOperator) (hl : ∀ t, l = some t → l' = some t)
    {t : Ty} (h : op.result l = some t) : op.result l' = some t := by
  rcases eq_none_or_eq hl with rfl | rfl
  · cases op with
    | not => exact h
    | _ => cases h
  · exact h

end Operators

end RedundantCast
