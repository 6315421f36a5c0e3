import Mathlib.Data.List.Chain
import RedundantCast.Proofs.Inference.Comparison
import RedundantCast.Proofs.Tree.WellFormed

/-!
# Depth of inference

Inference of a node calls itself for the operands of the node. In a well-formed
tree these lie below the node, so no chain of nested calls is longer than the
tree, and from some depth on the answer is that of inference without a limit.
-/

namespace RedundantCast

namespace Context

variable (ctx : Context)

/-- Calls of inference of which each is made for an operand of the one before. -/
def Nested (calls : List NodeRef) : Prop :=
  calls.IsChain fun outer inner => inner ∈ ctx.operands outer

/-- At most so many calls nest when the type of the node is inferred. -/
def NestsWithin : Nat → NodeRef → Prop
  | 0, _ => False
  | depth + 1, ref => ∀ operand ∈ ctx.operands ref, NestsWithin depth operand

instance decidableNestsWithin : (depth : Nat) → (ref : NodeRef) →
    Decidable (ctx.NestsWithin depth ref)
  | 0, _ => inferInstanceAs (Decidable False)
  | depth + 1, ref =>
    have := decidableNestsWithin depth
    inferInstanceAs (Decidable (∀ operand ∈ ctx.operands ref, ctx.NestsWithin depth operand))

/-- What is known of a node when inference has no limit, since no chain of calls
in a well-formed tree goes deeper than this. -/
def inferUnlimited (ref : NodeRef) : Inference :=
  ctx.inferFresh (ctx.tree.size + 1) ref

variable {ctx : Context} {ref : NodeRef} {m n : Nat}

theorem nestsWithin_iff :
    ctx.NestsWithin n ref ↔ ∀ calls, ctx.Nested (ref :: calls) → calls.length < n := by
  induction n generalizing ref with
  | zero =>
      constructor
      · intro h
        exact h.elim
      · intro h
        exact absurd (h [] (.singleton ref)) (Nat.not_lt_zero 0)
  | succ n ih =>
      constructor
      · intro h calls hcalls
        cases calls with
        | nil => exact Nat.succ_pos n
        | cons operand calls =>
            obtain ⟨hoperand, hrest⟩ := List.isChain_cons_cons.1 hcalls
            exact Nat.succ_lt_succ (ih.1 (h operand hoperand) calls hrest)
      · intro h operand hoperand
        apply ih.2
        intro calls hcalls
        have hlength := h (operand :: calls) (List.isChain_cons_cons.2 ⟨hoperand, hcalls⟩)
        exact Nat.lt_of_succ_lt_succ hlength

theorem NestsWithin.mono (h : ctx.NestsWithin m ref) (hmn : m ≤ n) : ctx.NestsWithin n ref := by
  rw [nestsWithin_iff] at h ⊢
  intro calls hcalls
  exact Nat.lt_of_lt_of_le (h calls hcalls) hmn

theorem nestsWithin_of_operands_eq_nil (h : ctx.operands ref = []) :
    ctx.NestsWithin (n + 1) ref := by
  intro operand hoperand
  rw [h] at hoperand
  cases hoperand

theorem nestsWithin_of_wellFormed (ht : ctx.tree.WellFormed) (id : NodeId) :
    ctx.NestsWithin (id + 2) (some id) := by
  induction id using Nat.strongRecOn with
  | ind id ih =>
      intro operand hoperand
      cases operand with
      | none => exact nestsWithin_of_operands_eq_nil ctx.operands_none
      | some c =>
          have hlt := ht.lt_of_mem_children (ctx.mem_children_of_mem_operands hoperand)
          exact (ih c hlt).mono (Nat.succ_le_succ hlt)

/-- No chain of nested calls is longer than the tree, up to a last call for an
operand that is missing. -/
theorem nestsWithin_size (ht : ctx.tree.WellFormed) (ref : NodeRef) :
    ctx.NestsWithin (ctx.tree.size + 1) ref := by
  cases ref with
  | none => exact nestsWithin_of_operands_eq_nil ctx.operands_none
  | some id =>
      by_cases hid : id < ctx.tree.size
      · exact (nestsWithin_of_wellFormed ht id).mono (Nat.succ_le_succ hid)
      · have hform := Tree.form?_of_size_le (Nat.le_of_not_lt hid)
        exact nestsWithin_of_operands_eq_nil (ctx.operands_of_form?_eq_none hform)

/-! ## Inference without a limit -/

theorem inferFresh_of_nestsWithin (h : ctx.NestsWithin m ref) (hmn : m ≤ n) :
    ctx.inferFresh n ref = ctx.inferFresh m ref := by
  induction m generalizing n ref with
  | zero => exact h.elim
  | succ m ih =>
      cases n with
      | zero => exact absurd hmn (Nat.not_succ_le_zero m)
      | succ n =>
          have hanswers : (ctx.operands ref).map (ctx.inferFresh n) =
              (ctx.operands ref).map (ctx.inferFresh m) :=
            List.map_congr_left fun operand hoperand =>
              ih (h operand hoperand) (Nat.le_of_succ_le_succ hmn)
          rw [inferFresh, inferFresh, hanswers]

theorem inferFresh_eq_inferUnlimited (ht : ctx.tree.WellFormed) (h : ctx.NestsWithin n ref) :
    ctx.inferFresh n ref = ctx.inferUnlimited ref := by
  rcases Nat.le_total n (ctx.tree.size + 1) with hle | hle
  · exact (inferFresh_of_nestsWithin h hle).symm
  · exact inferFresh_of_nestsWithin (nestsWithin_size ht ref) hle

theorem inferUnlimited_eq (ht : ctx.tree.WellFormed) (ref : NodeRef) :
    ctx.inferUnlimited ref =
      ctx.rule ref ((ctx.operands ref).map ctx.inferUnlimited) (ctx.written ref) := by
  have hdeeper := (nestsWithin_size ht ref).mono (Nat.le_succ _)
  rw [← inferFresh_eq_inferUnlimited ht hdeeper]
  rfl

end Context

end RedundantCast
