import Mathlib.Computability.StateTransition
import RedundantCast.Proofs.Tree.Nearest
import RedundantCast.Proofs.Tree.Preorder
import RedundantCast.Proofs.Tree.Representation
import RedundantCast.Tree.Traversal

/-!
# Walks down and up agree

In an arena of acceptable additions every walk ends. The walk down from a node,
which keeps a stack, lists the node and then what the walks from its children
list, so it lists exactly the nodes whose walk up passes it. The walk up passes
the ancestors from the innermost one out, of which looking outward picks the
first of the right kind.
-/

namespace RedundantCast

open StateTransition

namespace Tree

variable {t : Tree} {x a f : NodeId}

theorem length_ancestorsWithin_le (t : Tree) (n : Nat) (ref : NodeRef) :
    (t.ancestorsWithin n ref).length ≤ n := by
  induction n generalizing ref with
  | zero => exact Nat.le_refl 0
  | succ n ih =>
      rw [ancestorsWithin]
      cases t.parent ref with
      | none => exact Nat.zero_le _
      | some p => exact Nat.succ_le_succ (ih (some p))

theorem under_iff_mem_ancestors (ht : t.WellFormed) :
    t.Under x a ↔ x = a ∨ a ∈ t.ancestors (some x) := by
  induction x using ht.induct_up with
  | h x ih =>
      rw [ancestors_eq ht]
      constructor
      · intro h
        rcases h.eq_or_parent with heq | ⟨p, hp, hpa⟩
        · exact Or.inl heq
        · right
          rw [hp, Option.elim_some, List.mem_cons]
          exact ((ih p hp).1 hpa).imp_left Eq.symm
      · rintro (rfl | hmem)
        · exact Under.refl x
        · cases hp : t.parent (some x) with
          | none =>
              rw [hp] at hmem
              cases hmem
          | some p =>
              rw [hp, Option.elim_some, List.mem_cons] at hmem
              exact (Under.of_parent hp).trans ((ih p hp).2 (hmem.imp_left Eq.symm))

/-- The answer is the first ancestor that passes the test, and empty only if none
passes it. -/
def IsInnermost (t : Tree) (p : Kind → Bool) (x : NodeId) : NodeRef → Prop
  | some a => t.Nearest p x a
  | none => ∀ a ∈ t.ancestors (some x), (t.kind? (some a)).any p = false

theorem isInnermost_enclosing? (ht : t.WellFormed) (p : Kind → Bool) (x : NodeId) :
    t.IsInnermost p x (t.enclosing? p (some x)) := by
  cases h : t.enclosing? p (some x) with
  | some a => exact (enclosing?_eq_some_iff ht).1 h
  | none =>
      intro a ha
      exact Bool.eq_false_iff.2 (List.find?_eq_none.1 h a ha)

end Tree

namespace Arena

variable {a : Arena} {t : Tree} {fs : List (Form × Span)}

theorem Holds.kind?_eq (h : a.Holds t) (ref : NodeRef) : a.kind? ref = t.kind? ref := by
  cases ref with
  | none => rfl
  | some i =>
      rw [Tree.kind?, Tree.form?]
      cases hn : t.node? (some i) with
      | none => rw [kind?, h.header?_eq_none hn, Option.map_none, Option.map_none, Option.map_none]
      | some n => rw [(h.shows i n hn).kind, Option.map_some, Option.map_some]

/-! ## Down -/

/-- A walk down with these nodes on the stack, the first one on top. -/
def Descent.on (stack visited : List NodeId) : Descent :=
  ⟨stack.reverse.toArray, visited.toArray⟩

theorem descend?_on_cons (a : Arena) (x : NodeId) (stack visited : List NodeId) :
    a.descend? (.on (x :: stack) visited) =
      some (.on (a.children (some x) ++ stack) (visited ++ [x])) := by
  simp [descend?, Descent.on]

/-- If each of some nodes is walked before what is below it on the stack, so are
all of them. -/
theorem reaches_each (cs : List NodeId)
    (hcs : ∀ c ∈ cs, ∀ stack visited : List NodeId, Reaches a.descend?
      (.on (c :: stack) visited) (.on stack (visited ++ t.preorder (some c))))
    (stack visited : List NodeId) :
    Reaches a.descend? (.on (cs ++ stack) visited)
      (.on stack (visited ++ cs.flatMap fun c => t.preorder (some c))) := by
  induction cs generalizing visited with
  | nil =>
      rw [List.flatMap_nil, List.append_nil]
      exact .refl
  | cons c cs ih =>
      obtain ⟨hc, hcs⟩ := List.forall_mem_cons.1 hcs
      rw [List.flatMap_cons, ← List.append_assoc]
      exact (hc (cs ++ stack) visited).trans (ih hcs (visited ++ t.preorder (some c)))

theorem reaches_preorder (h : a.Holds t) (ht : t.WellFormed) {x : Nat} (hx : x < t.size)
    (stack visited : List NodeId) :
    Reaches a.descend? (.on (x :: stack) visited)
      (.on stack (visited ++ t.preorder (some x))) := by
  -- Children come before their parent, so the walks from them are known.
  induction x using Nat.strong_induction_on generalizing stack visited with
  | h x ih =>
      have hchildren := reaches_each (t.children (some x)) fun c hc stack visited =>
        have hlt : c < x := ht.lt_of_mem_children hc
        ih c hlt (Nat.lt_trans hlt hx) stack visited
      have hstep := a.descend?_on_cons x stack visited
      rw [h.children_eq] at hstep
      rw [Tree.preorder_eq ht hx, List.append_cons]
      exact .head hstep (hchildren stack (visited ++ [x]))

theorem descent_ends (h : a.Holds t) (ht : t.WellFormed) {r : NodeId} (hr : r < t.size) :
    ⟨#[], (t.preorder (some r)).toArray⟩ ∈ eval a.descend? (a.descentFrom (some r)) := by
  have hstart : a.descentFrom (some r) = .on [r] [] := by
    simp [descentFrom, Descent.on, h.size, hr]
  rw [hstart, mem_eval]
  exact ⟨reaches_preorder h ht hr [] [], rfl⟩

/-! ## Up -/

theorem ascent_ends (h : a.Holds t) (ht : t.WellFormed) (x : NodeId) :
    ∃ top, ⟨top, (t.ancestors (some x)).toArray⟩ ∈ eval a.ascend? (ascentFrom (some x)) := by
  have hreaches : ∀ passed : List NodeId, ∃ top, a.parent top = none ∧
      Reaches a.ascend? ⟨some x, passed.toArray⟩
        ⟨top, (passed ++ t.ancestors (some x)).toArray⟩ := by
    induction x using ht.induct_up with
    | h x ih =>
        intro passed
        rw [Tree.ancestors_eq ht]
        cases hp : t.parent (some x) with
        | none =>
            refine ⟨some x, (h.parent_eq _).trans hp, ?_⟩
            rw [Option.elim_none, List.append_nil]
            exact .refl
        | some p =>
            obtain ⟨top, htop, hrest⟩ := ih p hp (passed ++ [p])
            have hstep : a.ascend? ⟨some x, passed.toArray⟩ =
                some ⟨some p, (passed ++ [p]).toArray⟩ := by
              simp [ascend?, h.parent_eq, hp]
            refine ⟨top, htop, ?_⟩
            rw [Option.elim_some, List.append_cons]
            exact .head hstep hrest
  obtain ⟨top, htop, hrun⟩ := hreaches []
  refine ⟨top, mem_eval.2 ⟨hrun, ?_⟩⟩
  rw [ascend?, htop, Option.map_none]

theorem leaving_parentheses_ends (h : a.Holds t) (ht : t.WellFormed) (x : NodeId) :
    ∃ e ∈ eval a.leaveParentheses? (some x),
      a.returnedByParent e = t.isReturnedValue (some x) := by
  induction x using ht.induct_up with
  | h x ih =>
      rw [Tree.isReturnedValue_eq ht]
      cases hp : t.parent (some x) with
      | none =>
          have hkind : a.kind? (a.parent (some x)) = none := by
            rw [h.parent_eq, hp]
            rfl
          refine ⟨some x, mem_eval.2 ⟨.refl, ?_⟩, ?_⟩
          · simp [leaveParentheses?, hkind]
          · simp [returnedByParent, hkind]
      | some p =>
          have hkind : a.kind? (a.parent (some x)) = t.kind? (some p) := by
            rw [h.parent_eq, hp, h.kind?_eq]
          by_cases hparens : t.kind? (some p) = some .parenthesizedExpression
          · obtain ⟨e, he, hvalue⟩ := ih p hp
            have hstep : a.leaveParentheses? (some x) = some (some p) := by
              rw [leaveParentheses?, if_pos (hkind.trans hparens), h.parent_eq, hp]
            have hrest := mem_eval.1 he
            refine ⟨e, mem_eval.2 ⟨.head hstep hrest.1, hrest.2⟩, ?_⟩
            rw [hvalue, Option.any_some, hparens]
          · refine ⟨some x, mem_eval.2 ⟨.refl, ?_⟩, ?_⟩
            · rw [leaveParentheses?, hkind, if_neg hparens]
            · rw [returnedByParent, hkind, Option.any_some]
              split <;> simp_all

/-! ## Both -/

/-- The walk down from a node lists what lies below it. -/
structure ListsBelow (a : Arena) (r : NodeId) : Prop where
  ends : ⟨#[], (a.tree.preorder (some r)).toArray⟩ ∈ eval a.descend? (a.descentFrom (some r))
  recursive : a.tree.preorder (some r) =
    r :: (a.children (some r)).flatMap fun c => a.tree.preorder (some c)
  exist : ∀ x ∈ a.tree.preorder (some r), x < a.size
  nodup : (a.tree.preorder (some r)).Nodup
  mem_iff : ∀ x, x ∈ a.tree.preorder (some r) ↔ x = r ∨ r ∈ a.tree.ancestors (some x)

/-- The walk up from a node passes what it lies in. -/
structure ListsAbove (a : Arena) (x : NodeId) : Prop where
  ends : ∃ top, ⟨top, (a.tree.ancestors (some x)).toArray⟩ ∈ eval a.ascend? (ascentFrom (some x))
  length_le : (a.tree.ancestors (some x)).length ≤ a.size
  scope : a.tree.IsInnermost Kind.isScope x (a.tree.enclosingScope? (some x))
  function : a.tree.IsInnermost Kind.isFunctionLike x (a.tree.enclosingFunction? (some x))
  classDeclaration :
    a.tree.IsInnermost (· == .classDeclaration) x (a.tree.enclosingClass? (some x))
  returned : ∃ e ∈ eval a.leaveParentheses? (some x),
    a.returnedByParent e = a.tree.isReturnedValue (some x)

theorem walks_agree (hfs : empty.AcceptsAll fs) :
    (∀ r < (ofForms fs).size, (ofForms fs).ListsBelow r) ∧ ∀ x, (ofForms fs).ListsAbove x := by
  have h := holds_ofForms fs
  have ht := Tree.wellFormed_ofForms (holds_empty.acceptsAll_iff.1 hfs)
  have htree := tree_ofForms fs
  constructor
  · intro r hr
    rw [h.size] at hr
    constructor <;> rw [htree]
    · exact descent_ends h ht hr
    · rw [h.children_eq]
      exact Tree.preorder_eq ht hr
    · rw [h.size]
      intro x hx
      exact Nat.lt_of_le_of_lt (((Tree.mem_preorder_iff ht hr).1 hx).le ht) hr
    · exact Tree.nodup_preorder ht (some r)
    · exact fun x => (Tree.mem_preorder_iff ht hr).trans (Tree.under_iff_mem_ancestors ht)
  · intro x
    constructor <;> rw [htree]
    · exact ascent_ends h ht x
    · rw [h.size]
      exact Tree.length_ancestorsWithin_le _ _ _
    · exact Tree.isInnermost_enclosing? ht _ x
    · exact Tree.isInnermost_enclosing? ht _ x
    · exact Tree.isInnermost_enclosing? ht _ x
    · exact leaving_parentheses_ends h ht x

/-- The nodes of `function f() { return ($x + 1); } $y;` in a file. -/
def returnedSum : List (Form × Span) :=
  [(.var "x", ⟨24, 26⟩), (.literal .integer "1", ⟨29, 30⟩),
    (.binary (some 0) .add (some 1), ⟨24, 30⟩), (.parenthesized (some 2), ⟨23, 31⟩),
    (.returnStatement (some 3), ⟨16, 32⟩),
    (.function ⟨.functionDeclaration, some "f", [], [], false, false, [some 4]⟩, ⟨0, 34⟩),
    (.var "y", ⟨35, 37⟩), (.expressionStatement (some 6), ⟨35, 38⟩),
    (.sourceFile "a.php" [some 5, some 7], ⟨0, 38⟩)]

theorem walks_agree_returnedSum :
    empty.AcceptsAll returnedSum ∧ (ofForms returnedSum).ListsBelow 8 ∧
      (ofForms returnedSum).ListsAbove 2 ∧
      (ofForms returnedSum).tree.preorder (some 8) = [8, 5, 4, 3, 2, 0, 1, 7, 6] ∧
      (ofForms returnedSum).tree.ancestors (some 2) = [3, 4, 5, 8] ∧
      (ofForms returnedSum).tree.enclosingScope? (some 2) = some 5 ∧
      (ofForms returnedSum).tree.isReturnedValue (some 2) = true := by
  have hfs : empty.AcceptsAll returnedSum := holds_empty.acceptsAll_iff.2 (by decide)
  have hsize : 8 < (ofForms returnedSum).size := by decide
  obtain ⟨hdown, hup⟩ := walks_agree hfs
  refine ⟨hfs, hdown 8 hsize, hup 2, ?_⟩
  rw [tree_ofForms]
  decide

end Arena

end RedundantCast
