import Mathlib.Computability.StateTransition
import RedundantCast.Declaration.Search
import RedundantCast.Proofs.Declaration.Building
import RedundantCast.Proofs.Declaration.Distance

/-!
# The class graph of a table

The search for the ancestors of a class ends on every table, and lists them by
their distance along the declared edges. So whether a class is a subclass of
another depends on which edges are declared, and not on how often or in which
order.
-/

namespace RedundantCast

open StateTransition

namespace Lineage

variable {edges : List ParentEdge}

/-! ## The queue -/

theorem fresh_congr {seen seen' : List ClassName} (h : ∀ a, seen.contains a = seen'.contains a)
    (cs : List ClassName) : fresh seen cs = fresh seen' cs := by
  induction cs generalizing seen seen' with
  | nil => rfl
  | cons c cs ih =>
      have hcons : ∀ a, (c :: seen).contains a = (c :: seen').contains a := fun a => by
        rw [List.contains_cons, List.contains_cons, h]
      rw [fresh, fresh, h, ih h, ih hcons]

theorem levels_congr {seen seen' : List ClassName} (h : ∀ a, seen.contains a = seen'.contains a)
    (k : Nat) (level : List ClassName) :
    levels edges k seen level = levels edges k seen' level := by
  induction k generalizing seen seen' level with
  | zero => rfl
  | succ k ih =>
      have happend : ∀ a, (level ++ seen).contains a = (level ++ seen').contains a := fun a => by
        rw [List.contains_append, List.contains_append, h]
      rw [levels, levels, fresh_congr happend, ih happend]

/-- While classes at one distance come out of the queue, the new ones are listed
and those above them are put in. -/
theorem reaches_level (edges : List ParentEdge) (depth : Nat)
    (seen order level next : List ClassName) :
    Reaches (Search.next? edges)
      ⟨seen, order, level.map (·, depth) ++ next.map (·, depth + 1)⟩
      ⟨(fresh seen level).reverse ++ seen, order ++ fresh seen level,
        (next ++ (fresh seen level).flatMap (above edges depth)).map (·, depth + 1)⟩ := by
  induction level generalizing seen order next with
  | nil => simpa using .refl
  | cons c level ih =>
      rw [fresh]
      split
      · next hc =>
        refine .head ?_ (ih seen order next)
        simp [Search.next?, hc]
      · next hc =>
        have hrest := ih (c :: seen) (order ++ [c]) (next ++ above edges depth c)
        simp only [List.append_assoc, List.singleton_append] at hrest
        simp only [List.reverse_cons, List.append_assoc, List.singleton_append,
          List.flatMap_cons]
        refine .head ?_ hrest
        simp [Search.next?, hc]

/-- From one distance on, the search lists the levels that are left. -/
theorem reaches_levels (edges : List ParentEdge) {depth k : Nat} (hk : depth + k = maxLevels)
    (seen order level : List ClassName) :
    ∃ s, Reaches (Search.next? edges) ⟨seen, order, level.map (·, depth)⟩ s ∧ s.queue = [] ∧
      s.order = order ++ levels edges k seen (fresh seen level) := by
  have hlevel : ∀ depth seen order level, Reaches (Search.next? edges)
      ⟨seen, order, level.map (·, depth)⟩
      ⟨(fresh seen level).reverse ++ seen, order ++ fresh seen level,
        ((fresh seen level).flatMap (above edges depth)).map (·, depth + 1)⟩ := by
    intro depth seen order level
    simpa using reaches_level edges depth seen order level []
  induction k generalizing depth seen order level with
  | zero =>
      have habove : above edges depth = fun _ => [] :=
        funext fun c => if_pos (Nat.le_of_eq hk.symm)
      refine ⟨_, hlevel depth seen order level, ?_, rfl⟩
      simp [habove]
  | succ k ih =>
      have habove : above edges depth = parents edges :=
        funext fun c => if_neg (by omega)
      have hnext : depth + 1 + k = maxLevels := by omega
      obtain ⟨s, hrun, hqueue, horder⟩ := ih hnext ((fresh seen level).reverse ++ seen)
        (order ++ fresh seen level) ((fresh seen level).flatMap (parents edges))
      have hfirst := hlevel depth seen order level
      rw [habove] at hfirst
      refine ⟨s, hfirst.trans hrun, hqueue, ?_⟩
      have hseen : ∀ a, ((fresh seen level).reverse ++ seen).contains a =
          (fresh seen level ++ seen).contains a := fun a => by
        simp only [List.contains_append, List.contains_reverse]
      rw [horder, fresh_congr hseen, levels_congr hseen, List.append_assoc]
      rfl

theorem search_ends (edges : List ParentEdge) (c : ClassName) :
    ∃ s ∈ eval (Search.next? edges) (.start c), s.order = ofClass edges c := by
  obtain ⟨s, hrun, hqueue, horder⟩ := reaches_levels edges (Nat.zero_add maxLevels) [] [] [c]
  refine ⟨s, mem_eval.2 ⟨hrun, ?_⟩, horder⟩
  rw [Search.next?, hqueue]

end Lineage

/-! ## Tables -/

namespace Table

open Lineage

variable {a b c : ClassName}

def Fact.edge? : Fact → Option ParentEdge
  | .parent child above => some ⟨child, above⟩
  | _ => none

/-- The edges that are declared, in order, with repetitions. -/
def parentEdges (facts : List Fact) : List ParentEdge :=
  facts.filterMap Fact.edge?

theorem hasEdge_declareParent (t : Table) (child parent : ClassName) :
    HasEdge (t.declareParent child parent).parents b a ↔
      HasEdge (t.parents ++ [⟨child, parent⟩]) b a := by
  rw [declareParent]
  split
  · next hknown =>
    rw [hasEdge_append, or_iff_left_of_imp]
    exact .of_contains (List.forall_mem_singleton.2 hknown)
  · exact Iff.rfl

theorem hasEdge_declareAll (t : Table) (facts : List Fact) :
    HasEdge (t.declareAll facts).parents b a ↔ HasEdge (t.parents ++ parentEdges facts) b a := by
  induction facts generalizing t with
  | nil => rw [declareAll, List.foldl_nil, parentEdges, List.filterMap_nil, List.append_nil]
  | cons fact facts ih =>
      rw [declareAll, List.foldl_cons, ← declareAll, ih, hasEdge_append, hasEdge_append]
      cases fact with
      | parent child parent =>
          have hedges : parentEdges (.parent child parent :: facts) =
              [⟨child, parent⟩] ++ parentEdges facts := rfl
          rw [declare, hasEdge_declareParent, hedges, hasEdge_append, hasEdge_append, or_assoc]
      | _ => rfl

/-- The edges of a table are those that were declared. -/
theorem hasEdge_ofFacts (facts : List Fact) (b a : ClassName) :
    HasEdge (ofFacts facts).parents b a ↔ HasEdge (parentEdges facts) b a :=
  hasEdge_declareAll empty facts

theorem listsByDistance_ofFacts (facts : List Fact) (c : ClassName) :
    ListsByDistance (parentEdges facts) c (ofClass (ofFacts facts).parents c) :=
  (listsByDistance_ofClass _ c).congr (hasEdge_ofFacts facts)

theorem contains_hierarchy_iff (facts : List Fact) :
    ((ofFacts facts).hierarchy c).contains a = true ↔
      (c == a) = false ∧ ∃ n, 1 ≤ n ∧ n ≤ maxLevels ∧ HasPath (parentEdges facts) c n a := by
  have hpath : ∀ n, HasPath (ofFacts facts).parents c n a ↔ HasPath (parentEdges facts) c n a :=
    fun n => hasPath_congr (hasEdge_ofFacts facts)
  simp only [← hpath]
  exact contains_ancestors_iff

/-- The search for the ancestors of a class ends, whatever edges are declared. It
lists the classes by their distance, and those after the class itself are the
classes that it is a subclass of. Which they are depends on nothing but the
edges. -/
theorem lineage_by_distance (facts : List Fact) (c : ClassName) :
    (∃ s ∈ eval (Search.next? (ofFacts facts).parents) (.start c),
        s.order = ofClass (ofFacts facts).parents c) ∧
      ListsByDistance (parentEdges facts) c (ofClass (ofFacts facts).parents c) ∧
      (∀ a, ((ofFacts facts).hierarchy c).contains a = true ↔
        (c == a) = false ∧ ∃ n, 1 ≤ n ∧ n ≤ maxLevels ∧ HasPath (parentEdges facts) c n a) ∧
      ∀ facts' : List Fact,
        (∀ b a, HasEdge (parentEdges facts') b a ↔ HasEdge (parentEdges facts) b a) →
        ∀ a, ((ofFacts facts').hierarchy c).contains a = ((ofFacts facts).hierarchy c).contains a ∧
          (ofClass (ofFacts facts').parents c).contains a =
            (ofClass (ofFacts facts).parents c).contains a := by
  refine ⟨search_ends _ c, listsByDistance_ofFacts facts c,
    fun a => contains_hierarchy_iff facts, fun facts' hedges a => ?_⟩
  constructor
  · rw [Bool.eq_iff_iff, contains_hierarchy_iff, contains_hierarchy_iff]
    simp only [hasPath_congr hedges]
  · rw [Bool.eq_iff_iff, (listsByDistance_ofFacts facts c).contains_iff,
      (listsByDistance_ofFacts facts' c).contains_iff]
    simp only [distance_congr hedges]

/-- Dogs are pets and mammals, both are animals, and animals are dogs. -/
def dogs : List Fact :=
  [.parent (.spelled "Dog") (.spelled "Pet"), .parent (.spelled "Dog") (.spelled "Mammal"),
    .parent (.spelled "Pet") (.spelled "Animal"), .parent (.spelled "Mammal") (.spelled "Animal"),
    .parent (.spelled "Animal") (.spelled "Dog")]

/-- The same backwards, and one edge twice. -/
def dogsAgain : List Fact :=
  .parent (.spelled "\\PET") (.spelled "animal") :: dogs.reverse

theorem lineage_by_distance_dogs :
    (∀ b a, HasEdge (parentEdges dogsAgain) b a ↔ HasEdge (parentEdges dogs) b a) ∧
      (ofClass (ofFacts dogs).parents (.spelled "dog")).map ClassName.text =
        ["dog", "Pet", "Mammal", "Animal"] ∧
      ((ofFacts dogs).hierarchy (.spelled "dog")).contains (.spelled "animal") = true ∧
      ((ofFacts dogsAgain).hierarchy (.spelled "dog")).contains (.spelled "animal") = true := by
  have hedges : ∀ b a, HasEdge (parentEdges dogsAgain) b a ↔ HasEdge (parentEdges dogs) b a :=
    fun b a => ⟨.of_contains (by decide +kernel), .of_contains (by decide +kernel)⟩
  obtain ⟨-, -, -, hsame⟩ := lineage_by_distance dogs (.spelled "dog")
  have hanimal :
      ((ofFacts dogs).hierarchy (.spelled "dog")).contains (.spelled "animal") = true := by
    decide +kernel
  exact ⟨hedges, by decide +kernel, hanimal, (hsame dogsAgain hedges _).1.trans hanimal⟩

end Table

end RedundantCast
