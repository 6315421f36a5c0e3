import RedundantCast.Proofs.Declaration.ClassGraph
import RedundantCast.Proofs.Ty.Equivalence

/-!
# Equivalent types over a table

A table without a cycle of declared edges has no class above itself. Types that are
equivalent over it are equal as long as no member of a union is a subclass of
another member. A union of a class and its subclass is equivalent to the class alone.
-/

namespace RedundantCast

namespace Lineage

variable {edges : List ParentEdge} {a b c c' : ClassName} {m n : Nat}

/-- No path of edges leads from a class back to it. -/
def IsAcyclic (edges : List ParentEdge) : Prop :=
  ∀ c n, ¬ HasPath edges c (n + 1) c

theorem HasPath.congr_left (h : HasPath edges c n a) (hc : c == c') : HasPath edges c' n a := by
  induction h with
  | refl hca => exact .refl (BEq.trans (BEq.symm hc) hca)
  | step _ hedge ih => exact .step ih hedge

theorem HasPath.trans (hab : HasPath edges a m b) (hbc : HasPath edges b n c) :
    HasPath edges a (m + n) c := by
  induction hbc with
  | refl hb => exact hab.congr hb
  | step _ hedge ih => exact .step ih hedge

/-- A path climbs as many steps as it has edges, if each edge climbs one. -/
theorem HasPath.add_le_rank {rank : String → Nat}
    (hrank : ∀ e ∈ edges, rank e.child.key < rank e.parent.key) (h : HasPath edges c n a) :
    rank c.key + n ≤ rank a.key := by
  induction h with
  | refl hca => rw [ClassName.beq_iff.1 hca, Nat.add_zero]
  | @step n b a _ hedge ih =>
      obtain ⟨e, he, hchild, hparent⟩ := hedge
      have hclimb := hrank e he
      rw [ClassName.beq_iff.1 hchild, ClassName.beq_iff.1 hparent] at hclimb
      omega

theorem isAcyclic_of_rank (rank : String → Nat)
    (hrank : ∀ e ∈ edges, rank e.child.key < rank e.parent.key) : IsAcyclic edges := by
  intro c n hpath
  have hclimb := hpath.add_le_rank hrank
  omega

end Lineage

namespace Table

open Lineage

variable {facts : List Fact} {a b : ClassName}

theorem respectsKeys_hierarchy (facts : List Fact) : (ofFacts facts).hierarchy.RespectsKeys := by
  have hstep : ∀ {x x' y y' : ClassName}, (x == x') = true → (y == y') = true →
      ((ofFacts facts).hierarchy x).contains y = true →
      ((ofFacts facts).hierarchy x').contains y' = true := by
    intro x x' y y' hx hy hxy
    obtain ⟨hne, n, hpos, hle, hpath⟩ := (contains_hierarchy_iff facts).1 hxy
    refine (contains_hierarchy_iff facts).2 ⟨?_, n, hpos, hle, (hpath.congr hy).congr_left hx⟩
    rwa [← BEq.congr_left hx, ← BEq.congr_right hy]
  intro x x' y y' hx hy
  exact Bool.eq_iff_iff.2 ⟨hstep hx hy, hstep (BEq.symm hx) (BEq.symm hy)⟩

theorem exists_hasPath_of_leads (h : (ofFacts facts).hierarchy.Leads a b) :
    ∃ n, HasPath (parentEdges facts) a (n + 1) b := by
  have hstep : ∀ {a b}, ((ofFacts facts).hierarchy a).contains b = true →
      ∃ n, HasPath (parentEdges facts) a (n + 1) b := by
    intro a b hab
    obtain ⟨-, n, hpos, -, hpath⟩ := (contains_hierarchy_iff facts).1 hab
    exact ⟨n - 1, by rwa [Nat.sub_add_cancel hpos]⟩
  induction h with
  | single hab => exact hstep hab
  | tail _ hbc ih =>
      obtain ⟨m, hab⟩ := ih
      obtain ⟨n, hbc⟩ := hstep hbc
      exact ⟨m + 1 + n, hab.trans hbc⟩

theorem isAcyclic_hierarchy (hacyclic : IsAcyclic (parentEdges facts)) :
    (ofFacts facts).hierarchy.IsAcyclic := by
  intro x y hxy
  obtain ⟨n, hpath⟩ := exists_hasPath_of_leads hxy
  by_contra hequal
  exact hacyclic x n (hpath.congr (BEq.symm (Bool.not_eq_false _ ▸ hequal)))

/-- If no path has more edges than levels are searched, no ancestor is missed. -/
theorem transitive_hierarchy
    (hlevels : ∀ c n a, HasPath (parentEdges facts) c n a → n ≤ maxLevels) :
    (ofFacts facts).hierarchy.TransitiveUpToEquality := by
  intro x y z hxy hyz
  obtain ⟨-, m, hm, -, hpath⟩ := (contains_hierarchy_iff facts).1 hxy
  obtain ⟨-, n, -, -, hpath'⟩ := (contains_hierarchy_iff facts).1 hyz
  have hxz := hpath.trans hpath'
  cases hequal : x == z with
  | true => exact Or.inl rfl
  | false =>
      exact Or.inr ((contains_hierarchy_iff facts).2
        ⟨hequal, m + n, Nat.le_add_right_of_le hm, hlevels x _ z hxz, hxz⟩)

/-- Over a table without cycles equal types are equivalent, and equivalent types are
equal if neither is a union with a class and a subclass of it. Any such union is
equivalent to another type, the one without the subclass. What equivalent types share
is their topmost members, and if no path is longer than is searched, these decide. -/
theorem areEquivalent_of_isAcyclic (hacyclic : IsAcyclic (parentEdges facts)) {s t : Ty}
    (hs : s.isNormalized = true) (ht : t.isNormalized = true) :
    let h := (ofFacts facts).hierarchy
    ((s == t) = true → s.areEquivalent h t = true) ∧
      (s.IsReduced h → t.IsReduced h → (s.areEquivalent h t = true ↔ (s == t) = true)) ∧
      (¬ s.IsReduced h →
        ∃ u : Ty, u.isNormalized = true ∧ s.areEquivalent h u = true ∧ (s == u) = false) ∧
      (s.areEquivalent h t = true → ∀ m, s.IsTop h m ↔ t.IsTop h m) ∧
      ((∀ c n a, HasPath (parentEdges facts) c n a → n ≤ maxLevels) →
        (∀ m, s.IsTop h m ↔ t.IsTop h m) → s.areEquivalent h t = true) := by
  intro h
  have hh : h.RespectsKeys := respectsKeys_hierarchy facts
  have habove : h.IsAcyclic := isAcyclic_hierarchy hacyclic
  have hequal : (s == t) = true → s.areEquivalent h t = true := Ty.areEquivalent_of_beq hs ht
  rw [Ty.areEquivalent_iff hs ht] at hequal ⊢
  refine ⟨hequal, fun hsreduced htreduced => ⟨?_, hequal⟩, ?_, ?_, fun hlevels htop => ?_⟩
  · rintro ⟨hst, hts⟩
    exact hsreduced.beq hh habove hs ht htreduced hst hts
  · exact Ty.exists_areEquivalent_of_not_isReduced hh habove hs
  · rintro ⟨hst, hts⟩ m
    exact ⟨.of_membersBelow hh hst hts, .of_membersBelow hh hts hst⟩
  · have htrans := transitive_hierarchy hlevels
    exact ⟨Ty.membersBelow_of_isTop hh habove htrans fun m => (htop m).1,
      Ty.membersBelow_of_isTop hh habove htrans fun m => (htop m).2⟩

/-- Dogs are pets and mammals, and both are animals. -/
def petsAndMammals : List Fact :=
  [.parent (.spelled "Dog") (.spelled "Pet"), .parent (.spelled "Dog") (.spelled "Mammal"),
    .parent (.spelled "Pet") (.spelled "Animal"), .parent (.spelled "Mammal") (.spelled "Animal")]

/-- `Pet|Mammal` is reduced and not equivalent to `Animal`, and `Animal|Dog` is not
reduced and equivalent to it. -/
theorem areEquivalent_petsAndMammals :
    let h := (ofFacts petsAndMammals).hierarchy
    let animal := Ty.ofClass "\\Animal"
    let pets := Ty.union [.ofClass "mammal", .ofClass "Pet"]
    let dogs := Ty.union [.ofClass "Animal", .ofClass "Dog"]
    IsAcyclic (parentEdges petsAndMammals) ∧
      animal.isNormalized = true ∧ pets.isNormalized = true ∧ dogs.isNormalized = true ∧
      animal.IsReduced h ∧ pets.IsReduced h ∧ ¬ dogs.IsReduced h ∧
      (pets.areEquivalent h animal = true ↔ (pets == animal) = true) ∧
      (∃ u : Ty, u.isNormalized = true ∧ dogs.areEquivalent h u = true ∧ (dogs == u) = false) ∧
      dogs.areEquivalent h animal = true ∧ ∀ m, dogs.IsTop h m ↔ animal.IsTop h m := by
  intro h animal pets dogs
  have hacyclic : IsAcyclic (parentEdges petsAndMammals) :=
    isAcyclic_of_rank (fun key => if key = "dog" then 0 else if key = "animal" then 2 else 1)
      (by decide +kernel)
  have hanimal : animal.isNormalized = true := rfl
  have hpets : pets.isNormalized = true := by decide +kernel
  have hdogs : dogs.isNormalized = true := by decide +kernel
  have hreduced : animal.IsReduced h := by
    intro x y hx hy
    simp only [animal, Ty.members, Ty.ofClass, List.mem_singleton, Ty.object.injEq] at hx hy
    subst hx hy
    decide +kernel
  have hreduced' : pets.IsReduced h := by
    intro x y hx hy
    simp only [pets, Ty.members_union, Ty.ofClass, List.mem_cons, Ty.object.injEq,
      List.not_mem_nil, or_false] at hx hy
    rcases hx with rfl | rfl <;> rcases hy with rfl | rfl <;> decide +kernel
  have hnotreduced : ¬ dogs.IsReduced h := by
    intro hall
    have hbelow := hall (.ofText "Dog") (.ofText "Animal")
      (List.mem_cons_of_mem _ List.mem_cons_self) List.mem_cons_self
    exact absurd hbelow (by decide +kernel)
  have hequivalent : dogs.areEquivalent h animal = true := by decide +kernel
  obtain ⟨-, hiff, -⟩ := areEquivalent_of_isAcyclic hacyclic hpets hanimal
  obtain ⟨-, -, hother, htops, -⟩ := areEquivalent_of_isAcyclic hacyclic hdogs hanimal
  exact ⟨hacyclic, hanimal, hpets, hdogs, hreduced, hreduced', hnotreduced,
    hiff hreduced' hreduced, hother hnotreduced, hequivalent, htops hequivalent⟩

/-- `Animal|Dog` and `Animal` are equivalent if dogs are animals. -/
theorem not_forall_areEquivalent_iff_beq :
    ¬ ∀ (facts : List Fact) (s t : Ty), IsAcyclic (parentEdges facts) →
      s.isNormalized = true → t.isNormalized = true →
      (s.areEquivalent (ofFacts facts).hierarchy t = true ↔ (s == t) = true) := by
  intro h
  have hacyclic : IsAcyclic (parentEdges [.parent (.spelled "Dog") (.spelled "Animal")]) :=
    isAcyclic_of_rank (fun key => if key = "dog" then 0 else 1) (by decide +kernel)
  have hequal := h _ (.union [.ofClass "Animal", .ofClass "Dog"]) (.ofClass "Animal") hacyclic
    (by decide +kernel) rfl
  exact absurd (hequal.1 (by decide +kernel)) (by decide +kernel)

end Table

end RedundantCast
