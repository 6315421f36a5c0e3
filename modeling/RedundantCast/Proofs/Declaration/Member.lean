import Mathlib.Data.List.Induction
import RedundantCast.Proofs.Declaration.ClassGraph

/-!
# Members of classes

A property or method of a class is looked up along the lineage. What is found is
the latest declaration of the member on a class nearest to the class, among those
that are searched and declare it. So a declaration further away, or of another
name, changes nothing.
-/

namespace RedundantCast

open Lineage

inductive MemberKind where
  | method
  | property
  deriving DecidableEq, Repr, Inhabited

/-- What is compared of the name of a member. -/
def MemberKind.key : MemberKind → String → String
  | method => Text.lowered
  | property => Text.stripSigil

namespace Table

variable {kind : MemberKind} {name : String} {facts : List Table.Fact} {fact : Table.Fact}
  {b c owner owner' : ClassName}

def membersOf (t : Table) : MemberKind → List MemberEntry
  | .method => t.methods
  | .property => t.properties

/-- The declared return type of a method, or type of a property, of a class or of
its ancestors. -/
def memberNamed? (t : Table) (kind : MemberKind) (c : ClassName) (name : String) :
    Option Declaration :=
  match kind with
  | .method => t.returnType? (.method c name)
  | .property => t.propertyType? c name

/-- What a fact declares about a member on a class. -/
def Fact.member? (kind : MemberKind) (name : String) (owner : ClassName) :
    Fact → Option Declaration
  | .method owner' name' type source =>
    if kind = .method ∧ owner' == owner ∧ Text.lowered name' = Text.lowered name then
      some ⟨name', type, source⟩
    else none
  | .property owner' name' type source =>
    if kind = .property ∧ owner' == owner ∧ Text.stripSigil name' = Text.stripSigil name then
      some ⟨Text.stripSigil name', type, source⟩
    else none
  | _ => none

/-- The latest declaration of a member on the class itself. -/
def latest? (facts : List Fact) (kind : MemberKind) (name : String) (owner : ClassName) :
    Option Declaration :=
  (facts.filterMap (Fact.member? kind name owner)).getLast?

theorem Fact.member?_congr (h : owner == owner') (fact : Fact) :
    fact.member? kind name owner = fact.member? kind name owner' := by
  cases fact with
  | method declared _ _ _ => simp only [Fact.member?, BEq.congr_right (a := declared) h]
  | property declared _ _ _ => simp only [Fact.member?, BEq.congr_right (a := declared) h]
  | _ => rfl

theorem latest?_congr (h : owner == owner') :
    latest? facts kind name owner = latest? facts kind name owner' := by
  rw [latest?, latest?, funext (Fact.member?_congr h)]

theorem latest?_append (facts after : List Fact) (kind : MemberKind) (name : String)
    (owner : ClassName) :
    latest? (facts ++ after) kind name owner =
      (latest? after kind name owner).or (latest? facts kind name owner) := by
  rw [latest?, List.filterMap_append, List.getLast?_append]
  rfl

theorem latest?_singleton (fact : Fact) (kind : MemberKind) (name : String) (owner : ClassName) :
    latest? [fact] kind name owner = fact.member? kind name owner := by
  rw [latest?, List.filterMap_cons]
  cases fact.member? kind name owner <;> rfl

theorem entryOn_cons (e : MemberEntry) (entries : List MemberEntry) (key : String)
    (owner : ClassName) :
    entryOn (e :: entries) key owner =
      if e.owner == owner ∧ e.key = key then some e.declaration else entryOn entries key owner := by
  rw [entryOn, List.find?_cons]
  by_cases h : e.owner == owner ∧ e.key = key
  · simp [h]
  · have hbeq : (e.owner == owner && e.key == key) = false := by simpa using h
    rw [hbeq, if_neg h]
    rfl

theorem membersOf_declareParent (t : Table) (child parent : ClassName) (kind : MemberKind) :
    (t.declareParent child parent).membersOf kind = t.membersOf kind := by
  rw [declareParent]
  split
  · rfl
  · cases kind <;> rfl

theorem ite_some_or {α : Type} {p : Prop} [Decidable p] (a : α) (o : Option α) :
    (if p then some a else none).or o = if p then some a else o := by
  split <;> rfl

/-- A fact about the member is found on its class from then on, any other is not. -/
theorem entryOn_declare (t : Table) (fact : Fact) (kind : MemberKind) (name : String)
    (owner : ClassName) :
    entryOn ((t.declare fact).membersOf kind) (kind.key name) owner =
      (fact.member? kind name owner).or (entryOn (t.membersOf kind) (kind.key name) owner) := by
  cases fact with
  | method owner' name' type source =>
      cases kind with
      | property => rfl
      | method =>
          refine (entryOn_cons _ _ _ _).trans ?_
          simp only [Fact.member?, true_and, ite_some_or]
          rfl
  | property owner' name' type source =>
      cases kind with
      | method => rfl
      | property =>
          refine (entryOn_cons _ _ _ _).trans ?_
          simp only [Fact.member?, true_and, ite_some_or]
          rfl
  | parent child above =>
      rw [declare, membersOf_declareParent]
      rfl
  | _ => cases kind <;> rfl

theorem entryOn_ofFacts (facts : List Fact) (kind : MemberKind) (name : String)
    (owner : ClassName) :
    entryOn ((ofFacts facts).membersOf kind) (kind.key name) owner =
      latest? facts kind name owner := by
  induction facts using List.reverseRecOn with
  | nil => cases kind <;> rfl
  | append_singleton facts fact ih =>
      have hsnoc : ofFacts (facts ++ [fact]) = (ofFacts facts).declare fact := by
        rw [ofFacts, declareAll, List.foldl_append]
        rfl
      rw [hsnoc, entryOn_declare, ih, latest?_append, latest?_singleton]

theorem memberNamed?_ofFacts (facts : List Fact) (kind : MemberKind) (c : ClassName)
    (name : String) :
    (ofFacts facts).memberNamed? kind c name =
      (ofClass (ofFacts facts).parents c).findSome? (latest? facts kind name) := by
  have hentry : latest? facts kind name =
      entryOn ((ofFacts facts).membersOf kind) (kind.key name) :=
    funext fun owner => (entryOn_ofFacts facts kind name owner).symm
  rw [hentry]
  cases kind <;> rfl

/-! ## The nearest declaration -/

/-- Another class that declares the member is met before the class, or the class is
not met at all. -/
def IsHidden (facts : List Fact) (kind : MemberKind) (c : ClassName) (name : String)
    (owner : ClassName) : Prop :=
  (∀ n ≤ maxLevels, ¬ HasPath (parentEdges facts) c n owner) ∨
    ∃ b m, HasPath (parentEdges facts) c m b ∧ (latest? facts kind name b).isSome ∧
      ∀ n, HasPath (parentEdges facts) c n owner → m < n

/-- The fact is about something else than the member, or about a class on which it
is hidden. -/
def Fact.Spares (facts : List Fact) (kind : MemberKind) (c : ClassName) (name : String) :
    Fact → Prop
  | .var .. | .function .. => True
  | .method owner name' _ _ =>
    kind ≠ .method ∨ Text.lowered name' ≠ Text.lowered name ∨ IsHidden facts kind c name owner
  | .property owner name' _ _ =>
    kind ≠ .property ∨ Text.stripSigil name' ≠ Text.stripSigil name ∨
      IsHidden facts kind c name owner
  | .parent .. => False

theorem IsHidden.congr (h : IsHidden facts kind c name owner) (howner : owner == owner') :
    IsHidden facts kind c name owner' := by
  have hpath : ∀ {n}, HasPath (parentEdges facts) c n owner' →
      HasPath (parentEdges facts) c n owner :=
    fun hn => hn.congr (BEq.symm howner)
  rcases h with hfar | ⟨b, m, hm, hdeclared, hnearer⟩
  · exact Or.inl fun n hn hpath' => hfar n hn (hpath hpath')
  · exact Or.inr ⟨b, m, hm, hdeclared, fun n hn => hnearer n (hpath hn)⟩

theorem not_concerns {declared : MemberKind} {key key' : String}
    (h : kind ≠ declared ∨ key' ≠ key ∨ IsHidden facts kind c name owner')
    (howner : ¬ IsHidden facts kind c name owner) :
    ¬ (kind = declared ∧ owner' == owner ∧ key' = key) := by
  rintro ⟨hkind, hsame, hkey⟩
  rcases h with hother | hother | hhidden
  · exact hother hkind
  · exact hother hkey
  · exact howner (hhidden.congr hsame)

theorem Fact.member?_eq_none_of_spares (h : fact.Spares facts kind c name)
    (howner : ¬ IsHidden facts kind c name owner) : fact.member? kind name owner = none := by
  cases fact with
  | method owner' name' type source => exact if_neg (not_concerns h howner)
  | property owner' name' type source => exact if_neg (not_concerns h howner)
  | _ => rfl

theorem Fact.edge?_eq_none_of_spares (h : fact.Spares facts kind c name) : fact.edge? = none := by
  cases fact with
  | parent child above => cases h
  | _ => rfl

theorem parents_declareAll (t : Table) {after : List Fact} (h : ∀ fact ∈ after, fact.edge? = none) :
    (t.declareAll after).parents = t.parents := by
  induction after generalizing t with
  | nil => rfl
  | cons fact after ih =>
      obtain ⟨hfact, hafter⟩ := List.forall_mem_cons.1 h
      have hfirst : (t.declare fact).parents = t.parents := by
        cases fact with
        | parent child above => cases hfact
        | _ => rfl
      exact (ih (t.declare fact) hafter).trans hfirst

/-- The first class of a lineage that declares the member hides it from none of
those before it, nor from itself. -/
theorem not_isHidden_of_first {inner outer : List ClassName}
    (hlists : ListsByDistance (parentEdges facts) c (inner ++ owner :: outer))
    (hinner : ∀ b ∈ inner, latest? facts kind name b = none) :
    ¬ IsHidden facts kind c name owner := by
  rintro (hfar | ⟨b, m, hm, hdeclared, hnearer⟩)
  · obtain ⟨n, hn, hdistance⟩ := (hlists.contains_iff owner).1 (contains_of_mem (by simp))
    exact hfar n hn hdistance.path
  · obtain ⟨b', hb', hbb'⟩ := hlists.exists_before hm fun n hn => hnearer n hn.path
    rw [latest?_congr hbb', hinner b' hb'] at hdeclared
    cases hdeclared

theorem findSome?_congr_of_first {α β : Type} {f g : α → Option β} {l : List α}
    (h : ∀ inner a outer, l = inner ++ a :: outer → (∀ b ∈ inner, f b = none) → g a = f a) :
    l.findSome? g = l.findSome? f := by
  induction l with
  | nil => rfl
  | cons a l ih =>
      have ha : g a = f a := h [] a l rfl (List.forall_mem_nil _)
      rw [List.findSome?_cons, List.findSome?_cons, ha]
      cases hf : f a with
      | some d => rfl
      | none =>
          apply ih
          intro inner b outer hl hinner
          exact h (a :: inner) b outer (congrArg (a :: ·) hl) (List.forall_mem_cons.2 ⟨hf, hinner⟩)

/-- A member is declared by the nearest class that declares it, if one within the
levels that are searched does. Facts about other members, about classes too far
away and about variables and functions change nothing. -/
theorem nearest_member (facts : List Fact) (kind : MemberKind) (c : ClassName) (name : String) :
    (∀ d, (ofFacts facts).memberNamed? kind c name = some d →
        ∃ n ≤ maxLevels, ∃ owner, Distance (parentEdges facts) c n owner ∧
          latest? facts kind name owner = some d ∧
          ∀ m < n, ∀ b, HasPath (parentEdges facts) c m b → latest? facts kind name b = none) ∧
      ((ofFacts facts).memberNamed? kind c name = none ↔
        ∀ n ≤ maxLevels, ∀ owner, HasPath (parentEdges facts) c n owner →
          latest? facts kind name owner = none) ∧
      ∀ after : List Fact, (∀ fact ∈ after, fact.Spares facts kind c name) →
        (ofFacts (facts ++ after)).memberNamed? kind c name =
          (ofFacts facts).memberNamed? kind c name := by
  have hlists := listsByDistance_ofFacts facts c
  refine ⟨fun d hd => ?_, ?_, fun after hafter => ?_⟩
  · rw [memberNamed?_ofFacts, List.findSome?_eq_some_iff] at hd
    obtain ⟨inner, owner, outer, hsplit, hfound, hinner⟩ := hd
    rw [hsplit] at hlists
    obtain ⟨n, hn, hdistance⟩ := (hlists.contains_iff owner).1 (contains_of_mem (by simp))
    refine ⟨n, hn, owner, hdistance, hfound, fun m hm b hb => ?_⟩
    obtain ⟨b', hb', hbb'⟩ := hlists.exists_before hb fun k hk => hk.unique hdistance ▸ hm
    rw [latest?_congr hbb', hinner b' hb']
  · rw [memberNamed?_ofFacts, List.findSome?_eq_none_iff]
    constructor
    · intro hnone n hn owner hpath
      obtain ⟨k, hk, hdistance⟩ := hpath.exists_distance
      have hlisted := (hlists.contains_iff owner).2 ⟨k, Nat.le_trans hk hn, hdistance⟩
      obtain ⟨owner', hmem, hsame⟩ := List.contains_iff_exists_mem_beq.1 hlisted
      rw [latest?_congr hsame, hnone owner' hmem]
    · intro hnone owner hmem
      obtain ⟨n, hn, hdistance⟩ := (hlists.contains_iff owner).1 (contains_of_mem hmem)
      exact hnone n hn owner hdistance.path
  · have hparents : (ofFacts (facts ++ after)).parents = (ofFacts facts).parents := by
      rw [ofFacts, declareAll, List.foldl_append]
      exact parents_declareAll _ fun fact hfact => Fact.edge?_eq_none_of_spares (hafter fact hfact)
    rw [memberNamed?_ofFacts, memberNamed?_ofFacts, hparents]
    apply findSome?_congr_of_first
    intro inner owner outer hsplit hinner
    have hseen := not_isHidden_of_first (hsplit ▸ hlists) hinner
    have hnone : latest? after kind name owner = none := by
      rw [latest?, List.getLast?_eq_none_iff, List.filterMap_eq_nil_iff]
      exact fun fact hfact => Fact.member?_eq_none_of_spares (hafter fact hfact) hseen
    rw [latest?_append, hnone, Option.none_or]

/-- Dogs, where mammals and animals declare how many legs they have. -/
def dogsWithLegs : List Fact :=
  dogs ++ [.property (.spelled "Animal") "legs" .string .propertyHint,
    .property (.spelled "Mammal") "$legs" .int .propertyHint]

/-- Animals lie further from dogs than mammals do, and what is said of them later is
not seen. -/
theorem nearest_member_dogs :
    (ofFacts dogsWithLegs).memberNamed? .property (.spelled "dog") "legs" =
        some ⟨"legs", .int, .propertyHint⟩ ∧
      (ofFacts (dogsWithLegs ++ [.property (.spelled "ANIMAL") "$legs" .bool .propertyHint,
        .var 0 "legs" .bool .inferred])).memberNamed? .property (.spelled "dog") "legs" =
        some ⟨"legs", .int, .propertyHint⟩ := by
  have hlegs : (ofFacts dogsWithLegs).memberNamed? .property (.spelled "dog") "legs" =
      some ⟨"legs", .int, .propertyHint⟩ := by rfl
  have hmammal : HasPath (parentEdges dogsWithLegs) (.spelled "dog") 1 (.spelled "mammal") :=
    .step (.refl (BEq.refl _)) (contains_parents_iff.1 (by decide +kernel))
  have hanimal : ∀ n, HasPath (parentEdges dogsWithLegs) (.spelled "dog") n (.spelled "ANIMAL") →
      1 < n := by
    intro n hn
    cases hn with
    | refl h => exact absurd h (by decide +kernel)
    | @step n b _ hb hedge =>
        cases hb with
        | refl h =>
            obtain ⟨e, he, hchild, hparent⟩ := hedge
            have hdog : HasEdge (parentEdges dogsWithLegs) (.spelled "dog") (.spelled "ANIMAL") :=
              ⟨e, he, BEq.trans hchild (BEq.symm h), hparent⟩
            exact absurd (contains_parents_iff.2 hdog) (by decide +kernel)
        | step hb hedge' => omega
  have hhidden : IsHidden dogsWithLegs .property (.spelled "dog") "legs" (.spelled "ANIMAL") :=
    Or.inr ⟨_, 1, hmammal, by decide +kernel, hanimal⟩
  obtain ⟨-, -, hframe⟩ := nearest_member dogsWithLegs .property (.spelled "dog") "legs"
  refine ⟨hlegs, (hframe _ ?_).trans hlegs⟩
  exact List.forall_mem_cons.2 ⟨Or.inr (Or.inr hhidden), List.forall_mem_singleton.2 trivial⟩

end Table

end RedundantCast
