import Mathlib.Data.List.Basic
import Mathlib.Order.Basic
import RedundantCast.Declaration.Lineage

/-!
# Distances between classes

The distance from a class to another is the number of edges on the shortest path
between them. A lineage lists the classes by their distance, level by level, so
that each level is the set of classes at one distance.
-/

namespace RedundantCast

namespace Lineage

/-- An edge leads from the first class to the second one, up to the spelling of
their names. -/
def HasEdge (edges : List ParentEdge) (b a : ClassName) : Prop :=
  ∃ e ∈ edges, e.child == b ∧ e.parent == a

/-- A path of so many edges leads from the class to another. -/
inductive HasPath (edges : List ParentEdge) (c : ClassName) : Nat → ClassName → Prop where
  | refl {a : ClassName} : c == a → HasPath edges c 0 a
  | step {n : Nat} {b a : ClassName} :
      HasPath edges c n b → HasEdge edges b a → HasPath edges c (n + 1) a

/-- The shortest path from the class to another has so many edges. -/
structure Distance (edges : List ParentEdge) (c : ClassName) (n : Nat) (a : ClassName) : Prop where
  path : HasPath edges c n a
  shortest : ∀ m < n, ¬ HasPath edges c m a

/-- The classes are the class itself and those that lie no more levels above it
than are searched, each once, nearest first. -/
structure ListsByDistance (edges : List ParentEdge) (c : ClassName)
    (classes : List ClassName) : Prop where
  head : classes.head? = some c
  distinct : classes.Pairwise fun a b => (a == b) = false
  contains_iff : ∀ a, classes.contains a = true ↔ ∃ n ≤ maxLevels, Distance edges c n a
  sorted : classes.Pairwise fun a b =>
    ∀ m n, Distance edges c m a → Distance edges c n b → m ≤ n

variable {edges edges' : List ParentEdge} {c a a' b : ClassName} {m n : Nat}

theorem HasEdge.congr (h : HasEdge edges b a) (ha : a == a') : HasEdge edges b a' := by
  obtain ⟨e, he, hchild, hparent⟩ := h
  exact ⟨e, he, hchild, BEq.trans hparent ha⟩

theorem hasEdge_append :
    HasEdge (edges ++ edges') b a ↔ HasEdge edges b a ∨ HasEdge edges' b a := by
  simp only [HasEdge, List.mem_append, or_and_right, exists_or]

theorem HasPath.congr (h : HasPath edges c n a) (ha : a == a') : HasPath edges c n a' := by
  cases h with
  | refl hc => exact .refl (BEq.trans hc ha)
  | step hpath hedge => exact .step hpath (hedge.congr ha)

theorem HasPath.mono (h : HasPath edges c n a)
    (hedges : ∀ b a, HasEdge edges b a → HasEdge edges' b a) : HasPath edges' c n a := by
  induction h with
  | refl hc => exact .refl hc
  | step _ hedge ih => exact .step ih (hedges _ _ hedge)

theorem hasPath_congr (hedges : ∀ b a, HasEdge edges b a ↔ HasEdge edges' b a) :
    HasPath edges c n a ↔ HasPath edges' c n a :=
  ⟨fun h => h.mono fun b a => (hedges b a).1, fun h => h.mono fun b a => (hedges b a).2⟩

namespace Distance

theorem congr (h : Distance edges c n a) (ha : a == a') : Distance edges c n a' :=
  ⟨h.path.congr ha, fun m hm hpath => h.shortest m hm (hpath.congr (BEq.symm ha))⟩

theorem le (h : Distance edges c n a) (hpath : HasPath edges c m a) : n ≤ m := by
  by_contra hlt
  exact h.shortest m (Nat.lt_of_not_le hlt) hpath

theorem unique (hm : Distance edges c m a) (hn : Distance edges c n a) : m = n :=
  Nat.le_antisymm (hm.le hn.path) (hn.le hm.path)

end Distance

theorem HasPath.exists_distance (h : HasPath edges c n a) : ∃ m ≤ n, Distance edges c m a := by
  induction n using Nat.strongRecOn with
  | ind n ih =>
      by_cases hshorter : ∃ m < n, HasPath edges c m a
      · obtain ⟨m, hm, hpath⟩ := hshorter
        obtain ⟨k, hk, hdistance⟩ := ih m hm hpath
        exact ⟨k, Nat.le_trans hk (Nat.le_of_lt hm), hdistance⟩
      · exact ⟨n, Nat.le_refl n, h, fun m hm hpath => hshorter ⟨m, hm, hpath⟩⟩

/-- The last edge of a shortest path starts at a class that is one nearer. -/
theorem Distance.pred (h : Distance edges c (n + 1) a) :
    ∃ b, Distance edges c n b ∧ HasEdge edges b a := by
  obtain ⟨hpath, hshortest⟩ := h
  cases hpath with
  | @step _ b _ hpath hedge =>
      refine ⟨b, ⟨hpath, fun m hm hnearer => ?_⟩, hedge⟩
      exact hshortest (m + 1) (Nat.succ_lt_succ hm) (.step hnearer hedge)

theorem distance_congr (hedges : ∀ b a, HasEdge edges b a ↔ HasEdge edges' b a) :
    Distance edges c n a ↔ Distance edges' c n a := by
  constructor
  · exact fun h => ⟨(hasPath_congr hedges).1 h.path,
      fun m hm hpath => h.shortest m hm ((hasPath_congr hedges).2 hpath)⟩
  · exact fun h => ⟨(hasPath_congr hedges).2 h.path,
      fun m hm hpath => h.shortest m hm ((hasPath_congr hedges).1 hpath)⟩

theorem ListsByDistance.congr {classes : List ClassName} (h : ListsByDistance edges c classes)
    (hedges : ∀ b a, HasEdge edges b a ↔ HasEdge edges' b a) :
    ListsByDistance edges' c classes where
  head := h.head
  distinct := h.distinct
  contains_iff a := by
    simp only [h.contains_iff, distance_congr hedges]
  sorted := by
    simp only [← distance_congr hedges]
    exact h.sorted

/-! ## Levels -/

theorem contains_congr (cs : List ClassName) (ha : a == a') : cs.contains a = cs.contains a' := by
  induction cs with
  | nil => rfl
  | cons b cs ih => rw [List.contains_cons, List.contains_cons, ih, BEq.congr_left ha]

theorem contains_fresh (seen cs : List ClassName) :
    (fresh seen cs).contains a = (cs.contains a && !seen.contains a) := by
  induction cs generalizing seen with
  | nil => rfl
  | cons b cs ih =>
      rw [fresh]
      by_cases hb : seen.contains b = true
      · rw [if_pos hb, ih, List.contains_cons]
        cases hab : a == b with
        | false => rfl
        | true => rw [contains_congr seen hab, hb, Bool.not_true, Bool.and_false, Bool.and_false]
      · rw [if_neg hb, List.contains_cons, List.contains_cons, ih, List.contains_cons]
        cases hab : a == b with
        | false => rfl
        | true => rw [contains_congr seen hab]; simpa using hb

theorem pairwise_fresh (seen cs : List ClassName) :
    (fresh seen cs).Pairwise fun a b => (a == b) = false := by
  induction cs generalizing seen with
  | nil => exact List.Pairwise.nil
  | cons b cs ih =>
      rw [fresh]
      split
      · exact ih seen
      · refine List.pairwise_cons.2 ⟨fun a ha => ?_, ih (b :: seen)⟩
        have hnew := (contains_fresh (b :: seen) cs).symm.trans
          (List.contains_iff_exists_mem_beq.2 ⟨a, ha, BEq.refl a⟩)
        rw [List.contains_cons] at hnew
        rw [BEq.comm]
        simp_all

theorem contains_parents_iff :
    (parents edges b).contains a = true ↔ HasEdge edges b a := by
  simp [parents, HasEdge, BEq.comm (a := a)]

theorem HasEdge.of_contains (h : ∀ e ∈ edges, (parents edges' e.child).contains e.parent = true)
    (hedge : HasEdge edges b a) : HasEdge edges' b a := by
  obtain ⟨e, he, hchild, hparent⟩ := hedge
  obtain ⟨e', he', hchild', hparent'⟩ := contains_parents_iff.1 (h e he)
  exact ⟨e', he', BEq.trans hchild' hchild, BEq.trans hparent' hparent⟩

theorem contains_flatMap_parents_iff {level : List ClassName} :
    (level.flatMap (parents edges)).contains a = true ↔
      ∃ b, level.contains b = true ∧ HasEdge edges b a := by
  rw [List.contains_flatMap, List.any_eq_true]
  constructor
  · rintro ⟨b, hb, ha⟩
    exact ⟨b, List.contains_iff_exists_mem_beq.2 ⟨b, hb, BEq.refl b⟩, contains_parents_iff.1 ha⟩
  · rintro ⟨b, hb, e, he, hchild, hparent⟩
    obtain ⟨b', hb', hbb'⟩ := List.contains_iff_exists_mem_beq.1 hb
    exact ⟨b', hb', contains_parents_iff.2 ⟨e, he, BEq.trans hchild hbb', hparent⟩⟩

/-- The classes at one distance, and those nearer. -/
structure IsLevel (edges : List ParentEdge) (c : ClassName) (n : Nat)
    (seen level : List ClassName) : Prop where
  seen_iff : ∀ a, seen.contains a = true ↔ ∃ m < n, Distance edges c m a
  level_iff : ∀ a, level.contains a = true ↔ Distance edges c n a
  distinct : level.Pairwise fun a b => (a == b) = false

theorem isLevel_zero (edges : List ParentEdge) (c : ClassName) : IsLevel edges c 0 [] [c] where
  seen_iff a := by simp
  level_iff a := by
    rw [List.contains_cons, List.contains_nil, Bool.or_false, BEq.comm]
    constructor
    · exact fun h => ⟨.refl h, fun m hm => absurd hm (Nat.not_lt_zero m)⟩
    · rintro ⟨⟨h⟩, -⟩
      exact h
  distinct := List.pairwise_singleton _ c

theorem IsLevel.next {seen level : List ClassName} (h : IsLevel edges c n seen level) :
    IsLevel edges c (n + 1) (level ++ seen)
      (fresh (level ++ seen) (level.flatMap (parents edges))) := by
  have hseen : ∀ a, (level ++ seen).contains a = true ↔ ∃ m < n + 1, Distance edges c m a := by
    intro a
    rw [List.contains_append, Bool.or_eq_true, h.level_iff, h.seen_iff]
    constructor
    · rintro (hn | ⟨m, hm, hdistance⟩)
      · exact ⟨n, Nat.lt_succ_self n, hn⟩
      · exact ⟨m, Nat.lt_succ_of_lt hm, hdistance⟩
    · rintro ⟨m, hm, hdistance⟩
      rcases Nat.lt_succ_iff_lt_or_eq.1 hm with hm | rfl
      · exact Or.inr ⟨m, hm, hdistance⟩
      · exact Or.inl hdistance
  refine ⟨hseen, fun a => ?_, pairwise_fresh _ _⟩
  rw [contains_fresh, Bool.and_eq_true, Bool.not_eq_true', ← Bool.not_eq_true, hseen,
    contains_flatMap_parents_iff]
  constructor
  · rintro ⟨⟨b, hb, hedge⟩, hfar⟩
    refine ⟨.step ((h.level_iff b).1 hb).path hedge, fun m hm hpath => hfar ?_⟩
    obtain ⟨k, hk, hdistance⟩ := hpath.exists_distance
    exact ⟨k, Nat.lt_of_le_of_lt hk hm, hdistance⟩
  · intro hdistance
    obtain ⟨b, hb, hedge⟩ := hdistance.pred
    refine ⟨⟨b, (h.level_iff b).2 hb, hedge⟩, ?_⟩
    rintro ⟨m, hm, hnearer⟩
    exact absurd (hnearer.unique hdistance) (Nat.ne_of_lt hm)

/-- The first of two classes is listed before the second one. -/
def Precedes (edges : List ParentEdge) (c a b : ClassName) : Prop :=
  (a == b) = false ∧ ∀ m n, Distance edges c m a → Distance edges c n b → m ≤ n

theorem contains_of_mem {cs : List ClassName} (ha : a ∈ cs) : cs.contains a = true :=
  List.contains_iff_exists_mem_beq.2 ⟨a, ha, BEq.refl a⟩

theorem IsLevel.pairwise {seen level : List ClassName} (h : IsLevel edges c n seen level) :
    level.Pairwise (Precedes edges c) := by
  refine h.distinct.imp_of_mem fun {a b} ha hb hne => ⟨hne, fun i j hi hj => ?_⟩
  have hna := (h.level_iff a).1 (contains_of_mem ha)
  have hnb := (h.level_iff b).1 (contains_of_mem hb)
  exact Nat.le_of_eq ((hi.unique hna).trans (hj.unique hnb).symm)

theorem precedes_of_lt (ha : Distance edges c m a) (hb : Distance edges c n b) (hlt : m < n) :
    Precedes edges c a b := by
  constructor
  · by_contra hab
    have hnear := ha.congr (Bool.not_eq_false _ ▸ hab)
    exact absurd (hnear.unique hb) (Nat.ne_of_lt hlt)
  · intro i j hi hj
    rw [hi.unique ha, hj.unique hb]
    exact Nat.le_of_lt hlt

/-- The levels from one distance on list the classes from there to the last level. -/
theorem IsLevel.levels {seen level : List ClassName} (h : IsLevel edges c n seen level) (k : Nat) :
    (∀ a, (levels edges k seen level).contains a = true ↔
        ∃ m, n ≤ m ∧ m ≤ n + k ∧ Distance edges c m a) ∧
      (levels edges k seen level).Pairwise (Precedes edges c) := by
  induction k generalizing n seen level with
  | zero =>
      refine ⟨fun a => ?_, h.pairwise⟩
      rw [levels_zero, h.level_iff]
      constructor
      · exact fun hn => ⟨n, Nat.le_refl n, Nat.le_refl n, hn⟩
      · rintro ⟨m, hle, hge, hm⟩
        obtain rfl : m = n := Nat.le_antisymm hge hle
        exact hm
  | succ k ih =>
      obtain ⟨hcontains, hpairwise⟩ := ih h.next
      rw [Lineage.levels]
      constructor
      · intro a
        rw [List.contains_append, Bool.or_eq_true, h.level_iff, hcontains]
        constructor
        · rintro (hn | ⟨m, hle, hge, hm⟩)
          · exact ⟨n, Nat.le_refl n, Nat.le_add_right n _, hn⟩
          · exact ⟨m, by omega, by omega, hm⟩
        · rintro ⟨m, hle, hge, hm⟩
          rcases Nat.eq_or_lt_of_le hle with rfl | hlt
          · exact Or.inl hm
          · exact Or.inr ⟨m, hlt, by omega, hm⟩
      · refine List.pairwise_append.2 ⟨h.pairwise, hpairwise, fun a ha b hb => ?_⟩
        obtain ⟨m, hlt, -, hm⟩ := (hcontains b).1 (contains_of_mem hb)
        exact precedes_of_lt ((h.level_iff a).1 (contains_of_mem ha)) hm hlt

theorem listsByDistance_ofClass (edges : List ParentEdge) (c : ClassName) :
    ListsByDistance edges c (ofClass edges c) := by
  obtain ⟨hcontains, hpairwise⟩ := (isLevel_zero edges c).levels maxLevels
  refine ⟨rfl, hpairwise.imp And.left, fun a => ?_, hpairwise.imp And.right⟩
  rw [ofClass, hcontains]
  simp

/-- In a list by distance the classes that are nearer than one of them come before
it. -/
theorem ListsByDistance.exists_before {inner outer : List ClassName}
    (h : ListsByDistance edges c (inner ++ a :: outer)) (hpath : HasPath edges c m b)
    (hnearer : ∀ n, Distance edges c n a → m < n) : ∃ b' ∈ inner, b == b' := by
  have ha : (inner ++ a :: outer).contains a = true := contains_of_mem (by simp)
  obtain ⟨n, hn, hdistance⟩ := (h.contains_iff a).1 ha
  have hlt := hnearer n hdistance
  obtain ⟨k, hk, hb⟩ := hpath.exists_distance
  have hlisted := (h.contains_iff b).2 ⟨k, by omega, hb⟩
  obtain ⟨b', hmem, hbb'⟩ := List.contains_iff_exists_mem_beq.1 hlisted
  have hb' := hb.congr hbb'
  rcases List.mem_append.1 hmem with hinner | hrest
  · exact ⟨b', hinner, hbb'⟩
  · rcases List.mem_cons.1 hrest with rfl | houter
    · have hle := hnearer k hb'
      omega
    · have hsorted := (List.pairwise_cons.1 (List.pairwise_append.1 h.sorted).2.1).1 b' houter
      have hle := hsorted n k hdistance hb'
      omega

theorem contains_ancestors_iff :
    (ancestors edges c).contains a = true ↔
      (c == a) = false ∧ ∃ n, 1 ≤ n ∧ n ≤ maxLevels ∧ HasPath edges c n a := by
  have hlists := listsByDistance_ofClass edges c
  have hdistinct := hlists.distinct
  rw [ofClass_eq_cons, List.pairwise_cons] at hdistinct
  constructor
  · intro ha
    obtain ⟨b, hb, hab⟩ := List.contains_iff_exists_mem_beq.1 ha
    have hne : (c == a) = false := by
      rw [BEq.congr_right hab]
      exact hdistinct.1 b hb
    have hmem : (ofClass edges c).contains a = true := by
      rw [ofClass_eq_cons, List.contains_cons, ha, Bool.or_true]
    obtain ⟨n, hn, hdistance⟩ := (hlists.contains_iff a).1 hmem
    refine ⟨hne, n, ?_, hn, hdistance.path⟩
    rcases Nat.eq_zero_or_pos n with rfl | hpos
    · obtain ⟨⟨hca⟩, -⟩ := hdistance
      rw [hne] at hca
      cases hca
    · exact hpos
  · rintro ⟨hne, n, -, hn, hpath⟩
    obtain ⟨m, hm, hdistance⟩ := hpath.exists_distance
    have hmem := (hlists.contains_iff a).2 ⟨m, Nat.le_trans hm hn, hdistance⟩
    rw [ofClass_eq_cons, List.contains_cons, BEq.comm, hne, Bool.false_or] at hmem
    exact hmem

end Lineage

end RedundantCast
