import Mathlib.Data.List.Induction
import RedundantCast.Proofs.Tree.Arena

/-!
# Arenas represent what was added

After any acceptable additions, each node is looked up as it was added: its kind,
its span, and its entry in the pool for its kind and in no other.  The scopes are
numbered in order, and the parent of a node is the one whose child it is.  Later
additions change none of this, but for the parent of a node that had none.
-/

namespace RedundantCast

variable {fs gs : List (Form × Span)} {f : Form × Span} {i j : NodeId}

/-- How many of some forms open a scope. -/
def scopesIn (fs : List (Form × Span)) : Nat :=
  fs.countP fun f => f.1.kind.isScope

/-- The number of the scope that an addition opens: as many were opened before. -/
def scopeOf (fs : List (Form × Span)) (i : NodeId) : Option ScopeId :=
  fs[i]?.bind fun f => if f.1.kind.isScope then some (scopesIn (fs.take i)) else none

theorem scopesIn_append (fs : List (Form × Span)) (f : Form × Span) :
    scopesIn (fs ++ [f]) = scopesIn fs + if f.1.kind.isScope then 1 else 0 := by
  rw [scopesIn, List.countP_append, List.countP_singleton, scopesIn]

theorem take_succ_eq (hf : fs[i]? = some f) : fs.take (i + 1) = fs.take i ++ [f] := by
  rw [List.take_add_one, hf]
  rfl

theorem scopesIn_take_lt (hf : fs[i]? = some f) (hscope : f.1.kind.isScope) (hij : i < j) :
    scopesIn (fs.take i) < scopesIn (fs.take j) := by
  have hsucc : scopesIn (fs.take (i + 1)) = scopesIn (fs.take i) + 1 := by
    rw [take_succ_eq hf, scopesIn_append, if_pos hscope]
  have hle : scopesIn (fs.take (i + 1)) ≤ scopesIn (fs.take j) :=
    (List.take_sublist_take_left hij).countP_le
  omega

/-- The later of two scopes has the greater number. -/
theorem scopeOf_injective {s : ScopeId} (hi : scopeOf fs i = some s) (hj : scopeOf fs j = some s) :
    i = j := by
  have hnumber : ∀ {k : NodeId}, scopeOf fs k = some s →
      ∃ f, fs[k]? = some f ∧ f.1.kind.isScope ∧ scopesIn (fs.take k) = s := by
    intro k hk
    obtain ⟨f, hf, hs⟩ := Option.bind_eq_some_iff.1 hk
    split at hs
    · next hscope => exact ⟨f, hf, hscope, Option.some.inj hs⟩
    · cases hs
  obtain ⟨f, hf, hfscope, hfnumber⟩ := hnumber hi
  obtain ⟨g, hg, hgscope, hgnumber⟩ := hnumber hj
  rcases Nat.lt_trichotomy i j with hlt | heq | hlt
  · have := scopesIn_take_lt hf hfscope hlt
    omega
  · exact heq
  · have := scopesIn_take_lt hg hgscope hlt
    omega

/-! ## Trees -/

namespace Tree

theorem ofForms_append (fs : List (Form × Span)) (f : Form × Span) :
    ofForms (fs ++ [f]) = (ofForms fs).add f.1 f.2 := by
  rw [ofForms, List.foldl_append]
  rfl

theorem acceptsAll_append {t : Tree} :
    t.AcceptsAll (fs ++ gs) ↔
      t.AcceptsAll fs ∧ (fs.foldl (fun t f => t.add f.1 f.2) t).AcceptsAll gs := by
  induction fs generalizing t with
  | nil => simp [AcceptsAll]
  | cons f fs ih => simp [AcceptsAll, ih, and_assoc]

theorem size_ofForms (fs : List (Form × Span)) : (ofForms fs).size = fs.length := by
  induction fs using List.reverseRecOn with
  | nil => rfl
  | append_singleton fs f ih => rw [ofForms_append, size_add, ih, List.length_append]; rfl

theorem scopeCount_ofForms (fs : List (Form × Span)) : (ofForms fs).scopeCount = scopesIn fs := by
  induction fs using List.reverseRecOn with
  | nil => rfl
  | append_singleton fs f ih =>
      rw [ofForms_append, scopesIn_append, add, ih, Form.opensScope]
      split <;> rfl

/-- The node of an addition is there after all additions. -/
theorem node?_ofForms (hf : fs[i]? = some f) :
    ∃ n, (ofForms fs).node? (some i) = some n ∧ n.form = f.1.normalize ∧
      n.span = (ofForms (fs.take i)).spanOf f.1 f.2 ∧ n.scope = scopeOf fs i := by
  induction fs using List.reverseRecOn with
  | nil => cases hf
  | append_singleton fs g ih =>
      obtain ⟨n, hn, hform, hspan, hscope⟩ : ∃ n,
          (if i = (ofForms fs).size then some ((ofForms fs).newNode g.1 g.2)
            else (ofForms fs).node? (some i)) = some n ∧ n.form = f.1.normalize ∧
          n.span = (ofForms ((fs ++ [g]).take i)).spanOf f.1 f.2 ∧
          n.scope = scopeOf (fs ++ [g]) i := by
        by_cases hi : i < fs.length
        · rw [List.getElem?_append_left hi] at hf
          rw [if_neg (size_ofForms fs ▸ Nat.ne_of_lt hi), scopeOf, List.getElem?_append_left hi,
            List.take_append_of_le_length (Nat.le_of_lt hi)]
          exact ih hf
        · obtain rfl : i = fs.length := by
            have hlt := (List.getElem?_eq_some_iff.1 hf).1
            rw [List.length_append, List.length_singleton] at hlt
            exact Nat.le_antisymm (Nat.le_of_lt_succ hlt) (Nat.le_of_not_lt hi)
          rw [List.getElem?_concat_length] at hf
          obtain rfl := Option.some.inj hf
          rw [if_pos (size_ofForms fs).symm, scopeOf, List.getElem?_concat_length, List.take_left,
            ← scopeCount_ofForms]
          exact ⟨_, rfl, rfl, rfl, rfl⟩
      rw [ofForms_append, node?_add, hn]
      refine ⟨_, rfl, ?_, ?_, ?_⟩
      · split <;> exact hform
      · split <;> exact hspan
      · split <;> exact hscope

/-- A node keeps the parent that it has. -/
theorem parent_foldl_add {t : Tree} {p : NodeId} (hgs : t.AcceptsAll gs)
    (hp : t.parent (some i) = some p) :
    (gs.foldl (fun t f => t.add f.1 f.2) t).parent (some i) = some p := by
  induction gs generalizing t with
  | nil => exact hp
  | cons g gs ih =>
      refine ih hgs.2 ?_
      have hi : i ∉ g.1.children := fun hmem => by
        rw [hgs.1.orphan i hmem] at hp
        cases hp
      rw [parent_add hgs.1, if_neg hi, hp]

end Tree

/-! ## Arenas -/

theorem Form.stored?_of_not_opensScope {f : Form} (h : f.opensScope = false) (s s' : ScopeId)
    (p : Pool) : f.stored? s p = f.stored? s' p := by
  cases f <;> first
    | exact absurd h.symm Bool.false_ne_true
    | cases p <;> rfl

namespace Arena

variable {a : Arena} {t : Tree} {form : Form}

/-- What the children of a node that is added must satisfy. -/
structure Accepts (a : Arena) (form : Form) : Prop where
  exist : ∀ c ∈ form.children, c < a.size
  orphan : ∀ c ∈ form.children, a.parent (some c) = none
  nodup : form.children.Nodup

/-- Whether each form can be added to the nodes of those before it. -/
def AcceptsAll (a : Arena) : List (Form × Span) → Prop
  | [] => True
  | f :: fs => a.Accepts f.1 ∧ (a.add f.1 f.2).2.AcceptsAll fs

/-- The nodes are those that were added, in order. -/
structure Represents (fs : List (Form × Span)) (a : Arena) : Prop where
  size : a.size = fs.length
  /-- An addition gives the number of nodes before it. -/
  position : ∀ form span, (a.add form span).1 = fs.length
  kind : ∀ i, a.kind? (some i) = fs[i]?.map fun f => f.1.kind
  span : ∀ i, a.span? (some i) = fs[i]?.map fun f => (ofForms (fs.take i)).spanOf f.1 f.2
  entry : ∀ i p, a.stored? p (some i) =
    fs[i]?.bind fun f => f.1.normalize.stored? (scopesIn (fs.take i)) p
  pool : ∀ i p, (a.stored? p (some i)).isSome ↔ ∃ f, fs[i]? = some f ∧ p.holds f.1.kind
  scope : ∀ i, a.scope? (some i) = scopeOf fs i
  scope_injective : ∀ i j s, a.scope? (some i) = some s → a.scope? (some j) = some s → i = j
  parent : ∀ c p, a.parent (some c) = some p ↔ c ∈ a.children (some p)
  lt_parent : ∀ c p, a.parent (some c) = some p → c < p
  /-- A node is added without a parent. -/
  root : ∀ i, a.size = i + 1 → a.parent (some i) = none

/-- The nodes of an arena are in another one as they were, and keep the parents
they have. -/
structure Extends (a b : Arena) : Prop where
  size : a.size ≤ b.size
  kind : ∀ i < a.size, b.kind? (some i) = a.kind? (some i)
  span : ∀ i < a.size, b.span? (some i) = a.span? (some i)
  entry : ∀ i < a.size, ∀ p, b.stored? p (some i) = a.stored? p (some i)
  scope : ∀ i < a.size, b.scope? (some i) = a.scope? (some i)
  parent : ∀ i p, a.parent (some i) = some p → b.parent (some i) = some p

namespace Holds

theorem accepts_iff (h : a.Holds t) : a.Accepts form ↔ t.Accepts form := by
  constructor
  · rintro ⟨hexist, horphan, hnodup⟩
    exact ⟨h.size ▸ hexist, fun c hc => (h.parent_eq _).symm.trans (horphan c hc), hnodup⟩
  · rintro ⟨hexist, horphan, hnodup⟩
    exact ⟨h.size ▸ hexist, fun c hc => (h.parent_eq _).trans (horphan c hc), hnodup⟩

theorem acceptsAll_iff (h : a.Holds t) : a.AcceptsAll fs ↔ t.AcceptsAll fs := by
  induction fs generalizing a t with
  | nil => exact Iff.rfl
  | cons f fs ih => exact and_congr h.accepts_iff (ih (h.add f.1 f.2))

end Holds

/-- The arena has at each position the node that was added there. -/
theorem shows_ofForms (hf : fs[i]? = some f) :
    ∃ n, (ofForms fs).Shows i n ∧ n.form = f.1.normalize ∧
      n.span = (ofForms (fs.take i)).spanOf f.1 f.2 ∧ n.scope = scopeOf fs i := by
  obtain ⟨n, hn, hform, hspan, hscope⟩ := Tree.node?_ofForms hf
  refine ⟨n, (holds_ofForms fs).shows i n hn, hform, ?_, hscope⟩
  rw [hspan, (holds_ofForms (fs.take i)).spanOf_eq]

theorem header?_ofForms (hf : fs[i]? = none) : (ofForms fs).header? (some i) = none := by
  refine (holds_ofForms fs).header?_eq_none (Tree.node?_of_size_le ?_)
  rw [Tree.size_ofForms]
  exact List.getElem?_eq_none_iff.1 hf

theorem kind?_ofForms (fs : List (Form × Span)) (i : NodeId) :
    (ofForms fs).kind? (some i) = fs[i]?.map fun f => f.1.kind := by
  cases hf : fs[i]? with
  | none => rw [kind?, header?_ofForms hf, Option.map_none, Option.map_none]
  | some f =>
      obtain ⟨n, hn, hform, -, -⟩ := shows_ofForms hf
      rw [hn.kind, hform, Form.kind_normalize, Option.map_some]

theorem span?_ofForms (fs : List (Form × Span)) (i : NodeId) :
    (ofForms fs).span? (some i) =
      fs[i]?.map fun f => (ofForms (fs.take i)).spanOf f.1 f.2 := by
  cases hf : fs[i]? with
  | none => rw [span?, header?_ofForms hf, Option.map_none, Option.map_none]
  | some f =>
      obtain ⟨n, hn, -, hspan, -⟩ := shows_ofForms hf
      rw [hn.span, hspan, Option.map_some]

theorem scope?_ofForms (fs : List (Form × Span)) (i : NodeId) :
    (ofForms fs).scope? (some i) = scopeOf fs i := by
  cases hf : fs[i]? with
  | none => rw [scope?, kind?, header?_ofForms hf, scopeOf, hf]; rfl
  | some f =>
      obtain ⟨n, hn, -, -, hscope⟩ := shows_ofForms hf
      rw [hn.scope?_eq, hscope]

theorem stored?_ofForms (fs : List (Form × Span)) (i : NodeId) (p : Pool) :
    (ofForms fs).stored? p (some i) =
      fs[i]?.bind fun f => f.1.normalize.stored? (scopesIn (fs.take i)) p := by
  cases hf : fs[i]? with
  | none => rw [stored?, header?_ofForms hf, Option.bind_none, Option.bind_none]
  | some f =>
      obtain ⟨n, hn, hform, -, hscope⟩ := shows_ofForms hf
      rw [hn.entry, hform, hscope, scopeOf, hf, Option.bind_some, Option.bind_some]
      split
      · rfl
      · next hnone =>
        refine Form.stored?_of_not_opensScope ?_ _ _ p
        rw [Form.opensScope, Form.kind_normalize]
        exact Bool.eq_false_iff.2 hnone

theorem represents_ofForms (hfs : empty.AcceptsAll fs) : Represents fs (ofForms fs) := by
  have h := holds_ofForms fs
  have ht := Tree.wellFormed_ofForms (holds_empty.acceptsAll_iff.1 hfs)
  have hparent : ∀ {c p}, (ofForms fs).parent (some c) = some p →
      c ∈ (Tree.ofForms fs).children (some p) := fun hp =>
    ht.mem_children_iff.2 ((h.parent_eq _).symm.trans hp)
  refine ⟨h.size.trans (Tree.size_ofForms fs), fun form span => ?_, kind?_ofForms fs,
    span?_ofForms fs, stored?_ofForms fs, fun i p => ?_, scope?_ofForms fs, fun i j s hi hj => ?_,
    fun c p => ?_, fun c p hp => ht.lt_of_mem_children (hparent hp), fun i hsize => ?_⟩
  · obtain ⟨p, entry, children, hadd, -⟩ := add_eq_insert (ofForms fs) form span
    rw [hadd, insert, ← Tree.size_ofForms, ← h.size]
    split <;> rfl
  · rw [stored?_ofForms]
    cases fs[i]? with
    | none => simp
    | some f =>
        rw [Option.bind_some, Form.isSome_stored?, Form.kind_normalize]
        constructor
        · exact fun hp => ⟨f, rfl, hp⟩
        · rintro ⟨g, hg, hp⟩
          exact Option.some.inj hg ▸ hp
  · rw [scope?_ofForms] at hi hj
    exact scopeOf_injective hi hj
  · rw [h.parent_eq, h.children_eq]
    exact ht.mem_children_iff.symm
  · cases hp : (ofForms fs).parent (some i) with
    | none => rfl
    | some p =>
        have hlt := ht.lt_of_mem_children (hparent hp)
        have hbound : p < i + 1 := hsize ▸ h.size ▸ Tree.lt_size_of_mem_children (hparent hp)
        exact absurd (Nat.lt_of_lt_of_le hlt (Nat.le_of_lt_succ hbound)) (Nat.lt_irrefl i)

theorem extends_ofForms (hfs : empty.AcceptsAll (fs ++ gs)) :
    (ofForms fs).Extends (ofForms (fs ++ gs)) := by
  have hsize : (ofForms fs).size = fs.length := (holds_ofForms fs).size.trans (Tree.size_ofForms fs)
  have hget : ∀ i < (ofForms fs).size, (fs ++ gs)[i]? = fs[i]? := fun i hi =>
    List.getElem?_append_left (hsize ▸ hi)
  have htake : ∀ i < (ofForms fs).size, (fs ++ gs).take i = fs.take i := fun i hi =>
    List.take_append_of_le_length (Nat.le_of_lt (hsize ▸ hi))
  refine ⟨?_, fun i hi => ?_, fun i hi => ?_, fun i hi p => ?_, fun i hi => ?_, fun i p hp => ?_⟩
  · rw [hsize, (holds_ofForms _).size, Tree.size_ofForms, List.length_append]
    exact Nat.le_add_right _ _
  · rw [kind?_ofForms, kind?_ofForms, hget i hi]
  · rw [span?_ofForms, span?_ofForms, hget i hi, htake i hi]
  · rw [stored?_ofForms, stored?_ofForms, hget i hi, htake i hi]
  · rw [scope?_ofForms, scope?_ofForms, scopeOf, hget i hi, htake i hi, scopeOf]
  · have hgs := (Tree.acceptsAll_append.1 (holds_empty.acceptsAll_iff.1 hfs)).2
    rw [(holds_ofForms _).parent_eq] at hp ⊢
    rw [Tree.ofForms, List.foldl_append]
    exact Tree.parent_foldl_add hgs hp

/-- At every point of acceptable additions the nodes are those added so far, and
what they were before is kept. -/
theorem additions_represented (hfs : empty.AcceptsAll fs) {m n : Nat} (hmn : m ≤ n) :
    Represents (fs.take n) (ofForms (fs.take n)) ∧
      (ofForms (fs.take m)).Extends (ofForms (fs.take n)) := by
  have hn : empty.AcceptsAll (fs.take n) := by
    rw [holds_empty.acceptsAll_iff, ← List.take_append_drop n fs] at hfs
    exact holds_empty.acceptsAll_iff.2 (Tree.acceptsAll_append.1 hfs).1
  have hsplit : fs.take m ++ (fs.take n).drop m = fs.take n := by
    conv => rhs; rw [← List.take_append_drop m (fs.take n)]
    rw [List.take_take, Nat.min_eq_left hmn]
  exact ⟨represents_ofForms hn, hsplit ▸ extends_ofForms (hsplit.symm ▸ hn)⟩

/-- A file with one cast. -/
def castInFile : List (Form × Span) :=
  [(.var "$x", ⟨11, 13⟩), (.cast "( INT )" ⟨6, 11⟩ (some 0), ⟨0, 0⟩),
    (.expressionStatement (some 1), ⟨6, 14⟩), (.sourceFile "a.php" [none, some 2], ⟨0, 14⟩)]

theorem additions_represented_castInFile :
    Represents castInFile (ofForms castInFile) ∧
      (ofForms (castInFile.take 2)).Extends (ofForms castInFile) := by
  have hfs : empty.AcceptsAll castInFile := holds_empty.acceptsAll_iff.2 (by decide)
  have hmn : 2 ≤ 4 := by decide
  exact additions_represented hfs hmn

end Arena

end RedundantCast
