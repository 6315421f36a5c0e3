import RedundantCast.Proofs.Tree.WellFormed
import RedundantCast.Tree.Arena

/-!
# Arenas hold trees

An arena and a tree to which the same forms are added hold the same nodes.  Each
addition puts its entry where the pool for its kind is looked up and leaves all
other entries alone.
-/

namespace RedundantCast

/-- The entry that a form makes in a pool.  A form that opens a scope keeps its
number. -/
def Form.stored? (f : Form) (scope : ScopeId) : (p : Pool) → Option p.Entry
  | .sourceFile => f.sourceFile?.map fun e => ⟨e.1, e.2, scope⟩
  | .function =>
    f.function?.map fun e =>
      ⟨e.name, e.parameters, e.captures, e.hasNativeReturn, e.isStatic, e.body, scope⟩
  | .classDeclaration => f.classDeclaration?
  | .returned => f.returned?
  | .statement => f.statement?
  | .var => f.var?
  | .literal => f.literalText?
  | .array => f.arrayItems?
  | .new => f.new?
  | .access => f.access?
  | .call => f.call?
  | .cast => f.cast?.map fun e => ⟨.ofKeyword e.1, e.1, e.2.1, e.2.2⟩
  | .binary => f.binary?
  | .unary => f.unary?
  | .parenthesized => f.parenthesized?
  | .assignment => f.assignment?
  | .other => f.otherItems?

theorem Form.isSome_stored? (f : Form) (scope : ScopeId) (p : Pool) :
    (f.stored? scope p).isSome = p.holds f.kind := by
  cases f <;> cases p <;> rfl

/-- Each kind has one pool. -/
theorem Pool.eq_of_holds {p q : Pool} {k : Kind} (hp : p.holds k) (hq : q.holds k) : p = q := by
  cases k <;> cases p <;> first
    | exact absurd hp Bool.false_ne_true
    | cases q <;> first | rfl | exact absurd hq Bool.false_ne_true

namespace Tree

variable (t : Tree) (form : Form) (span : Span)

theorem getD_scope_newNode :
    (t.newNode form span).scope.getD 0 = if form.opensScope then t.scopeCount else 0 := by
  rw [newNode]
  cases form.opensScope <;> rfl

end Tree

namespace Arena

/-- The span that a new node gets: a cast covers its token and its operand, any
other node has the span it is given. -/
def spanOf (a : Arena) (f : Form) (span : Span) : Span :=
  match f with
  | .cast _ token operand => (a.span? operand).elim token token.cover
  | _ => span

variable {a : Arena} {t : Tree} {p : Pool} {entry : p.Entry} {i : NodeId} {n : Node}

/-! ## Insertions -/

theorem foldl_setParent (parent : NodeId) (children : List NodeRef) (a : Arena) :
    children.foldl (setParent parent) a =
      { a with
        parents := (children.filterMap id).foldl
          (fun parents child => parents.modify child fun _ => some parent) a.parents } := by
  induction children generalizing a with
  | nil => rfl
  | cons c cs ih => cases c <;> exact ih _

theorem size_foldl_setParent (parent : NodeId) (children : List NodeRef) (a : Arena) :
    (children.foldl (setParent parent) a).parents.size = a.parents.size := by
  induction children generalizing a with
  | nil => rfl
  | cons c cs ih =>
      rw [List.foldl_cons, ih]
      cases c with
      | none => rfl
      | some child => exact Array.size_modify

theorem getElem?_foldl_modify (parent : NodeRef) (children : List NodeId)
    (parents : Array NodeRef) (i : NodeId) :
    (children.foldl (fun parents child => parents.modify child fun _ => parent) parents)[i]? =
      if i ∈ children then parents[i]?.map fun _ => parent else parents[i]? := by
  induction children generalizing parents with
  | nil => simp
  | cons c cs ih =>
      rw [List.foldl_cons, ih, Array.getElem?_modify]
      by_cases hc : i = c
      · subst hc
        cases parents[i]? <;> simp
      · simp [hc, Ne.symm hc]

/-- A node that is new has no parent, and neither has a node that is not there. -/
theorem parent_push (a : Arena) (kind : Kind) (span : Span) (entry : p.Entry) (ref : NodeRef) :
    (a.push kind span p entry).parent ref = a.parent ref := by
  cases ref with
  | none => rfl
  | some i =>
      change (a.parents.push none)[i]?.join = a.parents[i]?.join
      rw [Array.getElem?_push]
      split
      · next hlast => rw [hlast, Array.getElem?_eq_none (Nat.le_refl _)]; rfl
      · rfl

/-- Every addition is an insertion into the pool for its kind. -/
theorem add_eq_insert (a : Arena) (form : Form) (span : Span) :
    ∃ p entry children,
      a.add form span = (if form.opensScope then a.openScope else a).insert form.kind
        (a.spanOf form span) p entry children ∧
      p.holds form.kind ∧
      form.normalize.stored? (if form.opensScope then a.scopeCount else 0) p = some entry ∧
      children.filterMap id = form.children := by
  cases form <;> exact ⟨_, _, _, rfl, rfl, rfl, rfl⟩

/-! ## One node -/

/-- The arena gives the parts of the node at a position. -/
structure Shows (a : Arena) (i : NodeId) (n : Node) : Prop where
  kind : a.kind? (some i) = some n.form.kind
  span : a.span? (some i) = some n.span
  parent : a.parent (some i) = n.parent
  entry : ∀ p, a.stored? p (some i) = n.form.stored? (n.scope.getD 0) p
  scope : n.scope.isSome = n.form.opensScope

namespace Shows

theorem scope?_eq (h : a.Shows i n) : a.scope? (some i) = n.scope := by
  obtain ⟨form, span, scope, parent⟩ := n
  obtain ⟨hkind, -, -, hentry, hscope⟩ := h
  rw [scope?, hkind]
  cases form
  case sourceFile | function =>
    obtain ⟨s, rfl⟩ := Option.isSome_iff_exists.1 hscope
    simp only [Form.kind, hentry]
    rfl
  all_goals
    obtain rfl : scope = none := Option.isNone_iff_eq_none.1 (Option.isSome_eq_false_iff.1 hscope)
    rfl

theorem references_eq (h : a.Shows i n) :
    (a.references (some i)).filterMap id = n.form.children := by
  obtain ⟨form, span, scope, parent⟩ := n
  rw [references, h.kind]
  cases form <;> (simp only [Form.kind, h.entry]; rfl)

theorem form?_eq (h : a.Shows i n) : a.form? (some i) = some n.form := by
  obtain ⟨form, span, scope, parent⟩ := n
  rw [form?, h.kind]
  cases form <;> (simp only [Form.kind, Option.bind_some, h.entry]; rfl)

theorem node?_eq (h : a.Shows i n) : a.node? (some i) = some n := by
  rw [node?, h.form?_eq, h.span, h.scope?_eq, h.parent]
  rfl

theorem openScope (h : a.Shows i n) : a.openScope.Shows i n :=
  ⟨h.kind, h.span, h.parent, h.entry, h.scope⟩

theorem place_lt (h : a.Shows i n) {header : Header} (hheader : a.header? (some i) = some header)
    (hp : p.holds header.kind) : header.place < (a.pools.get p).size := by
  have hkind : some header.kind = some n.form.kind := by
    rw [← h.kind, kind?, hheader, Option.map_some]
  have hsome : (a.stored? p (some i)).isSome := by
    rw [h.entry, Form.isSome_stored?, ← Option.some.inj hkind, hp]
  rwa [stored?, hheader, Option.bind_some, if_pos hp, isSome_getElem?] at hsome

/-- An old node keeps its entry, whatever pool the new one goes to. -/
theorem push (h : a.Shows i n) (kind : Kind) (span : Span) (entry : p.Entry) :
    (a.push kind span p entry).Shows i n := by
  obtain ⟨header, hheader, -⟩ := Option.map_eq_some_iff.1 h.kind
  have hi : i < a.headers.size := (Array.getElem?_eq_some_iff.1 hheader).1
  have hkeep : (a.push kind span p entry).header? (some i) = a.header? (some i) := by
    change (a.headers.push _)[i]? = a.headers[i]?
    rw [Array.getElem?_push, if_neg (Nat.ne_of_lt hi)]
  have hentry : ∀ q, (a.push kind span p entry).stored? q (some i) = a.stored? q (some i) := by
    intro q
    rw [stored?, hkeep, stored?, hheader, Option.bind_some, Option.bind_some]
    by_cases hq : q.holds header.kind
    · rw [if_pos hq, if_pos hq]
      change ((a.pools.push p entry).get q)[header.place]? = _
      by_cases hqp : q = p
      · subst hqp
        have hplace := h.place_lt hheader hq
        rw [Pools.get_push_self, Array.getElem?_push, if_neg (Nat.ne_of_lt hplace)]
      · rw [Pools.get_push_of_ne hqp]
    · rw [if_neg hq, if_neg hq]
  have hparent := (a.parent_push kind span entry (some i)).trans h.parent
  refine ⟨?_, ?_, hparent, fun q => (hentry q).trans (h.entry q), h.scope⟩
  · rw [kind?, hkeep]
    exact h.kind
  · rw [span?, hkeep]
    exact h.span

/-- The new node has its entry in the pool for its kind and in no other. -/
theorem push_self (hparents : a.parents.size = a.size) (hparent : n.parent = none)
    (hp : p.holds n.form.kind) (hentry : n.form.stored? (n.scope.getD 0) p = some entry)
    (hscope : n.scope.isSome = n.form.opensScope) :
    (a.push n.form.kind n.span p entry).Shows a.size n := by
  have hheader : (a.push n.form.kind n.span p entry).header? (some a.size) =
      some ⟨n.form.kind, n.span, (a.pools.get p).size⟩ := Array.getElem?_push_size
  refine ⟨?_, ?_, ?_, fun q => ?_, hscope⟩
  · rw [kind?, hheader, Option.map_some]
  · rw [span?, hheader, Option.map_some]
  · rw [parent_push, hparent]
    exact congrArg Option.join (Array.getElem?_eq_none (Nat.le_of_eq hparents))
  · rw [stored?, hheader, Option.bind_some]
    by_cases hq : q.holds n.form.kind
    · obtain rfl := Pool.eq_of_holds hp hq
      rw [if_pos hq, hentry]
      change ((a.pools.push p entry).get p)[(a.pools.get p).size]? = some entry
      rw [Pools.get_push_self, Array.getElem?_push_size]
    · have hnone : (n.form.stored? (n.scope.getD 0) q).isSome = false := by
        rw [Form.isSome_stored?]
        exact Bool.eq_false_iff.2 hq
      rw [if_neg hq, Option.isNone_iff_eq_none.1 (Option.isSome_eq_false_iff.1 hnone)]

theorem setParents (h : a.Shows i n) (hi : i < a.parents.size) (parent : NodeId)
    (children : List NodeRef) :
    (children.foldl (setParent parent) a).Shows i
      (if i ∈ children.filterMap id then { n with parent := some parent } else n) := by
  have hshows : ∀ (parents : Array NodeRef) (q : NodeRef), parents[i]?.join = q →
      Shows { a with parents := parents } i { n with parent := q } :=
    fun _ _ hq => ⟨h.kind, h.span, hq, h.entry, h.scope⟩
  have hparents := getElem?_foldl_modify (some parent) (children.filterMap id) a.parents i
  rw [foldl_setParent]
  split
  · next hmem =>
    rw [if_pos hmem, Array.getElem?_eq_getElem hi, Option.map_some] at hparents
    exact hshows _ (some parent) (congrArg Option.join hparents)
  · next hmem =>
    rw [if_neg hmem] at hparents
    exact hshows _ n.parent ((congrArg Option.join hparents).trans h.parent)

end Shows

/-! ## All nodes -/

theorem filterMap_getElem?_range {α : Type} (xs : List α) :
    ((List.range xs.length).filterMap fun i => xs[i]?) = xs := by
  induction xs with
  | nil => rfl
  | cons x xs ih =>
      rw [List.length_cons, List.range_succ_eq_map, List.filterMap_cons, List.filterMap_map]
      exact congrArg (x :: ·) ih

/-- The arena and the tree have the same nodes. -/
structure Holds (a : Arena) (t : Tree) : Prop where
  size : a.size = t.size
  parents : a.parents.size = a.size
  scopeCount : a.scopeCount = t.scopeCount
  shows : ∀ i n, t.node? (some i) = some n → a.Shows i n

theorem holds_empty : empty.Holds .empty :=
  ⟨rfl, rfl, rfl, nofun⟩

namespace Holds

theorem size_le (h : a.Holds t) (hn : t.node? (some i) = none) : a.size ≤ i := by
  by_contra hi
  have hsome := Tree.isSome_node?.2 (h.size ▸ Nat.lt_of_not_le hi)
  rw [hn] at hsome
  cases hsome

theorem header?_eq_none (h : a.Holds t) (hn : t.node? (some i) = none) :
    a.header? (some i) = none :=
  Array.getElem?_eq_none (h.size_le hn)

theorem span?_eq (h : a.Holds t) (ref : NodeRef) : a.span? ref = t.span? ref := by
  cases ref with
  | none => rfl
  | some i =>
      rw [Tree.span?]
      cases hn : t.node? (some i) with
      | none => rw [span?, h.header?_eq_none hn, Option.map_none, Option.map_none]
      | some n => rw [(h.shows i n hn).span, Option.map_some]

theorem spanOf_eq (h : a.Holds t) (form : Form) (span : Span) :
    a.spanOf form span = t.spanOf form span := by
  cases form
  case cast keyword token operand => rw [spanOf, Tree.spanOf, h.span?_eq]
  all_goals rfl

theorem parent_eq (h : a.Holds t) (ref : NodeRef) : a.parent ref = t.parent ref := by
  cases ref with
  | none => rfl
  | some i =>
      rw [Tree.parent]
      cases hn : t.node? (some i) with
      | none =>
          have hsize : a.parents.size ≤ i := h.parents ▸ h.size_le hn
          exact congrArg Option.join (Array.getElem?_eq_none hsize)
      | some n => rw [(h.shows i n hn).parent, Option.bind_some]

theorem children_eq (h : a.Holds t) (ref : NodeRef) : a.children ref = t.children ref := by
  cases ref with
  | none => rfl
  | some i =>
      rw [Tree.children, Tree.form?]
      cases hn : t.node? (some i) with
      | none =>
          rw [children, references, kind?, h.header?_eq_none hn]
          rfl
      | some n => exact (h.shows i n hn).references_eq

/-- An addition to both makes the same node and notes it on the same children. -/
theorem add (h : a.Holds t) (form : Form) (span : Span) :
    (a.add form span).2.Holds (t.add form span) := by
  obtain ⟨p, entry, children, hadd, hp, hentry, hchildren⟩ := add_eq_insert a form span
  rw [hadd]
  -- Giving out a scope changes no node.
  obtain ⟨b, hb, hsize, hparents, hcount, hshows⟩ : ∃ b : Arena,
      (if form.opensScope then a.openScope else a) = b ∧ b.size = t.size ∧
        b.parents.size = t.size ∧ b.scopeCount = (t.add form span).scopeCount ∧
        ∀ i n, t.node? (some i) = some n → b.Shows i n := by
    refine ⟨_, rfl, ?_⟩
    have hparents := h.parents.trans h.size
    rw [Tree.add]
    cases form.opensScope with
    | false => exact ⟨h.size, hparents, h.scopeCount, h.shows⟩
    | true =>
        exact ⟨h.size, hparents, congrArg (· + 1) h.scopeCount,
          fun i n hn => (h.shows i n hn).openScope⟩
  rw [hb, insert, hsize]
  have hnew : (b.push form.kind (a.spanOf form span) p entry).Shows t.size
      (t.newNode form span) := by
    rw [h.spanOf_eq, ← hsize, ← Form.kind_normalize]
    refine Shows.push_self (n := t.newNode form span) (hparents.trans hsize.symm) rfl
      (form.kind_normalize.symm ▸ hp) ?_ (t.isSome_scope_newNode form span)
    rw [t.getD_scope_newNode, ← h.scopeCount]
    exact hentry
  have hpushed : (b.push form.kind (a.spanOf form span) p entry).parents.size = t.size + 1 := by
    rw [← hparents]
    exact Array.size_push _
  refine ⟨?_, ?_, ?_, fun i n hn => ?_⟩
  · rw [foldl_setParent, Tree.size_add, ← hsize]
    exact Array.size_push _
  · rw [size_foldl_setParent, hpushed, foldl_setParent, ← hsize]
    exact (Array.size_push _).symm
  · rw [foldl_setParent]
    exact hcount
  · have hlt : i < t.size + 1 := by
      rw [← Tree.size_add t form span]
      exact Tree.isSome_node?.1 (hn ▸ rfl)
    rw [Tree.node?_add, ← hchildren] at hn
    obtain ⟨m, hm, rfl⟩ := Option.map_eq_some_iff.1 hn
    have hshows : (b.push form.kind (a.spanOf form span) p entry).Shows i m := by
      split at hm
      · next hi =>
        obtain rfl := Option.some.inj hm
        rw [hi]
        exact hnew
      · exact (hshows i m hm).push _ _ _
    exact hshows.setParents (hpushed ▸ hlt) t.size children

theorem node?_eq (h : a.Holds t) (i : NodeId) : a.node? (some i) = t.nodes[i]? := by
  rw [← Tree.node?_some]
  cases hn : t.node? (some i) with
  | none =>
      rw [node?, form?, kind?, h.header?_eq_none hn]
      rfl
  | some n => exact (h.shows i n hn).node?_eq

theorem tree_eq (h : a.Holds t) : a.tree = t := by
  have hnode : (fun i : NodeId => a.node? (some i)) = fun i => t.nodes.toList[i]? :=
    funext fun i => (h.node?_eq i).trans Array.getElem?_toList.symm
  have hnodes : ((List.range a.size).filterMap fun i => a.node? (some i)) = t.nodes.toList := by
    rw [hnode, h.size]
    exact filterMap_getElem?_range t.nodes.toList
  rw [tree, hnodes, h.scopeCount]

end Holds

theorem holds_ofForms (fs : List (Form × Span)) : (ofForms fs).Holds (.ofForms fs) := by
  suffices h : ∀ (a : Arena) (t : Tree), a.Holds t →
      (fs.foldl (fun a f => (a.add f.1 f.2).2) a).Holds
        (fs.foldl (fun t f => t.add f.1 f.2) t) from h _ _ holds_empty
  induction fs with
  | nil => exact fun _ _ h => h
  | cons f fs ih => exact fun a t h => ih _ _ (h.add f.1 f.2)

/-- The tree that is read from the storage is the one that the additions make. -/
theorem tree_ofForms (fs : List (Form × Span)) : (ofForms fs).tree = .ofForms fs :=
  (holds_ofForms fs).tree_eq

end Arena

end RedundantCast
