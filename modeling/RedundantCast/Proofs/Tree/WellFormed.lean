import Mathlib.Order.Basic
import RedundantCast.Tree.Basic

/-!
# Well-formed trees

A well-formed tree is grown by additions whose children exist, have no parent
yet and are named only once. Such a tree is a forest: a node is a child of
exactly its parent, and it comes before its parent.
-/

namespace RedundantCast

namespace Tree

/-- What the children of a node that is added must satisfy. -/
structure Accepts (t : Tree) (form : Form) : Prop where
  exist : ∀ c ∈ form.children, c < t.size
  orphan : ∀ c ∈ form.children, t.parent (some c) = none
  nodup : form.children.Nodup

instance (t : Tree) (form : Form) : Decidable (t.Accepts form) :=
  decidable_of_iff
    ((∀ c ∈ form.children, c < t.size) ∧ (∀ c ∈ form.children, t.parent (some c) = none) ∧
      form.children.Nodup)
    ⟨fun h => ⟨h.1, h.2.1, h.2.2⟩, fun h => ⟨h.exist, h.orphan, h.nodup⟩⟩

/-- The trees that additions build from nothing. -/
inductive WellFormed : Tree → Prop where
  | empty : WellFormed empty
  | add {t : Tree} {form : Form} (span : Span) :
      WellFormed t → t.Accepts form → WellFormed (t.add form span)

/-- Whether each form can be added to the tree of those before it. -/
def AcceptsAll (t : Tree) : List (Form × Span) → Prop
  | [] => True
  | f :: fs => t.Accepts f.1 ∧ (t.add f.1 f.2).AcceptsAll fs

instance decidableAcceptsAll (t : Tree) : (fs : List (Form × Span)) → Decidable (t.AcceptsAll fs)
  | [] => inferInstanceAs (Decidable True)
  | f :: fs =>
    have := decidableAcceptsAll (t.add f.1 f.2) fs
    inferInstanceAs (Decidable (t.Accepts f.1 ∧ (t.add f.1 f.2).AcceptsAll fs))

theorem WellFormed.foldl_add {t : Tree} (ht : t.WellFormed) {fs : List (Form × Span)}
    (hfs : t.AcceptsAll fs) : (fs.foldl (fun t f => t.add f.1 f.2) t).WellFormed := by
  induction fs generalizing t with
  | nil => exact ht
  | cons f fs ih => exact ih (ht.add f.2 hfs.1) hfs.2

theorem wellFormed_ofForms {fs : List (Form × Span)} (hfs : empty.AcceptsAll fs) :
    (ofForms fs).WellFormed :=
  WellFormed.empty.foldl_add hfs

/-! ## What an addition changes -/

theorem getElem?_adopt (parent child : NodeId) (nodes : Array Node) (i : NodeId) :
    (adopt parent child nodes)[i]? =
      if i = child then nodes[i]?.map fun n => { n with parent := some parent }
      else nodes[i]? := by
  rw [adopt, Array.getElem?_modify]
  by_cases h : child = i
  · simp [h]
  · simp [h, Ne.symm h]

theorem getElem?_foldl_adopt (parent : NodeId) (children : List NodeId) (nodes : Array Node)
    (i : NodeId) :
    (children.foldl (fun nodes child => adopt parent child nodes) nodes)[i]? =
      if i ∈ children then nodes[i]?.map fun n => { n with parent := some parent }
      else nodes[i]? := by
  induction children generalizing nodes with
  | nil => simp
  | cons c cs ih =>
      rw [List.foldl_cons, ih, getElem?_adopt]
      by_cases hc : i = c
      · subst hc
        cases nodes[i]? <;> simp
      · simp [hc]

/-- The node that an addition makes, before it is the parent of its children. -/
def newNode (t : Tree) (form : Form) (span : Span) : Node where
  form := form.normalize
  span := t.spanOf form span
  scope := if form.opensScope then some t.scopeCount else none
  parent := none

theorem isSome_scope_newNode (t : Tree) (form : Form) (span : Span) :
    (t.newNode form span).scope.isSome = (t.newNode form span).form.opensScope := by
  have hscope : form.normalize.opensScope = form.opensScope :=
    congrArg Kind.isScope form.kind_normalize
  rw [newNode, hscope]
  cases form.opensScope <;> rfl

theorem node?_add (t : Tree) (form : Form) (span : Span) (i : NodeId) :
    (t.add form span).node? (some i) =
      (if i = t.size then some (t.newNode form span) else t.node? (some i)).map fun n =>
        if i ∈ form.children then { n with parent := some t.size } else n := by
  have hadd := getElem?_foldl_adopt t.size form.children (t.nodes.push (t.newNode form span)) i
  rw [Array.getElem?_push] at hadd
  apply hadd.trans
  by_cases hi : i ∈ form.children
  · simp only [if_pos hi]
    rfl
  · simp only [if_neg hi, Option.map_id']
    rfl

theorem form?_add (t : Tree) (form : Form) (span : Span) (i : NodeId) :
    (t.add form span).form? (some i) =
      if i = t.size then some form.normalize else t.form? (some i) := by
  have hform : ∀ n : Node,
      (if i ∈ form.children then { n with parent := some t.size } else n).form = n.form := by
    intro n
    split <;> rfl
  rw [form?, node?_add, Option.map_map]
  simp only [Function.comp_def, hform]
  split
  · rfl
  · rfl

theorem children_add (t : Tree) (form : Form) (span : Span) (i : NodeId) :
    (t.add form span).children (some i) =
      if i = t.size then form.children else t.children (some i) := by
  rw [children, form?_add]
  split
  · simp [Form.children]
  · rfl

theorem node?_of_size_le {t : Tree} {i : NodeId} (hi : t.size ≤ i) : t.node? (some i) = none :=
  Array.getElem?_eq_none hi

theorem form?_of_size_le {t : Tree} {i : NodeId} (hi : t.size ≤ i) : t.form? (some i) = none := by
  rw [form?, node?_of_size_le hi, Option.map_none]

theorem isSome_node? {t : Tree} {i : NodeId} : (t.node? (some i)).isSome ↔ i < t.size := by
  rw [node?_some, isSome_getElem?]
  rfl

theorem parent_add {t : Tree} {form : Form} (h : t.Accepts form) (span : Span) (i : NodeId) :
    (t.add form span).parent (some i) =
      if i ∈ form.children then some t.size else t.parent (some i) := by
  rw [parent, node?_add, Option.bind_map]
  by_cases hi : i ∈ form.children
  · have hlt := h.exist i hi
    have hnode : t.node? (some i) = some t.nodes[i] := Array.getElem?_eq_getElem hlt
    have hne : i ≠ t.size := Nat.ne_of_lt hlt
    simp only [if_pos hi, if_neg hne, hnode]
    rfl
  · simp only [if_neg hi]
    by_cases hsize : i = t.size
    · subst hsize
      simp only [parent, node?_of_size_le (Nat.le_refl t.size)]
      rfl
    · simp only [if_neg hsize]
      rfl

/-! ## The forest -/

theorem lt_size_of_mem_children {t : Tree} {c p : NodeId} (hc : c ∈ t.children (some p)) :
    p < t.size := by
  by_contra hp
  simp [children, form?, node?_of_size_le (Nat.le_of_not_lt hp)] at hc

namespace WellFormed

variable {t : Tree} {c p : NodeId}

theorem lt_of_mem_children (ht : t.WellFormed) (hc : c ∈ t.children (some p)) : c < p := by
  induction ht with
  | empty => simp [children, form?, Tree.empty] at hc
  | @add t form span _ hform ih =>
      rw [children_add] at hc
      split at hc
      · next hp => exact hp ▸ hform.exist c hc
      · exact ih hc

/-- A node is a child of its parent and of no other node. -/
theorem mem_children_iff (ht : t.WellFormed) :
    c ∈ t.children (some p) ↔ t.parent (some c) = some p := by
  induction ht with
  | empty => simp [children, form?, parent, Tree.empty]
  | @add t form span _ hform ih =>
      rw [children_add, parent_add hform]
      by_cases hp : p = t.size
      · subst hp
        -- Nothing had the new node as its parent before it was added.
        have hroot : t.parent (some c) ≠ some t.size := fun hparent =>
          absurd (lt_size_of_mem_children (ih.2 hparent)) (Nat.lt_irrefl _)
        by_cases hc : c ∈ form.children
        · simp [hc]
        · simp [hc, hroot]
      · by_cases hc : c ∈ form.children
        · have hfree : c ∉ t.children (some p) := fun hmem =>
            absurd ((hform.orphan c hc).symm.trans (ih.1 hmem)) (by simp)
          simp [hp, hc, hfree, Ne.symm hp]
        · simp [hp, hc, ih]

theorem nodup_children (ht : t.WellFormed) : (t.children (some p)).Nodup := by
  induction ht with
  | empty => simp [children, form?, Tree.empty]
  | @add t form span _ hform ih =>
      rw [children_add]
      split
      · exact hform.nodup
      · exact ih

/-- A node has a scope of its own exactly if its construct opens one. -/
theorem isSome_scope (ht : t.WellFormed) {i : NodeId} {n : Node}
    (h : t.node? (some i) = some n) :
    n.scope.isSome = n.form.opensScope := by
  induction ht generalizing n with
  | empty => cases h
  | @add t form span _ hform ih =>
      rw [node?_add, Option.map_eq_some_iff] at h
      obtain ⟨m, hm, hn⟩ := h
      have hscope : m.scope.isSome = m.form.opensScope := by
        split at hm
        · cases hm
          exact t.isSome_scope_newNode form span
        · exact ih hm
      -- Becoming a child changes neither the scope nor the form.
      split at hn
      · rw [← hn]
        exact hscope
      · rw [← hn]
        exact hscope

end WellFormed

end Tree

end RedundantCast
