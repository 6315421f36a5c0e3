import RedundantCast.Tree.Form

/-!
# Syntax trees

The nodes of one file, each known by its position.  A tree grows by `add`:
children come before their parent, which is noted on them when it is added.
-/

namespace RedundantCast

/-- The number of a variable scope: source files and function-like nodes are
numbered from zero in the order in which they are added. -/
abbrev ScopeId : Type := Nat

structure Node where
  form : Form
  span : Span
  /-- The scope that the node opens. -/
  scope : Option ScopeId
  parent : NodeRef
  deriving DecidableEq, Repr, Inhabited

structure Tree where
  nodes : Array Node
  scopeCount : Nat
  deriving DecidableEq, Repr, Inhabited

namespace Tree

def empty : Tree := ⟨#[], 0⟩

/-- The number of nodes, which is the position of the next one. -/
def size (t : Tree) : Nat :=
  t.nodes.size

def node? (t : Tree) (ref : NodeRef) : Option Node :=
  ref.bind fun id => t.nodes[id]?

def form? (t : Tree) (ref : NodeRef) : Option Form :=
  (t.node? ref).map Node.form

def kind? (t : Tree) (ref : NodeRef) : Option Kind :=
  (t.form? ref).map Form.kind

def span? (t : Tree) (ref : NodeRef) : Option Span :=
  (t.node? ref).map Node.span

def scope? (t : Tree) (ref : NodeRef) : Option ScopeId :=
  (t.node? ref).bind Node.scope

/-- The parent of a node; a root and an unknown node have none. -/
def parent (t : Tree) (ref : NodeRef) : NodeRef :=
  (t.node? ref).bind Node.parent

@[simp] theorem node?_none (t : Tree) : t.node? none = none := rfl

@[simp] theorem node?_some (t : Tree) (id : NodeId) : t.node? (some id) = t.nodes[id]? := rfl

/-- The span that a new node gets: a cast covers its token and its operand, any
other node has the span it is given. -/
def spanOf (t : Tree) (f : Form) (span : Span) : Span :=
  match f with
  | .cast _ token operand => (t.span? operand).elim token token.cover
  | _ => span

/-- Note a parent on a child, if the child exists. -/
def adopt (parent child : NodeId) (nodes : Array Node) : Array Node :=
  nodes.modify child fun n => { n with parent := some parent }

@[simp] theorem size_adopt (parent child : NodeId) (nodes : Array Node) :
    (adopt parent child nodes).size = nodes.size := by
  simp [adopt]

/-- Add a node of the given form.  Its position is the size of the tree. -/
def add (t : Tree) (form : Form) (span : Span) : Tree where
  nodes :=
    form.children.foldl (fun nodes child => adopt t.size child nodes)
      (t.nodes.push
        { form := form.normalize
          span := t.spanOf form span
          scope := if form.opensScope then some t.scopeCount else none
          parent := none })
  scopeCount := if form.opensScope then t.scopeCount + 1 else t.scopeCount

@[simp] theorem size_empty : empty.size = 0 := rfl

theorem size_foldl_adopt (parent : NodeId) (children : List NodeId) (nodes : Array Node) :
    (children.foldl (fun nodes child => adopt parent child nodes) nodes).size = nodes.size := by
  induction children generalizing nodes with
  | nil => rfl
  | cons c cs ih => simp [ih]

@[simp] theorem size_add (t : Tree) (form : Form) (span : Span) :
    (t.add form span).size = t.size + 1 := by
  simp [size, add, size_foldl_adopt]

/-- The tree of some nodes, added in order. -/
def ofForms (forms : List (Form × Span)) : Tree :=
  forms.foldl (fun t f => t.add f.1 f.2) empty

def children (t : Tree) (ref : NodeRef) : List NodeId :=
  (t.form? ref).elim [] Form.children

end Tree

end RedundantCast
