import RedundantCast.Proofs.Text.LetterCase
import RedundantCast.Proofs.Tree.WellFormed
import RedundantCast.Tree.Enclosing
import RedundantCast.Tree.Walk
import RedundantCast.Tree.Writes

/-!
# Letter case in trees

A tree keeps the names of classes, functions and methods as they are written.
Its shape, its scopes and what is written to in it do not depend on their letter
case. As for types, the names in lower case stand for all spellings.
-/

namespace RedundantCast

/-- The form with its names of classes, functions and methods in lower case.
Variables and properties keep their names. -/
def Form.lowered : Form → Form
  | .function parts => .function { parts with name := parts.name.map Text.lowered }
  | .classDeclaration name body => .classDeclaration (Text.lowered name) body
  | .newExpression className arguments =>
    .newExpression (className.map Text.lowered) arguments
  | .staticPropertyAccess className name => .staticPropertyAccess (Text.lowered className) name
  | .functionCall name arguments => .functionCall (name.map Text.lowered) arguments
  | .methodCall receiver name arguments =>
    .methodCall receiver (name.map Text.lowered) arguments
  | .staticMethodCall className name arguments =>
    .staticMethodCall (Text.lowered className) (Text.lowered name) arguments
  | f => f

namespace Form

variable (f : Form)

@[simp] theorem kind_lowered : f.lowered.kind = f.kind := by
  cases f <;> rfl

@[simp] theorem references_lowered : f.lowered.references = f.references := by
  cases f <;> rfl

@[simp] theorem children_lowered : f.lowered.children = f.children := by
  rw [children, references_lowered, children]

@[simp] theorem opensScope_lowered : f.lowered.opensScope = f.opensScope := by
  rw [opensScope, kind_lowered, opensScope]

@[simp] theorem normalize_lowered : f.lowered.normalize = f.normalize.lowered := by
  cases f <;> rfl

@[simp] theorem var?_lowered : f.lowered.var? = f.var? := by
  cases f <;> rfl

@[simp] theorem sharesVariable_lowered (name : String) :
    f.lowered.sharesVariable name = f.sharesVariable name := by
  cases f <;> rfl

end Form

/-- The node with its form in lower case. -/
def Node.lowered (n : Node) : Node :=
  { n with form := n.form.lowered }

namespace Tree

/-- The tree with its names of classes, functions and methods in lower case. -/
def lowered (t : Tree) : Tree :=
  { t with nodes := t.nodes.map Node.lowered }

variable (t : Tree) (ref : NodeRef)

@[simp] theorem size_lowered : t.lowered.size = t.size := by
  simp [size, lowered]

@[simp] theorem node?_lowered : t.lowered.node? ref = (t.node? ref).map Node.lowered := by
  cases ref with
  | none => rfl
  | some id => simp [lowered]

@[simp] theorem form?_lowered : t.lowered.form? ref = (t.form? ref).map Form.lowered := by
  rw [form?, node?_lowered, Option.map_map, form?, Option.map_map]
  rfl

@[simp] theorem kind?_lowered : t.lowered.kind? ref = t.kind? ref := by
  simp [kind?, Function.comp_def]

@[simp] theorem span?_lowered : t.lowered.span? ref = t.span? ref := by
  rw [span?, node?_lowered, Option.map_map, span?]
  rfl

@[simp] theorem scope?_lowered : t.lowered.scope? ref = t.scope? ref := by
  rw [scope?, node?_lowered, Option.bind_map, scope?]
  rfl

@[simp] theorem parent_lowered : t.lowered.parent ref = t.parent ref := by
  rw [parent, node?_lowered, Option.bind_map, parent]
  rfl

@[simp] theorem children_lowered : t.lowered.children ref = t.children ref := by
  rw [children, form?_lowered, children]
  cases t.form? ref with
  | none => rfl
  | some form => exact form.children_lowered

/-! ## Building -/

theorem map_adopt (parent child : NodeId) (nodes : Array Node) :
    (adopt parent child nodes).map Node.lowered =
      adopt parent child (nodes.map Node.lowered) := by
  apply Array.ext_getElem?
  intro i
  rw [Array.getElem?_map, getElem?_adopt, getElem?_adopt, Array.getElem?_map]
  split
  · rw [Option.map_map, Option.map_map]
    rfl
  · rfl

theorem map_foldl_adopt (parent : NodeId) (children : List NodeId) (nodes : Array Node) :
    (children.foldl (fun nodes child => adopt parent child nodes) nodes).map Node.lowered =
      children.foldl (fun nodes child => adopt parent child nodes) (nodes.map Node.lowered) := by
  induction children generalizing nodes with
  | nil => rfl
  | cons child children ih => rw [List.foldl_cons, ih, map_adopt, List.foldl_cons]

theorem newNode_lowered (form : Form) (span : Span) :
    t.lowered.newNode form.lowered span = (t.newNode form span).lowered := by
  have hspan : t.lowered.spanOf form.lowered span = t.spanOf form span := by
    cases form <;> simp [spanOf, Form.lowered]
  rw [newNode, newNode, Node.lowered, hspan, Form.normalize_lowered, Form.opensScope_lowered]
  rfl

theorem add_lowered (form : Form) (span : Span) :
    t.lowered.add form.lowered span = (t.add form span).lowered := by
  have hnodes : (t.lowered.add form.lowered span).nodes = (t.add form span).lowered.nodes := by
    change form.lowered.children.foldl (fun nodes child => adopt t.lowered.size child nodes)
        (t.lowered.nodes.push (t.lowered.newNode form.lowered span)) =
      (form.children.foldl (fun nodes child => adopt t.size child nodes)
        (t.nodes.push (t.newNode form span))).map Node.lowered
    rw [map_foldl_adopt, Array.map_push, newNode_lowered, size_lowered, Form.children_lowered]
    rfl
  have hcount : (t.lowered.add form.lowered span).scopeCount =
      (t.add form span).lowered.scopeCount := by
    change (if form.lowered.opensScope then _ else _) = if form.opensScope then _ else _
    rw [Form.opensScope_lowered]
    rfl
  exact congrArg₂ Tree.mk hnodes hcount

theorem foldl_add_lowered (fs : List (Form × Span)) :
    (fs.map (Prod.map Form.lowered id)).foldl (fun t f => t.add f.1 f.2) t.lowered =
      (fs.foldl (fun t f => t.add f.1 f.2) t).lowered := by
  induction fs generalizing t with
  | nil => rfl
  | cons f fs ih =>
      rw [List.map_cons, List.foldl_cons, List.foldl_cons, ← ih, ← add_lowered]
      rfl

theorem lowered_empty : empty.lowered = empty := by
  simp [lowered, empty]

theorem ofForms_lowered (fs : List (Form × Span)) :
    ofForms (fs.map (Prod.map Form.lowered id)) = (ofForms fs).lowered := by
  rw [ofForms, ofForms, ← foldl_add_lowered, lowered_empty]

variable {t} in
theorem Accepts.lowered {form : Form} :
    t.lowered.Accepts form.lowered ↔ t.Accepts form := by
  constructor
  · rintro ⟨hexist, horphan, hnodup⟩
    simp only [Form.children_lowered, size_lowered, parent_lowered] at hexist horphan hnodup
    exact ⟨hexist, horphan, hnodup⟩
  · rintro ⟨hexist, horphan, hnodup⟩
    constructor
    · simpa using hexist
    · simpa using horphan
    · simpa using hnodup

theorem acceptsAll_lowered (fs : List (Form × Span)) :
    t.lowered.AcceptsAll (fs.map (Prod.map Form.lowered id)) ↔ t.AcceptsAll fs := by
  induction fs generalizing t with
  | nil => exact Iff.rfl
  | cons f fs ih =>
      have hrest := ih (t.add f.1 f.2)
      rw [← add_lowered] at hrest
      exact and_congr Accepts.lowered hrest

/-! ## Looking around -/

theorem ancestors_lowered : t.lowered.ancestors ref = t.ancestors ref := by
  have hwithin : ∀ steps ref,
      t.lowered.ancestorsWithin steps ref = t.ancestorsWithin steps ref := by
    intro steps
    induction steps with
    | zero => intro ref; rfl
    | succ steps ih =>
        intro ref
        rw [ancestorsWithin, ancestorsWithin, parent_lowered]
        cases t.parent ref with
        | none => rfl
        | some p => exact congrArg (p :: ·) (ih _)
  rw [ancestors, ancestors, hwithin, size_lowered]

@[simp] theorem enclosing?_lowered (p : Kind → Bool) :
    t.lowered.enclosing? p ref = t.enclosing? p ref := by
  simp only [enclosing?, ancestors_lowered, kind?_lowered]

@[simp] theorem isReturnedValue_lowered :
    t.lowered.isReturnedValue ref = t.isReturnedValue ref := by
  have hinto : ∀ ids, t.lowered.returnsInto ids = t.returnsInto ids := by
    intro ids
    induction ids with
    | nil => rfl
    | cons id ids ih => rw [returnsInto, returnsInto, kind?_lowered, ih]
  rw [isReturnedValue, isReturnedValue, hinto, ancestors_lowered]

theorem preorderWithin_lowered (depth : Nat) :
    t.lowered.preorderWithin depth = t.preorderWithin depth := by
  induction depth with
  | zero => rfl
  | succ depth ih =>
      funext id
      rw [preorderWithin_succ, preorderWithin_succ, children_lowered, ih]

@[simp] theorem casts_lowered : t.lowered.casts ref = t.casts ref := by
  have hcast : t.lowered.isCast = t.isCast := by
    funext id
    rw [isCast, kind?_lowered, isCast]
  have hpreorder : t.lowered.preorder ref = t.preorder ref := by
    cases ref with
    | none => rfl
    | some id => rw [preorder, preorder, size_lowered, preorderWithin_lowered]
  rw [casts_eq, casts_eq, hpreorder, hcast]

theorem isVariable_lowered (name : String) : t.lowered.isVariable name = t.isVariable name := by
  funext ref
  rw [isVariable, form?_lowered, Option.bind_map, isVariable]
  congr 2
  funext form
  exact form.var?_lowered

theorem formWrites_lowered (name : String) (form : Form) :
    t.lowered.formWrites name form.lowered = t.formWrites name form := by
  cases form with
  | assignment target value => exact congrFun (t.isVariable_lowered name) target
  | other items => exact congrArg items.any (t.isVariable_lowered name)
  | _ => rfl

theorem writesWithin_lowered (name : String) (depth : Nat) :
    t.lowered.writesWithin name depth = t.writesWithin name depth := by
  induction depth with
  | zero => rfl
  | succ depth ih =>
      funext id
      rw [writesWithin, writesWithin, form?_lowered]
      cases t.form? (some id) with
      | none => rfl
      | some form =>
          dsimp only [Option.map_some]
          rw [Form.sharesVariable_lowered, formWrites_lowered, Form.children_lowered, ih]

@[simp] theorem writes_lowered (name : String) : t.lowered.writes ref name = t.writes ref name := by
  rw [writes, writes, children_lowered, size_lowered, writesWithin_lowered]

end Tree

end RedundantCast
