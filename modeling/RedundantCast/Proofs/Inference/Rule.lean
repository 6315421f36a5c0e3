import RedundantCast.Inference.Resolve
import RedundantCast.Tree.Walk

/-!
# What the rules depend on

The operands of a form are among its children, a cast has none, and the type of
a variable is decided by its lookup together with one write scan.
-/

namespace RedundantCast

theorem Form.operands_sublist (form : Form) : form.operands.Sublist form.references := by
  cases form with
  | propertyAccess receiver name => cases name <;> simp [operands, references]
  | methodCall receiver name arguments => cases name <;> simp [operands, references]
  | _ => simp [operands, references]

namespace Context

variable (ctx : Context)

/-- The outcome of the write scan that a node depends on, `false` if it depends
on none. -/
def written (ref : NodeRef) : Bool :=
  (ctx.scanned? ref).any fun scan => ctx.tree.writes scan.1 scan.2

theorem operands_of_form? {ref : NodeRef} {form : Form} (h : ctx.tree.form? ref = some form) :
    ctx.operands ref = form.operands := by
  rw [operands, h]
  rfl

theorem operands_of_form?_eq_none {ref : NodeRef} (h : ctx.tree.form? ref = none) :
    ctx.operands ref = [] := by
  rw [operands, h]
  rfl

@[simp] theorem operands_none : ctx.operands none = [] := rfl

theorem rule_of_form? {ref : NodeRef} {form : Form} (h : ctx.tree.form? ref = some form)
    (answers : List Inference) (written : Bool) :
    ctx.rule ref answers written = .ofExcept (ctx.formType ref answers written form) := by
  rw [rule, h]

theorem rule_of_form?_eq_none {ref : NodeRef} (h : ctx.tree.form? ref = none)
    (answers : List Inference) (written : Bool) : ctx.rule ref answers written = .unknown := by
  rw [rule, h]

@[simp] theorem rule_none (answers : List Inference) (written : Bool) :
    ctx.rule none answers written = .unknown := rfl

theorem mem_children_of_mem_operands {id c : NodeId}
    (h : some c ∈ ctx.operands (some id)) : c ∈ ctx.tree.children (some id) := by
  cases hform : ctx.tree.form? (some id) with
  | none => simp [ctx.operands_of_form?_eq_none hform] at h
  | some form =>
      rw [ctx.operands_of_form? hform] at h
      rw [Tree.children, hform]
      exact Form.mem_children.2 (form.operands_sublist.subset h)

theorem operands_of_isCast {id : NodeId} (h : ctx.tree.isCast id) :
    ctx.operands (some id) = [] := by
  rw [Tree.isCast, beq_iff_eq, Tree.kind?, Option.map_eq_some_iff] at h
  obtain ⟨form, hform, hkind⟩ := h
  rw [ctx.operands_of_form? hform]
  cases form with
  | cast keyword token operand => rfl
  | _ => cases hkind

/-- The lookup in one scope, and in those around it if the scope declares nothing. -/
theorem lookupWithin_succ (name : String) (n : Nat) (ref : NodeRef) :
    ctx.lookupWithin name (n + 1) ref =
      resolved (ctx.tree.scope? (ctx.tree.enclosingScope? ref)) >>= fun scope =>
        answered (ctx.provider.variableTypes scope name) >>= fun declarations =>
          match Declaration.winner? declarations with
          | some winner => .ok (ctx.tree.enclosingScope? ref, winner)
          | none =>
            if ctx.continuesOutward (ctx.tree.enclosingScope? ref) name then
              ctx.lookupWithin name n (ctx.tree.enclosingScope? ref)
            else .error .unresolvedType := by
  rw [lookupWithin]
  cases ctx.tree.scope? (ctx.tree.enclosingScope? ref) with
  | none => rfl
  | some scope =>
      change _ = answered (ctx.provider.variableTypes scope name) >>= _
      dsimp only
      cases ctx.provider.variableTypes scope name with
      | error error => rfl
      | ok declarations => rfl

/-- The type of a variable from its lookup and the write scan of the function
that declares it. -/
theorem variableType_written {ref : NodeRef} {name : String}
    (h : ctx.tree.form? ref = some (.var name)) :
    ctx.variableType ref name (ctx.written ref) =
      if name = "this" then ctx.thisType ref
      else
        ctx.lookup name ref >>= fun found =>
          if found.2.source = .parameterHint ∧ ctx.tree.writes found.1 name then
            .error .unresolvedType
          else ctx.trustedType found.2 := by
  rw [variableType]
  split
  · rfl
  · next hname =>
      cases hlookup : ctx.lookup name ref with
      | error failure => rfl
      | ok found =>
          obtain ⟨function, winner⟩ := found
          have hscan : ctx.scanned? ref =
              if winner.source = .parameterHint then some (function, name) else none := by
            simp only [scanned?, h, Option.bind_some, Form.var?, if_neg hname, hlookup]
          by_cases hsource : winner.source = .parameterHint
          · simp [bind, Except.bind, written, hscan, hsource]
          · simp [bind, Except.bind, hsource]

end Context

end RedundantCast
