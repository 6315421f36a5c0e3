import RedundantCast.Check.Analysis
import RedundantCast.Proofs.Tree.Nearest

/-!
# Casts that keep a documented promise

A returned cast may be the only thing that makes a documented return type true.
Which casts these are is said here in terms of the tree: the cast is the value
of a named function or method that declares no return type, and the return type
of that callable is documented, or nobody can tell.
-/

namespace RedundantCast

/-- The node declares the callable, so that calls can refer to it by name. -/
inductive Tree.Declares (t : Tree) (f : NodeId) : Callable → Prop where
  | function {parts : FunctionForm} {name : String} :
      t.form? (some f) = some (.function parts) → parts.kind = .functionDeclaration →
      parts.name = some name → Declares t f (.function name)
  | method {parts : FunctionForm} {name className : String} {c : NodeId} {body : List NodeRef} :
      t.form? (some f) = some (.function parts) → parts.kind = .methodDeclaration →
      parts.name = some name → t.Nearest (· == .classDeclaration) f c →
      t.form? (some c) = some (.classDeclaration className body) →
      Declares t f (.method (.ofText className) name)

namespace Context

/-- The return type of the callable is documented, or the provider fails. -/
def MayDocument (ctx : Context) (callable : Callable) : Prop :=
  (∃ d, ctx.provider.returnType callable = .ok (some d) ∧ d.source = .returnDocHint) ∨
    ∃ error, ctx.provider.returnType callable = .error error

/-- The node is the value of a callable that declares no return type but may
document one. -/
def KeepsPromise (ctx : Context) (x : NodeId) : Prop :=
  ∃ f parts callable, ctx.tree.IsValueOf x f ∧
    ctx.tree.form? (some f) = some (.function parts) ∧ parts.hasNativeReturn = false ∧
    ctx.tree.Declares f callable ∧ ctx.MayDocument callable

variable {ctx : Context} {x f : NodeId} {name : ClassName} {callable : Callable}

theorem enclosingClassName?_eq_some_iff (ht : ctx.tree.WellFormed) :
    ctx.enclosingClassName? (some f) = some name ↔
      ∃ c className body, ctx.tree.Nearest (· == .classDeclaration) f c ∧
        ctx.tree.form? (some c) = some (.classDeclaration className body) ∧
        name = .ofText className := by
  constructor
  · intro h
    obtain ⟨⟨className, body⟩, hclass, rfl⟩ := Option.map_eq_some_iff.1 h
    obtain ⟨form, hform, hparts⟩ := Option.bind_eq_some_iff.1 hclass
    cases form with
    | classDeclaration className' body' =>
        cases hparts
        cases hc : ctx.tree.enclosingClass? (some f) with
        | none => simp [hc, Tree.form?] at hform
        | some c =>
            rw [hc] at hform
            exact ⟨c, className, body, (Tree.enclosing?_eq_some_iff ht).1 hc, hform, rfl⟩
    | _ => cases hparts
  · rintro ⟨c, className, body, hc, hform, rfl⟩
    have henclosing : ctx.tree.enclosingClass? (some f) = some c :=
      (Tree.enclosing?_eq_some_iff ht).2 hc
    rw [enclosingClassName?, henclosing, hform]
    rfl

/-- The callable that a function-like node declares, if it has a name to be
called by. -/
def declared? (ctx : Context) (f : NodeId) (parts : FunctionForm) : Option Callable :=
  parts.name.bind fun name =>
    match parts.kind with
    | .functionDeclaration => some (.function name)
    | .methodDeclaration => (ctx.enclosingClassName? (some f)).map (.method · name)
    | .closure | .arrowFunction => none

theorem declared?_eq_some_iff (ht : ctx.tree.WellFormed) {parts : FunctionForm}
    (hform : ctx.tree.form? (some f) = some (.function parts)) :
    ctx.declared? f parts = some callable ↔ ctx.tree.Declares f callable := by
  constructor
  · intro h
    obtain ⟨name, hname, h⟩ := Option.bind_eq_some_iff.1 h
    split at h
    · next hkind =>
        cases h
        exact .function hform hkind hname
    · next hkind =>
        obtain ⟨_, howner, rfl⟩ := Option.map_eq_some_iff.1 h
        obtain ⟨c, className, body, hc, hclass, rfl⟩ :=
          (enclosingClassName?_eq_some_iff ht).1 howner
        exact .method hform hkind hname hc hclass
    · cases h
    · cases h
  · intro h
    cases h with
    | function hform' hkind hname =>
        cases hform.symm.trans hform'
        simp [declared?, hname, hkind]
    | method hform' hkind hname hc hclass =>
        cases hform.symm.trans hform'
        have howner := (enclosingClassName?_eq_some_iff ht).2 ⟨_, _, _, hc, hclass, rfl⟩
        simp [declared?, hname, hkind, howner]

theorem servedCallable?_eq_some_iff (ht : ctx.tree.WellFormed) :
    ctx.servedCallable? (some x) = some callable ↔
      ∃ f parts, ctx.tree.IsValueOf x f ∧ ctx.tree.form? (some f) = some (.function parts) ∧
        parts.hasNativeReturn = false ∧ ctx.tree.Declares f callable := by
  constructor
  · intro h
    unfold servedCallable? at h
    split at h
    · next hreturned =>
        dsimp only at h
        cases hf : ctx.tree.enclosingFunction? (some x) with
        | none => simp [hf, Tree.form?] at h
        | some f =>
            rw [hf] at h
            split at h
            · next parts hparts =>
                obtain ⟨form, hform, hparts⟩ := Option.bind_eq_some_iff.1 hparts
                cases form with
                | function parts' =>
                    cases hparts
                    split at h
                    · cases h
                    · next hnative =>
                        refine ⟨f, parts, ⟨?_, ?_⟩, hform, Bool.not_eq_true _ ▸ hnative, ?_⟩
                        · exact (Tree.isReturnedValue_iff ht).1 hreturned
                        · exact (Tree.enclosing?_eq_some_iff ht).1 hf
                        · exact (declared?_eq_some_iff ht hform).1 h
                | _ => cases hparts
            · cases h
    · cases h
  · rintro ⟨f, parts, hvalue, hform, hnative, hdeclares⟩
    have hreturned := (Tree.isReturnedValue_iff ht).2 hvalue.returned
    have hf : ctx.tree.enclosingFunction? (some x) = some f :=
      (Tree.enclosing?_eq_some_iff ht).2 hvalue.nearest
    have hdeclared := (declared?_eq_some_iff ht hform).2 hdeclares
    simp only [servedCallable?, hreturned, if_true, hf, hform, Option.bind_some,
      Form.function?, hnative]
    exact hdeclared

/-- The analysis leaves alone exactly the casts that may keep a promise. -/
theorem servesDocumentedReturn_iff (ht : ctx.tree.WellFormed) :
    ctx.servesDocumentedReturn (some x) = true ↔ ctx.KeepsPromise x := by
  have hserves : ctx.servesDocumentedReturn (some x) = true ↔
      ∃ callable, ctx.servedCallable? (some x) = some callable ∧ ctx.MayDocument callable := by
    unfold servesDocumentedReturn MayDocument
    cases ctx.servedCallable? (some x) with
    | none => simp
    | some callable =>
        cases hanswer : ctx.provider.returnType callable with
        | error error => simp [hanswer]
        | ok d? => cases d? <;> simp [hanswer]
  rw [hserves]
  constructor
  · rintro ⟨callable, hcallable, hdocument⟩
    obtain ⟨f, parts, hvalue, hform, hnative, hdeclares⟩ :=
      (servedCallable?_eq_some_iff ht).1 hcallable
    exact ⟨f, parts, callable, hvalue, hform, hnative, hdeclares, hdocument⟩
  · rintro ⟨f, parts, callable, hvalue, hform, hnative, hdeclares, hdocument⟩
    exact ⟨callable, (servedCallable?_eq_some_iff ht).2 ⟨f, parts, hvalue, hform, hnative,
      hdeclares⟩, hdocument⟩

end Context

end RedundantCast
