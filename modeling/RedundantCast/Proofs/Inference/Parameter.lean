import Mathlib.Data.List.DropRight
import RedundantCast.Declaration.Table
import RedundantCast.Proofs.Inference.Variable
import RedundantCast.Proofs.Tree.Writes

/-!
# Native parameter types

A native parameter type is trusted only where no write to the parameter is seen.
The lookup of a variable may cross closures and arrow functions on its way out
to the function that declares it. The writes directly in that function count,
and so do those in the closures crossed last, since a closure may share the
variable. The scan goes into no arrow function, not even into one that the lookup has
crossed: a write there is missed, and what is read after it still has the native type.
-/

namespace RedundantCast

def Tree.isClosure (t : Tree) (x : NodeId) : Bool :=
  t.kind? (some x) == some (.function .closure)

namespace Context

/-- The lookup of the name from the first node crosses the listed scopes, none
of which declares the name, and finds the declaration in the scope that the last
node opens. -/
inductive Finds (ctx : Context) (name : String) :
    NodeId → List NodeId → NodeId → Declaration → Prop where
  | here {v f : NodeId} {scope : ScopeId} {declarations : List Declaration} {d : Declaration} :
      ctx.tree.Nearest Kind.isScope v f → ctx.tree.scope? (some f) = some scope →
      ctx.provider.variableTypes scope name = .ok declarations →
      Declaration.winner? declarations = some d → Finds ctx name v [] f d
  | outward {v g f : NodeId} {scope : ScopeId} {parts : FunctionForm} {crossed : List NodeId}
      {d : Declaration} :
      ctx.tree.Nearest Kind.isScope v g → ctx.tree.scope? (some g) = some scope →
      ctx.provider.variableTypes scope name = .ok [] →
      ctx.tree.form? (some g) = some (.function parts) → parts.isTransparentTo name →
      Finds ctx name g crossed f d → Finds ctx name v (g :: crossed) f d

variable {ctx : Context} {name : String} {v f s : NodeId} {crossed : List NodeId}
  {d : Declaration}

/-! ## Lookups -/

theorem continuesOutward_iff {ref : NodeRef} :
    ctx.continuesOutward ref name = true ↔
      ∃ parts, ctx.tree.form? ref = some (.function parts) ∧ parts.isTransparentTo name = true := by
  have hparts : ∀ {form : Form} {parts}, form.function? = some parts ↔ form = .function parts := by
    intro form parts
    cases form <;> simp [Form.function?]
  rw [continuesOutward, Option.any_eq_true]
  simp [Option.bind_eq_some_iff, hparts]

theorem eq_nil_of_winner?_eq_none {ds : List Declaration}
    (h : Declaration.winner? ds = none) : ds = [] := by
  cases ds with
  | nil => rfl
  | cons d ds => cases h

theorem finds_of_lookupWithin (ht : ctx.tree.WellFormed) {n : Nat} {found : NodeRef × Declaration}
    (h : ctx.lookupWithin name n (some v) = .ok found) :
    ∃ crossed f, found.1 = some f ∧ ctx.Finds name v crossed f found.2 := by
  induction n generalizing v with
  | zero => cases h
  | succ n ih =>
      rw [lookupWithin_succ] at h
      obtain ⟨scope, hscope, h⟩ := exists_of_bind_eq_ok h
      obtain ⟨declarations, hanswer, h⟩ := exists_of_bind_eq_ok h
      rw [resolved_eq_ok_iff] at hscope
      rw [answered_eq_ok_iff] at hanswer
      cases hs : ctx.tree.enclosingScope? (some v) with
      | none =>
          rw [hs] at hscope
          cases hscope
      | some g =>
          have hnearest := (Tree.enclosing?_eq_some_iff ht).1 hs
          rw [hs] at hscope h
          cases hwinner : Declaration.winner? declarations with
          | some winner =>
              rw [hwinner] at h
              cases h
              exact ⟨[], g, rfl, .here hnearest hscope hanswer hwinner⟩
          | none =>
              rw [hwinner] at h
              dsimp only at h
              split at h
              · next hcontinues =>
                  obtain ⟨parts, hform, htransparent⟩ := continuesOutward_iff.1 hcontinues
                  obtain ⟨crossed, f, hf, hfinds⟩ := ih h
                  rw [eq_nil_of_winner?_eq_none hwinner] at hanswer
                  exact ⟨g :: crossed, f, hf,
                    .outward hnearest hscope hanswer hform htransparent hfinds⟩
              · cases h

theorem answer_unique (ht : ctx.tree.WellFormed) {f f' : NodeId} {scope scope' : ScopeId}
    {ds ds' : List Declaration} (hnearest : ctx.tree.Nearest Kind.isScope v f)
    (hnearest' : ctx.tree.Nearest Kind.isScope v f')
    (hscope : ctx.tree.scope? (some f) = some scope)
    (hscope' : ctx.tree.scope? (some f') = some scope')
    (hanswer : ctx.provider.variableTypes scope name = .ok ds)
    (hanswer' : ctx.provider.variableTypes scope' name = .ok ds') : f = f' ∧ ds = ds' := by
  obtain rfl := hnearest.unique ht hnearest'
  obtain rfl := Option.some.inj (hscope.symm.trans hscope')
  exact ⟨rfl, Except.ok.inj (hanswer.symm.trans hanswer')⟩

theorem Finds.unique (ht : ctx.tree.WellFormed) (h : ctx.Finds name v crossed f d)
    {crossed' : List NodeId} {f' : NodeId} {d' : Declaration}
    (h' : ctx.Finds name v crossed' f' d') : f = f' ∧ d = d' := by
  -- The scope where one lookup ends declares the name, the scopes that one crosses do not.
  induction h generalizing crossed' with
  | here hnearest hscope hanswer hwinner =>
      cases h' with
      | here hnearest' hscope' hanswer' hwinner' =>
          obtain ⟨rfl, rfl⟩ := answer_unique ht hnearest hnearest' hscope hscope' hanswer hanswer'
          exact ⟨rfl, Option.some.inj (hwinner.symm.trans hwinner')⟩
      | outward hnearest' hscope' hanswer' _ _ _ =>
          obtain ⟨rfl, rfl⟩ := answer_unique ht hnearest hnearest' hscope hscope' hanswer hanswer'
          cases hwinner
  | outward hnearest hscope hanswer _ _ _ ih =>
      cases h' with
      | here hnearest' hscope' hanswer' hwinner' =>
          obtain ⟨rfl, rfl⟩ := answer_unique ht hnearest hnearest' hscope hscope' hanswer hanswer'
          cases hwinner'
      | outward hnearest' _ _ _ _ hfinds' =>
          obtain rfl := hnearest.unique ht hnearest'
          exact ih hfinds'

/-! ## Ways in from the declaring function -/

theorem mayShare_of_crossed_closure {parts : FunctionForm}
    (hform : ctx.tree.form? (some s) = some (.function parts))
    (htransparent : parts.isTransparentTo name) (hclosure : ctx.tree.isClosure s) :
    ctx.tree.MayShare name s := by
  have hkind : parts.kind = .closure := by
    simpa [Tree.isClosure, Tree.kind?, hform, Form.kind] using hclosure
  have hcaptures : parts.captures.contains name = true := by
    simp only [FunctionForm.isTransparentTo, hkind, Bool.and_eq_true] at htransparent
    exact htransparent.2
  exact ⟨_, hform, by simp only [Form.sharesVariable, hkind, hcaptures, beq_self_eq_true,
    Bool.and_self]⟩

/-- Where a lookup crosses closures only, the variable is shared all the way. -/
theorem Finds.reaches (ht : ctx.tree.WellFormed) (h : ctx.Finds name v crossed f d)
    (hclosures : ∀ g ∈ crossed, ctx.tree.isClosure g) (hv : ctx.tree.MayShare name v) :
    Relation.TransGen (ctx.tree.StepsTo name) f v := by
  induction h with
  | here hnearest _ _ _ => exact hnearest.reaches ht hv
  | outward hnearest _ _ hform htransparent _ ih =>
      obtain ⟨hg, hcrossed⟩ := List.forall_mem_cons.1 hclosures
      have hshares := mayShare_of_crossed_closure hform htransparent hg
      exact (ih hcrossed hshares).trans (hnearest.reaches ht hv)

/-- A lookup goes on from each scope that it crosses. -/
theorem Finds.suffix {inner outer : List NodeId}
    (h : ctx.Finds name v (inner ++ s :: outer) f d) :
    ctx.Finds name s outer f d ∧
      ∃ parts, ctx.tree.form? (some s) = some (.function parts) ∧ parts.isTransparentTo name := by
  induction inner generalizing v with
  | nil =>
      cases h with
      | outward _ _ _ hform htransparent hfinds => exact ⟨hfinds, _, hform, htransparent⟩
  | cons g inner ih =>
      cases h with
      | outward _ _ _ _ _ hfinds => exact ih hfinds

theorem Finds.reaches_of_mem (ht : ctx.tree.WellFormed) (h : ctx.Finds name v crossed f d)
    (hs : s ∈ crossed.rtakeWhile ctx.tree.isClosure) :
    Relation.TransGen (ctx.tree.StepsTo name) f s := by
  obtain ⟨before, hbefore⟩ := crossed.rtakeWhile_suffix ctx.tree.isClosure
  obtain ⟨inner, outer, hlast⟩ := List.append_of_mem hs
  have hclosures : ∀ g ∈ s :: outer, ctx.tree.isClosure g := by
    intro g hg
    apply List.mem_rtakeWhile_imp (l := crossed)
    rw [hlast]
    exact List.mem_append_right inner hg
  rw [← hbefore, hlast, ← List.append_assoc] at h
  obtain ⟨hfinds, parts, hform, htransparent⟩ := h.suffix
  obtain ⟨hclosure, houter⟩ := List.forall_mem_cons.1 hclosures
  exact hfinds.reaches ht houter (mayShare_of_crossed_closure hform htransparent hclosure)

/-! ## Trust -/

theorem variableType_of_certain (hv : ctx.tree.form? (some v) = some (.var name)) {type : Ty}
    (h : (ctx.infer (some v) .empty).1 = .certain type) :
    ∃ u, ctx.variableType (some v) name (ctx.written (some v)) = .ok u := by
  rw [infer_variable hv] at h
  split at h
  · cases h
  · cases htype : ctx.variableType (some v) name (ctx.written (some v)) with
    | error failure =>
        rw [htype] at h
        cases h
    | ok u => exact ⟨u, rfl⟩

/-- A parameter whose type is certain has passed the write scan of the function
that declares it. -/
theorem writes_eq_false_of_certain (ht : ctx.tree.WellFormed)
    (hv : ctx.tree.form? (some v) = some (.var name)) (hname : name ≠ "this")
    (hfinds : ctx.Finds name v crossed f d) (hsource : d.source = .parameterHint) {type : Ty}
    (hcertain : (ctx.infer (some v) .empty).1 = .certain type) :
    ctx.tree.writes (some f) name = false := by
  obtain ⟨u, htype⟩ := variableType_of_certain hv hcertain
  rw [variableType_written ctx hv, if_neg hname] at htype
  cases hlookup : ctx.lookup name (some v) with
  | error failure =>
      rw [hlookup] at htype
      cases htype
  | ok found =>
      obtain ⟨crossed', f', hf', hfinds'⟩ := finds_of_lookupWithin ht hlookup
      obtain ⟨rfl, hd⟩ := hfinds.unique ht hfinds'
      rw [hd] at hsource
      rw [hlookup] at htype
      cases hwrites : ctx.tree.writes (some f) name with
      | false => rfl
      | true =>
          simp [bind, Except.bind, hsource, hf', hwrites] at htype

/-- If a variable has the native type of a parameter, no node directly in the
function that declares it writes to it, and none directly in the closures that
the lookup crossed last does. -/
theorem parameter_unwritten (ctx : Context) (ht : ctx.tree.WellFormed)
    (hv : ctx.tree.form? (some v) = some (.var name)) (hname : name ≠ "this")
    (hfinds : ctx.Finds name v crossed f d) (hsource : d.source = .parameterHint) {type : Ty}
    (hcertain : (ctx.infer (some v) .empty).1 = .certain type) :
    ∀ s ∈ f :: crossed.rtakeWhile ctx.tree.isClosure, ∀ x,
      ctx.tree.Nearest Kind.isScope x s → ¬ ctx.tree.WritesTo name x := by
  intro s hs x hx hwrites
  have hunseen := writes_eq_false_of_certain ht hv hname hfinds hsource hcertain
  have hinside := hx.reaches ht hwrites.mayShare
  have hreached : Relation.TransGen (ctx.tree.StepsTo name) f x := by
    rcases List.mem_cons.1 hs with rfl | hs
    · exact hinside
    · exact (hfinds.reaches_of_mem ht hs).trans hinside
  have hseen := (Tree.writes_iff ht).2 ⟨x, hreached, hwrites⟩
  rw [hunseen] at hseen
  cases hseen

/-- The nodes of `function f($s) { $t = 1; return function () use ($s) { return $s; }; }`
in a file. -/
def capturedParameter : List (Form × Span) :=
  [(.var "t", ⟨18, 20⟩), (.literal .integer "1", ⟨23, 24⟩),
    (.assignment (some 0) (some 1), ⟨18, 24⟩), (.expressionStatement (some 2), ⟨18, 25⟩),
    (.var "s", ⟨62, 64⟩), (.returnStatement (some 4), ⟨55, 65⟩),
    (.function ⟨.closure, none, [], ["s"], false, false, [some 5]⟩, ⟨33, 67⟩),
    (.returnStatement (some 6), ⟨26, 68⟩),
    (.function ⟨.functionDeclaration, some "f", ["s"], [], false, false, [some 3, some 7]⟩,
      ⟨0, 70⟩),
    (.sourceFile "a.php" [some 8], ⟨0, 70⟩)]

/-- The parameter is read in a closure that captures it. -/
theorem parameter_unwritten_captured :
    let ctx : Context :=
      ⟨.ofForms capturedParameter,
        (Table.empty.declareVariable 1 "$s" .string .parameterHint).provider, .default⟩
    ctx.tree.WellFormed ∧ ctx.Finds "s" 4 [6] 8 ⟨"s", .string, .parameterHint⟩ ∧
      (ctx.infer (some 4) .empty).1 = .certain .string ∧
      ∀ s ∈ [8, 6], ∀ x, ctx.tree.Nearest Kind.isScope x s → ¬ ctx.tree.WritesTo "s" x := by
  intro ctx
  have ht : ctx.tree.WellFormed := Tree.wellFormed_ofForms (by decide)
  have hinner : ctx.tree.Nearest Kind.isScope 4 6 := .outer rfl rfl (.parent rfl rfl)
  have houter : ctx.tree.Nearest Kind.isScope 6 8 := .outer rfl rfl (.parent rfl rfl)
  have hfinds : ctx.Finds "s" 4 [6] 8 ⟨"s", .string, .parameterHint⟩ :=
    .outward hinner rfl rfl rfl rfl (.here houter rfl rfl rfl)
  have hcertain : (ctx.infer (some 4) .empty).1 = .certain .string := rfl
  have hcrossed : [6].rtakeWhile ctx.tree.isClosure = [6] := by decide
  have hunwritten := parameter_unwritten ctx ht rfl (by decide) hfinds rfl hcertain
  rw [hcrossed] at hunwritten
  exact ⟨ht, hfinds, hcertain, hunwritten⟩

/-- The nodes of `function f($s) { fn() => [$s = 1, $s]; }` in a file. -/
def arrowWrite : List (Form × Span) :=
  [(.var "s", ⟨27, 29⟩), (.literal .integer "1", ⟨32, 33⟩),
    (.assignment (some 0) (some 1), ⟨27, 33⟩), (.var "s", ⟨35, 37⟩),
    (.arrayLiteral [some 2, some 3], ⟨26, 38⟩),
    (.function ⟨.arrowFunction, none, [], [], false, false, [some 4]⟩, ⟨18, 38⟩),
    (.expressionStatement (some 5), ⟨18, 39⟩),
    (.function ⟨.functionDeclaration, some "f", ["s"], [], false, false, [some 6]⟩, ⟨0, 41⟩),
    (.sourceFile "a.php" [some 7], ⟨0, 41⟩)]

/-- The scan misses a write in the arrow function that the lookup has crossed. The
variable that is read after it certainly has the type of the parameter, and not the
value. -/
theorem arrowFunction_write_unseen :
    ¬ ∀ (ctx : Context) (name : String) (v f : NodeId) (crossed : List NodeId) (d : Declaration)
      (type : Ty), ctx.tree.WellFormed → ctx.tree.form? (some v) = some (.var name) →
      name ≠ "this" → ctx.Finds name v crossed f d → d.source = .parameterHint →
      (ctx.infer (some v) .empty).1 = .certain type →
      ∀ s ∈ f :: crossed, ∀ x, ctx.tree.Nearest Kind.isScope x s → ¬ ctx.tree.WritesTo name x := by
  intro h
  let ctx : Context :=
    ⟨.ofForms arrowWrite,
      (Table.empty.declareVariable 1 "$s" .string .parameterHint).provider, .default⟩
  have ht : ctx.tree.WellFormed := Tree.wellFormed_ofForms (by decide)
  have hread : ctx.tree.Nearest Kind.isScope 3 5 := .outer rfl rfl (.parent rfl rfl)
  have houter : ctx.tree.Nearest Kind.isScope 5 7 := .outer rfl rfl (.parent rfl rfl)
  have hfinds : ctx.Finds "s" 3 [5] 7 ⟨"s", .string, .parameterHint⟩ :=
    .outward hread rfl rfl rfl rfl (.here houter rfl rfl rfl)
  have hwrite : ctx.tree.Nearest Kind.isScope 2 5 := .outer rfl rfl (.parent rfl rfl)
  have hwrites : ctx.tree.WritesTo "s" 2 := .assignment rfl rfl
  exact h ctx "s" 3 7 [5] _ .string ht rfl (by decide) hfinds rfl rfl 5 (by decide) 2 hwrite hwrites

end Context

end RedundantCast
