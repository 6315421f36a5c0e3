import RedundantCast.Proofs.Declaration.Building
import RedundantCast.Proofs.Inference.Parameter

/-!
# Lexical lookup

A variable is looked up in the scope around it and, where nothing is declared, in
the scope outside an arrow function or closure that lets its name through, and so
on. A provider is asked about no other scope. In the first scope with declarations
the earliest of the highest precedence decides.
-/

namespace RedundantCast

namespace Declaration

/-- The declaration is the earliest of those of the highest precedence. -/
def Wins (ds : List Declaration) (w : Declaration) : Prop :=
  ∃ before after, ds = before ++ w :: after ∧
    (∀ d ∈ before, d.source.precedence < w.source.precedence) ∧
    ∀ d ∈ after, d.source.precedence ≤ w.source.precedence

variable {ds : List Declaration} {w : Declaration}

theorem Wins.precedence_le (h : Wins ds w) {d : Declaration} (hd : d ∈ ds) :
    d.source.precedence ≤ w.source.precedence := by
  obtain ⟨before, after, rfl, hbefore, hafter⟩ := h
  rcases List.mem_append.1 hd with hd | hd
  · exact Nat.le_of_lt (hbefore d hd)
  · rcases List.mem_cons.1 hd with rfl | hd
    · exact Nat.le_refl _
    · exact hafter d hd

theorem Wins.prefer (h : Wins ds w) (d : Declaration) : Wins (ds ++ [d]) (w.prefer d) := by
  rw [Declaration.prefer]
  split
  · next hlater =>
      refine ⟨ds, [], rfl, fun e he => ?_, List.forall_mem_nil _⟩
      exact Nat.lt_of_le_of_lt (h.precedence_le he) hlater
  · next hearlier =>
      obtain ⟨before, after, rfl, hbefore, hafter⟩ := h
      refine ⟨before, after ++ [d], by simp, hbefore, ?_⟩
      exact List.forall_mem_append.2
        ⟨hafter, List.forall_mem_singleton.2 (Nat.le_of_not_lt hearlier)⟩

theorem Wins.foldl_prefer (h : Wins ds w) (later : List Declaration) :
    Wins (ds ++ later) (later.foldl Declaration.prefer w) := by
  induction later generalizing ds w with
  | nil =>
      rw [List.append_nil]
      exact h
  | cons d later ih =>
      rw [List.append_cons]
      exact ih (h.prefer d)

theorem wins_of_winner?_eq_some (h : winner? ds = some w) : Wins ds w := by
  cases ds with
  | nil => cases h
  | cons d ds =>
      cases h
      exact Wins.foldl_prefer
        ⟨[], [], rfl, List.forall_mem_nil _, List.forall_mem_nil _⟩ ds

end Declaration

/-! ## The scopes of a lookup -/

namespace Tree

/-- A name that is not declared in the function is the same variable outside it. -/
def LetsThrough (t : Tree) (name : String) (s : NodeId) : Prop :=
  ∃ parts, t.form? (some s) = some (.function parts) ∧ name ∉ parts.parameters ∧
    (parts.kind = .arrowFunction ∨ parts.kind = .closure ∧ name ∈ parts.captures)

/-- The scope of the last node comes after so many others when a name that is
declared in none of them is looked up from the first node. -/
inductive ScopeAt (t : Tree) (name : String) : NodeId → Nat → NodeId → Prop where
  | here {v s : NodeId} : t.Nearest Kind.isScope v s → ScopeAt t name v 0 s
  | outward {v g s : NodeId} {i : Nat} :
      t.Nearest Kind.isScope v g → t.LetsThrough name g → ScopeAt t name g i s →
      ScopeAt t name v (i + 1) s

end Tree

theorem FunctionForm.isTransparentTo_iff {name : String} {parts : FunctionForm} :
    parts.isTransparentTo name = true ↔ name ∉ parts.parameters ∧
      (parts.kind = .arrowFunction ∨ parts.kind = .closure ∧ name ∈ parts.captures) := by
  cases hkind : parts.kind <;> simp [FunctionForm.isTransparentTo, hkind]

namespace Context

/-- A lookup that has found no declaration yet asks for those of the scope. -/
structure Asks (ctx : Context) (name : String) (v : NodeId) (i : Nat) (s : NodeId)
    (scope : ScopeId) : Prop where
  comes : ctx.tree.ScopeAt name v i s
  opened : ctx.tree.scope? (some s) = some scope
  undeclared : ∀ j < i, ∀ g earlier, ctx.tree.ScopeAt name v j g →
    ctx.tree.scope? (some g) = some earlier → ctx.provider.variableTypes earlier name = .ok []

variable {ctx : Context} {name : String} {v g s : NodeId} {i n : Nat} {scope : ScopeId}

theorem continuesOutward_iff_letsThrough :
    ctx.continuesOutward (some g) name = true ↔ ctx.tree.LetsThrough name g := by
  rw [continuesOutward_iff]
  exact exists_congr fun parts => and_congr_right fun _ => FunctionForm.isTransparentTo_iff

theorem asks_zero_iff : ctx.Asks name v 0 s scope ↔
    ctx.tree.Nearest Kind.isScope v s ∧ ctx.tree.scope? (some s) = some scope := by
  constructor
  · rintro ⟨⟨hnearest⟩, hopened, -⟩
    exact ⟨hnearest, hopened⟩
  · rintro ⟨hnearest, hopened⟩
    exact ⟨.here hnearest, hopened, fun j hj => absurd hj (Nat.not_lt_zero j)⟩

/-- Where the nearest scope declares nothing, a lookup goes on from there. -/
theorem asks_succ_iff (ht : ctx.tree.WellFormed) (hg : ctx.tree.Nearest Kind.isScope v g)
    {first : ScopeId} (hfirst : ctx.tree.scope? (some g) = some first) :
    ctx.Asks name v (i + 1) s scope ↔
      ctx.provider.variableTypes first name = .ok [] ∧ ctx.tree.LetsThrough name g ∧
        ctx.Asks name g i s scope := by
  constructor
  · rintro ⟨hcomes, hopened, hundeclared⟩
    have hempty := hundeclared 0 (Nat.succ_pos i) g first (.here hg) hfirst
    cases hcomes with
    | outward hnearest hlets hcomes =>
        obtain rfl := hnearest.unique ht hg
        refine ⟨hempty, hlets, hcomes, hopened, fun j hj h earlier hh hearlier => ?_⟩
        exact hundeclared (j + 1) (Nat.succ_lt_succ hj) h earlier (.outward hg hlets hh) hearlier
  · rintro ⟨hempty, hlets, hcomes, hopened, hundeclared⟩
    refine ⟨.outward hg hlets hcomes, hopened, fun j hj h earlier hh hearlier => ?_⟩
    cases hh with
    | here hnearest =>
        obtain rfl := hnearest.unique ht hg
        rw [← Option.some.inj (hfirst.symm.trans hearlier)]
        exact hempty
    | @outward _ _ _ j hnearest _ hh =>
        obtain rfl := hnearest.unique ht hg
        exact hundeclared j (Nat.lt_of_succ_lt_succ hj) h earlier hh hearlier

/-- What wins in the scope of the node, where a lookup asks for its declarations
after so many other scopes. -/
def FindsAt (ctx : Context) (name : String) (v : NodeId) (i : Nat)
    (found : NodeRef × Declaration) : Prop :=
  ∃ s scope ds, ctx.Asks name v i s scope ∧ ctx.provider.variableTypes scope name = .ok ds ∧
    Declaration.winner? ds = some found.2 ∧ found.1 = some s

variable {found : NodeRef × Declaration}

theorem findsAt_zero_iff (ht : ctx.tree.WellFormed) (hg : ctx.tree.Nearest Kind.isScope v g)
    (hscope : ctx.tree.scope? (some g) = some scope) :
    ctx.FindsAt name v 0 found ↔
      ∃ ds, ctx.provider.variableTypes scope name = .ok ds ∧
        Declaration.winner? ds = some found.2 ∧ found.1 = some g := by
  constructor
  · rintro ⟨s, scope', ds, hasks, hanswer, hwinner, hfound⟩
    obtain ⟨hnearest, hscope'⟩ := asks_zero_iff.1 hasks
    obtain rfl := hnearest.unique ht hg
    obtain rfl := Option.some.inj (hscope.symm.trans hscope')
    exact ⟨ds, hanswer, hwinner, hfound⟩
  · rintro ⟨ds, hanswer, hwinner, hfound⟩
    exact ⟨g, scope, ds, asks_zero_iff.2 ⟨hg, hscope⟩, hanswer, hwinner, hfound⟩

theorem findsAt_succ_iff (ht : ctx.tree.WellFormed) (hg : ctx.tree.Nearest Kind.isScope v g)
    (hscope : ctx.tree.scope? (some g) = some scope) :
    ctx.FindsAt name v (i + 1) found ↔
      ctx.provider.variableTypes scope name = .ok [] ∧ ctx.tree.LetsThrough name g ∧
        ctx.FindsAt name g i found := by
  simp only [FindsAt, asks_succ_iff ht hg hscope, and_assoc, exists_and_left]

theorem lookupWithin_succ_eq_ok_iff (ht : ctx.tree.WellFormed)
    (hg : ctx.tree.Nearest Kind.isScope v g) (hscope : ctx.tree.scope? (some g) = some scope) :
    ctx.lookupWithin name (n + 1) (some v) = .ok found ↔
      (∃ ds, ctx.provider.variableTypes scope name = .ok ds ∧
        Declaration.winner? ds = some found.2 ∧ found.1 = some g) ∨
      (ctx.provider.variableTypes scope name = .ok [] ∧ ctx.tree.LetsThrough name g ∧
        ctx.lookupWithin name n (some g) = .ok found) := by
  have hs : ctx.tree.enclosingScope? (some v) = some g := (Tree.enclosing?_eq_some_iff ht).2 hg
  rw [lookupWithin_succ, hs, hscope, ← continuesOutward_iff_letsThrough]
  change answered (ctx.provider.variableTypes scope name) >>= _ = _ ↔ _
  cases hanswer : ctx.provider.variableTypes scope name with
  | error error => simp [answered, bind, Except.bind]
  | ok ds =>
      cases ds with
      | nil =>
          cases ctx.continuesOutward (some g) name <;> simp [answered, bind, Except.bind]
      | cons d ds =>
          obtain ⟨node, winner⟩ := found
          simp only [answered, bind, Except.bind, Declaration.winner?_cons, Except.ok.injEq,
            exists_eq_left', Option.some.injEq, Prod.mk.injEq, reduceCtorEq, false_and, or_false]
          constructor
          · exact fun h => ⟨h.2, h.1.symm⟩
          · exact fun h => ⟨h.2.symm, h.1⟩

theorem FindsAt.exists_nearest (h : ctx.FindsAt name v i found) :
    ∃ g, ctx.tree.Nearest Kind.isScope v g := by
  obtain ⟨s, scope, ds, hasks, -⟩ := h
  cases hasks.comes with
  | here hnearest => exact ⟨_, hnearest⟩
  | outward hnearest _ _ => exact ⟨_, hnearest⟩

/-- A lookup finds what wins in the first of so many scopes that declares something. -/
theorem lookupWithin_eq_ok_iff (ht : ctx.tree.WellFormed) :
    ctx.lookupWithin name n (some v) = .ok found ↔ ∃ i < n, ctx.FindsAt name v i found := by
  induction n generalizing v with
  | zero => simp [lookupWithin]
  | succ n ih =>
      cases hs : ctx.tree.enclosingScope? (some v) with
      | none =>
          rw [lookupWithin_succ, hs]
          constructor
          · intro h
            cases h
          · rintro ⟨i, -, hfinds⟩
            obtain ⟨g, hg⟩ := hfinds.exists_nearest
            have hsome := (Tree.enclosing?_eq_some_iff ht).2 hg
            rw [← Tree.enclosingScope?, hs] at hsome
            cases hsome
      | some g =>
          have hg := (Tree.enclosing?_eq_some_iff ht).1 hs
          obtain ⟨scope, hscope⟩ := ht.exists_scope hg
          rw [lookupWithin_succ_eq_ok_iff ht hg hscope, Nat.exists_lt_succ_left,
            findsAt_zero_iff ht hg hscope, ih]
          apply or_congr_right
          constructor
          · rintro ⟨hempty, hlets, i, hi, hfinds⟩
            exact ⟨i, hi, (findsAt_succ_iff ht hg hscope).2 ⟨hempty, hlets, hfinds⟩⟩
          · rintro ⟨i, hi, hfinds⟩
            obtain ⟨hempty, hlets, hfinds⟩ := (findsAt_succ_iff ht hg hscope).1 hfinds
            exact ⟨hempty, hlets, i, hi, hfinds⟩

/-! ## What decides the type -/

/-- A provider that answers the same where it is asked is asked in the same scopes. -/
theorem asks_congr {p : Provider} (h : ∀ i < n, ∀ s scope, ctx.Asks name v i s scope →
      p.variableTypes scope name = ctx.provider.variableTypes scope name) (hi : i < n) :
    Asks { ctx with provider := p } name v i s scope ↔ ctx.Asks name v i s scope := by
  induction i using Nat.strong_induction_on generalizing s scope with
  | h i ih =>
      constructor
      · rintro ⟨hcomes, hopened, hundeclared⟩
        refine ⟨hcomes, hopened, fun j hj g earlier hg hearlier => ?_⟩
        have hjn := Nat.lt_trans hj hi
        have hasks : Asks { ctx with provider := p } name v j g earlier :=
          ⟨hg, hearlier, fun k hk => hundeclared k (Nat.lt_trans hk hj)⟩
        rw [← h j hjn g earlier ((ih j hj hjn).1 hasks)]
        exact hundeclared j hj g earlier hg hearlier
      · rintro ⟨hcomes, hopened, hundeclared⟩
        refine ⟨hcomes, hopened, fun j hj g earlier hg hearlier => ?_⟩
        have hasks : ctx.Asks name v j g earlier :=
          ⟨hg, hearlier, fun k hk => hundeclared k (Nat.lt_trans hk hj)⟩
        exact (h j (Nat.lt_trans hj hi) g earlier hasks).trans
          (hundeclared j hj g earlier hg hearlier)

theorem findsAt_congr {p : Provider} (h : ∀ i < n, ∀ s scope, ctx.Asks name v i s scope →
      p.variableTypes scope name = ctx.provider.variableTypes scope name) (hi : i < n) :
    FindsAt { ctx with provider := p } name v i found ↔ ctx.FindsAt name v i found := by
  simp only [FindsAt, asks_congr h hi]
  constructor
  · rintro ⟨s, scope, ds, hasks, hanswer, hwins⟩
    exact ⟨s, scope, ds, hasks, (h i hi s scope hasks).symm.trans hanswer, hwins⟩
  · rintro ⟨s, scope, ds, hasks, hanswer, hwins⟩
    exact ⟨s, scope, ds, hasks, (h i hi s scope hasks).trans hanswer, hwins⟩

/-- What a declaration in the scope that a node opens says about a variable. A
native parameter type says nothing where the function may write to the parameter. -/
def settled (ctx : Context) (name : String) (s : NodeRef) (w : Declaration) : Inference :=
  if ctx.trusts w.source ∧ w.type.isMixed = false ∧
      ¬ (w.source = .parameterHint ∧ ctx.tree.writes s name) then
    .certain w.type
  else .unknown

theorem ofExcept_trustedType (s : NodeRef) (w : Declaration) :
    Inference.ofExcept
      (if w.source = .parameterHint ∧ ctx.tree.writes s name then .error .unresolvedType
        else ctx.trustedType w) = ctx.settled name s w := by
  rw [settled, trustedType, informative]
  cases htrust : ctx.trusts w.source with
  | false => simp [Inference.ofExcept]
  | true =>
      cases hmixed : w.type.isMixed with
      | true => simp [Inference.ofExcept]
      | false =>
          by_cases hwritten : w.source = .parameterHint ∧ ctx.tree.writes s name
          · rw [if_pos hwritten, if_neg fun h => h.2.2 hwritten]
            rfl
          · rw [if_neg hwritten]
            exact (Inference.ofTy_of_not_isMixed hmixed).trans
              (if_pos ⟨rfl, rfl, hwritten⟩).symm

theorem infer_of_findsAt (ctx : Context) (ht : ctx.tree.WellFormed)
    (hv : ctx.tree.form? (some v) = some (.var name)) (hname : name ≠ "this")
    (hdepth : 1 ≤ ctx.options.depthLimit) (hi : i < maxScopes)
    (h : ctx.FindsAt name v i found) :
    (ctx.infer (some v) .empty).1 = ctx.settled name found.1 found.2 := by
  have hlookup : ctx.lookup name (some v) = .ok found :=
    (lookupWithin_eq_ok_iff ht).2 ⟨i, hi, h⟩
  rw [infer_variable hv, if_neg (Nat.ne_of_gt hdepth), variableType_written ctx hv,
    if_neg hname, hlookup]
  exact ofExcept_trustedType found.1 found.2

theorem infer_of_not_findsAt (ctx : Context) (ht : ctx.tree.WellFormed)
    (hv : ctx.tree.form? (some v) = some (.var name)) (hname : name ≠ "this")
    (h : ∀ i < maxScopes, ∀ found, ¬ ctx.FindsAt name v i found) :
    (ctx.infer (some v) .empty).1 = .unknown := by
  rw [infer_variable hv, variableType_written ctx hv, if_neg hname]
  cases hlookup : ctx.lookup name (some v) with
  | error failure =>
      split
      · rfl
      · rfl
  | ok found =>
      obtain ⟨i, hi, hfinds⟩ := (lookupWithin_eq_ok_iff ht).1 hlookup
      exact absurd hfinds (h i hi found)

/-- The type of a variable depends only on what the provider says of its name in
the scopes that the lookup comes to, up to the first one that declares it. There
the earliest declaration of the highest precedence decides. If no scope declares
the name before the lookup ends, nothing is known. -/
theorem infer_lexical (ctx : Context) (ht : ctx.tree.WellFormed)
    (hv : ctx.tree.form? (some v) = some (.var name)) (hname : name ≠ "this")
    (hdepth : 1 ≤ ctx.options.depthLimit) :
    (∀ p : Provider,
        (∀ i < maxScopes, ∀ s scope, ctx.Asks name v i s scope →
          p.variableTypes scope name = ctx.provider.variableTypes scope name) →
        (infer { ctx with provider := p } (some v) .empty).1 = (ctx.infer (some v) .empty).1) ∧
      (∀ k < maxScopes, ∀ s scope ds, ctx.Asks name v k s scope →
        ctx.provider.variableTypes scope name = .ok ds → ds ≠ [] →
        ∃ w, Declaration.Wins ds w ∧
          (ctx.infer (some v) .empty).1 = ctx.settled name (some s) w) ∧
      ((∀ i < maxScopes, ∀ s scope ds, ctx.Asks name v i s scope →
          ctx.provider.variableTypes scope name = .ok ds → ds = []) →
        (ctx.infer (some v) .empty).1 = .unknown) := by
  refine ⟨fun p hp => ?_, fun k hk s scope ds hasks hanswer hds => ?_, fun hnone => ?_⟩
  · have hsame : ∀ i < maxScopes, ∀ found,
        FindsAt { ctx with provider := p } name v i found ↔ ctx.FindsAt name v i found :=
      fun i hi found => findsAt_congr hp hi
    by_cases hfound : ∃ i < maxScopes, ∃ found, ctx.FindsAt name v i found
    · obtain ⟨i, hi, found, hfinds⟩ := hfound
      rw [infer_of_findsAt ctx ht hv hname hdepth hi hfinds]
      exact infer_of_findsAt { ctx with provider := p } ht hv hname hdepth hi
        ((hsame i hi found).2 hfinds)
    · have hnone : ∀ i < maxScopes, ∀ found, ¬ ctx.FindsAt name v i found :=
        fun i hi found hfinds => hfound ⟨i, hi, found, hfinds⟩
      rw [infer_of_not_findsAt ctx ht hv hname hnone]
      exact infer_of_not_findsAt { ctx with provider := p } ht hv hname fun i hi found hfinds =>
        hnone i hi found ((hsame i hi found).1 hfinds)
  · cases hwinner : Declaration.winner? ds with
    | none => exact absurd (eq_nil_of_winner?_eq_none hwinner) hds
    | some w =>
        refine ⟨w, Declaration.wins_of_winner?_eq_some hwinner, ?_⟩
        have hfinds : ctx.FindsAt name v k (some s, w) :=
          ⟨s, scope, ds, hasks, hanswer, hwinner, rfl⟩
        exact infer_of_findsAt ctx ht hv hname hdepth hk hfinds
  · apply infer_of_not_findsAt ctx ht hv hname
    rintro i hi found ⟨s, scope, ds, hasks, hanswer, hwinner, -⟩
    rw [hnone i hi s scope ds hasks hanswer] at hwinner
    cases hwinner

/-- The nodes of `function f() { return function () use ($s) { return fn() => $s; }; }` in
a file. -/
def nestedReads : List (Form × Span) :=
  [(.var "s", ⟨60, 62⟩),
    (.function ⟨.arrowFunction, none, [], [], false, false, [some 0]⟩, ⟨52, 62⟩),
    (.returnStatement (some 1), ⟨45, 63⟩),
    (.function ⟨.closure, none, [], ["s"], false, false, [some 2]⟩, ⟨22, 65⟩),
    (.returnStatement (some 3), ⟨15, 66⟩),
    (.function ⟨.functionDeclaration, some "f", [], [], false, false, [some 4]⟩, ⟨0, 68⟩),
    (.sourceFile "a.php" [some 5], ⟨0, 68⟩)]

/-- The variable is that of the outermost function, where two doc comments declare
it. The file is not asked, and no other question matters. -/
theorem infer_lexical_nestedReads :
    let ctx : Context :=
      ⟨.ofForms nestedReads,
        (Table.ofFacts [.var 2 "$s" .int .inferred, .var 2 "$s" .string .localDocHint,
          .var 2 "$s" .bool .localDocHint, .var 3 "$s" .float .localDocHint]).provider, .default⟩
    ctx.tree.WellFormed ∧ 1 ≤ ctx.options.depthLimit ∧ ctx.Asks "s" 0 2 5 2 ∧
      (ctx.infer (some 0) .empty).1 = .certain .string ∧
      ∀ p : Provider, p.variableTypes 0 "s" = .ok [] → p.variableTypes 1 "s" = .ok [] →
        p.variableTypes 2 "s" = ctx.provider.variableTypes 2 "s" →
        (infer { ctx with provider := p } (some 0) .empty).1 = .certain .string := by
  intro ctx
  have ht : ctx.tree.WellFormed := Tree.wellFormed_ofForms (by decide)
  have harrow : ctx.tree.Nearest Kind.isScope 0 1 := .parent rfl rfl
  have hclosure : ctx.tree.Nearest Kind.isScope 1 3 := .outer rfl rfl (.parent rfl rfl)
  have hfunction : ctx.tree.Nearest Kind.isScope 3 5 := .outer rfl rfl (.parent rfl rfl)
  have harrowLets : ctx.tree.LetsThrough "s" 1 := ⟨_, rfl, by decide, Or.inl rfl⟩
  have hclosureLets : ctx.tree.LetsThrough "s" 3 := ⟨_, rfl, by decide, Or.inr ⟨rfl, by decide⟩⟩
  have hstring : (ctx.infer (some 0) .empty).1 = .certain .string := rfl
  have hasks : ctx.Asks "s" 0 2 5 2 :=
    (asks_succ_iff ht harrow rfl).2 ⟨rfl, harrowLets,
      (asks_succ_iff ht hclosure rfl).2 ⟨rfl, hclosureLets, asks_zero_iff.2 ⟨hfunction, rfl⟩⟩⟩
  have hv : ctx.tree.form? (some 0) = some (.var "s") := rfl
  obtain ⟨hframe, -, -⟩ := infer_lexical ctx ht hv (by decide) (by decide)
  refine ⟨ht, by decide, hasks, hstring, fun p h0 h1 h2 => ?_⟩
  -- The scopes of the arrow function, of the closure and of the function are asked.
  refine (hframe p fun i _ s scope hs => ?_).trans hstring
  match i with
  | 0 =>
      obtain ⟨hnearest, hscope⟩ := asks_zero_iff.1 hs
      obtain rfl := hnearest.unique ht harrow
      cases hscope
      exact h0
  | 1 =>
      obtain ⟨-, -, hs⟩ := (asks_succ_iff ht harrow rfl).1 hs
      obtain ⟨hnearest, hscope⟩ := asks_zero_iff.1 hs
      obtain rfl := hnearest.unique ht hclosure
      cases hscope
      exact h1
  | 2 =>
      obtain ⟨-, -, hs⟩ := (asks_succ_iff ht harrow rfl).1 hs
      obtain ⟨-, -, hs⟩ := (asks_succ_iff ht hclosure rfl).1 hs
      obtain ⟨hnearest, hscope⟩ := asks_zero_iff.1 hs
      obtain rfl := hnearest.unique ht hfunction
      cases hscope
      exact h2
  | i + 3 =>
      obtain ⟨-, -, hs⟩ := (asks_succ_iff ht harrow rfl).1 hs
      obtain ⟨-, -, hs⟩ := (asks_succ_iff ht hclosure rfl).1 hs
      obtain ⟨hempty, -⟩ := (asks_succ_iff ht hfunction rfl).1 hs
      cases hempty

end Context

end RedundantCast
