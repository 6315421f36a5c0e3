import RedundantCast.Proofs.Declaration.Building
import RedundantCast.Proofs.Ty.LetterCase

/-!
# Letter case in declarations

A table built of declarations in lower case is the table in lower case: its keys
are the same, and it finds the same entries along the same lineages.
-/

namespace RedundantCast

namespace Declaration

/-- The declaration with the class names of its type in lower case. -/
def loweredType (d : Declaration) : Declaration :=
  { d with type := d.type.lowered }

/-- The same, with the name in lower case as well, as functions and methods have
it. -/
def lowered (d : Declaration) : Declaration :=
  { d with name := Text.lowered d.name, type := d.type.lowered }

theorem winner?_loweredType (ds : List Declaration) :
    winner? (ds.map loweredType) = (winner? ds).map loweredType := by
  have hprefer : ∀ best candidate : Declaration,
      best.loweredType.prefer candidate.loweredType = (best.prefer candidate).loweredType := by
    intro best candidate
    rw [prefer, prefer, apply_ite loweredType]
    rfl
  have hfold : ∀ (ds : List Declaration) (best : Declaration),
      (ds.map loweredType).foldl prefer best.loweredType = (ds.foldl prefer best).loweredType := by
    intro ds
    induction ds with
    | nil => intro best; rfl
    | cons d ds ih =>
        intro best
        rw [List.map_cons, List.foldl_cons, List.foldl_cons, hprefer, ih]
  cases ds with
  | nil => rfl
  | cons d ds => exact congrArg some (hfold ds d)

end Declaration

def Callable.lowered : Callable → Callable
  | .function name => .function (Text.lowered name)
  | .method owner name => .method owner.lowered (Text.lowered name)

/-! ## Lineages -/

def ParentEdge.lowered (e : ParentEdge) : ParentEdge :=
  ⟨e.child.lowered, e.parent.lowered⟩

namespace Lineage

variable (edges : List ParentEdge)

theorem parents_lowered (c : ClassName) :
    parents (edges.map ParentEdge.lowered) c.lowered = (parents edges c).map .lowered := by
  have hchild : ((·.child == c.lowered) ∘ ParentEdge.lowered) = (·.child == c) :=
    funext fun e => e.child.lowered_beq_lowered c
  rw [parents, parents, List.filter_map, hchild, List.map_map, List.map_map]
  rfl

theorem fresh_lowered (seen cs : List ClassName) :
    fresh (seen.map .lowered) (cs.map .lowered) = (fresh seen cs).map .lowered := by
  induction cs generalizing seen with
  | nil => rfl
  | cons c cs ih =>
      rw [List.map_cons, fresh, fresh, ClassName.contains_lowered]
      split
      · exact ih seen
      · exact congrArg (c.lowered :: ·) (ih (c :: seen))

theorem levels_lowered (n : Nat) (seen level : List ClassName) :
    levels (edges.map ParentEdge.lowered) n (seen.map .lowered) (level.map .lowered) =
      (levels edges n seen level).map .lowered := by
  induction n generalizing seen level with
  | zero => rfl
  | succ n ih =>
      have habove : (level.map ClassName.lowered).flatMap
            (parents (edges.map ParentEdge.lowered)) =
          (level.flatMap (parents edges)).map .lowered := by
        rw [List.flatMap_map, List.map_flatMap]
        simp only [parents_lowered]
      rw [levels, levels, habove, ← List.map_append, fresh_lowered, ih, List.map_append]

theorem ofClass_lowered (c : ClassName) :
    ofClass (edges.map ParentEdge.lowered) c.lowered = (ofClass edges c).map .lowered :=
  levels_lowered edges maxLevels [] [c]

end Lineage

/-! ## Tables -/

def FunctionReturn.lowered (e : FunctionReturn) : FunctionReturn :=
  { e with declaration := e.declaration.lowered }

/-- The entry with its owner in lower case, and the declaration as `f` has it. -/
def MemberEntry.lowered (f : Declaration → Declaration) (e : MemberEntry) : MemberEntry :=
  { e with owner := e.owner.lowered, declaration := f e.declaration }

namespace Table

/-- The table with names of classes, functions and methods in lower case. -/
def lowered (t : Table) : Table where
  variableEntries := t.variableEntries.map (Prod.map id Declaration.loweredType)
  functions := t.functions.map FunctionReturn.lowered
  methods := t.methods.map (MemberEntry.lowered Declaration.lowered)
  properties := t.properties.map (MemberEntry.lowered Declaration.loweredType)
  parents := t.parents.map ParentEdge.lowered

/-- The declaration with names of classes, functions and methods in lower case. -/
def Fact.lowered : Fact → Fact
  | .var scope name type source => .var scope name type.lowered source
  | .function name type source => .function (Text.lowered name) type.lowered source
  | .method owner name type source =>
    .method owner.lowered (Text.lowered name) type.lowered source
  | .property owner name type source => .property owner.lowered name type.lowered source
  | .parent child above => .parent child.lowered above.lowered

variable (t : Table)

theorem functionKey_lowered (name : String) :
    functionKey (Text.lowered name) = functionKey name := by
  simp [functionKey, Text.lowered]

theorem declareParent_lowered (child parent : ClassName) :
    t.lowered.declareParent child.lowered parent.lowered =
      (t.declareParent child parent).lowered := by
  have hknown : (Lineage.parents t.lowered.parents child.lowered).contains parent.lowered =
      (Lineage.parents t.parents child).contains parent := by
    rw [lowered, Lineage.parents_lowered, ClassName.contains_lowered]
  rw [declareParent, declareParent, hknown]
  split
  · rfl
  · rw [lowered, lowered, List.map_append]
    rfl

theorem declare_lowered (fact : Fact) :
    t.lowered.declare fact.lowered = (t.declare fact).lowered := by
  cases fact with
  | var scope name type source =>
      simp [Fact.lowered, declare, declareVariable, lowered, Declaration.loweredType]
  | function name type source =>
      rw [Fact.lowered, declare, declareFunction, functionKey_lowered]
      rfl
  | method owner name type source =>
      rw [Fact.lowered, declare, declareMethod, Text.lowered_lowered]
      rfl
  | property owner name type source => rfl
  | parent child parent => exact t.declareParent_lowered child parent

theorem ofFacts_lowered (facts : List Fact) :
    ofFacts (facts.map Fact.lowered) = (ofFacts facts).lowered := by
  have hfold : ∀ (facts : List Fact) (t : Table),
      t.lowered.declareAll (facts.map Fact.lowered) = (t.declareAll facts).lowered := by
    intro facts
    induction facts with
    | nil => intro t; rfl
    | cons fact facts ih =>
        intro t
        rw [List.map_cons, declareAll, List.foldl_cons, declare_lowered]
        exact ih (t.declare fact)
  exact hfold facts empty

theorem variablesNamed_lowered (scope : ScopeId) (name : String) :
    t.lowered.variablesNamed scope name =
      (t.variablesNamed scope name).map Declaration.loweredType := by
  rw [variablesNamed, variablesNamed, lowered, List.filter_map, List.map_map, List.map_map]
  rfl

theorem member?_lowered (f : Declaration → Declaration) (entries : List MemberEntry)
    (key : String) (owner : ClassName) :
    t.lowered.member? (entries.map (MemberEntry.lowered f)) key owner.lowered =
      (t.member? entries key owner).map f := by
  have hentry : ∀ owner : ClassName,
      entryOn (entries.map (MemberEntry.lowered f)) key owner.lowered =
        (entryOn entries key owner).map f := by
    intro owner
    have htest : ((fun e : MemberEntry => e.owner == owner.lowered && e.key == key) ∘
        MemberEntry.lowered f) = fun e => e.owner == owner && e.key == key := by
      funext e
      have howner := e.owner.lowered_beq_lowered owner
      rw [Function.comp_apply, MemberEntry.lowered, howner]
    rw [entryOn, entryOn, List.find?_map, htest, Option.map_map, Option.map_map]
    rfl
  have hlineage : Lineage.ofClass t.lowered.parents owner.lowered =
      (Lineage.ofClass t.parents owner).map .lowered := Lineage.ofClass_lowered t.parents owner
  rw [member?, member?, hlineage, List.findSome?_map, List.map_findSome?]
  congr 1
  funext owner
  exact hentry owner

theorem returnType?_lowered (callable : Callable) :
    t.lowered.returnType? callable.lowered = (t.returnType? callable).map Declaration.lowered := by
  cases callable with
  | function name =>
      rw [Callable.lowered, returnType?, returnType?, functionKey_lowered, lowered,
        List.find?_map, Option.map_map, Option.map_map]
      rfl
  | method owner name =>
      rw [Callable.lowered, returnType?, returnType?, Text.lowered_lowered]
      exact t.member?_lowered .lowered t.methods (Text.lowered name) owner

theorem propertyType?_lowered (owner : ClassName) (name : String) :
    t.lowered.propertyType? owner.lowered name =
      (t.propertyType? owner name).map Declaration.loweredType :=
  t.member?_lowered .loweredType t.properties (Text.stripSigil name) owner

end Table

end RedundantCast
