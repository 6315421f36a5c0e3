import RedundantCast.Tree.Basic

/-!
# Node storage

The nodes of a file in a row of headers.  What a node is made of stands in the
pool for its kind, at the place that its header gives, and its parent in a row
beside the headers.  A node is looked up through its header; `tree` puts all of
them together again.
-/

namespace RedundantCast

/-- The pools.  Some kinds share one. -/
inductive Pool where
  | sourceFile
  | function
  | classDeclaration
  | returned
  | statement
  | var
  | literal
  | array
  | new
  | access
  | call
  | cast
  | binary
  | unary
  | parenthesized
  | assignment
  | other
  deriving DecidableEq, Repr

structure SourceFileEntry where
  name : String
  body : List NodeRef
  scope : ScopeId
  deriving DecidableEq, Repr, Inhabited

/-- A function-like construct, but for its kind. -/
structure FunctionEntry where
  name : Option String
  parameters : List String
  captures : List String
  hasNativeReturn : Bool
  isStatic : Bool
  body : List NodeRef
  scope : ScopeId
  deriving DecidableEq, Repr, Inhabited

structure CastEntry where
  kind : CastKind
  keyword : String
  token : Span
  operand : NodeRef
  deriving DecidableEq, Repr, Inhabited

namespace Pool

abbrev Entry : Pool → Type
  | sourceFile => SourceFileEntry
  | function => FunctionEntry
  | classDeclaration => String × List NodeRef
  | returned | statement | parenthesized => NodeRef
  | var | literal => String
  | array | other => List NodeRef
  | new => Option String × List NodeRef
  | access => Access
  | call => Call
  | cast => CastEntry
  | binary => NodeRef × BinaryOperator × NodeRef
  | unary => UnaryOperator × NodeRef
  | assignment => NodeRef × NodeRef

/-- Whether the entries of nodes of a kind are looked up in the pool. -/
def holds : Pool → Kind → Bool
  | sourceFile, .sourceFile | function, .function _ | classDeclaration, .classDeclaration
  | returned, .returnStatement | statement, .expressionStatement | var, .var
  | literal, .literal _ | array, .arrayLiteral | new, .newExpression
  | access, .propertyAccess | access, .staticPropertyAccess
  | call, .functionCall | call, .methodCall | call, .staticMethodCall
  | cast, .castExpression | binary, .binaryExpression | unary, .unaryExpression
  | parenthesized, .parenthesizedExpression | assignment, .assignment | other, .other => true
  | _, _ => false

end Pool

structure Pools where
  sourceFiles : Array SourceFileEntry
  functions : Array FunctionEntry
  classes : Array (String × List NodeRef)
  returns : Array NodeRef
  statements : Array NodeRef
  vars : Array String
  literals : Array String
  arrays : Array (List NodeRef)
  news : Array (Option String × List NodeRef)
  accesses : Array Access
  calls : Array Call
  casts : Array CastEntry
  binaries : Array (NodeRef × BinaryOperator × NodeRef)
  unaries : Array (UnaryOperator × NodeRef)
  parentheses : Array NodeRef
  assignments : Array (NodeRef × NodeRef)
  others : Array (List NodeRef)
  deriving DecidableEq, Repr, Inhabited

namespace Pools

def empty : Pools :=
  ⟨#[], #[], #[], #[], #[], #[], #[], #[], #[], #[], #[], #[], #[], #[], #[], #[], #[]⟩

def get (s : Pools) : (p : Pool) → Array p.Entry
  | .sourceFile => s.sourceFiles
  | .function => s.functions
  | .classDeclaration => s.classes
  | .returned => s.returns
  | .statement => s.statements
  | .var => s.vars
  | .literal => s.literals
  | .array => s.arrays
  | .new => s.news
  | .access => s.accesses
  | .call => s.calls
  | .cast => s.casts
  | .binary => s.binaries
  | .unary => s.unaries
  | .parenthesized => s.parentheses
  | .assignment => s.assignments
  | .other => s.others

def push (s : Pools) : (p : Pool) → p.Entry → Pools
  | .sourceFile, e => { s with sourceFiles := s.sourceFiles.push e }
  | .function, e => { s with functions := s.functions.push e }
  | .classDeclaration, e => { s with classes := s.classes.push e }
  | .returned, e => { s with returns := s.returns.push e }
  | .statement, e => { s with statements := s.statements.push e }
  | .var, e => { s with vars := s.vars.push e }
  | .literal, e => { s with literals := s.literals.push e }
  | .array, e => { s with arrays := s.arrays.push e }
  | .new, e => { s with news := s.news.push e }
  | .access, e => { s with accesses := s.accesses.push e }
  | .call, e => { s with calls := s.calls.push e }
  | .cast, e => { s with casts := s.casts.push e }
  | .binary, e => { s with binaries := s.binaries.push e }
  | .unary, e => { s with unaries := s.unaries.push e }
  | .parenthesized, e => { s with parentheses := s.parentheses.push e }
  | .assignment, e => { s with assignments := s.assignments.push e }
  | .other, e => { s with others := s.others.push e }

@[simp] theorem get_push_self (s : Pools) (p : Pool) (e : p.Entry) :
    (s.push p e).get p = (s.get p).push e := by
  cases p <;> rfl

theorem get_push_of_ne {p q : Pool} (h : q ≠ p) (s : Pools) (e : p.Entry) :
    (s.push p e).get q = s.get q := by
  cases p <;> cases q <;> first | rfl | exact absurd rfl h

end Pools

structure Header where
  kind : Kind
  span : Span
  /-- The place of the entry in its pool. -/
  place : Nat
  deriving DecidableEq, Repr, Inhabited

structure Arena where
  headers : Array Header
  parents : Array NodeRef
  scopeCount : Nat
  pools : Pools
  deriving DecidableEq, Repr, Inhabited

namespace Arena

def empty : Arena := ⟨#[], #[], 0, .empty⟩

def size (a : Arena) : Nat :=
  a.headers.size

/-! ## Lookups -/

def header? (a : Arena) (ref : NodeRef) : Option Header :=
  ref.bind fun id => a.headers[id]?

def kind? (a : Arena) (ref : NodeRef) : Option Kind :=
  (a.header? ref).map Header.kind

def span? (a : Arena) (ref : NodeRef) : Option Span :=
  (a.header? ref).map Header.span

/-- The parent of a node; a root and an unknown node have none. -/
def parent (a : Arena) (ref : NodeRef) : NodeRef :=
  ref.bind fun id => a.parents[id]?.join

/-- The entry of a node in a pool, if the pool holds its kind. -/
def stored? (a : Arena) (p : Pool) (ref : NodeRef) : Option p.Entry :=
  (a.header? ref).bind fun h => if p.holds h.kind then (a.pools.get p)[h.place]? else none

/-- The scope that a node opens. -/
def scope? (a : Arena) (ref : NodeRef) : Option ScopeId :=
  match a.kind? ref with
  | some .sourceFile => (a.stored? .sourceFile ref).map (·.scope)
  | some (.function _) => (a.stored? .function ref).map (·.scope)
  | _ => none

/-- The references of a node to its parts, empty ones among them. -/
def references (a : Arena) (ref : NodeRef) : List NodeRef :=
  match a.kind? ref with
  | none => []
  | some .sourceFile => (a.stored? .sourceFile ref).elim [] (·.body)
  | some (.function _) => (a.stored? .function ref).elim [] (·.body)
  | some .classDeclaration => (a.stored? .classDeclaration ref).elim [] (·.2)
  | some .returnStatement => (a.stored? .returned ref).elim [] ([·])
  | some .expressionStatement => (a.stored? .statement ref).elim [] ([·])
  | some .var => []
  | some (.literal _) => []
  | some .arrayLiteral => (a.stored? .array ref).getD []
  | some .newExpression => (a.stored? .new ref).elim [] (·.2)
  | some .propertyAccess | some .staticPropertyAccess =>
    (a.stored? .access ref).elim [] ([·.receiver])
  | some .functionCall | some .methodCall | some .staticMethodCall =>
    (a.stored? .call ref).elim [] fun e => e.receiver :: e.arguments
  | some .castExpression => (a.stored? .cast ref).elim [] ([·.operand])
  | some .binaryExpression => (a.stored? .binary ref).elim [] fun e => [e.1, e.2.2]
  | some .unaryExpression => (a.stored? .unary ref).elim [] ([·.2])
  | some .parenthesizedExpression => (a.stored? .parenthesized ref).elim [] ([·])
  | some .assignment => (a.stored? .assignment ref).elim [] fun e => [e.1, e.2]
  | some .other => (a.stored? .other ref).getD []

/-- The children of a node, in source order. -/
def children (a : Arena) (ref : NodeRef) : List NodeId :=
  (a.references ref).filterMap id

/-! ## Additions -/

/-- Note a parent on a child.  No child and an unknown one are passed over. -/
def setParent (parent : NodeId) (a : Arena) : NodeRef → Arena
  | none => a
  | some child => { a with parents := a.parents.modify child fun _ => some parent }

/-- Add a header and an entry for it. -/
def push (a : Arena) (kind : Kind) (span : Span) (p : Pool) (entry : p.Entry) : Arena where
  headers := a.headers.push ⟨kind, span, (a.pools.get p).size⟩
  parents := a.parents.push none
  scopeCount := a.scopeCount
  pools := a.pools.push p entry

/-- Add a node and note it on its children.  Its position comes first. -/
def insert (a : Arena) (kind : Kind) (span : Span) (p : Pool) (entry : p.Entry)
    (children : List NodeRef) : NodeId × Arena :=
  (a.size, children.foldl (setParent a.size) (a.push kind span p entry))

/-- Give out a scope. -/
def openScope (a : Arena) : Arena :=
  { a with scopeCount := a.scopeCount + 1 }

def addCall (a : Arena) (kind : Kind) (call : Call) (span : Span) : NodeId × Arena :=
  a.insert kind span .call call (call.receiver :: call.arguments)

/-- Add a cast, which covers its token and its operand. -/
def addCast (a : Arena) (keyword : String) (token : Span) (operand : NodeRef) : NodeId × Arena :=
  let word := String.ofList (CastKind.keyword keyword.toList)
  a.insert .castExpression ((a.span? operand).elim token token.cover) .cast
    ⟨CastKind.ofKeyword word, word, token, operand⟩ [operand]

/-- Add a node of the given form.  Names of variables lose their `$`. -/
def add (a : Arena) (form : Form) (span : Span) : NodeId × Arena :=
  match form with
  | .sourceFile name body =>
    a.openScope.insert .sourceFile span .sourceFile ⟨name, body, a.scopeCount⟩ body
  | .function f =>
    a.openScope.insert (.function f.kind) span .function
      { name := f.name
        parameters := f.parameters.map Text.stripSigil
        captures := f.captures.map Text.stripSigil
        hasNativeReturn := f.hasNativeReturn
        isStatic := f.isStatic
        body := f.body
        scope := a.scopeCount }
      f.body
  | .classDeclaration name body =>
    a.insert .classDeclaration span .classDeclaration (name, body) body
  | .returnStatement value => a.insert .returnStatement span .returned value [value]
  | .expressionStatement expr => a.insert .expressionStatement span .statement expr [expr]
  | .var name => a.insert .var span .var (Text.stripSigil name) []
  | .literal kind text => a.insert (.literal kind) span .literal text []
  | .arrayLiteral items => a.insert .arrayLiteral span .array items items
  | .newExpression className arguments =>
    a.insert .newExpression span .new (className, arguments) arguments
  | .propertyAccess receiver name =>
    a.insert .propertyAccess span .access ⟨receiver, none, name⟩ [receiver]
  | .staticPropertyAccess className name =>
    a.insert .staticPropertyAccess span .access
      ⟨none, some className, some (Text.stripSigil name)⟩ []
  | .functionCall name arguments => a.addCall .functionCall ⟨none, none, name, arguments⟩ span
  | .methodCall receiver name arguments =>
    a.addCall .methodCall ⟨receiver, none, name, arguments⟩ span
  | .staticMethodCall className name arguments =>
    a.addCall .staticMethodCall ⟨none, some className, some name, arguments⟩ span
  | .cast keyword token operand => a.addCast keyword token operand
  | .binary left op right =>
    a.insert .binaryExpression span .binary (left, op, right) [left, right]
  | .unary op operand => a.insert .unaryExpression span .unary (op, operand) [operand]
  | .parenthesized expr => a.insert .parenthesizedExpression span .parenthesized expr [expr]
  | .assignment target value =>
    a.insert .assignment span .assignment (target, value) [target, value]
  | .other items => a.insert .other span .other items items

/-- The nodes of some forms, added in order. -/
def ofForms (forms : List (Form × Span)) : Arena :=
  forms.foldl (fun a f => (a.add f.1 f.2).2) empty

/-! ## Trees -/

/-- The form of a node, by its kind and its entry. -/
def form? (a : Arena) (ref : NodeRef) : Option Form :=
  (a.kind? ref).bind fun
    | .sourceFile => (a.stored? .sourceFile ref).map fun e => .sourceFile e.name e.body
    | .function kind =>
      (a.stored? .function ref).map fun e =>
        .function ⟨kind, e.name, e.parameters, e.captures, e.hasNativeReturn, e.isStatic, e.body⟩
    | .classDeclaration =>
      (a.stored? .classDeclaration ref).map fun e => .classDeclaration e.1 e.2
    | .returnStatement => (a.stored? .returned ref).map .returnStatement
    | .expressionStatement => (a.stored? .statement ref).map .expressionStatement
    | .var => (a.stored? .var ref).map .var
    | .literal kind => (a.stored? .literal ref).map (.literal kind)
    | .arrayLiteral => (a.stored? .array ref).map .arrayLiteral
    | .newExpression => (a.stored? .new ref).map fun e => .newExpression e.1 e.2
    | .propertyAccess => (a.stored? .access ref).map fun e => .propertyAccess e.receiver e.name
    | .staticPropertyAccess =>
      (a.stored? .access ref).bind fun e =>
        e.className.bind fun className => e.name.map (.staticPropertyAccess className)
    | .functionCall => (a.stored? .call ref).map fun e => .functionCall e.name e.arguments
    | .methodCall => (a.stored? .call ref).map fun e => .methodCall e.receiver e.name e.arguments
    | .staticMethodCall =>
      (a.stored? .call ref).bind fun e =>
        e.className.bind fun className =>
          e.name.map fun name => .staticMethodCall className name e.arguments
    | .castExpression => (a.stored? .cast ref).map fun e => .cast e.keyword e.token e.operand
    | .binaryExpression => (a.stored? .binary ref).map fun e => .binary e.1 e.2.1 e.2.2
    | .unaryExpression => (a.stored? .unary ref).map fun e => .unary e.1 e.2
    | .parenthesizedExpression => (a.stored? .parenthesized ref).map .parenthesized
    | .assignment => (a.stored? .assignment ref).map fun e => .assignment e.1 e.2
    | .other => (a.stored? .other ref).map .other

def node? (a : Arena) (ref : NodeRef) : Option Node :=
  (a.form? ref).bind fun form =>
    (a.span? ref).map fun span => ⟨form, span, a.scope? ref, a.parent ref⟩

/-- The tree of the nodes in an arena. -/
def tree (a : Arena) : Tree where
  nodes := ((List.range a.size).filterMap fun i => a.node? (some i)).toArray
  scopeCount := a.scopeCount

end Arena

end RedundantCast
