import RedundantCast.Declaration.Lineage
import RedundantCast.Declaration.Provider

/-!
# Declaration tables

Declarations that are collected up front.  Several declarations of a variable
are kept in order; of a property and of a return type the latest is.  Members
are looked up along the lineage of their class.
-/

namespace RedundantCast

/-- A return type with the lowered name it is found under. -/
structure FunctionReturn where
  key : String
  declaration : Declaration
  deriving Repr, Inhabited

/-- A declaration of a member of a class, with the name it is found under. -/
structure MemberEntry where
  owner : ClassName
  key : String
  declaration : Declaration
  deriving Repr, Inhabited

/-- The latest entries of functions, methods and properties stand first. -/
structure Table where
  variableEntries : List (ScopeId × Declaration)
  functions : List FunctionReturn
  methods : List MemberEntry
  properties : List MemberEntry
  parents : List ParentEdge
  deriving Repr, Inhabited

namespace Table

def empty : Table := ⟨[], [], [], [], []⟩

/-- Functions are found by their name in lower case without leading
backslashes. -/
def functionKey (name : String) : String :=
  String.ofList (Text.lower (Text.dropBackslashes name.toList))

def declareVariable (t : Table) (scope : ScopeId) (name : String) (type : Ty) (source : Source) :
    Table :=
  { t with variableEntries := t.variableEntries ++ [(scope, ⟨Text.stripSigil name, type, source⟩)] }

def declareFunction (t : Table) (name : String) (type : Ty) (source : Source) : Table :=
  { t with functions := ⟨functionKey name, ⟨name, type, source⟩⟩ :: t.functions }

def declareMethod (t : Table) (owner : ClassName) (name : String) (type : Ty) (source : Source) :
    Table :=
  { t with methods := ⟨owner, Text.lowered name, ⟨name, type, source⟩⟩ :: t.methods }

def declareProperty (t : Table) (owner : ClassName) (name : String) (type : Ty)
    (source : Source) : Table :=
  let name := Text.stripSigil name
  { t with properties := ⟨owner, name, ⟨name, type, source⟩⟩ :: t.properties }

/-- Note that a class extends or implements another. -/
def declareParent (t : Table) (child parent : ClassName) : Table :=
  if (Lineage.parents t.parents child).contains parent then t
  else { t with parents := t.parents ++ [⟨child, parent⟩] }

/-- The declarations of a variable in a scope, in order. -/
def variablesNamed (t : Table) (scope : ScopeId) (name : String) : List Declaration :=
  (t.variableEntries.filter fun e => e.1 == scope && e.2.name == Text.stripSigil name).map (·.2)

/-- The latest entry of a member on the class itself. -/
def entryOn (entries : List MemberEntry) (key : String) (owner : ClassName) :
    Option Declaration :=
  (entries.find? fun e => e.owner == owner && e.key == key).map MemberEntry.declaration

/-- The entry of a member on the first class of the lineage that has one. -/
def member? (t : Table) (entries : List MemberEntry) (key : String) (owner : ClassName) :
    Option Declaration :=
  (Lineage.ofClass t.parents owner).findSome? (entryOn entries key)

def returnType? (t : Table) : Callable → Option Declaration
  | .function name =>
    (t.functions.find? (·.key == functionKey name)).map FunctionReturn.declaration
  | .method owner name => t.member? t.methods (Text.lowered name) owner

def propertyType? (t : Table) (owner : ClassName) (name : String) : Option Declaration :=
  t.member? t.properties (Text.stripSigil name) owner

/-- The strict ancestors of each class. -/
def hierarchy (t : Table) : Hierarchy := fun c =>
  let ancestors := Lineage.ancestors t.parents c
  ⟨fun a => ancestors.contains a⟩

/-- The table as a provider, which never fails. -/
def provider (t : Table) : Provider where
  variableTypes scope name := .ok (t.variablesNamed scope name)
  returnType callable := .ok (t.returnType? callable)
  memberType owner name := .ok (t.propertyType? owner name)
  hierarchy := t.hierarchy

end Table

end RedundantCast
