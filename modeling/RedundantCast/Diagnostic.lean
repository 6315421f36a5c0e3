import RedundantCast.Span
import RedundantCast.Text.Template

/-!
# Diagnostics

What is shown to the user: a message of some category at a range of one file,
and the table of message templates by code.
-/

namespace RedundantCast

/-- How a diagnostic is shown; a suggestion is a weak warning. -/
inductive Category where
  | warning
  | error
  | suggestion
  | message
  deriving DecidableEq, Repr, Inhabited

namespace Category

/-- The category as written in settings. -/
def name : Category → String
  | warning => "warning"
  | error => "error"
  | suggestion => "suggestion"
  | message => "message"

def all : List Category := [warning, error, suggestion, message]

def ofName? (text : String) : Option Category :=
  all.find? (·.name == text)

@[simp] theorem ofName?_name (c : Category) : ofName? c.name = some c := by
  cases c <;> decide

end Category

/-- A message anchored at a range of one file. -/
structure Diagnostic where
  file : String
  start : Nat
  length : Nat
  text : String
  category : Category
  code : Nat
  deriving DecidableEq, Repr, Inhabited

namespace Diagnostic

def ofSpan (file : String) (span : Span) (text : String) (category : Category) (code : Nat) :
    Diagnostic where
  file := file
  start := span.start
  length := span.length
  text := text
  category := category
  code := code

/-- A weak warning at a span. -/
def suggestion (file : String) (span : Span) (text : String) (code : Nat) : Diagnostic :=
  Diagnostic.ofSpan file span text .suggestion code

def span (d : Diagnostic) : Span :=
  ⟨d.start, d.start + d.length⟩

end Diagnostic

/-- An entry of the message table. -/
structure MessageEntry where
  code : Nat
  category : Category
  template : String
  deriving DecidableEq, Repr

namespace MessageEntry

/-- Reported at a cast whose operand has the target type already. -/
def unnecessaryCast : MessageEntry where
  code := 7001
  category := .suggestion
  template := "This type casting is not necessary, as the argument is of needed type."

/-- Title of the fix that removes the cast token; the argument is its keyword. -/
def removeCast : MessageEntry where
  code := 7002
  category := .message
  template := "Remove unnecessary '(\x7b0\x7d)' casting"

def all : List MessageEntry := [unnecessaryCast, removeCast]

def ofCode? (code : Nat) : Option MessageEntry :=
  all.find? (·.code == code)

end MessageEntry

end RedundantCast
