import RedundantCast.Text.Template

/-!
# Simultaneous substitution

A template is taken apart once, from left to right, into the placeholders of the
arguments and the characters that stand for themselves. All arguments are put in
together, so what an argument brings along is never looked at.
-/

namespace RedundantCast.Text

/-- A piece of a template: a character, or the place of an argument. -/
inductive Piece where
  | char (c : Char)
  | hole (index : Nat)
  deriving DecidableEq, Repr

/-- The first index below `count` whose placeholder the text starts with. -/
def holeAt? (count : Nat) (text : List Char) : Option Nat :=
  (List.range count).find? fun index => (placeholder index).isPrefixOf text

/-- The pieces of a text; the first `skip` characters belong to a placeholder that
has been taken off already. -/
def piecesFrom (count : Nat) : Nat → List Char → List Piece
  | _, [] => []
  | skip + 1, _ :: cs => piecesFrom count skip cs
  | 0, c :: cs =>
    match holeAt? count (c :: cs) with
    | some index => .hole index :: piecesFrom count ((placeholder index).length - 1) cs
    | none => .char c :: piecesFrom count 0 cs

/-- The pieces of a template for so many arguments. -/
def pieces (count : Nat) (template : List Char) : List Piece :=
  piecesFrom count 0 template

/-- What stands at a piece; a place that has no argument keeps its placeholder. -/
def Piece.text (args : List (List Char)) : Piece → List Char
  | .char c => [c]
  | .hole index => args.getD index (placeholder index)

def render (args : List (List Char)) (ps : List Piece) : List Char :=
  ps.flatMap (Piece.text args)

@[simp] theorem render_nil (args : List (List Char)) : render args [] = [] := rfl

@[simp] theorem render_cons (args : List (List Char)) (p : Piece) (ps : List Piece) :
    render args (p :: ps) = p.text args ++ render args ps := rfl

/-- The template with all its placeholders replaced by the arguments at once. -/
def substitute (template : String) (args : List String) : String :=
  String.ofList (render (args.map String.toList) (pieces args.length template.toList))

end RedundantCast.Text
