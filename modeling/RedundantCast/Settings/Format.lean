import RedundantCast.Json.Comments
import RedundantCast.Json.Reader
import RedundantCast.Settings.Basic
import RedundantCast.Text.LetterCase

/-!
# The format of settings

Settings are JSON with comments and dangling commas.  An option that is `null`
is left out, and a boolean may be written as a word.  Options that are read by
themselves are strict: plain JSON values, and no `null`.
-/

namespace RedundantCast

open Json

namespace Settings

/-- The greatest depth that can be written down. -/
def maxDepth : Nat := 0xFFFFFFFF

/-- The boolean that a word stands for. -/
def booleanOfWord? (text : String) : Option Bool :=
  let word := String.ofList (Text.lower (Text.trim text.toList))
  if ["true", "1", "yes", "on"].contains word then some true
  else if ["false", "0", "no", "off"].contains word then some false
  else none

/-- A boolean, or a word for one. -/
def readSwitch : Reader Bool
  | .bool value :: _ => .ok (value, .tail)
  | .string raw :: _ =>
    match text? raw with
    | none => .error .malformed
    | some text =>
      match booleanOfWord? text with
      | some value => .ok (value, .tail)
      | none => .error (.unknownBoolean text)
  | _ => .error .malformed

/-- The category with the name inside a string literal. -/
def categoryOf (raw : List Char) : Except Fault Category :=
  match (text? raw).bind Category.ofName? with
  | some category => .ok category
  | none => .error .malformed

/-- The name of a category, or an object with that key and `null`. -/
def readCategory : Reader Category
  | .string raw :: _ => (categoryOf raw).map fun c => (c, .tail)
  | .openBrace :: .string raw :: .colon :: .null :: .closeBrace :: _ =>
    (categoryOf raw).map fun c => (c, Rest.tail.later.later.later.later)
  | _ => .error .malformed

/-- A field that stores what a reader reads. -/
def field {σ α : Type} (name : String) (read : Reader α) (set : σ → α → σ) : RecordField σ where
  name := name
  read record ts := (read ts).map fun (a, rest) => (set record a, rest)

def inspectionFields : List (RecordField Inspection) :=
  [field "reportCategory" (readOptional readCategory) fun i c => { i with category := c },
    field "trustPropertyDocHints" (readOptional readSwitch) fun i b =>
      { i with trustPropertyDocs := b },
    field "skipDocOnlyReturns" (readOptional readSwitch) fun i b =>
      { i with skipDocOnlyReturns := b },
    field "maxInferenceDepth" (readOptional (readNat maxDepth)) fun i n =>
      { i with maxInferenceDepth := n }]

def configFields : List (RecordField Config) :=
  [field "extends" (readOptional readText) fun c base => { c with base := base },
    field "inspection" (readOptional (readRecord inspectionFields .empty)) fun c i =>
      { c with inspection := i }]

def optionFields : List (RecordField Options) :=
  [field "reportCategory" readCategory fun o c => { o with category := c },
    field "trustPropertyDocHints" readBool fun o b => { o with trustPropertyDocs := b },
    field "skipDocOnlyReturns" readBool fun o b => { o with skipDocOnlyReturns := b },
    field "maxInferenceDepth" (readNat maxDepth) fun o n => { o with maxInferenceDepth := n }]

end Settings

/-- Settings in plain JSON. -/
def Config.decode : Decoder Config :=
  Json.parse (readRecord Settings.configFields .empty)

/-- Settings with comments and dangling commas, by any decoder of plain JSON. -/
def Config.parseBy (decode : Decoder Config) (text : String) : Except Fault Config :=
  decode (Comments.strip text.toList)

def Config.parse (text : String) : Except Fault Config :=
  Config.parseBy Config.decode text

/-- The options in a text of plain JSON; what it leaves out has its default. -/
def Options.parse (text : String) : Except Fault Options :=
  Json.parse (readRecord Settings.optionFields .default) text.toList

end RedundantCast
