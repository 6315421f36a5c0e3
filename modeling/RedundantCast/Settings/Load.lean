import RedundantCast.Settings.FileSystem
import RedundantCast.Settings.Format

/-!
# Loading settings

A settings file may be based on another one, and that on a third.  `load` reads
the whole chain; the file nearest to the start decides each option.  Files are
found by any file system, and their texts are read by any decoder.
-/

namespace RedundantCast

inductive SettingsError where
  /-- There is no file at the path, or it cannot be read. -/
  | unreadable (path : Path)
  | refused (path : Path) (fault : Json.Fault)
  /-- The file is based on itself.  The path is its canonical one, or as written
  if it has none. -/
  | cycle (path : Path)
  /-- The file is based on another one, and stands in no directory. -/
  | noDirectory
  | invalid (path : Path) (error : OptionsError)
  deriving DecidableEq, Repr, Inhabited

/-- What is said about a fault, outermost first.  Of malformed text only the
place is said. -/
def Json.Fault.context : Json.Fault → List String
  | malformed => ["failed to parse phpcast config JSON"]
  | unknownBoolean text =>
    ["failed to parse phpcast config JSON",
      "invalid boolean value: '" ++ text ++ "'. Expected true, false, 'true', or 'false'"]

/-- What is said about an error, outermost first, with paths as `write` writes
them. -/
def SettingsError.context (write : Path → String) : SettingsError → List String
  | unreadable path => ["failed to read config: " ++ write path]
  | refused path fault => ("failed to parse config: " ++ write path) :: fault.context
  | cycle path => ["config extends cycle detected at " ++ write path]
  | noDirectory => ["config has no parent directory"]
  | invalid path error => ["invalid options in " ++ write path, error.text]

namespace Settings

/-- The files that have not been seen yet, those seen being told by the components of
their canonical paths. -/
def unseen (fs : FileSystem) (seen : List (List String)) : List Path :=
  fs.files.filter fun file => file.components ∉ seen

theorem length_unseen_cons {fs : FileSystem} {seen : List (List String)} {path : Path}
    {text : String} (hread : fs.read path = some text)
    (hnew : (fs.canonicalPath path).components ∉ seen) :
    (unseen fs ((fs.canonicalPath path).components :: seen)).length < (unseen fs seen).length := by
  obtain ⟨file, hfile, hcanonical⟩ := fs.canonicalize_of_read hread
  rw [FileSystem.canonicalPath, hcanonical, Option.getD_some] at hnew ⊢
  have hsub : unseen fs (file.components :: seen) =
      (unseen fs seen).filter fun other => other.components ≠ file.components := by
    simp only [unseen, List.filter_filter]
    congr 1
    funext other
    simp [List.mem_cons, not_or]
  rw [hsub]
  refine List.length_filter_lt_length_iff_exists.2 ⟨file, ?_, by simp⟩
  simp [unseen, hfile, hnew]

/-- Load the settings at a path, when the files in `seen` have been read on the way
to it. -/
def loadAfter (decode : Json.Decoder Config) (fs : FileSystem) (seen : List (List String))
    (path : Path) : Except SettingsError Config :=
  if hseen : (fs.canonicalPath path).components ∈ seen then
    .error (.cycle (fs.canonicalPath path))
  else
    match hread : fs.read path with
    | none => .error (.unreadable path)
    | some text =>
      match Config.parseBy decode text with
      | .error fault => .error (.refused path fault)
      | .ok config =>
        match config.base with
        | none => .ok config
        | some base =>
          match path.parent? with
          | none => .error .noDirectory
          | some directory =>
            have := length_unseen_cons hread hseen
            (loadAfter decode fs ((fs.canonicalPath path).components :: seen)
              (directory.join base)).map config.basedOn
termination_by (unseen fs seen).length

def load (decode : Json.Decoder Config) (fs : FileSystem) (path : Path) :
    Except SettingsError Config :=
  loadAfter decode fs [] path

/-- The options that the settings at a path amount to. -/
def loadOptions (decode : Json.Decoder Config) (fs : FileSystem) (path : Path) :
    Except SettingsError Options :=
  match load decode fs path with
  | .error e => .error e
  | .ok config => config.options.mapError (.invalid path)

end Settings

end RedundantCast
