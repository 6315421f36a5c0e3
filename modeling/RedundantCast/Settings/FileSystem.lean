import RedundantCast.Settings.Path

/-!
# File systems

What loading asks of an operating system: the canonical path behind a path, and
the text of the file there.  `Disk` is a file system of named files without links.
-/

namespace RedundantCast

/-- How an operating system finds files.  There are finitely many, and all that can
be read has the canonical path of one of them and stands in a directory. -/
structure FileSystem where
  /-- The one path of the file or directory that a path leads to. -/
  canonicalize : Path → Option Path
  /-- The text of the file that a path leads to. -/
  read : Path → Option String
  files : List Path
  canonicalize_of_read {path : Path} {text : String} :
    read path = some text → ∃ file ∈ files, canonicalize path = some file
  parent?_of_read {path : Path} {text : String} :
    read path = some text → ∃ directory, path.parent? = some directory

namespace FileSystem

/-- The one path of a file, however it is written.  A path that leads nowhere stands
for itself. -/
def canonicalPath (fs : FileSystem) (path : Path) : Path :=
  (fs.canonicalize path).getD path

/-- The file system in which a file has one canonical path and what is read depends
on that alone.  A file that cannot be read has no text, and a path without a directory
leads to no file. -/
def ofFiles (canonicalize : Path → Option Path) (files : List (Path × Option String)) :
    FileSystem where
  canonicalize := canonicalize
  read path :=
    if path.parent?.isNone then none
    else (canonicalize path).bind fun file => (files.lookup file).join
  files := files.map Prod.fst
  canonicalize_of_read := by
    intro path text h
    obtain ⟨-, hread⟩ := Option.ite_none_left_eq_some.1 h
    obtain ⟨file, hfile, htext⟩ := Option.bind_eq_some_iff.1 hread
    have hlookup := Option.join_eq_some_iff.1 htext
    obtain ⟨before, after, rfl, -⟩ := List.lookup_eq_some_iff.1 hlookup
    exact ⟨file, by simp, hfile⟩
  parent?_of_read := by
    intro path text h
    obtain ⟨hparent, -⟩ := Option.ite_none_left_eq_some.1 h
    exact Option.ne_none_iff_exists'.1 (mt Option.isNone_iff_eq_none.2 hparent)

/-- The same file system where a file is read only by paths of up to `bytes`
bytes. -/
def readingWithin (fs : FileSystem) (bytes : Nat) : FileSystem where
  canonicalize := fs.canonicalize
  read path := if path.text.utf8ByteSize ≤ bytes then fs.read path else none
  files := fs.files
  canonicalize_of_read h := fs.canonicalize_of_read (Option.ite_none_right_eq_some.1 h).2
  parent?_of_read h := fs.parent?_of_read (Option.ite_none_right_eq_some.1 h).2

end FileSystem

/-- A file: the names that lead to it from the root, and its text, which it has
none if its bytes are no text. -/
structure File where
  location : List String
  text : Option String
  deriving DecidableEq, Repr, Inhabited

/-- Some files without links.  The directories are those that lead to a file. -/
structure Disk where
  files : List File
  /-- The directory that relative paths begin in. -/
  working : List String
  /-- How many bytes a path may have for a file to be read by it. -/
  maxPathBytes : Nat := 4095
  deriving DecidableEq, Repr, Inhabited

namespace Disk

def isDirectory (disk : Disk) (location : List String) : Bool :=
  disk.files.any fun f => location.isPrefixOf f.location && location.length < f.location.length

def isFile (disk : Disk) (location : List String) : Bool :=
  disk.files.any (·.location == location)

/-- Where the parts of a path lead from a directory. -/
def locate (disk : Disk) : List String → List String → Option (List String)
  | directory, [] => some directory
  | directory, part :: parts =>
    if Path.isIdle part then disk.locate directory parts
    else if part = ".." then disk.locate directory.dropLast parts
    else if disk.isDirectory (directory ++ [part]) then
      disk.locate (directory ++ [part]) parts
    else if parts.isEmpty && disk.isFile (directory ++ [part]) then some (directory ++ [part])
    else none

def pathOf (location : List String) : Path :=
  ⟨"/" ++ "/".intercalate location⟩

def canonicalize (disk : Disk) (path : Path) : Option Path :=
  if path.text = "" then none
  else (disk.locate (if path.isAbsolute then [] else disk.working) path.parts).map pathOf

def fileSystem (disk : Disk) : FileSystem :=
  let files := disk.files.map fun f => (pathOf f.location, f.text)
  (FileSystem.ofFiles disk.canonicalize files).readingWithin disk.maxPathBytes

end Disk

end RedundantCast
