import RowStore.Disk.File
import RowStore.Error

/-!
  Volumes — directories, files, and the way from a path to a file.

  A path is walked from the top, name by name. Every name before the last has to
  be a directory. A file has one place in its directory however it was named, and
  one canonical path: the names on the way to it.
-/

namespace RowStore

/-- The number of a file of a volume. -/
abbrev FileNo := Nat

/-- The number of a directory of a volume. The top directory is 0. -/
abbrev DirNo := Nat

/-- The names from the top directory down. -/
abbrev Path := List String

/-- What a name in a directory stands for. -/
inductive Entry where
  | directory (no : DirNo)
  | file (no : FileNo)
  deriving DecidableEq, Repr, Inhabited

/-- The directories on the way from the top to one of them, that one first. -/
abbrev Way := List (String × DirNo)

namespace Way

/-- The directory that the way leads to. -/
def here : Way → DirNo
  | [] => 0
  | (_, no) :: _ => no

def path (way : Way) : Path := way.reverse.map Prod.fst

end Way

structure Volume where
  entries : List ((DirNo × String) × Entry)
  /-- How many directories there are, the top one included. -/
  directories : Nat
  files : Array File
  deriving Inhabited

namespace Volume

/-- Only the top directory. -/
def empty : Volume := ⟨[], 1, #[]⟩

/-- The contents of a file. -/
def file (v : Volume) (no : FileNo) : File := v.files.getD no File.empty

/-- Replaces the contents of a file. -/
def setFile (v : Volume) (no : FileNo) (f : File) : Volume :=
  { v with files := v.files.setIfInBounds no f }

/-- The most bytes a name has. -/
def maxName : Nat := 255

/-- What a directory has under a name. -/
def child? (v : Volume) (directory : DirNo) (name : String) : Except IoFault (Option Entry) :=
  if maxName < name.utf8ByteSize then .error .nameTooLong
  else .ok (v.entries.lookup (directory, name))

/-- The way that names lead on from another, all of them directories. -/
def walk (v : Volume) : Way → List String → Except IoFault Way
  | way, [] => .ok way
  | way, name :: rest =>
    if name == "." then v.walk way rest
    else if name == ".." then v.walk way.tail rest
    else
      match v.child? way.here name with
      | .error fault => .error fault
      | .ok none => .error .notFound
      | .ok (some (.file _)) => .error .notDirectory
      | .ok (some (.directory no)) => v.walk ((name, no) :: way) rest

/-- A path as it is written: the names on the way, the last name unless the path
can only be a directory, and whether a slash comes after it. -/
structure Spelling where
  way : List String
  last : Option String
  slash : Bool

/-- The most bytes a written path has. -/
def maxPath : Nat := 4095

/-- The names of a written path. A file name cannot hold a NUL. -/
def spell (path : String) : Except IoFault Spelling :=
  if path.toList.contains '\x00' then .error .invalidName
  else if maxPath < path.utf8ByteSize then .error .nameTooLong
  else
    let names := (path.splitOn "/").filter (!·.isEmpty)
    let last := names.getLast?.filter fun name => name != "." && name != ".."
    .ok ⟨if last.isSome then names.dropLast else names, last, path.endsWith "/"⟩

/-- The file at a path, made empty if there is none. A path with a slash after it
names a directory, which cannot be opened as a file. -/
def openFile (v : Volume) (path : String) : Except IoFault (Path × FileNo × Volume) := do
  let s ← spell path
  let way ← v.walk [] s.way
  match s.last with
  | none => throw .isDirectory
  | some name =>
    if s.slash then throw .isDirectory
    let target := way.path ++ [name]
    match ← v.child? way.here name with
    | some (.file no) => return (target, no, v)
    | some (.directory _) => throw .isDirectory
    | none =>
      let no := v.files.size
      return (target, no, { v with
        entries := ((way.here, name), .file no) :: v.entries
        files := v.files.push File.empty })

/-- The file at a path that has to exist. -/
def findFile (v : Volume) (path : String) : Except IoFault FileNo := do
  let s ← spell path
  let way ← v.walk [] s.way
  match s.last with
  | none => throw .isDirectory
  | some name =>
    match ← v.child? way.here name with
    | none => throw .notFound
    | some (.directory _) => throw .isDirectory
    | some (.file no) => if s.slash then throw .notDirectory else return no

/-- Makes the directories that names lead through, as far as nothing stands in the
way. A new directory is not made by a path that ends in a dot. -/
def makeWay (v : Volume) : Way → List String → Volume × Except IoFault Unit
  | _, [] => (v, .ok ())
  | way, name :: rest =>
    if name == "." then v.makeWay way rest
    else if name == ".." then v.makeWay way.tail rest
    else
      match v.child? way.here name with
      | .error fault => (v, .error fault)
      | .ok (some (.file _)) =>
        (v, .error (if rest.isEmpty then .alreadyExists else .notDirectory))
      | .ok (some (.directory no)) => v.makeWay ((name, no) :: way) rest
      | .ok none =>
        if !rest.isEmpty && rest.all (· == ".") then (v, .error .notFound)
        else
          let no := v.directories
          let v := { v with
            entries := ((way.here, name), .directory no) :: v.entries
            directories := no + 1 }
          makeWay v ((name, no) :: way) rest

/-- Makes a directory and those above it, as far as they do not exist. -/
def makeDirectory (v : Volume) (path : String) : Volume × Except IoFault Unit :=
  match spell path with
  | .error fault => (v, .error fault)
  | .ok s => v.makeWay [] (s.way ++ s.last.toList)

end Volume

/-- A canonical path as it is shown. -/
def Path.text (path : Path) : String := "/".intercalate path

end RowStore
