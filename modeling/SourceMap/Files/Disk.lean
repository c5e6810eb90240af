import SourceMap.Files.FileSystem
import SourceMap.Text.Bytes

/-!
# A file system in memory

Directories and files under one root, without links.

## Main definitions

* `Disk` : the contents of the files, by their names from the root on.
* `Disk.step` : follows one piece of a path.
* `Disk.locate` : what a path stands for.
* `Disk.resolve` : the path from the root of what a path stands for.
* The instance of `FileSystem` for computations with a disk as state.
-/

namespace SourceMap

open Text (slash dot)

inductive Node where
  | directory
  | file (bytes : List UInt8)
  deriving DecidableEq

/-- The names that lead from the root to a file or directory. -/
abbrev Location := List (List UInt8)

structure Disk where
  workingDirectory : Location
  nodes : List (Location × Node)
  deriving DecidableEq

namespace Disk

def node? (d : Disk) (l : Location) : Option Node :=
  if l.isEmpty then some .directory else d.nodes.lookup l

def put (d : Disk) (l : Location) (n : Node) : Disk :=
  { d with nodes := (l, n) :: d.nodes.filter (·.1 ≠ l) }

@[simp] theorem node?_put_self (d : Disk) {l : Location} (n : Node) (h : l ≠ []) :
    (d.put l n).node? l = some n := by
  simp [node?, put, h]

/-- The longest name that a directory entry may have. -/
def maxNameLength : Nat := 255

def locationPath (l : Location) : Path := ⟨slash :: [slash].intercalate l⟩

/-- Goes on from `l` over one piece of a path. The piece needs a directory to start from, also where
it leads nowhere else. -/
def step (d : Disk) (l : Location) (piece : List UInt8) : Except FileError Location :=
  match d.node? l with
  | none => .error .notFound
  | some (.file _) => .error .notADirectory
  | some .directory =>
    if Path.isIdle piece then .ok l
    else if piece = [dot, dot] then .ok l.dropLast
    else if maxNameLength < piece.length then .error .nameTooLong
    else if (d.node? (l ++ [piece])).isNone then .error .notFound
    else .ok (l ++ [piece])

/-- A step by which a path is resolved. A name is looked up by its path from the root. -/
def resolveStep (d : Disk) (l : Location) (piece : List UInt8) : Except FileError Location :=
  if Path.isIdle piece || piece = [dot, dot] then d.step l piece
  else if (locationPath (l ++ [piece])).isTooLong then .error .nameTooLong
  else d.step l piece

/-- Where the pieces of `p` are followed from. -/
def start (d : Disk) (p : Path) : Location :=
  if p.bytes.head? = some slash then [] else d.workingDirectory

/-- What is wrong with a path whatever the files are and however it is used. -/
def pathFault? (p : Path) : Option FileError :=
  if p.bytes.contains 0 then some .nulInName
  else if p.bytes.isEmpty then some .notFound
  else none

/-- What is wrong with a path that is to be opened, whatever the files are. -/
def openFault? (p : Path) : Option FileError :=
  (pathFault? p).or (if p.isTooLong then some .nameTooLong else none)

def locate (d : Disk) (p : Path) : Except FileError (Location × Node) :=
  match openFault? p with
  | some e => .error e
  | none => do
    let l ← p.pieces.foldlM d.step (d.start p)
    match d.node? l with
    | some n => .ok (l, n)
    | none => .error .notFound

/-- A path that is too long to be opened can still be resolved. -/
def resolve (d : Disk) (p : Path) : Except FileError Path :=
  match pathFault? p with
  | some e => .error e
  | none => do return locationPath (← p.pieces.foldlM d.resolveStep (d.start p))

def kind? (d : Disk) (p : Path) : Option FileKind :=
  match d.locate p with
  | .ok (_, .directory) => some .directory
  | .ok (_, .file _) => some .file
  | .error _ => none

def readText (d : Disk) (p : Path) : Except FileError String := do
  match ← d.locate p with
  | (_, .directory) => .error .isADirectory
  | (_, .file bytes) =>
    match String.fromUTF8? ⟨bytes.toArray⟩ with
    | some text => .ok text
    | none => .error .invalidText

/-- Where a file for `p` is or would be created. -/
def target (d : Disk) (p : Path) : Except FileError Location :=
  match openFault? p with
  | some e => .error e
  | none =>
    let named := Text.dropEndWhile List.isEmpty p.pieces
    match named.getLast? with
    | none => .error .isADirectory
    | some piece => do
      let l ← named.dropLast.foldlM d.step (d.start p)
      match d.node? l with
      | none => .error .notFound
      | some (.file _) => .error .notADirectory
      | some .directory =>
        if piece = [dot] || piece = [dot, dot] || named.length < p.pieces.length then
          .error .isADirectory
        else if maxNameLength < piece.length then .error .nameTooLong
        else if d.node? (l ++ [piece]) = some .directory then .error .isADirectory
        else .ok (l ++ [piece])

def writeText (d : Disk) (p : Path) (text : String) : Except FileError Disk := do
  return d.put (← d.target p) (.file (Text.bytes text))

end Disk

instance : FileSystem (StateM Disk) where
  resolve p := return (← get).resolve p
  kind? p := return (← get).kind? p
  readText p := return (← get).readText p
  writeText p text := do
    match (← get).writeText p text with
    | .error e => return .error e
    | .ok d =>
      set d
      return .ok ()

end SourceMap
