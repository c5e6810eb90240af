import SourceMap.Text.Bytes

/-!
# File paths

A path is bytes, which need not be text, and is kept as it was written. What it means are its
components: repeated and trailing slashes do not count, and neither does a dot behind the first
component.

## Main definitions

* `Path` : a path as it was written.
* `Path.text` : how a path is shown.
* `Path.components` : its meaning. Two paths with the same components are the same place.
* `Path.join`, `Path.addExtension`, `Path.parent?`, `Path.fileName?`.
* `Path.isTooLong` : the path is longer than the system takes for opening a file.
-/

namespace SourceMap

open Text (slash dot)

structure Path where
  bytes : List UInt8
  deriving DecidableEq, Repr

namespace Path

def text (p : Path) : String := Text.ofBytes p.bytes

inductive Component where
  | root
  /-- A dot at the start of a relative path. -/
  | here
  | up
  | name (bytes : List UInt8)
  deriving DecidableEq, Repr

def Component.text : Component → String
  | root => "/"
  | here => "."
  | up => ".."
  | name bytes => Text.ofBytes bytes

/-- What stands between the slashes of `p`. -/
def pieces (p : Path) : List (List UInt8) := p.bytes.splitOn slash

/-- A piece that stands for no component, unless it is the first. -/
def isIdle (piece : List UInt8) : Bool := piece.isEmpty || piece = [dot]

def bodyComponent (piece : List UInt8) : Component :=
  if piece = [dot, dot] then .up else .name piece

/-- The component for the piece before the first slash. Where that piece is empty, the path starts
with a slash. -/
def firstComponent (piece : List UInt8) : Component :=
  if piece.isEmpty then .root else if piece = [dot] then .here else bodyComponent piece

def components (p : Path) : List Component :=
  if p.bytes.isEmpty then []
  else
    match p.pieces with
    | [] => []
    | first :: rest => firstComponent first :: (rest.filter (!isIdle ·)).map bodyComponent

/-- The path of `part` inside `p`. -/
def join (p : Path) (part : List UInt8) : Path :=
  if p.bytes.isEmpty || p.bytes.getLast? = some slash then ⟨p.bytes ++ part⟩
  else ⟨p.bytes ++ slash :: part⟩

def addExtension (p : Path) (extension : String) : Path := ⟨p.bytes ++ extension⟩

/-- The path with the given pieces, of which the first is empty for a path from the root. -/
def ofPieces : List (List UInt8) → Path
  | [[]] => ⟨[slash]⟩
  | pieces => ⟨[slash].intercalate pieces⟩

/-- The path without its last component, if that is not the root. -/
def parent? (p : Path) : Option Path :=
  match p.pieces with
  | [] => none
  | first :: rest =>
    match Text.dropEndWhile isIdle rest with
    | [] => if first.isEmpty then none else some ⟨[]⟩
    | body => some (ofPieces (first :: Text.dropEndWhile isIdle body.dropLast))

/-- The last component, if it is a name. -/
def fileName? (p : Path) : Option (List UInt8) :=
  match p.components.getLast? with
  | some (.name bytes) => some bytes
  | _ => none

/-- The length in bytes up to which a path can be opened. -/
def maxLength : Nat := 4095

def isTooLong (p : Path) : Bool := maxLength < p.bytes.length

end Path

end SourceMap
