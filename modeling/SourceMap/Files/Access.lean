import SourceMap.Files.FileSystem

/-!
# Access to files

Reading and writing with the checks that come before it, and the reasons for which they fail.

## Main definitions

* `AccessError` : the reasons, each with the path at fault.
* `Access.readablePath`, `Access.read` : the file that a path leads to, and its text.
* `Access.requireWritable`, `Access.write`
-/

namespace SourceMap

inductive AccessError where
  | inaccessible (path : Path) (e : FileError)
  | notAFile (path : Path)
  | noDirectory (path : Path)
  deriving DecidableEq, Repr

namespace AccessError

def message : AccessError → String
  | inaccessible path e => s!"could not access '{path.text}': {e.message}"
  | notAFile path => s!"'{path.text}' is not a file"
  | noDirectory path => s!"output directory '{path.text}' does not exist"

def help? : AccessError → Option String
  | noDirectory _ => some "create the directory before saving into it"
  | _ => none

end AccessError

namespace Access

open FileSystem

variable {m : Type → Type} [Monad m] [FileSystem m]

/-- The settled path of a file that is there. -/
def readablePath (p : Path) : ExceptT AccessError m Path := do
  match ← (resolve p : m _) with
  | .error e => throw (.inaccessible p e)
  | .ok q => if ← (isFile q : m _) then return q else throw (.notAFile q)

def read (p : Path) : ExceptT AccessError m String := do
  match ← (readText p : m _) with
  | .error e => throw (.inaccessible p e)
  | .ok text => return text

/-- The directory that a new file at `p` would be in. -/
def directoryOf (p : Path) : Path :=
  match p.parent? with
  | none | some ⟨[]⟩ => ⟨"."⟩
  | some parent => parent

/-- Fails unless `p` is a file, or there is nothing at `p` and a directory for it. -/
def requireWritable (p : Path) : ExceptT AccessError m Unit := do
  match ← (kind? p : m _) with
  | some .file => return
  | some _ => throw (.notAFile p)
  | none =>
    unless ← (isDirectory (directoryOf p) : m _) do throw (.noDirectory (directoryOf p))

def write (p : Path) (text : String) : ExceptT AccessError m Unit := do
  match ← (writeText p text : m _) with
  | .error e => throw (.inaccessible p e)
  | .ok () => return

end Access

end SourceMap
