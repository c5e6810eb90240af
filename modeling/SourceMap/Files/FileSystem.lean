import SourceMap.Files.Path

/-!
# File systems

What the program asks of the files around it.

## Main definitions

* `FileError` : why a file could not be reached, and `FileError.message`.
* `FileSystem` : the operations, in a monad that holds or reaches the files.
* `FileSystem.settle` : the one path of a file that exists.
-/

namespace SourceMap

inductive FileError where
  | notFound
  | notADirectory
  | isADirectory
  | nameTooLong
  | nulInName
  | invalidText
  /-- Any other reason, in the words of the system. -/
  | other (message : String)
  deriving DecidableEq, Repr

def FileError.message : FileError → String
  | notFound => "No such file or directory (os error 2)"
  | notADirectory => "Not a directory (os error 20)"
  | isADirectory => "Is a directory (os error 21)"
  | nameTooLong => "File name too long (os error 36)"
  | nulInName => "file name contained an unexpected NUL byte"
  | invalidText => "stream did not contain valid UTF-8"
  | other message => message

inductive FileKind where
  | file
  | directory
  | other
  deriving DecidableEq, Repr

class FileSystem (m : Type → Type) where
  /-- The path from the root, free of dots, of something that exists. Only that path, and not the
  one that is resolved, must be short enough to be opened. -/
  resolve : Path → m (Except FileError Path)
  /-- What stands at a path, if anything. -/
  kind? : Path → m (Option FileKind)
  readText : Path → m (Except FileError String)
  /-- Replaces the text of a file, which is created where there is none. -/
  writeText : Path → String → m (Except FileError Unit)

namespace FileSystem

variable {m : Type → Type} [Monad m] [FileSystem m]

/-- The path that `resolve` finds, or `p` itself where nothing stands. -/
def settle (p : Path) : m Path := do
  match ← resolve p with
  | .ok q => return q
  | .error _ => return p

def isFile (p : Path) : m Bool := return (← kind? p) = some .file

def isDirectory (p : Path) : m Bool := return (← kind? p) = some .directory

end FileSystem

end SourceMap
