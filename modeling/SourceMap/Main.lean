import SourceMap.Command.Arguments
import SourceMap.Command.Run

/-!
# The command line

## Main definitions

* The instance of `FileSystem` for the files of the machine.
* `main` : runs the command that the arguments stand for.
-/

namespace SourceMap

/-- The cause that an error of the machine stands for, by its number, which may come negated. -/
def FileError.ofError (e : IO.Error) : FileError :=
  let ofCode (number : UInt32) : FileError :=
    let code := min number (0 - number)
    if code = 2 then .notFound
    else if code = 20 then .notADirectory
    else if code = 21 then .isADirectory
    else if code = 36 then .nameTooLong
    else .other (toString e)
  match e with
  | .noFileOrDirectory _ code _ | .invalidArgument _ code _ | .inappropriateType _ code _
  | .noSuchThing _ code _ | .resourceExhausted _ code _ | .permissionDenied _ code _
  | .illegalOperation code _ | .otherError code _ => ofCode code
  | _ => .other (toString e)

/-- The result of an action that may fail. -/
def attempt (action : IO α) : IO (Except FileError α) := do
  try return .ok (← action) catch e => return .error (.ofError e)

/-- Resolving does not tell why it fails, but opening the file does. -/
def resolve (p : Path) : IO (Except FileError Path) := do
  try return .ok ⟨toString (← IO.FS.realPath p.text)⟩
  catch _ =>
    match ← attempt (IO.FS.readBinFile p.text) with
    | .error e => return .error e
    | .ok _ => return .error .notFound

instance : FileSystem IO where
  resolve := resolve
  kind? p := do
    if p.isTooLong then return none
    try
      match (← (← IO.FS.realPath p.text).metadata).type with
      | .file => return some .file
      | .dir => return some .directory
      | _ => return some .other
    catch _ => return none
  readText p := do
    match ← attempt (IO.FS.readBinFile p.text) with
    | .error e => return .error e
    | .ok content =>
      match String.fromUTF8? content with
      | some text => return .ok text
      | none => return .error .invalidText
  writeText p text := attempt (IO.FS.writeFile p.text text)

end SourceMap

/-- Exits with status 2 where the arguments are no invocation. -/
def main (arguments : List String) : IO UInt32 := do
  match SourceMap.Invocation.ofArguments arguments with
  | .error e =>
    IO.eprintln s!"error: {e.message}"
    return 2
  | .ok invocation =>
    let report ← (invocation.run : IO SourceMap.Report)
    IO.print report.out
    IO.eprint report.err
    return UInt32.ofNat report.status
