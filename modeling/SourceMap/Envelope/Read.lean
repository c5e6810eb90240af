import SourceMap.Envelope.Basic
import SourceMap.Json.Read

/-!
# Reading an envelope

Fields may stand in any order, and others are skipped. An array of the fields in a fixed order is
taken as well. A server may put a guard line that starts with a closing bracket before the JSON
text, so that no page can run it as a script.

## Main definitions

* `Envelope.stripGuard` : the text behind a guard line.
* `Envelope.Fault` : why a text is no envelope.
* `Envelope.Draft` : the fields that have been read so far.
* `Envelope.read` : reads an envelope, behind a guard line if there is one.
-/

namespace SourceMap.Envelope

open Json

/-! ## The guard line -/

/-- The start of a guard line. -/
def guardStart : List Char := [')', ']', '}', '\'']

/-- What follows the first line, which a line feed, a carriage return or both together end. -/
def dropLine : List Char → List Char
  | [] => []
  | '\r' :: '\n' :: cs => cs
  | '\r' :: cs => cs
  | '\n' :: cs => cs
  | _ :: cs => dropLine cs

def stripGuard (cs : List Char) : List Char :=
  if guardStart.isPrefixOf cs then dropLine cs else cs

/-! ## Fields -/

inductive Fault where
  | json (failure : Failure)
  /-- The version that was found, if any. -/
  | wrongVersion (found : Option String)
  deriving DecidableEq, Repr

def Fault.message : Fault → String
  | json failure => s!"invalid source map JSON: {failure.message}"
  | wrongVersion found =>
    let found := found.getD "(missing)"
    s!"unsupported source map version {found}, only version {version} is supported"

/-- The fields read so far. A field that is there may still be `null`. -/
structure Draft where
  version : Option (Option Value)
  file : Option (Option String)
  sourceRoot : Option (Option String)
  sources : Option (List (Option String))
  sourcesContent : Option (List (Option String))
  names : Option (List String)
  mappings : Option (Option String)

namespace Draft

def empty : Draft := ⟨none, none, none, none, none, none, none⟩

def has (d : Draft) : Key → Bool
  | .version => d.version.isSome
  | .file => d.file.isSome
  | .sourceRoot => d.sourceRoot.isSome
  | .sources => d.sources.isSome
  | .sourcesContent => d.sourcesContent.isSome
  | .names => d.names.isSome
  | .mappings => d.mappings.isSome

/-- How deep the value of a field that takes any value may be nested, inside the envelope. -/
def maxDepth : Nat := 126

/-- Reads the value of a field. -/
def readField (d : Draft) (key : Key) : Reader Draft := fun cs =>
  match key with
  | .version => do
    let (v, rest) ← readOptional (readValue maxDepth) cs
    return ({ d with version := some v }, rest)
  | .file => do
    let (v, rest) ← readOptional readString cs
    return ({ d with file := some v }, rest)
  | .sourceRoot => do
    let (v, rest) ← readOptional readString cs
    return ({ d with sourceRoot := some v }, rest)
  | .sources => do
    let (v, rest) ← readArray (readOptional readString) cs
    return ({ d with sources := some v }, rest)
  | .sourcesContent => do
    let (v, rest) ← readArray (readOptional readString) cs
    return ({ d with sourcesContent := some v }, rest)
  | .names => do
    let (v, rest) ← readArray readString cs
    return ({ d with names := some v }, rest)
  | .mappings => do
    let (v, rest) ← readOptional readString cs
    return ({ d with mappings := some v }, rest)

/-- Reads a member of an object. A field must not come twice. -/
def readMember (d : Draft) : Reader Draft := fun cs => do
  let (text, rest) ← readKey cs
  match Key.ofText? text with
  | none =>
    let ((), rest) ← readColon rest
    let ((), rest) ← skipValue rest
    return (d, rest)
  | some key =>
    if d.has key then throw .mismatch
    let ((), rest) ← readColon rest
    d.readField key rest

/-- A field that an array may leave out. -/
def isOptional : Key → Bool
  | .sources | .sourcesContent | .names => true
  | _ => false

/-- Reads the fields of an array, whose opening bracket has been read. A comma stands before all of
them but the first. -/
def readFields : List Key → Bool → Draft → Reader Draft
  | [], _, d, cs =>
    match dropBlanks cs with
    | [] => .error .unfinished
    | ']' :: rest => .ok (d, rest)
    | _ => .error .malformed
  | key :: keys, isFirst, d, cs =>
    match dropBlanks cs with
    | [] => .error .unfinished
    | ']' :: rest =>
      if isOptional key then readFields keys isFirst d (']' :: rest) else .error .mismatch
    | c :: rest =>
      if isFirst then do
        let (d, rest) ← d.readField key (c :: rest)
        readFields keys false d rest
      else if c = ',' then
        match dropBlanks rest with
        | [] => .error .unfinished
        | ']' :: _ => .error .malformed
        | rest => do
          let (d, rest) ← d.readField key rest
          readFields keys false d rest
      else .error .malformed

def read : Reader Draft := fun cs =>
  match dropBlanks cs with
  | '\x7b' :: cs => foldItems '\x7d' readMember empty cs
  | '[' :: cs => readFields Key.all true empty cs
  | cs => .error (refuse cs)

/-- The envelope of a draft of the right version. -/
def finish (d : Draft) : Except Fault Envelope :=
  match d.version.join with
  | none => .error (.wrongVersion none)
  | some v =>
    match v with
    | .number (.integer n) =>
      if n = (Envelope.version : Int) then
        .ok ⟨d.file.join, d.sourceRoot.join, d.sources.getD [], d.names.getD [], d.mappings.join,
          d.sourcesContent⟩
      else .error (.wrongVersion (some v.text))
    | _ => .error (.wrongVersion (some v.text))

end Draft

/-- Reads a whole text. Only blanks may follow the envelope. -/
def read (text : String) : Except Fault Envelope :=
  match Draft.read (stripGuard text.toList) with
  | .error e => .error (.json e)
  | .ok (draft, rest) =>
    if (dropBlanks rest).isEmpty then draft.finish else .error (.json .malformed)

end SourceMap.Envelope
