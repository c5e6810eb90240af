import SourceMap.Bundle.Append
import SourceMap.Bundle.Files
import SourceMap.Command.Arguments
import SourceMap.Mappings.Place

/-!
# Running commands

## Main definitions

* `Command.Colour` : the colours of a terminal that output uses.
* `Command.paint`, `Command.paintBold` : a text in a colour.
* `Report` : what a command prints, and its exit status.
* `Invocation.run` : runs a command, in any monad with a file system.
* `Command.mergeFiles` : concatenates generated files and their maps.
* `Command.listing` : the segments of a map, one a line.
-/

namespace SourceMap

structure Report where
  out : String
  err : String
  status : Nat
  deriving DecidableEq, Repr

namespace Command

open Text (bytes)

/-! ## Coloured output -/

inductive Colour where
  | red
  | green
  | yellow
  | cyan
  | grey
  | white
  deriving DecidableEq, Repr

def Colour.code : Colour → Nat
  | red => 31
  | green => 32
  | yellow => 33
  | cyan => 36
  | grey => 90
  | white => 97

def control (code : Nat) : String := s!"\x1b[{code}m"

/-- `text` in a colour, and the usual colour behind it. -/
def paint (c : Colour) (text : String) : String := control c.code ++ text ++ control 39

def paintBold (c : Colour) (text : String) : String := control 1 ++ paint c text ++ control 0

/-! ## Failures -/

/-- A failure, and where in a mapping text it was met, if it was there. -/
structure Failure where
  error : BundleError
  site : Option (Path × Place)
  deriving DecidableEq, Repr

def Failure.of (error : BundleError) : Failure := ⟨error, none⟩

/-- An error in the mappings `text`, which were loaded for `path`. -/
def Failure.within (path : Path) (text : String) (e : MappingError) : Failure :=
  ⟨.mapping e, e.span?.map fun span => (path, (Separators.ofBytes (bytes text)).place span.offset)⟩

/-- One word for what is wrong with mappings. -/
def kindText : MappingError → String
  | .malformed .. => "vlq"
  | .valueCount .. => "arity"
  | .sourceOutOfRange .. | .nameOutOfRange .. => "index"
  | .negativeLine .. | .negativeColumn .. => "delta"
  | .noSuchEntry .. => "table"

def Failure.text (f : Failure) : String :=
  let site := match f.error, f.site with
    | .mapping e, some (path, place) =>
      paintBold .red "mappings" ++ " " ++ paint .yellow (kindText e) ++ " at " ++
        paint .cyan path.text ++
        s!" generated line {place.line}, segment {place.segment}: " ++
        paint .white e.message ++ "\n"
    | _, _ => ""
  site ++ paintBold .red "error:" ++ " " ++ f.error.message ++ "\n"

def report : Except Failure String → Report
  | .ok out => ⟨out, "", 0⟩
  | .error f => ⟨"", f.text, 1⟩

/-! ## Listing segments -/

def segmentText (line : Nat) (s : NamedSegment) : String :=
  let place := s!"{line}:{s.generatedColumn}"
  match s.origin with
  | none => place
  | some o =>
    let name := match o.name with
      | none => ""
      | some name => " " ++ paint .white name
    s!"{place} " ++ paint .grey "->" ++ " " ++ paint .cyan o.source ++
      s!":{o.line}:{o.column}" ++ name

/-- One line of text for each segment, under the number of its generated line. -/
def listing (lines : List NamedLine) : String :=
  String.join (lines.zipIdx.flatMap fun (line, n) => line.map fun s => segmentText n s ++ "\n")

variable {m : Type → Type} [Monad m] [FileSystem m]

/-- The bundle that a change makes of `b`, without what a failure leaves. -/
def edited (b : Bundle) (change : Edit m Unit) : ExceptT Failure m Bundle := do
  match ← (change.runOn b : m _) with
  | (.error e, _) => throw (.of e)
  | (.ok (), b) => return b

def decodeFile (map : Path) : ExceptT Failure m String := do
  let b ← edited (.empty .empty) (Bundle.loadMap map)
  match b.namedLines with
  | .error e => throw (.within map b.mappings.text e)
  | .ok lines => return listing lines

/-! ## Merging -/

/-- Where the map of a generated file is, unless something else is said. -/
def mapBeside (p : Path) : Path := p.addExtension ".map"

/-- Loads a generated file with the map that it refers to, or else the one beside it. -/
def loadInput (urls : UrlTable) (p : Path) : ExceptT Failure m Bundle :=
  edited (.empty urls) do
    Bundle.loadText p
    unless (← get).hasMap do
      if ← (FileSystem.isFile (mapBeside p) : m _) then Bundle.loadMap (mapBeside p)

/-- Loads files and appends them one after another. -/
def appendFiles (urls : UrlTable) (b : Bundle) : List Path → ExceptT Failure m Bundle
  | [] => return b
  | p :: rest => do
    let donor ← loadInput urls p
    match b.append donor with
    | (.error e, _) => throw (.within p donor.mappings.text e)
    | (.ok (), b) => appendFiles urls b rest

/-- The URL of the merged map, for the comment in the merged file. -/
def mapUrlOf (urls : UrlTable) (url : Option String) (map : Path) : m (Option String) := do
  match url with
  | some url => return some url
  | none => return (← urls.urlOf? map).or (map.fileName?.map Text.ofBytes)

def mergeFiles (urls : UrlTable) (job : MergeJob) : ExceptT Failure m String := do
  let start := { Bundle.empty urls with embedsContents := job.embedContents }
  let merged ← appendFiles urls start job.inputs
  let map := job.mapOut.getD (mapBeside job.out)
  let mapUrl ← (mapUrlOf urls job.url map : m _)
  let saved ← edited { merged with mapUrl } do
    Bundle.saveText job.out true
    Bundle.saveMap map
  return paintBold .green "merged" ++ s!" {job.inputs.length} inputs into " ++
    paint .cyan job.out.text ++
    s!" ({saved.mappings.lineCount} lines, {saved.sources.size} sources)\n"

end Command

variable {m : Type → Type} [Monad m] [FileSystem m]

/-- The table that pairs make when they are added in turn. -/
def UrlTable.ofPairs : List (Path × String) → UrlTable → m UrlTable
  | [], t => return t
  | (p, url) :: rest, t => do ofPairs rest (← t.add p url)

def Invocation.run (i : Invocation) : m Report := do
  match i.command with
  | .encode values => return Command.report (.ok (Vlq.encodeList values ++ "\n"))
  | .unpack token =>
    match Vlq.decodeList 0 (Text.bytes token) with
    | .ok values => return Command.report (.ok (" ".intercalate (values.map toString) ++ "\n"))
    | .error e => return Command.report (.error (.of (.mapping e)))
  | .decode map => return Command.report (← (Command.decodeFile map).run)
  | .merge job => do
    let urls ← UrlTable.ofPairs i.urlMaps .empty
    return Command.report (← (Command.mergeFiles urls job).run)

end SourceMap
