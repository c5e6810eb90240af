import SourceMap.Envelope.Basic
import SourceMap.Json.Value

/-!
# Writing an envelope

## Main definitions

* `Envelope.sharedStart` : the longest list with which two lists both start.
* `Envelope.directories` : the directories that a source names, one after another.
* `Envelope.sharedRoot?` : the directories that all sources start with, as one text.
* `Envelope.write` : the envelope as one JSON object without blanks.

## Main statements

* `Envelope.prefix_sharedStart_iff` : what two lists both start with is what their common start
  starts with.
-/

namespace SourceMap.Envelope

open Json (quote)

/-! ## The directory that sources share -/

def sharedStart [DecidableEq α] : List α → List α → List α
  | a :: as, b :: bs => if a = b then a :: sharedStart as bs else []
  | _, _ => []

theorem prefix_sharedStart_iff [DecidableEq α] {p as bs : List α} :
    p <+: sharedStart as bs ↔ p <+: as ∧ p <+: bs := by
  fun_induction sharedStart as bs generalizing p with
  | case1 a as bs ih => cases p <;> grind
  | case2 a as b bs h => cases p <;> grind
  | case3 as bs h =>
    cases as with
    | nil => grind
    | cons a as =>
      cases bs with
      | nil => grind
      | cons b bs => exact (h a as b bs rfl rfl).elim

/-- What stands before each `/` of a source. What is behind the last one names no directory. -/
def directories (source : List Char) : List (List Char) := (source.splitOn '/').dropLast

/-- The directories with which `first` and all of `rest` start. -/
def sharedDirectories (first : String) (rest : List String) : List (List Char) :=
  rest.foldl (fun common source => sharedStart common (directories source.toList))
    (directories first.toList)

/-- The text of the directories with which all sources start. One source alone has no root, and
neither have sources whose directories differ from the first on. -/
def sharedRoot? : List String → Option String
  | first :: second :: rest =>
    let common := sharedDirectories first (second :: rest)
    if common.isEmpty then none else some (String.ofList (['/'].intercalate common ++ ['/']))
  | _ => none

/-! ## The text -/

def arrayText (items : List String) : String := "[" ++ ",".intercalate items ++ "]"

def optionText : Option String → String
  | none => "null"
  | some s => quote s

def memberText (key : Key) (value : String) : String := quote key.text ++ ":" ++ value

/-- The members that `e` has, in the order in which they are written. -/
def members (e : Envelope) : List String :=
  [memberText .version (toString version)] ++
    (e.file.map fun s => memberText .file (quote s)).toList ++
    (e.sourceRoot.map fun s => memberText .sourceRoot (quote s)).toList ++
    [memberText .sources (arrayText (e.sources.map optionText)),
      memberText .names (arrayText (e.names.map quote))] ++
    (e.mappings.map fun s => memberText .mappings (quote s)).toList ++
    (e.sourcesContent.map fun contents =>
      memberText .sourcesContent (arrayText (contents.map optionText))).toList

def write (e : Envelope) : String := "\x7b" ++ ",".intercalate e.members ++ "\x7d"

end SourceMap.Envelope
