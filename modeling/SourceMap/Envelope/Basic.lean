/-!
# The envelope

The JSON object in which a map is stored.

## Main definitions

* `Envelope` : its fields.
* `Envelope.version` : the only version there is.
* `Envelope.Key` : the names of the fields.
-/

namespace SourceMap

structure Envelope where
  file : Option String
  /-- What every source starts with, and is left out of the entries. -/
  sourceRoot : Option String
  sources : List (Option String)
  names : List String
  mappings : Option String
  /-- Contents of the sources, in the order of the sources. -/
  sourcesContent : Option (List (Option String))
  deriving DecidableEq, Repr

namespace Envelope

def version : Nat := 3

inductive Key where
  | version
  | file
  | sourceRoot
  | sources
  | sourcesContent
  | names
  | mappings
  deriving DecidableEq, Repr

namespace Key

/-- The keys, in the order in which an array holds the fields. -/
def all : List Key := [version, file, sourceRoot, sources, sourcesContent, names, mappings]

def text : Key → String
  | version => "version"
  | file => "file"
  | sourceRoot => "sourceRoot"
  | sources => "sources"
  | sourcesContent => "sourcesContent"
  | names => "names"
  | mappings => "mappings"

def ofText? (s : String) : Option Key := all.find? (·.text = s)

theorem ofText?_text (k : Key) : ofText? k.text = some k := by cases k <;> decide

end Key

end Envelope

end SourceMap
