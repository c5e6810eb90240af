import SourceMap.Body
import SourceMap.Contents
import SourceMap.Mappings.Basic
import SourceMap.StringTable
import SourceMap.UrlTable

/-!
# Bundles

A bundle is a generated file together with the map that describes it. Either may be missing.

## Main definitions

* `Bundle` : the parts of the map, the body of the file, and what is known about both.
* `Bundle.limits` : the sizes of its tables.
* `Bundle.storeContents` : stores the contents of a source.
* `Bundle.text` : the generated file.
-/

namespace SourceMap

structure Bundle where
  /-- The name of the generated file. -/
  file : Option String
  /-- The root that saving should leave out of the sources. -/
  sourceRoot : Option String
  sources : StringTable
  names : StringTable
  mappings : Mappings
  contents : Contents
  /-- Contents of sources are to be saved with the map. -/
  embedsContents : Bool
  /-- The URL of the map, for the comment in the generated file. -/
  mapUrl : Option String
  /-- The generated file without that comment. -/
  body : Option String
  /-- A map has been read. -/
  hasMap : Bool
  urls : UrlTable
  deriving DecidableEq, Repr

namespace Bundle

def empty (urls : UrlTable) : Bundle where
  file := none
  sourceRoot := none
  sources := .empty
  names := .empty
  mappings := .empty
  contents := .empty
  embedsContents := false
  mapUrl := none
  body := none
  hasMap := false
  urls := urls

def limits (b : Bundle) : Limits := ⟨b.sources.size, b.names.size⟩

/-- How many lines the generated body has. -/
def bodyLines (b : Bundle) : Nat := (b.body.map Body.lineCount).getD 0

def internSource (b : Bundle) (source : String) : Nat × Bundle :=
  let (i, sources) := b.sources.intern source
  (i, { b with sources })

def internName (b : Bundle) (name : String) : Nat × Bundle :=
  let (i, names) := b.names.intern name
  (i, { b with names })

/-- Stores the contents of `source`, which becomes a source if it is none yet. -/
def storeContents (b : Bundle) (source contents : String) : Nat × Bundle :=
  let (i, b) := b.internSource source
  (i, { b with contents := b.contents.insert i contents })

/-- Takes over a generated text, without the comments that refer to a map. -/
def setBody (b : Bundle) (text : String) : Bundle :=
  { b with body := some (Body.stripComments (Body.endLine text)) }

/-- The generated file, with the comment that refers to the map if it is wanted and the URL is
known. -/
def text (b : Bundle) (withComment : Bool) : String :=
  b.body.getD "" ++
    match b.mapUrl with
    | some url => if withComment then Body.commentLine url else ""
    | none => ""

end Bundle

end SourceMap
