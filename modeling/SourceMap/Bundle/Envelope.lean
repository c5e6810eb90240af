import SourceMap.Bundle.Basic
import SourceMap.Envelope.Read
import SourceMap.Envelope.Write

/-!
# The map of a bundle as an envelope

## Main definitions

* `Bundle.load` : takes over the fields of an envelope.
* `Bundle.toEnvelope` : the envelope of the map.
* `Bundle.readMap`, `Bundle.mapText` : the same with the text of the envelope.
-/

namespace SourceMap.Bundle

/-- Replaces the map of `b`. A map without sources is taken to have one, the generated file. -/
def load (b : Bundle) (e : Envelope) : Bundle :=
  let root := e.sourceRoot.getD ""
  let file := e.file.or b.file
  let sources : StringTable := ⟨e.sources.map fun source => root ++ source.getD ""⟩
  let contents := Contents.ofList (e.sourcesContent.getD [])
  { b with
    file
    sourceRoot := none
    sources :=
      match file with
      | some file => if sources.isEmpty then (sources.intern file).2 else sources
      | none => sources
    names := ⟨e.names⟩
    contents
    embedsContents := b.embedsContents || !contents.isEmpty
    mappings := .ofText (e.mappings.getD "")
    hasMap := true }

/-- Replaces the map of `b` by the one that `text` holds. -/
def readMap (b : Bundle) (text : String) : Except Envelope.Fault Bundle := do
  return b.load (← Envelope.read text)

/-- The text that is left out of the sources when they are saved: the root that was asked for if
all sources start with it, else the directory that they share. -/
def savedRoot? (b : Bundle) : Option String :=
  if b.sources.size ≤ 1 then none
  else
    let fits (root : String) := b.sources.values.all fun s => root.toList.isPrefixOf s.toList
    (b.sourceRoot.filter fits).or (Envelope.sharedRoot? b.sources.values)

def toEnvelope (b : Bundle) : Envelope :=
  let root := b.savedRoot?
  let start := (root.getD "").length
  { file := b.file
    sourceRoot := root
    sources := b.sources.values.map fun s => some (String.ofList (s.toList.drop start))
    names := b.names.values
    mappings := some b.mappings.text
    sourcesContent :=
      if b.embedsContents then some ((List.range b.sources.size).map b.contents.get?) else none }

def mapText (b : Bundle) : String := b.toEnvelope.write

end SourceMap.Bundle
