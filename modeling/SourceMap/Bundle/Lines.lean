import SourceMap.Bundle.Basic

/-!
# The lines of a bundle

## Main definitions

* `Bundle.lines`, `Bundle.namedLines` : the lines of the map, with indices or with strings.
* `Bundle.addLine`, `Bundle.addNamedLine` : add one line in either form.
-/

namespace SourceMap.Bundle

/-- All lines. Every index must be one of the tables of `b`. -/
def lines (b : Bundle) : Except MappingError (List Line) := b.mappings.decode b.limits

def nameSegment (b : Bundle) (s : Segment) : Except MappingError NamedSegment :=
  match s.origin with
  | none => .ok ⟨s.generatedColumn, none⟩
  | some o => do
    let source ← b.sources.get o.source.toNat
    let name ← o.name.mapM fun name => b.names.get name.toNat
    return ⟨s.generatedColumn, some ⟨source, o.line, o.column, name⟩⟩

/-- All lines, with the strings that the tables hold. -/
def namedLines (b : Bundle) : Except MappingError (List NamedLine) := do
  (← b.lines).mapM fun line => line.mapM b.nameSegment

/-- Adds a line, whose indices must be in the tables. -/
def addLine (b : Bundle) (line : Line) : Except MappingError Bundle := do
  line.forM fun s => discard (b.nameSegment s)
  return { b with mappings := ← b.mappings.append line }

/-- The segment with indices, for which a source and a name that are new are added to the tables. -/
def internSegment (b : Bundle) (s : NamedSegment) : Segment × Bundle :=
  match s.origin with
  | none => (⟨s.generatedColumn, none⟩, b)
  | some o =>
    let (source, b) := b.internSource o.source
    let located (name : Option UInt32) : Segment :=
      ⟨s.generatedColumn, some ⟨UInt32.ofNat source, o.line, o.column, name⟩⟩
    match o.name with
    | none => (located none, b)
    | some name =>
      let (name, b) := b.internName name
      (located (some (UInt32.ofNat name)), b)

def internLine (b : Bundle) : NamedLine → Line × Bundle
  | [] => ([], b)
  | s :: rest =>
    let (s, b) := b.internSegment s
    let (line, b) := b.internLine rest
    (s :: line, b)

/-- Adds a line. Its sources and names stay in the tables also where the line cannot be added. -/
def addNamedLine (b : Bundle) (line : NamedLine) : Except MappingError Unit × Bundle :=
  let (line, b) := b.internLine line
  match b.mappings.append line with
  | .error e => (.error e, b)
  | .ok mappings => (.ok (), { b with mappings })

/-- Adds lines up to the first that cannot be added. -/
def addNamedLines (b : Bundle) : List NamedLine → Except MappingError Unit × Bundle
  | [] => (.ok (), b)
  | line :: rest =>
    match b.addNamedLine line with
    | (.error e, b) => (.error e, b)
    | (.ok (), b) => b.addNamedLines rest

end SourceMap.Bundle
