/-!
# Segments

A segment says where a column of a generated line comes from. Sources and names are indices into
the tables of the map, or spelled out where a segment moves between maps.

## Main definitions

* `Segment`, `Origin` : with indices.
* `NamedSegment`, `NamedOrigin` : with the strings themselves.
* `Segment.setName`, `Segment.valueCount`.
-/

namespace SourceMap

/-- A place in a source. A name is only ever known together with a place. -/
structure Origin where
  source : UInt32
  line : UInt32
  column : UInt32
  name : Option UInt32
  deriving DecidableEq, Repr

/-- A column of a generated line, and where it comes from, if anywhere. -/
structure Segment where
  generatedColumn : UInt32
  origin : Option Origin
  deriving DecidableEq, Repr

namespace Segment

/-- Leaves a segment that maps to nothing as it is. -/
def setName (s : Segment) (name : UInt32) : Segment :=
  { s with origin := s.origin.map ({ · with name := some name }) }

/-- How many values the token of `s` holds. -/
def valueCount (s : Segment) : Nat :=
  match s.origin with
  | none => 1
  | some ⟨_, _, _, none⟩ => 4
  | some ⟨_, _, _, some _⟩ => 5

end Segment

structure NamedOrigin where
  source : String
  line : UInt32
  column : UInt32
  name : Option String
  deriving DecidableEq, Repr

/-- A segment that needs no tables to be understood. -/
structure NamedSegment where
  generatedColumn : UInt32
  origin : Option NamedOrigin
  deriving DecidableEq, Repr

end SourceMap
