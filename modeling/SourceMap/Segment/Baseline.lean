import SourceMap.Segment.Basic

/-!
# What fields are relative to

A token holds differences. Each is taken against the last value that the same field had: on this
generated line for the generated column, anywhere before for the other four.

## Main definitions

* `Field` : the five fields, in the order in which a token holds them.
* `Baseline` : the last value of each field.
* `Baseline.newLine` : the generated column starts again at zero.
* `Segment.values`, `Baseline.segment` : a segment as a list of field values, and back from the
  baseline that these leave behind.

## Main statements

* `segment_setAll` : setting the fields of a segment leaves a baseline that spells the segment.
-/

namespace SourceMap

inductive Field where
  | generatedColumn
  | source
  | line
  | column
  | name
  deriving DecidableEq, Repr

namespace Field

def all : List Field := [generatedColumn, source, line, column, name]

end Field

/-- The last value of each field; all zero at the start of a text. -/
structure Baseline where
  generatedColumn : UInt32
  source : UInt32
  line : UInt32
  column : UInt32
  name : UInt32
  deriving DecidableEq, Repr

namespace Baseline

def zero : Baseline := ⟨0, 0, 0, 0, 0⟩

def get (b : Baseline) : Field → UInt32
  | .generatedColumn => b.generatedColumn
  | .source => b.source
  | .line => b.line
  | .column => b.column
  | .name => b.name

def set (b : Baseline) (f : Field) (v : UInt32) : Baseline :=
  match f with
  | .generatedColumn => { b with generatedColumn := v }
  | .source => { b with source := v }
  | .line => { b with line := v }
  | .column => { b with column := v }
  | .name => { b with name := v }

theorem get_set (b : Baseline) (f g : Field) (v : UInt32) :
    (b.set f v).get g = if g = f then v else b.get g := by
  cases f <;> cases g <;> rfl

/-- Sets fields one after another. -/
def setAll (b : Baseline) : List (Field × UInt32) → Baseline
  | [] => b
  | (f, v) :: fs => (b.set f v).setAll fs

def newLine (b : Baseline) : Baseline := { b with generatedColumn := 0 }

@[simp] theorem newLine_newLine (b : Baseline) : b.newLine.newLine = b.newLine := rfl

/-- The segment whose token of `count` values was the last to be read. -/
def segment (b : Baseline) (count : Nat) : Segment where
  generatedColumn := b.generatedColumn
  origin :=
    if count < 4 then none
    else some ⟨b.source, b.line, b.column, if count < 5 then none else some b.name⟩

end Baseline

/-- The fields that `s` has, with their values, in the order of a token. -/
def Segment.values (s : Segment) : List (Field × UInt32) :=
  (.generatedColumn, s.generatedColumn) ::
    match s.origin with
    | none => []
    | some o =>
      [(.source, o.source), (.line, o.line), (.column, o.column)] ++
        (o.name.map (.name, ·)).toList

theorem Segment.length_values (s : Segment) : s.values.length = s.valueCount := by
  obtain ⟨_, _ | ⟨_, _, _, _ | _⟩⟩ := s <;> rfl

theorem Baseline.segment_setAll (b : Baseline) (s : Segment) :
    (b.setAll s.values).segment s.valueCount = s := by
  obtain ⟨_, _ | ⟨_, _, _, _ | _⟩⟩ := s <;> rfl

end SourceMap
