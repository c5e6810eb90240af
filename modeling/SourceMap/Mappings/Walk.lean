import SourceMap.Mappings.Basic

/-!
# Reading line by line

A walk reads one line at a time and stops at the first error. It looks for the end of a line only
when that line is asked for.

## Main definitions

* `Walk` : a place in mapping text, with the baseline there.
* `Walk.next?` : the next line, if any is left.
* `Walk.items` : all lines that a walk gives, each with the baseline after it.
* `Mappings.walk` : the walk from the first line on.
-/

namespace SourceMap

open Text (bytes semicolon)

structure Walk where
  rest : List UInt8
  offset : Nat
  /-- Lines still to come, unless one of them cannot be read. -/
  remaining : Nat
  baseline : Baseline
  limits : Limits
  deriving DecidableEq, Repr

namespace Walk

def next? (w : Walk) : Option (Except MappingError Line × Walk) :=
  match w.remaining with
  | 0 => none
  | remaining + 1 =>
    let text := w.rest.takeWhile (· ≠ semicolon)
    let (line, baseline) := Line.decode w.limits text w.offset w.baseline
    let walk : Walk :=
      { w with
        rest := w.rest.drop (text.length + 1)
        offset := w.offset + text.length + 1
        remaining := match line with | .ok _ => remaining | .error _ => 0
        baseline }
    some (line, walk)

theorem remaining_lt_of_next? {w v : Walk} {line : Except MappingError Line}
    (h : w.next? = some (line, v)) : v.remaining < w.remaining := by
  unfold next? at h
  split at h
  · cases h
  · cases h
    dsimp only
    split <;> omega

def items (w : Walk) : List (Except MappingError Line × Baseline) :=
  match h : w.next? with
  | none => []
  | some (line, v) =>
    have := remaining_lt_of_next? h
    (line, v.baseline) :: v.items
termination_by w.remaining

end Walk

/-- From the first line on. -/
def Mappings.walk (m : Mappings) (limits : Limits) : Walk :=
  ⟨bytes m.text, 0, m.lineCount, .zero, limits⟩

end SourceMap
