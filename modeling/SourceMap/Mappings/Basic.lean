import SourceMap.Mappings.Line
import SourceMap.Text.Bytes

/-!
# Mapping text

Lines of segments as one text: `;` between lines, `,` between the segments of a line.

## Main definitions

* `Mappings` : mapping text with its number of lines. It can only be replaced or grow at the end.
* `Mappings.decode` : all lines.
* `Mappings.append`, `Mappings.extendTo` : add a line of segments, or empty lines.
* `Mappings.resume` : finds the baseline from which imported text is continued.
* `Mappings.linesOf`, `Mappings.textOf` : between a complete text and its lines.
-/

namespace SourceMap

open Text (bytes semicolon)

/-- Lines of segments as text. -/
structure Mappings where
  text : String
  /-- Kept beside the text, since no line and one empty line have the same text. -/
  lineCount : Nat
  /-- The baseline behind the last line, unless the text was imported and not read since. -/
  last : Option Baseline
  deriving DecidableEq, Repr

namespace Mappings

def empty : Mappings := ⟨"", 0, some .zero⟩

def isEmpty (m : Mappings) : Bool := m.lineCount = 0

/-- `text` without the separators at its end. -/
def trimEnd (text : String) : String :=
  String.ofList (Text.dropEndWhile (· = ';') text.toList)

/-- Takes over a text. Empty lines at its end do not count. -/
def ofText (text : String) : Mappings :=
  let text := trimEnd text
  if text.isEmpty then empty
  else ⟨text, ((bytes text).splitOn semicolon).length, none⟩

/-! ## Reading -/

/-- The texts of the lines. -/
def lineTexts (m : Mappings) : List (List UInt8) :=
  if m.isEmpty then [] else (bytes m.text).splitOn semicolon

/-- Reads lines that stand one semicolon apart, the first of them at byte `offset`. -/
def decodeLines (limits : Limits) :
    List (List UInt8) → Nat → Baseline → Except MappingError (List Line) × Baseline
  | [], _, b => (.ok [], b)
  | text :: rest, offset, b =>
    match Line.decode limits text offset b with
    | (.error e, b) => (.error e, b)
    | (.ok line, b) =>
      let (lines, b) := decodeLines limits rest (offset + text.length + 1) b
      (lines.map (line :: ·), b)

/-- Reads all lines, up to the first error, and finds the baseline there. -/
def replay (m : Mappings) (limits : Limits) : Except MappingError (List Line) × Baseline :=
  decodeLines limits m.lineTexts 0 .zero

def decode (m : Mappings) (limits : Limits) : Except MappingError (List Line) :=
  (m.replay limits).1

/-- Finds where imported text left off, if that is not known yet. -/
def resume (m : Mappings) (limits : Limits) : Except MappingError Mappings :=
  match m.last with
  | some _ => .ok m
  | none =>
    match m.replay limits with
    | (.error e, _) => .error e
    | (.ok _, b) => .ok { m with last := some b }

theorem resume_resume {m n : Mappings} {l k : Limits} (h : m.resume l = .ok n) :
    n.resume k = .ok n := by
  unfold resume at h
  split at h
  · cases h
    simp_all [resume]
  · split at h
    · cases h
    · cases h
      rfl

/-! ## Writing -/

/-- The text with room for one more line. -/
def openLine (m : Mappings) : String := if m.isEmpty then m.text else m.text ++ ";"

/-- Adds `line` at the end. Imported text is first read through, without limits, to find where it
left off. -/
def append (m : Mappings) (line : Line) : Except MappingError Mappings := do
  let m ← m.resume .unbounded
  let (text, b) := line.encode (m.last.getD .zero)
  return ⟨m.openLine ++ text, m.lineCount + 1, some b⟩

def addEmptyLines (m : Mappings) : Nat → Mappings
  | 0 => m
  | n + 1 => addEmptyLines { m with text := m.openLine, lineCount := m.lineCount + 1 } n

/-- Adds empty lines until there are `lines`. -/
def extendTo (m : Mappings) (lines : Nat) : Mappings := m.addEmptyLines (lines - m.lineCount)

@[simp] theorem lineCount_addEmptyLines (m : Mappings) (n : Nat) :
    (m.addEmptyLines n).lineCount = m.lineCount + n := by
  induction n generalizing m with
  | zero => rfl
  | succ n ih =>
    simp only [addEmptyLines, ih]
    omega

@[simp] theorem lineCount_extendTo (m : Mappings) (lines : Nat) :
    (m.extendTo lines).lineCount = max m.lineCount lines := by
  rw [extendTo, lineCount_addEmptyLines]
  omega

/-! ## Complete texts -/

def linesOf (text : String) (limits : Limits) : Except MappingError (List Line) :=
  (ofText text).decode limits

def textOf (lines : List Line) : Except MappingError String := do
  return (← lines.foldlM append empty).text

end Mappings

end SourceMap
