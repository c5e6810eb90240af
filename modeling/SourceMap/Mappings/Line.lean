import SourceMap.Segment.Token

/-!
# Lines of segments

## Main definitions

* `Line`, `NamedLine` : the segments of one generated line.
* `Line.decode` : reads the text of a line.
* `Line.encode` : writes it.
-/

namespace SourceMap

open Text (comma)

abbrev Line := List Segment

abbrev NamedLine := List NamedSegment

namespace Line

/-- The tokens in the text of a line, which are none at all where it is empty. -/
def tokens (text : List UInt8) : List (List UInt8) :=
  if text.isEmpty then [] else text.splitOn comma

/-- Reads tokens that stand one comma apart, the first of them at byte `offset`. -/
def decodeTokens (limits : Limits) :
    List (List UInt8) → Nat → Baseline → Except MappingError Line × Baseline
  | [], _, b => (.ok [], b)
  | token :: rest, offset, b =>
    match Segment.decode limits offset token b with
    | (.error e, b) => (.error e, b)
    | (.ok s, b) =>
      let (line, b) := decodeTokens limits rest (offset + token.length + 1) b
      (line.map (s :: ·), b)

/-- Reads the text of one line, which starts at byte `offset`. -/
def decode (limits : Limits) (text : List UInt8) (offset : Nat) (b : Baseline) :
    Except MappingError Line × Baseline :=
  decodeTokens limits (tokens text) offset b.newLine

/-- The tokens of the segments of a line, and the baseline behind them. -/
def encodeTokens : Line → Baseline → List String × Baseline
  | [], b => ([], b)
  | s :: rest, b =>
    let (token, b) := s.encode b
    let (tokens, b) := encodeTokens rest b
    (token :: tokens, b)

/-- The text of a line that is written behind the baseline `b`, and the baseline behind it. -/
def encode (line : Line) (b : Baseline) : String × Baseline :=
  let (tokens, b) := encodeTokens line b.newLine
  (",".intercalate tokens, b)

end Line

end SourceMap
