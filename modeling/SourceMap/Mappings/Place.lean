import SourceMap.Text.Bytes
import SourceMap.Search

/-!
# Places in mapping text

## Main definitions

* `Place` : line, segment and column of a byte, all counted from one.
* `Separators` : where lines start and segments end in a text.
* `Separators.place` : the place of a byte. A byte behind the end belongs to the last line.
-/

namespace SourceMap

open Text (comma semicolon)

structure Place where
  line : Nat
  segment : Nat
  /-- Counted in bytes, in a machine word. -/
  column : UInt64
  deriving DecidableEq, Repr

/-- Where lines start and where commas stand. Both are searched by halving, so both ascend. -/
structure Separators where
  lineStarts : Array Nat
  commas : Array Nat
  head_lineStarts : lineStarts[0]? = some 0
  ascending_lineStarts : lineStarts.toList.Pairwise (· < ·)
  ascending_commas : commas.toList.Pairwise (· < ·)
  deriving DecidableEq, Repr

namespace Separators

/-- The offsets, counted from `offset`, at which `sep` stands in a text. -/
def offsets (sep : UInt8) : List UInt8 → Nat → List Nat
  | [], _ => []
  | b :: bs, offset =>
    if b = sep then offset :: offsets sep bs (offset + 1) else offsets sep bs (offset + 1)

theorem mem_offsets_iff {sep : UInt8} {xs : List UInt8} {offset n : Nat} :
    n ∈ offsets sep xs offset ↔ offset ≤ n ∧ xs[n - offset]? = some sep := by
  induction xs generalizing offset with
  | nil => simp [offsets]
  | cons x xs ih => grind [offsets]

theorem pairwise_offsets (sep : UInt8) (xs : List UInt8) (offset : Nat) :
    (offsets sep xs offset).Pairwise (· < ·) := by
  induction xs generalizing offset with
  | nil => exact .nil
  | cons x xs ih =>
    have hlt : ∀ n ∈ offsets sep xs (offset + 1), offset < n := fun n hn => (mem_offsets_iff.1 hn).1
    rw [offsets]
    split
    · exact .cons hlt (ih _)
    · exact ih _

/-- A line starts at 0, and behind every semicolon. -/
def ofBytes (text : List UInt8) : Separators where
  lineStarts := (0 :: (offsets semicolon text 0).map (· + 1)).toArray
  commas := (offsets comma text 0).toArray
  head_lineStarts := rfl
  ascending_lineStarts := by
    refine .cons (by simp) (List.pairwise_map.2 ?_)
    exact (pairwise_offsets semicolon text 0).imp fun h => Nat.succ_lt_succ h
  ascending_commas := pairwise_offsets comma text 0

/-- The line of a byte is the last that starts at or before it. -/
def lineIndex (s : Separators) (byte : Nat) : Nat :=
  match search (compare · byte) s.lineStarts with
  | .found index => index
  | .missing index => index - 1

def lineStart (s : Separators) (byte : Nat) : Nat := s.lineStarts[s.lineIndex byte]?.getD 0

def commasBefore (s : Separators) (byte : Nat) : Nat := partitionPoint (· < byte) s.commas

/-- Lines and commas are as many as the arrays are long, so counts of them fit into words. An offset
can be any word: behind the greatest one, the column wraps. -/
def place (s : Separators) (byte : Nat) : Place where
  line := s.lineIndex byte + 1
  segment := s.commasBefore byte - s.commasBefore (s.lineStart byte) + 1
  column := UInt64.ofNat (byte - s.lineStart byte) + 1

end Separators

end SourceMap
