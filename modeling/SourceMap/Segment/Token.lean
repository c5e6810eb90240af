import SourceMap.Segment.Baseline
import SourceMap.Vlq.Token

/-!
# The token of a segment

## Main definitions

* `Limits` : how many sources and names there are to refer to.
* `Segment.decode` : reads a token, one field after another.
* `Segment.encode` : writes a token. It leaves the baseline that reading the token leaves.
-/

namespace SourceMap

open Text (Span)

/-- How many entries the tables have that indices are checked against. -/
structure Limits where
  sources : Nat
  names : Nat
  deriving DecidableEq, Repr

/-- Limits that no index of 32 bits reaches, for text that is read only to find its last
baseline. -/
def Limits.unbounded : Limits := ⟨18446744073709551615, 18446744073709551615⟩

/-- The value that a field has `delta` after `previous`. Sums stop at the largest signed number of
64 bits. -/
def Field.advance (previous : UInt32) (delta : Int) : Int :=
  min (previous.toNat + delta) 9223372036854775807

/-- What keeps `v` from being a value of `f`, apart from its size. -/
def Field.fault? (f : Field) (limits : Limits) (span : Span) (v : Int) : Option MappingError :=
  match f with
  | .generatedColumn | .column => if v < 0 then some (.negativeColumn v span) else none
  | .line => if v < 0 then some (.negativeLine v span) else none
  | .source =>
    if v < 0 ∨ limits.sources ≤ v then some (.sourceOutOfRange v limits.sources span) else none
  | .name => if v < 0 ∨ limits.names ≤ v then some (.nameOutOfRange v limits.names span) else none

/-- The value of `f` that a difference stands for. -/
def Field.decode (f : Field) (limits : Limits) (span : Span) (previous : UInt32) (delta : Int) :
    Except MappingError UInt32 :=
  let v := advance previous delta
  match f.fault? limits span v with
  | some e => .error e
  | none =>
    if v ≤ 4294967295 then .ok (UInt32.ofNat v.toNat) else .error (.malformed .beyond32Bits span)

/-- Advances field after field. At an error the fields before it keep their new values. -/
def Baseline.advance (limits : Limits) (span : Span) :
    List (Field × Int) → Baseline → Except MappingError Unit × Baseline
  | [], b => (.ok (), b)
  | (f, delta) :: rest, b =>
    match f.decode limits span (b.get f) delta with
    | .error e => (.error e, b)
    | .ok v => Baseline.advance limits span rest (b.set f v)

namespace Segment

/-- Reads a token that starts at byte `offset` of its text. The baseline that comes back is the
one to go on from, and the one that an error leaves. -/
def decode (limits : Limits) (offset : Nat) (token : List UInt8) (b : Baseline) :
    Except MappingError Segment × Baseline :=
  match Vlq.decodeList offset token with
  | .error e => (.error e, b)
  | .ok deltas =>
    let span : Span := ⟨offset, token.length⟩
    if deltas.length = 1 ∨ deltas.length = 4 ∨ deltas.length = 5 then
      match b.advance limits span (Field.all.zip deltas) with
      | (.error e, b) => (.error e, b)
      | (.ok (), b) => (.ok (b.segment deltas.length), b)
    else (.error (.valueCount deltas.length span), b)

/-- The differences that lead from `b` through the given values. -/
def deltas : List (Field × UInt32) → Baseline → List Int
  | [], _ => []
  | (f, v) :: rest, b => ((v.toNat : Int) - (b.get f).toNat) :: deltas rest (b.set f v)

def encode (s : Segment) (b : Baseline) : String × Baseline :=
  (Vlq.encodeList (deltas s.values b), b.setAll s.values)

end Segment

end SourceMap
