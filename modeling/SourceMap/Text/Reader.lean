import SourceMap.Text.Bytes

/-!
# Reading text byte by byte

A reader stands at a place in a piece of text that was cut from a longer one, and knows that place
in both.

## Main definitions

* `Reader` : what is left to read, and how much has been read.
* `Reader.next?` : the next byte.
* `Reader.offset` : the place in the longer text, where error spans are measured.
-/

namespace SourceMap.Text

structure Reader where
  /-- Where the piece starts in the longer text. -/
  base : Nat
  /-- How many bytes have been read. -/
  consumed : Nat
  rest : List UInt8
  deriving DecidableEq, Repr

namespace Reader

def ofBytes (base : Nat) (bs : List UInt8) : Reader := ⟨base, 0, bs⟩

def offset (r : Reader) : Nat := r.base + r.consumed

def isDone (r : Reader) : Bool := r.rest.isEmpty

/-- The reader behind the next `n` bytes. -/
def skip (r : Reader) (n : Nat) : Reader := ⟨r.base, r.consumed + n, r.rest.drop n⟩

def next? (r : Reader) : Option (UInt8 × Reader) :=
  match r.rest with
  | [] => none
  | b :: _ => some (b, r.skip 1)

@[simp] theorem skip_zero (r : Reader) : r.skip 0 = r := rfl

theorem skip_skip (r : Reader) (m n : Nat) : (r.skip m).skip n = r.skip (m + n) := by
  simp [skip, Nat.add_assoc, List.drop_drop]

@[simp] theorem offset_skip (r : Reader) (n : Nat) : (r.skip n).offset = r.offset + n :=
  (Nat.add_assoc ..).symm

end Reader

end SourceMap.Text
