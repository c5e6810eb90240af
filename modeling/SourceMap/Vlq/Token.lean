import SourceMap.Mappings.Error
import SourceMap.Text.Reader
import SourceMap.Vlq.Number

/-!
# Variable-length quantities in text

Values are written one after another with nothing between them: the last digit of a value is the
one that is not continued.

## Main definitions

* `encode`, `encodeList` : the text of a value, and of values one after another.
* `takeDigits` : the digits of the value that a text starts with.
* `read` : reads one value.
* `decode`, `decodeList` : read a token of exactly one value, or of any number of them.

## Main statements

* `length_rest_read_lt` : reading a value takes at least one byte, if there is one.
-/

namespace SourceMap.Vlq

open Text (Reader)

def encode (v : Int) : String := text (digits (fold v))

def encodeList (vs : List Int) : String := String.join (vs.map encode)

/-- A value of 64 bits and its sign take thirteen groups of five bits. -/
def maxDigits : Nat := 13

/-- The digits of the value at the front of a text, where at most `room` may stand. The number is
how many bytes were looked at, also where the digits are found to be at fault. -/
def takeDigits : Nat → List UInt8 → Except VlqFault (List Digit) × Nat
  | _, [] => (.error .endOfInput, 0)
  | room, b :: bs =>
    match Digit.ofByte? b, room with
    | none, _ => (.error .notADigit, 1)
    | some _, 0 => (.error .beyond64Bits, 1)
    | some d, room + 1 =>
      if d.continues then
        let (ds, taken) := takeDigits room bs
        (ds.map (d :: ·), taken + 1)
      else (.ok [d], 1)

/-- Reads one value. After an error the reader stands behind the last byte that was looked at. A
byte that is no digit is at fault alone, else all bytes of the value are. -/
def read (r : Reader) : Except MappingError Int × Reader :=
  let (ds, taken) := takeDigits maxDigits r.rest
  let value := match ds with
    | .error .notADigit => .error (.malformed .notADigit ⟨r.offset + (taken - 1), 1⟩)
    | .error fault => .error (.malformed fault ⟨r.offset, taken⟩)
    | .ok ds =>
      let v := unfold (magnitude ds)
      if Fits64 v then .ok v else .error (.malformed .beyond64Bits ⟨r.offset, taken⟩)
  (value, r.skip taken)

theorem takeDigits_snd_pos (room : Nat) (b : UInt8) (bs : List UInt8) :
    0 < (takeDigits room (b :: bs)).2 := by
  unfold takeDigits
  split
  · exact Nat.one_pos
  · exact Nat.one_pos
  · split
    · exact Nat.succ_pos _
    · exact Nat.one_pos

theorem length_rest_read_lt (r : Reader) (h : r.rest ≠ []) :
    (read r).2.rest.length < r.rest.length := by
  obtain ⟨b, bs, hb⟩ := List.exists_cons_of_ne_nil h
  have hp := takeDigits_snd_pos maxDigits b bs
  simp only [read, Reader.skip, hb, List.length_drop, List.length_cons]
  omega

/-- Every value up to the end of the text. -/
def readList (r : Reader) : Except MappingError (List Int) :=
  if h : r.rest = [] then .ok []
  else
    match hn : read r with
    | (.error e, _) => .error e
    | (.ok v, r') =>
      have : r'.rest.length < r.rest.length := by simpa [hn] using length_rest_read_lt r h
      (readList r').map (v :: ·)
termination_by r.rest.length

/-- The values of a token that starts at byte `base` of the text around it. -/
def decodeList (base : Nat) (token : List UInt8) : Except MappingError (List Int) :=
  readList (.ofBytes base token)

def decode (token : List UInt8) : Except MappingError Int :=
  match read (.ofBytes 0 token) with
  | (.error e, _) => .error e
  | (.ok v, r) =>
    if r.isDone then .ok v else .error (.malformed .trailing ⟨r.offset, r.rest.length⟩)

end SourceMap.Vlq
