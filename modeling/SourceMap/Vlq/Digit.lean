/-!
# Base64 digits

A digit carries six bits. The low five are a group of a value, the sixth says that more groups
follow.

## Main definitions

* `Digit` : a number below 64.
* `Digit.char`, `Digit.ofByte?` : the standard base64 alphabet, and reading it back.
* `Digit.value`, `Digit.continues` : the two parts of a digit.
-/

namespace SourceMap.Vlq

abbrev Digit := Fin 64

namespace Digit

def char (d : Digit) : Char :=
  if d.val < 26 then Char.ofNat ('A'.toNat + d)
  else if d.val < 52 then Char.ofNat ('a'.toNat + (d - 26))
  else if d.val < 62 then Char.ofNat ('0'.toNat + (d - 52))
  else if d.val = 62 then '+' else '/'

/-- The digit that a byte spells, if it is a character of the alphabet. -/
def ofByte? (b : UInt8) : Option Digit :=
  if 65 ≤ b ∧ b ≤ 90 then some (Fin.ofNat 64 (b.toNat - 65))
  else if 97 ≤ b ∧ b ≤ 122 then some (Fin.ofNat 64 (b.toNat - 97 + 26))
  else if 48 ≤ b ∧ b ≤ 57 then some (Fin.ofNat 64 (b.toNat - 48 + 52))
  else if b = 43 then some 62
  else if b = 47 then some 63
  else none

def byte (d : Digit) : UInt8 := d.char.toUInt8

/-- The five bits that `d` adds to a value. -/
def value (d : Digit) : Nat := d.val % 32

/-- More digits of the same value follow. -/
def continues (d : Digit) : Bool := 32 ≤ d.val

theorem ofByte?_byte : ∀ d : Digit, ofByte? d.byte = some d := by decide

theorem value_lt (d : Digit) : d.value < 32 := Nat.mod_lt _ (by decide)

end Digit

/-- The text of a list of digits. -/
def text (ds : List Digit) : String := String.ofList (ds.map Digit.char)

end SourceMap.Vlq
