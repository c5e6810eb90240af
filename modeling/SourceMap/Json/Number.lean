import SourceMap.Json.Text
import SourceMap.Json.Value

/-!
# Reading JSON numbers

A number is first cut out of the text and then evaluated. It is an integer where 64 bits suffice
and it has neither fraction nor exponent, and a floating-point number otherwise.

## Main definitions

* `NumberText` : the parts of a number.
* `scanNumber` : cuts a number out of a text.
* `NumberText.number?` : its value, unless it is too large for a floating-point number.

A floating-point number is computed from as many leading digits as fit in 64 bits. Digits behind
them only count as places. The result need not be the floating-point number nearest to the text.
-/

namespace SourceMap.Json

structure NumberText where
  negative : Bool
  whole : List Char
  fraction : List Char
  /-- Sign and digits of the exponent. -/
  exponent : Option (Bool × List Char)
  deriving DecidableEq, Repr

/-- At least one digit. -/
def scanDigits : Reader (List Char) := fun cs =>
  match cs.takeWhile Char.isDigit, cs with
  | [], [] => .error .unfinished
  | [], _ => .error .malformed
  | ds, _ => .ok (ds, cs.dropWhile Char.isDigit)

/-- Digits that do not start with a zero, unless zero is all there is. -/
def scanWhole : Reader (List Char) := fun cs => do
  match ← scanDigits cs with
  | ('0' :: _ :: _, _) => throw .malformed
  | result => return result

def scanFraction : Reader (List Char)
  | '.' :: cs => scanDigits cs
  | cs => .ok ([], cs)

def scanExponent : Reader (Option (Bool × List Char)) := fun cs =>
  match cs with
  | [] => .ok (none, [])
  | c :: rest =>
    if c = 'e' || c = 'E' then do
      let (negative, rest) := match rest with
        | '+' :: rest => (false, rest)
        | '-' :: rest => (true, rest)
        | rest => (false, rest)
      let (ds, rest) ← scanDigits rest
      return (some (negative, ds), rest)
    else .ok (none, cs)

def scanNumber : Reader NumberText := fun cs => do
  let (negative, cs) := match cs with
    | '-' :: cs => (true, cs)
    | cs => (false, cs)
  let (whole, cs) ← scanWhole cs
  let (fraction, cs) ← scanFraction cs
  let (exponent, cs) ← scanExponent cs
  return (⟨negative, whole, fraction, exponent⟩, cs)

/-- The greatest number that fits in 64 bits. -/
def maxInteger : Nat := 18446744073709551615

/-- The greatest number that fits in 64 bits behind a minus sign. -/
def maxNegated : Nat := 9223372036854775808

/-- Goes on from `acc` over digits while the number fits in 64 bits. The digits left over do not. -/
def takeFitting : Nat → List Char → Nat × List Char
  | acc, [] => (acc, [])
  | acc, c :: cs =>
    let next := acc * 10 + (c.toNat - '0'.toNat)
    if next ≤ maxInteger then takeFitting next cs else (acc, c :: cs)

def digitsValue (cs : List Char) : Nat := Nat.ofDigitChars 10 cs 0

/-- The powers of ten that a floating-point number can be scaled by in one step. -/
def maxScale : Nat := 308

/-- `x * 10 ^ e`, unless it is too large. -/
def scale (x : Float) (e : Int) : Option Float :=
  if e.natAbs ≤ maxScale then
    let power := Float.ofScientific 1 false e.natAbs
    if 0 ≤ e then
      let y := x * power
      if y.isInf then none else some y
    else some (x / power)
  else if x == 0 then some x
  else if 0 ≤ e then none
  else scale (x / Float.ofScientific 1 false maxScale) (e + maxScale)
termination_by e.natAbs
decreasing_by
  simp only [maxScale] at *
  omega

/-- Exponents from here on are not counted out. -/
def exponentBound : Nat := 2147483648

def NumberText.magnitude? (n : NumberText) : Option Float :=
  let (digits, wholeLeft) := takeFitting 0 n.whole
  let (digits, fractionLeft) := takeFitting digits n.fraction
  let places : Int := wholeLeft.length - (n.fraction.length - fractionLeft.length : Nat)
  match n.exponent with
  | none => scale (Float.ofNat digits) places
  | some (negative, ds) =>
    let e := digitsValue ds
    if exponentBound ≤ e then if digits = 0 || negative then some 0 else none
    else scale (Float.ofNat digits) (if negative then places - e else places + e)

def NumberText.number? (n : NumberText) : Option Number :=
  let value := digitsValue n.whole
  let isWhole := n.fraction.isEmpty && n.exponent.isNone
  if isWhole && !n.negative && value ≤ maxInteger then some (.integer value)
  else if isWhole && n.negative && 0 < value && value ≤ maxNegated then some (.integer (-value))
  else
    n.magnitude?.map fun x => .real (if n.negative then -x else x)

def readNumber : Reader Number := fun cs => do
  let (n, rest) ← scanNumber cs
  match n.number? with
  | some x => return (x, rest)
  | none => throw .malformed

/-- Skips a number. One that ends too early is malformed. -/
def skipNumber : Reader Unit := fun cs =>
  match scanNumber cs with
  | .ok (_, rest) => .ok ((), rest)
  | .error _ => .error .malformed

end SourceMap.Json
