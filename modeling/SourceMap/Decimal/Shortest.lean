/-!
# The shortest decimal of a binary floating-point number

A double stands for a rational number, and so do all decimals in an interval around it. The
shortest of these is found on the decimal grids, coarsest first: if any point of a grid is in the
interval, so is one of the two grid points next to the number.

## Main definitions

* `Binary` : the number `mantissa * 2 ^ exponent` of a double, with its interval.
* `Decimal` : the number `digits * 10 ^ exponent`.
* `Binary.shortest` : the decimal with the fewest digits that reads back as the double, and of these
  the nearest.
-/

namespace SourceMap

/-- `digits * 10 ^ exponent` -/
structure Decimal where
  digits : Nat
  exponent : Int
  deriving DecidableEq, Repr

/-- A quotient of natural numbers. -/
structure Quotient where
  num : Nat
  den : Nat
  deriving DecidableEq, Repr

namespace Quotient

/-- `n * base ^ e` -/
def scaled (n base : Nat) (e : Int) : Quotient :=
  if 0 ≤ e then ⟨n * Nat.pow base e.natAbs, 1⟩ else ⟨n, Nat.pow base e.natAbs⟩

def le (a b : Quotient) : Bool := a.num * b.den ≤ b.num * a.den

def lt (a b : Quotient) : Bool := a.num * b.den < b.num * a.den

/-- The distance of two quotients. -/
def distance (a b : Quotient) : Quotient :=
  ⟨(a.num * b.den - b.num * a.den) + (b.num * a.den - a.num * b.den), a.den * b.den⟩

end Quotient

/-- The absolute value of a double, `mantissa * 2 ^ exponent`. -/
structure Binary where
  mantissa : Nat
  exponent : Int
  /-- The double below is half as far away as the double above. -/
  narrowBelow : Bool
  deriving DecidableEq, Repr

namespace Binary

/-- The highest of 64 bits is the sign. -/
def isNegative (bits : UInt64) : Bool := 0x8000000000000000 ≤ bits

/-- How many fractions the lowest 52 bits tell apart. The bit above them is implied. -/
def fractions : Nat := 0x10000000000000

/-- The absolute value of a finite double. The eleven bits behind the sign are its exponent. -/
def ofBits (bits : UInt64) : Binary :=
  let fraction : Nat := bits.toNat % fractions
  let field : Nat := bits.toNat / fractions % 0x800
  if field = 0 then ⟨fraction, -1074, false⟩
  else ⟨fractions + fraction, (field : Int) - 1075, fraction = 0 && 1 < field⟩

def value (x : Binary) : Quotient := .scaled x.mantissa 2 x.exponent

/-- Halfway to the double below. -/
def lower (x : Binary) : Quotient :=
  .scaled (4 * x.mantissa - if x.narrowBelow then 1 else 2) 2 (x.exponent - 2)

/-- Halfway to the double above. -/
def upper (x : Binary) : Quotient := .scaled (4 * x.mantissa + 2) 2 (x.exponent - 2)

/-- `q` reads back as `x`. The ends of the interval do where the mantissa is even. -/
def contains (x : Binary) (q : Quotient) : Bool :=
  if x.mantissa % 2 = 0 then x.lower.le q && q.le x.upper else x.lower.lt q && q.lt x.upper

/-- The points next to `x` on the grid of the multiples of `10 ^ e`. -/
def neighbours (x : Binary) (e : Int) : Nat × Nat :=
  let v := x.value
  let down :=
    if 0 ≤ e then v.num / (v.den * Nat.pow 10 e.natAbs)
    else v.num * Nat.pow 10 e.natAbs / v.den
  (down, down + 1)

/-- The point of a grid that reads back as `x` and is nearest to it. Of two as near, the even one
is taken. -/
def onGrid? (x : Binary) (e : Int) : Option Decimal :=
  let (down, up) := x.neighbours e
  let below : Quotient := .scaled down 10 e
  let above : Quotient := .scaled up 10 e
  let toBelow := below.distance x.value
  let toAbove := above.distance x.value
  match x.contains below, x.contains above with
  | false, false => none
  | true, false => some ⟨down, e⟩
  | false, true => some ⟨up, e⟩
  | true, true =>
    if toBelow.lt toAbove || (toBelow.le toAbove && down % 2 = 0) then some ⟨down, e⟩
    else some ⟨up, e⟩

/-- The first grid, from `10 ^ e` on downwards, that has a point for `x`. -/
def search (x : Binary) : Nat → Int → Decimal
  | 0, e => ⟨(x.neighbours e).1, e⟩
  | fuel + 1, e => (x.onGrid? e).getD (search x fuel (e - 1))

/-- No double reaches `10 ^ 309`, and the finest that is needed is `10 ^ -324`. -/
def shortest (x : Binary) : Decimal := x.search 640 309

end Binary

/-- The digits of a decimal without the zeros at their end, and the exponent that makes up for
them. -/
def Decimal.trimmed (d : Decimal) : List Char × Int :=
  let all := Nat.toDigits 10 d.digits
  let kept := (all.reverse.dropWhile (· = '0')).reverse
  (kept, d.exponent + (all.length - kept.length : Nat))

end SourceMap
