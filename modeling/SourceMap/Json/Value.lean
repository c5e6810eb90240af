import SourceMap.Decimal.Shortest

/-!
# JSON values and their text

## Main definitions

* `Json.Value` : a value. The members of an object are kept in the order of their keys.
* `Json.quote` : a string in quotation marks.
* `Json.Value.text` : a value as text, without blanks.
-/

namespace SourceMap.Json

inductive Number where
  /-- A number without fraction or exponent that fits in 64 bits, with or without a sign. -/
  | integer (n : Int)
  | real (x : Float)
  deriving Repr

inductive Value where
  | null
  | bool (b : Bool)
  | number (n : Number)
  | string (s : String)
  | array (items : List Value)
  | object (members : List (String × Value))
  deriving Repr

/-- Adds a member to an object. It replaces an earlier one with the same key. -/
def insertMember (members : List (String × Value)) (key : String) (value : Value) :
    List (String × Value) :=
  match members with
  | [] => [(key, value)]
  | (k, v) :: rest =>
    if key < k then (key, value) :: (k, v) :: rest
    else if key = k then (key, value) :: rest
    else (k, v) :: insertMember rest key value

/-- Two hexadecimal digits. -/
def hexByte (n : Nat) : List Char := [Nat.digitChar (n / 16), Nat.digitChar (n % 16)]

/-- `c` as it stands in a string. Control characters have short escapes where there are any. -/
def escape (c : Char) : List Char :=
  match c with
  | '"' => ['\\', '"']
  | '\\' => ['\\', '\\']
  | '\x08' => ['\\', 'b']
  | '\x09' => ['\\', 't']
  | '\x0A' => ['\\', 'n']
  | '\x0C' => ['\\', 'f']
  | '\x0D' => ['\\', 'r']
  | _ => if c.toNat < 0x20 then ['\\', 'u', '0', '0'] ++ hexByte c.toNat else [c]

def quoted (cs : List Char) : List Char := '"' :: cs.flatMap escape ++ ['"']

def quote (s : String) : String := String.ofList (quoted s.toList)

/-- How the decimal of a floating-point number is laid out. -/
structure RealFormat where
  /-- Greatest number of digits before the point without an exponent. -/
  maxWhole : Int
  /-- Greatest number of zeros right behind the point without an exponent. -/
  maxZeros : Int

/-- Numbers from `0.00001` up to sixteen digits before the point have no exponent. -/
def realFormat : RealFormat := ⟨16, 4⟩

/-- Digits that stand behind `whole` places, with at least one digit on either side of the point. -/
def positional (digits : List Char) (whole : Int) : List Char :=
  if whole ≤ 0 then ['0', '.'] ++ List.replicate whole.natAbs '0' ++ digits
  else
    let n := whole.natAbs
    if digits.length ≤ n then
      digits ++ List.replicate (n - digits.length) '0' ++ ['.', '0']
    else digits.take n ++ '.' :: digits.drop n

/-- One digit before the point, and the sign of the exponent always written. -/
def scientific (digits : List Char) (exponent : Int) : List Char :=
  let point := if digits.length = 1 then [] else ['.']
  let sign := if exponent < 0 then '-' else '+'
  digits.take 1 ++ point ++ digits.drop 1 ++ 'e' :: sign :: (Nat.repr exponent.natAbs).toList

/-- A finite floating-point number with the fewest digits that read back. -/
def realText (x : Float) : String :=
  let bits := x.toBits
  let sign := if Binary.isNegative bits then ['-'] else []
  let b := Binary.ofBits bits
  if b.mantissa = 0 then String.ofList (sign ++ ['0', '.', '0'])
  else
    let (digits, exponent) := b.shortest.trimmed
    let whole := digits.length + exponent
    let text :=
      if -realFormat.maxZeros ≤ whole && whole ≤ realFormat.maxWhole then positional digits whole
      else scientific digits (whole - 1)
    String.ofList (sign ++ text)

def Number.text : Number → String
  | integer n => toString n
  | real x => realText x

mutual

def Value.text : Value → String
  | .null => "null"
  | .bool b => if b then "true" else "false"
  | .number n => n.text
  | .string s => quote s
  | .array items => "[" ++ ",".intercalate (itemTexts items) ++ "]"
  | .object members => "\x7b" ++ ",".intercalate (memberTexts members) ++ "\x7d"

def itemTexts : List Value → List String
  | [] => []
  | v :: rest => v.text :: itemTexts rest

def memberTexts : List (String × Value) → List String
  | [] => []
  | (key, v) :: rest => (quote key ++ ":" ++ v.text) :: memberTexts rest

end

end SourceMap.Json
