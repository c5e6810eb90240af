/-!
# Reading JSON text

A reader takes a value off the front of a text and gives back the rest. The first problem from the
left decides what is wrong with a text.

## Main definitions

* `Failure` : the three kinds of problems.
* `Reader` : the type of readers.
* `dropBlanks`, `readWord` : blanks and literal words.
* `foldItems`, `readItems` : the items between brackets.
* `readChars`, `skipChars` : the inside of a string.
-/

namespace SourceMap.Json

inductive Failure where
  /-- The text is no JSON. -/
  | malformed
  /-- The text is JSON so far, but what stands there is not what is asked for. -/
  | mismatch
  /-- The text ends too early. -/
  | unfinished
  deriving DecidableEq, Repr

def Failure.message : Failure → String
  | malformed => "the text is not JSON"
  | mismatch => "a field has the wrong kind of value"
  | unfinished => "the text ends too early"

abbrev Reader (α : Type) := List Char → Except Failure (α × List Char)

def isBlank (c : Char) : Bool := c = ' ' || c = '\n' || c = '\t' || c = '\r'

def dropBlanks (cs : List Char) : List Char := cs.dropWhile isBlank

/-- Reads the characters of `word`. -/
def readWord : List Char → Reader Unit
  | [], cs => .ok ((), cs)
  | _ :: _, [] => .error .unfinished
  | w :: word, c :: cs => if w = c then readWord word cs else .error .malformed

/-! ## Items between brackets -/

/-- Reads what follows an item: `close`, or a comma and more items. The number bounds how many. -/
def foldRest (close : Char) (item : σ → Reader σ) : Nat → σ → Reader σ
  | 0, _, _ => .error .malformed
  | bound + 1, s, cs =>
    match dropBlanks cs with
    | [] => .error .unfinished
    | c :: rest =>
      if c = close then .ok (s, rest)
      else if c = ',' then
        match dropBlanks rest with
        | [] => .error .unfinished
        | d :: rest =>
          if d = close then .error .malformed
          else do
            let (s, rest) ← item s (d :: rest)
            foldRest close item bound s rest
      else .error .malformed

/-- Reads items up to the bracket `close`. The bracket that opens them has been read. An item is
given no blanks in front, and at least one character. -/
def foldItems (close : Char) (item : σ → Reader σ) (s : σ) : Reader σ := fun cs =>
  match dropBlanks cs with
  | [] => .error .unfinished
  | c :: rest =>
    if c = close then .ok (s, rest)
    else do
      let (s, rest) ← item s (c :: rest)
      foldRest close item (rest.length + 1) s rest

/-- The items of an array, whose opening bracket has been read. -/
def readItems (close : Char) (item : Reader α) : Reader (List α) := fun cs => do
  let push (items : List α) : Reader (List α) := fun cs => do
    let (x, rest) ← item cs
    return (x :: items, rest)
  let (items, rest) ← foldItems close push [] cs
  return (items.reverse, rest)

/-! ## Strings -/

def hexDigit? (c : Char) : Option Nat :=
  if c.isDigit then some (c.toNat - '0'.toNat)
  else if 'a' ≤ c ∧ c ≤ 'f' then some (c.toNat - 'a'.toNat + 10)
  else if 'A' ≤ c ∧ c ≤ 'F' then some (c.toNat - 'A'.toNat + 10)
  else none

/-- The number of four hexadecimal digits. Where there are none the text is unfinished only if less
than four bytes are left. -/
def readHex : Reader Nat := fun cs =>
  match cs.take 4 |>.mapM hexDigit? with
  | some [a, b, c, d] => .ok (((a * 16 + b) * 16 + c) * 16 + d, cs.drop 4)
  | _ => .error (if (String.ofList (cs.take 4)).utf8ByteSize < 4 then .unfinished else .malformed)

/-- `n` is the first number of a surrogate pair. -/
def isLead (n : Nat) : Bool := 0xD800 ≤ n && n ≤ 0xDBFF

/-- `n` is the second number of a surrogate pair. -/
def isTrail (n : Nat) : Bool := 0xDC00 ≤ n && n ≤ 0xDFFF

/-- The character that one escape, or the two of a surrogate pair, stand for. The first backslash
and the `u` behind it have been read. -/
def readUnicode : Reader Char := fun cs => do
  let (n, rest) ← readHex cs
  if isTrail n then throw .malformed
  else if isLead n then
    let ((), rest) ← readWord ['\\', 'u'] rest
    let (m, rest) ← readHex rest
    if isTrail m then return (Char.ofNat (0x10000 + (n - 0xD800) * 0x400 + (m - 0xDC00)), rest)
    else throw .malformed
  else return (Char.ofNat n, rest)

/-- What a character stands for behind a backslash. -/
def unescape? (c : Char) : Option Char :=
  match c with
  | '"' | '\\' | '/' => some c
  | 'b' => some '\x08'
  | 't' => some '\x09'
  | 'n' => some '\x0A'
  | 'f' => some '\x0C'
  | 'r' => some '\x0D'
  | _ => none

/-- One character of a string, or `none` for the quotation mark that ends it. -/
def readChar (unicode : Reader Char) : Reader (Option Char)
  | [] => .error .unfinished
  | ['\\'] => .error .unfinished
  | '"' :: cs => .ok (none, cs)
  | '\\' :: 'u' :: cs => do
    let (c, rest) ← unicode cs
    return (some c, rest)
  | '\\' :: e :: cs =>
    match unescape? e with
    | some c => .ok (some c, cs)
    | none => .error .malformed
  | c :: cs => if c.toNat < 0x20 then .error .malformed else .ok (some c, cs)

/-- The characters up to the end of a string. -/
def readCharsWith (unicode : Reader Char) : Nat → Reader (List Char)
  | 0, _ => .error .unfinished
  | bound + 1, cs => do
    match ← readChar unicode cs with
    | (none, rest) => return ([], rest)
    | (some c, rest) =>
      let (text, rest) ← readCharsWith unicode bound rest
      return (c :: text, rest)

/-- The inside of a string, whose opening quotation mark has been read. -/
def readChars : Reader String := fun cs => do
  let (text, rest) ← readCharsWith readUnicode (cs.length + 1) cs
  return (String.ofList text, rest)

/-- Skips the inside of a string, in which surrogates need no partner. -/
def skipChars : Reader Unit := fun cs => do
  let any : Reader Char := fun cs => do
    let (_, rest) ← readHex cs
    return ('\x00', rest)
  let (_, rest) ← readCharsWith any (cs.length + 1) cs
  return ((), rest)

end SourceMap.Json
