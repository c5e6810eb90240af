import SourceMap.Json.Number

/-!
# Reading JSON values

## Main definitions

* `readValue` : a value of bounded nesting.
* `skipValue` : skips a value of any nesting, in which less is checked.
* `readString`, `readOptional`, `readArray` : values of a given shape.
-/

namespace SourceMap.Json

/-- A value that is neither array nor object. -/
def readScalar : Reader Value
  | [] => .error .unfinished
  | 'n' :: cs => (readWord "ull".toList cs).map fun ((), rest) => (.null, rest)
  | 't' :: cs => (readWord "rue".toList cs).map fun ((), rest) => (.bool true, rest)
  | 'f' :: cs => (readWord "alse".toList cs).map fun ((), rest) => (.bool false, rest)
  | '"' :: cs => (readChars cs).map fun (s, rest) => (.string s, rest)
  | c :: cs =>
    if c = '-' || c.isDigit then (readNumber (c :: cs)).map fun (n, rest) => (.number n, rest)
    else .error .malformed

def skipScalar : Reader Unit
  | '"' :: cs => skipChars cs
  | c :: cs =>
    if c = '-' || c.isDigit then skipNumber (c :: cs)
    else (readScalar (c :: cs)).map fun (_, rest) => ((), rest)
  | [] => .error .unfinished

/-- The key of a member, which starts the text. -/
def readKey : Reader String
  | '"' :: cs => readChars cs
  | _ => .error .malformed

/-- The colon behind a key. -/
def readColon : Reader Unit := fun cs => readWord [':'] (dropBlanks cs)

/-- A value in which arrays and objects are nested at most `depth` deep. -/
def readValue : Nat → Reader Value
  | 0 => fun cs =>
    match dropBlanks cs with
    | '[' :: _ | '\x7b' :: _ => .error .malformed
    | cs => readScalar cs
  | depth + 1 => fun cs =>
    match dropBlanks cs with
    | '[' :: cs => do
      let (items, rest) ← readItems ']' (readValue depth) cs
      return (.array items, rest)
    | '\x7b' :: cs => do
      let member (members : List (String × Value)) : Reader (List (String × Value)) := fun cs => do
        let (key, rest) ← readKey cs
        let ((), rest) ← readColon rest
        let (value, rest) ← readValue depth rest
        return (insertMember members key value, rest)
      let (members, rest) ← foldItems '\x7d' member [] cs
      return (.object members, rest)
    | cs => readScalar cs

/-- Skips a value in which arrays and objects are nested at most `depth` deep. -/
def skipNested : Nat → Reader Unit
  | 0 => fun cs =>
    match dropBlanks cs with
    | '[' :: _ | '\x7b' :: _ => .error .malformed
    | cs => skipScalar cs
  | depth + 1 => fun cs =>
    match dropBlanks cs with
    | '[' :: cs => foldItems ']' (fun () => skipNested depth) () cs
    | '\x7b' :: cs =>
      let member : Reader Unit := fun cs =>
        match cs with
        | '"' :: cs => do
          let ((), rest) ← skipChars cs
          let ((), rest) ← readColon rest
          skipNested depth rest
        | _ => .error .malformed
      foldItems '\x7d' (fun () => member) () cs
    | cs => skipScalar cs

/-- Skips a value. No value is nested deeper than its text is long. -/
def skipValue : Reader Unit := fun cs => skipNested cs.length cs

/-! ## Values of a given shape -/

/-- What is wrong where another kind of value is asked for than the one that starts `cs`. A scalar
is read to its end before it is refused. -/
def refuse (cs : List Char) : Failure :=
  match cs with
  | '[' :: _ | '\x7b' :: _ => .mismatch
  | _ =>
    match readScalar cs with
    | .ok _ => .mismatch
    | .error e => e

def readString : Reader String := fun cs =>
  match dropBlanks cs with
  | '"' :: cs => readChars cs
  | cs => .error (refuse cs)

/-- A value that may be `null`. -/
def readOptional (value : Reader α) : Reader (Option α) := fun cs =>
  match dropBlanks cs with
  | 'n' :: cs => (readWord "ull".toList cs).map fun ((), rest) => (none, rest)
  | cs => (value cs).map fun (x, rest) => (some x, rest)

def readArray (item : Reader α) : Reader (List α) := fun cs =>
  match dropBlanks cs with
  | '[' :: cs => readItems ']' item cs
  | cs => .error (refuse cs)

end SourceMap.Json
