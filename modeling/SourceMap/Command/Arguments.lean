import SourceMap.Files.Path
import SourceMap.Vlq.Number

/-!
# Command-line arguments

Options may stand before and behind operands, and two dashes end them. A value follows its option,
or is attached to it. A token that starts with a dash is never a value, except for the dash alone
and, where numbers are asked for, a negative number.

## Main definitions

* `Command` : what can be asked for on the command line.
* `Invocation` : a command with the directories whose URLs are known.
* `Flag` : the options.
* `scan` : splits arguments into options and operands.
* `Invocation.ofArguments` : the invocation that arguments stand for.
-/

namespace SourceMap

/-! ## Commands -/

/-- Which files to concatenate, and where to write the result. -/
structure MergeJob where
  /-- In the order of the output. -/
  inputs : List Path
  out : Path
  mapOut : Option Path
  url : Option String
  embedContents : Bool
  deriving DecidableEq, Repr

inductive Command where
  | merge (job : MergeJob)
  | decode (map : Path)
  | encode (values : List Int)
  | unpack (token : String)
  deriving DecidableEq, Repr

structure Invocation where
  urlMaps : List (Path × String)
  command : Command
  deriving DecidableEq, Repr

/-! ## Options and operands -/

namespace Arguments

inductive UsageError where
  | noCommand
  | unknownCommand (name : String)
  | unknownOption (token : String)
  | missingValue (option : String)
  | unexpectedValue (option : String)
  | repeated (option : String)
  | invalidValue (text : String)
  | missing (what : String)
  | unexpected (operand : String)
  deriving DecidableEq, Repr

def UsageError.message : UsageError → String
  | noCommand => "a command is required: merge, decode, encode or unpack"
  | unknownCommand name => s!"unrecognized command '{name}'"
  | unknownOption token => s!"unexpected argument '{token}'"
  | missingValue option => s!"a value is required for '{option}'"
  | unexpectedValue option => s!"'{option}' takes no value"
  | repeated option => s!"'{option}' cannot be used multiple times"
  | invalidValue text => s!"invalid value '{text}'"
  | missing what => s!"{what} is required"
  | unexpected operand => s!"unexpected argument '{operand}'"

inductive Flag where
  | verbose
  | urlMap
  | out
  | mapOut
  | url
  | includeContents
  deriving DecidableEq, Repr

namespace Flag

def long : Flag → String
  | verbose => "verbose"
  | urlMap => "url-map"
  | out => "out"
  | mapOut => "map-out"
  | url => "url"
  | includeContents => "include-originals"

def short? : Flag → Option Char
  | verbose => some 'v'
  | out => some 'o'
  | _ => none

def takesValue : Flag → Bool
  | verbose | includeContents => false
  | _ => true

/-- The options that every command takes, also in front of its name. -/
def common : List Flag := [verbose, urlMap]

def ofMerge : List Flag := common ++ [out, mapOut, url, includeContents]

end Flag

/-- A part of the command line: an option, whose value is empty if it takes none, or an operand. -/
inductive Item where
  | option (flag : Flag) (value : String)
  | operand (text : String)
  deriving DecidableEq, Repr

/-- Which options there are, and whether operands are numbers. -/
structure Grammar where
  flags : List Flag
  numeric : Bool

def Grammar.long? (g : Grammar) (name : List Char) : Option Flag :=
  g.flags.find? (·.long.toList = name)

def Grammar.short? (g : Grammar) (c : Char) : Option Flag := g.flags.find? (·.short? = some c)

def isNegativeNumber : List Char → Bool
  | '-' :: c :: cs => (c :: cs).all Char.isDigit
  | _ => false

/-- `token` is to be read as an option. -/
def Grammar.isOption (g : Grammar) (token : List Char) : Bool :=
  match token with
  | '-' :: _ :: _ => !(g.numeric && isNegativeNumber token)
  | _ => false

/-- What a token holds: options, of which the last may still lack its value. -/
structure Options where
  items : List Item
  pending : Option Flag

/-- The options of a token of one-letter options. The first that takes a value takes the rest of the
token, if there is any. -/
def Grammar.cluster (g : Grammar) (token : String) : List Char → Except UsageError Options
  | [] => .ok ⟨[], none⟩
  | c :: cs =>
    match g.short? c with
    | none => .error (.unknownOption token)
    | some flag =>
      if flag.takesValue then
        match cs with
        | [] => .ok ⟨[], some flag⟩
        | '=' :: value => .ok ⟨[.option flag (String.ofList value)], none⟩
        | value => .ok ⟨[.option flag (String.ofList value)], none⟩
      else do
        let rest ← g.cluster token cs
        return { rest with items := .option flag "" :: rest.items }

/-- The option of a token that starts with two dashes, which have been dropped. -/
def Grammar.word (g : Grammar) (token : String) (cs : List Char) : Except UsageError Options :=
  match g.long? (cs.takeWhile (· ≠ '=')) with
  | none => .error (.unknownOption token)
  | some flag =>
    match cs.dropWhile (· ≠ '='), flag.takesValue with
    | [], true => .ok ⟨[], some flag⟩
    | [], false => .ok ⟨[.option flag ""], none⟩
    | _ :: value, true => .ok ⟨[.option flag (String.ofList value)], none⟩
    | _ :: _, false => .error (.unexpectedValue flag.long)

def Grammar.options (g : Grammar) (token : String) : Except UsageError Options :=
  match token.toList with
  | '-' :: '-' :: cs => g.word token cs
  | cs => g.cluster token (cs.drop 1)

/-- Splits arguments into options and operands. With `leading`, stops in front of the first operand
and gives back what is left. -/
def scan (g : Grammar) (leading : Bool) :
    List String → Except UsageError (List Item × List String)
  | [] => .ok ([], [])
  | token :: rest =>
    if token = "--" then .ok (if leading then ([], token :: rest) else (rest.map .operand, []))
    else if g.isOption token.toList then do
      let ⟨items, pending⟩ ← g.options token
      match pending, rest with
      | none, rest =>
        let (more, rest) ← scan g leading rest
        return (items ++ more, rest)
      | some flag, [] => throw (.missingValue flag.long)
      | some flag, value :: rest =>
        if g.isOption value.toList then throw (.missingValue flag.long)
        let (more, rest) ← scan g leading rest
        return (items ++ .option flag value :: more, rest)
    else if leading then .ok ([], token :: rest)
    else do
      let (more, rest) ← scan g leading rest
      return (.operand token :: more, rest)

/-! ## Values -/

def values (flag : Flag) (items : List Item) : List String :=
  items.filterMap fun
    | .option f value => if f = flag then some value else none
    | .operand _ => none

def operands (items : List Item) : List String :=
  items.filterMap fun
    | .option .. => none
    | .operand text => some text

/-- The value of an option that may be given once. -/
def value? (flag : Flag) (items : List Item) : Except UsageError (Option String) :=
  match values flag items with
  | [] => .ok none
  | [value] => .ok (some value)
  | _ => .error (.repeated flag.long)

def isGiven (flag : Flag) (items : List Item) : Except UsageError Bool := do
  return (← value? flag items).isSome

/-- A path, which must not be empty. -/
def path (text : String) : Except UsageError Path :=
  if text.isEmpty then .error (.invalidValue text) else .ok ⟨text⟩

/-- A signed number of 64 bits, in decimal digits behind an optional sign. -/
def number (text : String) : Except UsageError Int :=
  let (negative, ds) := match text.toList with
    | '-' :: ds => (true, ds)
    | '+' :: ds => (false, ds)
    | ds => (false, ds)
  let magnitude : Int := Nat.ofDigitChars 10 ds 0
  let v := if negative then -magnitude else magnitude
  if !ds.isEmpty && ds.all Char.isDigit && decide (Vlq.Fits64 v) then .ok v
  else .error (.invalidValue text)

/-- A path and a URL, with an equals sign between them. -/
def urlMap (text : String) : Except UsageError (Path × String) :=
  match text.toList.dropWhile (· ≠ '=') with
  | [] => .error (.invalidValue text)
  | _ :: url => .ok (⟨String.ofList (text.toList.takeWhile (· ≠ '='))⟩, String.ofList url)

/-- The pairs that the common options give, of which `verbose` may come once. -/
def commonOptions (items : List Item) : Except UsageError (List (Path × String)) := do
  discard (isGiven .verbose items)
  (values .urlMap items).mapM urlMap

/-- The only operand. -/
def operand (what : String) (items : List Item) : Except UsageError String :=
  match operands items with
  | [] => .error (.missing what)
  | [text] => .ok text
  | _ :: second :: _ => .error (.unexpected second)

def atLeastOne (what : String) (items : List Item) : Except UsageError (List String) :=
  match operands items with
  | [] => .error (.missing what)
  | texts => .ok texts

def mergeJob (items : List Item) : Except UsageError MergeJob := do
  let inputs ← (← atLeastOne "an input" items).mapM path
  let out ← match ← value? .out items with
    | none => throw (.missing Flag.out.long)
    | some text => path text
  let mapOut ← (← value? .mapOut items).mapM path
  let url ← value? .url items
  let embedContents ← isGiven .includeContents items
  return { inputs, out, mapOut, url, embedContents }

/-- The options that the command `name` takes, and how its arguments are understood. -/
def ofName? (name : String) : Option (Grammar × (List Item → Except UsageError Command)) :=
  if name = "merge" then some (⟨Flag.ofMerge, false⟩, fun items => .merge <$> mergeJob items)
  else if name = "decode" then
    some (⟨Flag.common, false⟩, fun items => do return .decode (← path (← operand "a map" items)))
  else if name = "encode" then
    some (⟨Flag.common, true⟩, fun items => do
      return .encode (← (← atLeastOne "a value" items).mapM number))
  else if name = "unpack" then
    some (⟨Flag.common, false⟩, fun items => .unpack <$> operand "a token" items)
  else none

end Arguments

open Arguments in
/-- The invocation that arguments stand for. URLs of directories that are given behind the name of
the command take the place of those in front of it. -/
def Invocation.ofArguments (arguments : List String) : Except UsageError Invocation := do
  match ← scan ⟨Flag.common, false⟩ true arguments with
  | (_, []) | (_, "--" :: _) => throw .noCommand
  | (before, name :: rest) =>
    match ofName? name with
    | none => throw (.unknownCommand name)
    | some (grammar, build) =>
      let (items, _) ← scan grammar false rest
      let general ← commonOptions before
      let own ← commonOptions items
      return ⟨if own.isEmpty then general else own, ← build items⟩

end SourceMap
