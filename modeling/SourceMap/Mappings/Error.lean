import SourceMap.Text.Bytes

/-!
# What can be wrong with mappings

Every failure of reading or extending mapping text, with the span of text at fault where there is
one.

## Main definitions

* `MappingError` : the causes.
* `MappingError.message`, `MappingError.label`, `MappingError.help?` : their wording.
* `MappingError.span?` : the bytes that a cause points at.
-/

namespace SourceMap

open Text (Span)

/-- Why a piece of text is not a variable-length quantity. -/
inductive VlqFault where
  | endOfInput
  | notADigit
  | beyond64Bits
  | beyond32Bits
  | trailing
  deriving DecidableEq, Repr

def VlqFault.message : VlqFault → String
  | .endOfInput => "unexpected end of input inside a value"
  | .notADigit => "invalid base64 character"
  | .beyond64Bits => "value does not fit in 64 bits"
  | .beyond32Bits => "value does not fit in 32 bits"
  | .trailing => "trailing characters after value"

inductive MappingError where
  | malformed (fault : VlqFault) (span : Span)
  | valueCount (found : Nat) (span : Span)
  | sourceOutOfRange (index : Int) (count : Nat) (span : Span)
  | nameOutOfRange (index : Int) (count : Nat) (span : Span)
  | negativeLine (value : Int) (span : Span)
  | negativeColumn (value : Int) (span : Span)
  /-- An index that was given, and not read from text, names no entry of its table. -/
  | noSuchEntry (index : Nat) (count : Nat)
  deriving DecidableEq, Repr

namespace MappingError

def message : MappingError → String
  | malformed fault _ => s!"malformed VLQ: {fault.message}"
  | valueCount found _ => s!"segment has {found} fields, expected 1, 4 or 5"
  | sourceOutOfRange index count _ => s!"source index {index} is out of range ({count} sources)"
  | nameOutOfRange index count _ => s!"name index {index} is out of range ({count} names)"
  | negativeLine value _ => s!"original line went negative ({value})"
  | negativeColumn value _ => s!"column went negative ({value})"
  | noSuchEntry index count => s!"index {index} is out of range (table holds {count} entries)"

def span? : MappingError → Option Span
  | malformed _ span | valueCount _ span | sourceOutOfRange _ _ span | nameOutOfRange _ _ span
  | negativeLine _ span | negativeColumn _ span => some span
  | noSuchEntry .. => none

/-- What is written under the span. -/
def label? : MappingError → Option String
  | malformed .. => some "here"
  | valueCount .. => some "this segment"
  | sourceOutOfRange .. | nameOutOfRange .. => some "referenced here"
  | negativeLine .. | negativeColumn .. => some "in this segment"
  | noSuchEntry .. => none

def help? : MappingError → Option String
  | malformed .. => some "mappings may only contain base64 characters, ',' and ';'"
  | _ => none

theorem isSome_label?_eq (e : MappingError) : e.label?.isSome = e.span?.isSome := by
  cases e <;> rfl

end MappingError

end SourceMap
