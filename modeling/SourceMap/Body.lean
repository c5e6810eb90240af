import SourceMap.Text.Bytes

/-!
# The body of a generated file

A generated file refers to its map in a comment line `//# sourceMappingURL=…`, or `//@` in older
files. The keyword may be written in any case, and blanks may stand around it. The body of the file
is its text without these comments.

## Main definitions

* `Text.trim` : a text without the white space around it.
* `comment?` : the comment at the front of a text.
* `mapUrl?` : the first URL that a text refers to.
* `stripComments` : a text without these comments and the line breaks that end them.
* `lineCount` : how many lines a body has, each of which a line feed ends.
* `endLine` : a body that ends in exactly one line break.

A comment starts at the start of the text or behind a line feed. A carriage return alone ends a
comment, but starts no line on which the next could stand.
-/

namespace SourceMap

namespace Text

/-- `c` has the Unicode property `White_Space`. -/
def isBlank (c : Char) : Bool :=
  let n := c.toNat
  (0x09 ≤ n && n ≤ 0x0D) || n = 0x20 || n = 0x85 || n = 0xA0 || n = 0x1680 ||
    (0x2000 ≤ n && n ≤ 0x200A) || n = 0x2028 || n = 0x2029 || n = 0x202F || n = 0x205F ||
    n = 0x3000

/-- A text without the white space around it. -/
def trim (cs : List Char) : List Char := dropEndWhile isBlank (cs.dropWhile isBlank)

end Text

namespace Body

/-! ## Comments -/

def isBreak (c : Char) : Bool := c = '\r' || c = '\n'

def dropSpaces (cs : List Char) : List Char := cs.dropWhile fun c => c = ' ' || c = '\t'

theorem length_dropSpaces_le (cs : List Char) : (dropSpaces cs).length ≤ cs.length :=
  (List.dropWhile_suffix _).length_le

/-- The keyword in lower case. -/
def keyword : List Char := "sourcemappingurl".toList

/-- `c` is the small letter `letter` up to case. The long s is a form of s. -/
def isLetter (letter c : Char) : Bool := c.toLower = letter || (letter = 's' && c = 'ſ')

/-- What follows a word at the front of a text. -/
def dropWord? : List Char → List Char → Option (List Char)
  | [], cs => some cs
  | _ :: _, [] => none
  | letter :: word, c :: cs => if isLetter letter c then dropWord? word cs else none

/-- The value in the comment that `cs` starts with, and the text from the line break on. -/
def comment? : List Char → Option (List Char × List Char)
  | '/' :: '/' :: mark :: cs =>
    if mark = '#' || mark = '@' then
      match (dropWord? keyword (dropSpaces cs)).map dropSpaces with
      | some ('=' :: cs) => some (cs.takeWhile (!isBreak ·), cs.dropWhile (!isBreak ·))
      | _ => none
    else none
  | _ => none

theorem length_dropWord?_le {word cs rest : List Char} (h : dropWord? word cs = some rest) :
    rest.length ≤ cs.length := by
  fun_induction dropWord? word cs with
  | case1 => simp_all
  | case2 => cases h
  | case3 letter word c cs _ ih =>
    have := ih h
    simp only [List.length_cons]
    omega
  | case4 => cases h

theorem length_comment?_lt {cs value rest : List Char} (h : comment? cs = some (value, rest)) :
    rest.length < cs.length := by
  unfold comment? at h
  split at h <;> try contradiction
  split at h <;> try contradiction
  split at h <;> try contradiction
  rename_i mark cs _ _ tail hw
  obtain ⟨word, hword, hspaces⟩ := Option.map_eq_some_iff.1 hw
  have h1 := length_dropSpaces_le cs
  have h2 := length_dropWord?_le hword
  have h3 := length_dropSpaces_le word
  have h4 := (List.dropWhile_suffix (!isBreak ·) (l := tail)).length_le
  rw [hspaces] at h3
  cases h
  simp only [List.length_cons] at *
  omega

/-- A comment is looked for at the start of a line only. -/
def commentAt? (atStart : Bool) (cs : List Char) : Option (List Char × List Char) :=
  if atStart then comment? cs else none

/-- What follows the line break at the front of a text, and whether a line starts there. -/
def dropBreak : List Char → Bool × List Char
  | '\r' :: '\n' :: cs => (true, cs)
  | '\r' :: cs => (false, cs)
  | '\n' :: cs => (true, cs)
  | cs => (false, cs)

theorem length_dropBreak_le (cs : List Char) : (dropBreak cs).2.length ≤ cs.length := by
  unfold dropBreak
  split <;> simp only [List.length_cons] <;> omega

theorem length_dropBreak_lt {atStart : Bool} {cs value rest : List Char}
    (h : commentAt? atStart cs = some (value, rest)) :
    (dropBreak rest).2.length < cs.length := by
  unfold commentAt? at h
  split at h
  · exact Nat.lt_of_le_of_lt (length_dropBreak_le rest) (length_comment?_lt h)
  · contradiction

/-- The value in the first comment. -/
def firstValue? (atStart : Bool) : List Char → Option (List Char)
  | [] => none
  | c :: cs =>
    match commentAt? atStart (c :: cs) with
    | some (value, _) => some value
    | none => firstValue? (c = '\n') cs

/-- The text without its comments. -/
def dropComments (atStart : Bool) (cs : List Char) : List Char :=
  match cs with
  | [] => []
  | c :: cs =>
    match h : commentAt? atStart (c :: cs) with
    | some (_, rest) =>
      have := length_dropBreak_lt h
      dropComments (dropBreak rest).1 (dropBreak rest).2
    | none => c :: dropComments (c = '\n') cs
termination_by cs.length
decreasing_by
  · assumption
  · exact Nat.lt_succ_self _

/-- The first URL that a text refers to as that of its map. -/
def mapUrl? (text : String) : Option String :=
  (firstValue? true text.toList).map fun value => String.ofList (Text.trim value)

def stripComments (text : String) : String := String.ofList (dropComments true text.toList)

/-- The comment line that refers to `url`. -/
def commentLine (url : String) : String := "//# sourceMappingURL=" ++ url ++ "\n"

/-! ## Lines -/

def lineCount (body : String) : Nat := body.toList.count '\n'

def endLine (text : String) : String :=
  String.ofList (Text.dropEndWhile isBreak text.toList) ++ "\n"

/-- `n` empty lines. -/
def emptyLines (n : Nat) : String := String.ofList (List.replicate n '\n')

@[simp] theorem lineCount_append (a b : String) :
    lineCount (a ++ b) = lineCount a + lineCount b := by
  simp [lineCount]

@[simp] theorem lineCount_emptyLines (n : Nat) : lineCount (emptyLines n) = n := by
  simp [lineCount, emptyLines]

theorem emptyLines_add (m n : Nat) : emptyLines (m + n) = emptyLines m ++ emptyLines n := by
  rw [emptyLines, ← List.replicate_append_replicate, String.ofList_append]
  rfl

end Body

end SourceMap
