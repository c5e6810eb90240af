/-!
# Contents of sources

## Main definitions

* `Contents` : texts by the index of their source, in ascending order. Not every source has one.
* `Contents.insert`, `Contents.get?`

## Main statements

* `get?_insert` : inserting changes what is found at that index only.
-/

namespace SourceMap

structure Contents where
  entries : List (Nat × String)
  deriving DecidableEq, Repr

namespace Contents

def empty : Contents := ⟨[]⟩

def isEmpty (c : Contents) : Bool := c.entries.isEmpty

def get? (c : Contents) (i : Nat) : Option String := c.entries.lookup i

def insertEntry (i : Nat) (s : String) : List (Nat × String) → List (Nat × String)
  | [] => [(i, s)]
  | (j, t) :: rest =>
    if i < j then (i, s) :: (j, t) :: rest
    else if i = j then (i, s) :: rest
    else (j, t) :: insertEntry i s rest

/-- Puts a text at an index, in place of any other. -/
def insert (c : Contents) (i : Nat) (s : String) : Contents := ⟨insertEntry i s c.entries⟩

theorem get?_insert (c : Contents) (i j : Nat) (s : String) :
    (c.insert i s).get? j = if j = i then some s else c.get? j := by
  obtain ⟨es⟩ := c
  simp only [get?, insert]
  induction es with
  | nil =>
    simp only [insertEntry, List.lookup_cons, List.lookup_nil]
    split <;> grind
  | cons e es ih =>
    obtain ⟨k, t⟩ := e
    simp only [insertEntry]
    split
    · grind
    · split
      · grind
      · simp only [List.lookup_cons, ih]
        grind

/-- The texts of a list in which a source without text has none. -/
def ofList (texts : List (Option String)) : Contents :=
  ⟨texts.zipIdx.filterMap fun (text, i) => text.map (i, ·)⟩

end Contents

end SourceMap
