import Std.Data.HashMap
import SourceMap.StringTable

/-!
# String tables with a look-up

A `StringTable` is searched from the front. Here the first index of every string is kept in a hash
map beside the strings, so that no search is needed. Indices are words of 32 bits.

## Main definitions

* `IndexedTable` : the strings in order, and where each of them stands first.
* `IndexedTable.ofValues` : the table of strings that were read. They may hold a string twice.
* `IndexedTable.index?`, `IndexedTable.intern`, `IndexedTable.get` : as for a `StringTable`.
-/

namespace SourceMap

structure IndexedTable extends StringTable where
  lookup : Std.HashMap String UInt32

namespace IndexedTable

def empty : IndexedTable := ⟨.empty, ∅⟩

/-- The look-up of `values` when the first of them stands at `start`. A string keeps the index that
it has already. -/
def indexValues (values : List String) (start : Nat) (lookup : Std.HashMap String UInt32) :
    Std.HashMap String UInt32 :=
  (values.zipIdx start).foldl (fun lookup (s, i) => lookup.insertIfNew s (UInt32.ofNat i)) lookup

def ofValues (values : List String) : IndexedTable := ⟨⟨values⟩, indexValues values 0 ∅⟩

def index? (t : IndexedTable) (s : String) : Option UInt32 := t.lookup[s]?

/-- Adds `s` only if it is new. -/
def intern (t : IndexedTable) (s : String) : UInt32 × IndexedTable :=
  match t.index? s with
  | some i => (i, t)
  | none =>
    let i := UInt32.ofNat t.size
    (i, ⟨⟨t.values ++ [s]⟩, t.lookup.insert s i⟩)

def get (t : IndexedTable) (i : UInt32) : Except MappingError String := t.toStringTable.get i.toNat

def entries (t : IndexedTable) : List (UInt32 × String) :=
  t.toStringTable.entries.map fun (i, s) => (UInt32.ofNat i, s)

end IndexedTable

end SourceMap
