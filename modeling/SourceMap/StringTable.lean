import SourceMap.Mappings.Error

/-!
# String tables

The sources and the names of a map are tables of strings that segments refer to by index. Indices
are given out in the order in which strings are first seen and never change.

## Main definitions

* `StringTable` : the strings in order. A table that was read may hold a string twice.
* `StringTable.index?` : the first index of a string.
* `StringTable.intern` : the index of a string, which is added if it is new.
* `StringTable.get` : the string at an index.
-/

namespace SourceMap

structure StringTable where
  values : List String
  deriving DecidableEq, Repr

namespace StringTable

def empty : StringTable := ⟨[]⟩

def size (t : StringTable) : Nat := t.values.length

def isEmpty (t : StringTable) : Bool := t.values.isEmpty

def index? (t : StringTable) (s : String) : Option Nat := t.values.idxOf? s

/-- Adds `s` only if it is new. -/
def intern (t : StringTable) (s : String) : Nat × StringTable :=
  match t.index? s with
  | some i => (i, t)
  | none => (t.size, ⟨t.values ++ [s]⟩)

def get (t : StringTable) (i : Nat) : Except MappingError String :=
  match t.values[i]? with
  | some s => .ok s
  | none => .error (.noSuchEntry i t.size)

def entries (t : StringTable) : List (Nat × String) := t.values.zipIdx.map fun (s, i) => (i, s)

theorem get_eq_ok_iff {t : StringTable} {i : Nat} {s : String} :
    t.get i = .ok s ↔ t.values[i]? = some s := by
  unfold get
  split <;> simp_all

theorem values_prefix_intern (t : StringTable) (s : String) :
    t.values <+: (t.intern s).2.values := by
  unfold intern
  split
  · exact List.prefix_rfl
  · exact List.prefix_append ..

end StringTable

end SourceMap
