/-!
# Searching by halving

## Main definitions

* `Slot` : where a search ends, with or without a hit.
* `search` : halves an array that stands in the order of the search.
* `partitionPoint` : how many values a test accepts, where those stand first.
-/

namespace SourceMap

/-- Where a search ends. -/
inductive Slot where
  | found (index : Nat)
  /-- Nothing is hit. What is searched for would stand at `index`. -/
  | missing (index : Nat)
  deriving DecidableEq, Repr

def Slot.index : Slot → Nat
  | found index => index
  | missing index => index

section

variable {α : Type}

/-- Searches from `first` on and before `last`. `side x` compares `x` with what is searched for. -/
def searchBetween (side : α → Ordering) (xs : Array α) (first last : Nat) (hlast : last ≤ xs.size) :
    Slot :=
  if h : first < last then
    let middle := first + (last - first) / 2
    match side xs[middle] with
    | .lt => searchBetween side xs (middle + 1) last hlast
    | .eq => .found middle
    | .gt => searchBetween side xs first middle (by omega)
  else .missing first
termination_by last - first

def search (side : α → Ordering) (xs : Array α) : Slot :=
  searchBetween side xs 0 xs.size (Nat.le_refl _)

/-- What `p` accepts is on the left, and what it rejects on the right. -/
def sideBy (p : α → Bool) (x : α) : Ordering := if p x then .lt else .gt

/-- Where the values end that `p` accepts. No value is hit, so the search ends between two. -/
def partitionPoint (p : α → Bool) (xs : Array α) : Nat := (search (sideBy p) xs).index

end

end SourceMap
