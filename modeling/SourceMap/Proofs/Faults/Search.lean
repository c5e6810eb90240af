import Mathlib
import SourceMap.Search

/-!
# A search by halving divides an array

## Main definitions

* `Ordered` : an array stands in the order of a search.
* `Slot.Divides` : a slot tells on which side of it every value is.

## Main statements

* `divides_search` : the slot where a search ends divides an array that stands in its order.
* `partitionPoint_eq_countP` : a partition point counts.
-/

namespace SourceMap

variable {α : Type} {side : α → Ordering} {xs : Array α}

/-- Of two values, the first is on the left of what is searched for or the second on the right. So
at most one value is hit. -/
def Ordered (side : α → Ordering) (xs : Array α) : Prop :=
  xs.toList.Pairwise fun x y => side x = .lt ∨ side y = .gt

theorem ordered_compare {xs : Array Nat} (hxs : xs.toList.Pairwise (· < ·)) (n : Nat) :
    Ordered (compare · n) xs :=
  hxs.imp fun h => by grind [Nat.compare_eq_lt, Nat.compare_eq_gt]

theorem ordered_sideBy {p : α → Bool} (hxs : xs.toList.Pairwise fun x y => p y → p x) :
    Ordered (sideBy p) xs :=
  hxs.imp fun h => by grind [sideBy]

/-- What stands before the slot is on the left of what is searched for, and what stands behind it is
on the right. -/
def Slot.Divides (side : α → Ordering) (xs : Array α) : Slot → Prop
  | .found index => index < xs.size ∧ ∀ i (h : i < xs.size), side xs[i] = compare i index
  | .missing index =>
    index ≤ xs.size ∧ ∀ i (h : i < xs.size), side xs[i] = if i < index then .lt else .gt

theorem Ordered.side_getElem (hxs : Ordered side xs) {i j : Nat} (hij : i < j) (hj : j < xs.size) :
    side xs[i] = .lt ∨ side xs[j] = .gt :=
  List.pairwise_iff_getElem.1 hxs i j (by rw [Array.length_toList]; omega) hj hij

/-- What is before `first` is known to be on the left, and what is not before `last` on the right.
Each step keeps that. -/
theorem divides_searchBetween (hxs : Ordered side xs) {first last : Nat} (hlast : last ≤ xs.size)
    (hle : first ≤ last) (hbefore : ∀ i (h : i < first), side xs[i] = .lt)
    (hbehind : ∀ i (h : i < xs.size), last ≤ i → side xs[i] = .gt) :
    (searchBetween side xs first last hlast).Divides side xs := by
  fun_induction searchBetween side xs first last hlast with
  | case1 first last hlast h middle hlt ih =>
    refine ih (by omega) (fun i hi => ?_) hbehind
    obtain rfl | hi : i = middle ∨ i < middle := by omega
    · exact hlt
    · grind [hxs.side_getElem hi (by omega)]
  | case2 first last hlast h middle heq =>
    refine ⟨by omega, fun i hi => ?_⟩
    obtain hlt | rfl | hgt := Nat.lt_trichotomy i middle
    · grind [hxs.side_getElem hlt (by omega), Nat.compare_eq_lt]
    · grind
    · grind [hxs.side_getElem hgt (by omega), Nat.compare_eq_gt]
  | case3 first last hlast h middle hgt ih =>
    refine ih (by omega) hbefore fun i hi hle => ?_
    obtain rfl | hi : i = middle ∨ middle < i := by omega
    · exact hgt
    · grind [hxs.side_getElem hi (by omega)]
  | case4 first last hlast h =>
    obtain rfl : first = last := by omega
    refine ⟨hlast, fun i hi => ?_⟩
    split
    · exact hbefore i ‹_›
    · exact hbehind i hi (by omega)

theorem divides_search (hxs : Ordered side xs) : (search side xs).Divides side xs :=
  divides_searchBetween hxs _ (Nat.zero_le _) (by simp) (by omega)

/-- A test that holds of the first `n` values, and of no other, counts `n`. -/
theorem countP_toList_eq {p : α → Bool} {n : Nat} (hn : n ≤ xs.size)
    (h : ∀ i (hi : i < xs.size), p xs[i] = decide (i < n)) : xs.toList.countP p = n := by
  have htake : ∀ x ∈ xs.toList.take n, p x = true := by
    intro x hx
    obtain ⟨i, hi, rfl⟩ := List.mem_take_iff_getElem.1 hx
    grind
  have hdrop : ∀ x ∈ xs.toList.drop n, ¬p x = true := by
    intro x hx
    obtain ⟨i, hi, rfl⟩ := List.mem_drop_iff_getElem.1 hx
    grind
  rw [← List.take_append_drop n xs.toList, List.countP_append, List.countP_eq_length.2 htake,
    List.countP_eq_zero.2 hdrop, List.length_take, Array.length_toList, Nat.min_eq_left hn,
    Nat.add_zero]

theorem partitionPoint_eq_countP {p : α → Bool} (hxs : xs.toList.Pairwise fun x y => p y → p x) :
    partitionPoint p xs = xs.toList.countP p := by
  have hdivides : (search (sideBy p) xs).Divides (sideBy p) xs :=
    divides_search (ordered_sideBy hxs)
  unfold partitionPoint
  cases hslot : search (sideBy p) xs with
  | found index => grind [Slot.Divides, sideBy]
  | missing index =>
    rw [hslot] at hdivides
    refine (countP_toList_eq hdivides.1 fun i hi => ?_).symm
    grind [hdivides.2 i hi, sideBy]

end SourceMap
