import SourceMap.Vlq.Digit

/-!
# Integers as groups of five bits

A signed value is folded into a natural number whose lowest bit is the sign, and that number is
cut into five-bit groups, least significant first.

## Main definitions

* `fold`, `unfold` : between integers and folded numbers.
* `digits`, `magnitude` : between folded numbers and digits.
* `Fits64` : the range of values that a token may hold.

## Main statements

* `unfold_fold` : folding loses nothing. It has one more code than it needs, `1`, a negative zero.
* `magnitude_digits` : digits add up to the number they were cut from.
-/

namespace SourceMap.Vlq

/-- Twice the absolute value, plus one for a negative sign. -/
def fold : Int → Nat
  | .ofNat n => 2 * n
  | .negSucc n => 2 * (n + 1) + 1

def unfold (n : Nat) : Int :=
  if n % 2 = 0 then (n / 2 : Nat) else -(n / 2 : Nat)

theorem unfold_fold (v : Int) : unfold (fold v) = v := by
  cases v with
  | ofNat n => simp [fold, unfold]
  | negSucc n =>
    have h : (2 * (n + 1) + 1) / 2 = n + 1 := by omega
    have h' : (2 * (n + 1) + 1) % 2 = 1 := by omega
    simp only [fold, unfold, h, h']
    rfl

/-- The digits of `n`: at least one, and all but the last marked as continued. -/
def digits (n : Nat) : List Digit :=
  if h : n < 32 then [⟨n, by omega⟩] else ⟨32 + n % 32, by omega⟩ :: digits (n / 32)

/-- The number whose five-bit groups are `ds`. -/
def magnitude : List Digit → Nat
  | [] => 0
  | d :: ds => d.value + 32 * magnitude ds

theorem magnitude_digits (n : Nat) : magnitude (digits n) = n := by
  fun_induction digits n with
  | case1 n h => simp [magnitude, Digit.value, Nat.mod_eq_of_lt h]
  | case2 n h ih =>
    simp only [magnitude, Digit.value, ih]
    omega

theorem digits_ne_nil (n : Nat) : digits n ≠ [] := by
  unfold digits
  split <;> simp

/-- `v` is a signed number of 64 bits. -/
def Fits64 (v : Int) : Prop := -9223372036854775808 ≤ v ∧ v ≤ 9223372036854775807

instance (v : Int) : Decidable (Fits64 v) := inferInstanceAs (Decidable (_ ∧ _))

end SourceMap.Vlq
