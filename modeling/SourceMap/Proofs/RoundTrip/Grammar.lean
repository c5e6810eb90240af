import SourceMap.Proofs.RoundTrip.Canonical

/-!
# The grammar of values

A value is spelled by up to thirteen digits, each but the last of them continued, and a number of 64
bits that their groups add up to. These texts are read, no others are, and of the texts of one value
the one that is written is the shortest.

## Main definitions

* `Vlq.Spells` : digits are a text of a value.

## Main statements

* `Vlq.decode_eq_ok_iff` : what is read as a value.
* `Vlq.encode_eq_text_iff` : which text of a value is the one that is written.
* `Vlq.decode_iff_spells` : both, for texts.
-/

namespace SourceMap.Vlq

open Text (Reader bytes)

/-! ## Digits of one value -/

theorem isWord_iff {ds : List Digit} :
    IsWord ds ↔ ds ≠ [] ∧ (∀ d ∈ ds.dropLast, d.continues) ∧ ∀ d ∈ ds.getLast?, ¬ d.continues := by
  induction ds with
  | nil => simp [IsWord]
  | cons d ds ih =>
    cases ds with
    | nil => simp [IsWord]
    | cons e ds =>
      have hlast : (d :: e :: ds).getLast? = (e :: ds).getLast? := List.getLast?_cons_cons
      rw [hlast, List.dropLast_cons_cons, List.forall_mem_cons]
      by_cases hc : d.continues = true
      · simp only [hc, true_and, ne_eq, reduceCtorEq, not_false_eq_true] at ih ⊢
        rw [← ih, IsWord, if_pos hc]
      · simp [IsWord, hc]

/-- The groups of five bits are digits in base 32, the least significant first. -/
theorem magnitude_eq_ofDigits (ds : List Digit) :
    magnitude ds = Nat.ofDigits 32 (ds.map Digit.value) := by
  induction ds with
  | nil => rfl
  | cons d ds ih => rw [magnitude, ih, List.map_cons, Nat.ofDigits_cons]

/-- `ds` is a text of the value `v`. The groups of the digits form a number that is twice the
absolute value, and one more for a negative sign. -/
structure Spells (ds : List Digit) (v : Int) : Prop where
  length_pos : 1 ≤ ds.length
  length_le : ds.length ≤ 13
  continued : ∀ d ∈ ds.dropLast, d.continues
  ended : ∀ d ∈ ds.getLast?, ¬ d.continues
  value : v = unfold (Nat.ofDigits 32 (ds.map Digit.value))
  fits : Fits64 v

theorem spells_iff {ds : List Digit} {v : Int} :
    Spells ds v ↔
      IsWord ds ∧ ds.length ≤ maxDigits ∧ v = unfold (magnitude ds) ∧ Fits64 v := by
  rw [isWord_iff, magnitude_eq_ofDigits, ← List.length_pos_iff]
  constructor
  · rintro ⟨hpos, hle, hcont, hend, hvalue, hfits⟩
    exact ⟨⟨hpos, hcont, hend⟩, hle, hvalue, hfits⟩
  · rintro ⟨⟨hpos, hcont, hend⟩, hle, hvalue, hfits⟩
    exact ⟨hpos, hle, hcont, hend, hvalue, hfits⟩

/-! ## Reading one value -/

/-- A token is read as a value if and only if nothing is left of it behind the value. -/
theorem decode_eq_ok_iff_read {token : List UInt8} {v : Int} :
    decode token = .ok v ↔ ∃ r, read (.ofBytes 0 token) = (.ok v, r) ∧ r.rest = [] := by
  unfold decode
  split
  · rename_i hread
    simp [hread]
  · rename_i w r hread
    rw [hread, Reader.isDone]
    by_cases hr : r.rest = [] <;> simp [hr]

theorem decode_eq_ok_iff {token : List UInt8} {v : Int} :
    decode token = .ok v ↔ ∃ ds, token = ds.map Digit.byte ∧ Spells ds v := by
  simp only [decode_eq_ok_iff_read, read_eq_ok_iff, spells_iff]
  constructor
  · rintro ⟨r, ⟨ds, hword, hle, hstart, hvalue, hfits, rfl⟩, hdone⟩
    have hlen : token.length ≤ (ds.map Digit.byte).length := by
      simpa [Reader.skip, Reader.ofBytes] using hdone
    exact ⟨ds, (hstart.eq_of_length_le hlen).symm, hword, hle, hvalue, hfits⟩
  · rintro ⟨ds, rfl, hword, hle, hvalue, hfits⟩
    refine ⟨_, ⟨ds, hword, hle, List.prefix_rfl, hvalue, hfits, rfl⟩, ?_⟩
    simp [Reader.skip, Reader.ofBytes]

/-! ## The text that is written -/

theorem Digit.char_injective : Function.Injective Digit.char := fun _ _ h =>
  byte_injective (congrArg Char.toUInt8 h)

theorem text_injective : Function.Injective text := fun _ _ h =>
  Digit.char_injective.list_map (String.ofList_injective h)

/-- All digits in their order. -/
example : text (List.finRange 64) =
    "ABCDEFGHIJKLMNOPQRSTUVWXYZabcdefghijklmnopqrstuvwxyz0123456789+/" := by
  decide +kernel

theorem getLast?_toList_text_eq_iff {ds : List Digit} :
    (text ds).toList.getLast? = some 'A' ↔ ds.getLast? = some 0 := by
  have hA : 'A' = Digit.char 0 := by decide
  rw [toList_text, List.getLast?_map, hA, ← Option.map_some,
    (Option.map_injective Digit.char_injective).eq_iff]

theorem length_encode_le_of_spells {ds : List Digit} {v : Int} (h : Spells ds v) :
    (encode v).length ≤ ds.length := by
  obtain ⟨hword, -, rfl, -⟩ := spells_iff.1 h
  simpa [encode, length_text] using (canonizes_encode hword).length_le

/-- The text that is written is the only one without a last zero and without a negative zero. -/
theorem encode_eq_text_iff {ds : List Digit} {v : Int} (h : Spells ds v) :
    encode v = text ds ↔ ds.length = 1 ∧ ds ≠ [1] ∨ 1 < ds.length ∧ ds.getLast? ≠ some 0 := by
  obtain ⟨hword, -, rfl, -⟩ := spells_iff.1 h
  have hpos : 0 < ds.length := List.length_pos_of_ne_nil hword.ne_nil
  rw [encode, text_injective.eq_iff, digits_fold_unfold_magnitude_eq_iff hword]
  by_cases hone : ds.length = 1
  · simp [hone]
  · have hlong : 1 < ds.length := by omega
    have hne : ds ≠ [1] := fun h => hone (by rw [h]; rfl)
    simp [hone, hlong, hne]

/-- A text is read as a value if and only if it spells the value. The text that is written for the
value is no longer, and it is the same text if and only if that has no last digit `A` that it can do
without, and is not the negative zero `B`. -/
theorem decode_iff_spells (t : String) (v : Int) :
    (decode (bytes t) = .ok v ↔ ∃ ds, t = text ds ∧ Spells ds v) ∧
      (decode (bytes t) = .ok v →
        (encode v).length ≤ t.length ∧
          (encode v = t ↔
            t.length = 1 ∧ t ≠ "B" ∨ 1 < t.length ∧ t.toList.getLast? ≠ some 'A')) := by
  have hread : decode (bytes t) = .ok v ↔ ∃ ds, t = text ds ∧ Spells ds v := by
    simp only [decode_eq_ok_iff, ← bytes_text, Text.bytes_inj]
  refine ⟨hread, fun h => ?_⟩
  obtain ⟨ds, rfl, hspells⟩ := hread.1 h
  have hB : "B" = text [1] := by decide +kernel
  rw [length_text, hB, ne_eq, ne_eq, text_injective.eq_iff, getLast?_toList_text_eq_iff]
  exact ⟨length_encode_le_of_spells hspells, encode_eq_text_iff hspells⟩

/-- Thirteen digits may spell a zero that is written with one, or the smallest value, which is
written with thirteen. No fourteen digits spell a value. -/
theorem decode_iff_spells_thirteen :
    decode (bytes "hggggggggggggA") ≠ .ok 0 ∧ decode (bytes "hgggggggggggA") = .ok 0 ∧
      encode 0 ≠ "hgggggggggggA" ∧
      decode (bytes "hgggggggggggQ") = .ok (-9223372036854775808) ∧
      encode (-9223372036854775808) = "hgggggggggggQ" := by
  have hzero : decode (bytes "hgggggggggggA") = .ok 0 := by decide +kernel
  have hmin : decode (bytes "hgggggggggggQ") = .ok (-9223372036854775808) := by decide +kernel
  have hlast : "hgggggggggggA".toList.getLast? = some 'A' := by decide +kernel
  obtain ⟨-, hzeroIff⟩ := (decode_iff_spells _ _).2 hzero
  obtain ⟨-, hminIff⟩ := (decode_iff_spells _ _).2 hmin
  refine ⟨by decide +kernel, hzero, ?_, hmin, hminIff.2 (by decide +kernel)⟩
  intro h
  rcases hzeroIff.1 h with ⟨hone, -⟩ | ⟨-, hne⟩
  · exact absurd hone (by decide +kernel)
  · exact hne hlast

end SourceMap.Vlq
