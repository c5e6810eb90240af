import Mathlib
import SourceMap.Vlq.Token

/-!
# Values read as they were written

The text of a value ends where its last digit does, so values written with nothing between them
come apart again.

## Main definitions

* `IsWord` : digits that are one value.

## Main statements

* `takeDigits_eq_ok_iff`, `read_eq_ok_iff`, `readList_eq_ok_iff` : what is read from a text that
  starts with digits, with a value, with values.
* `decodeList_encodeList` : any values of 64 bits are read back from their text.
* `decodeList_encodeList_packed` : the same, with the length of the text of each of them.
* `comma_notMem_bytes_encodeList`, `semicolon_notMem_bytes_encodeList` : that text holds no
  separator of mapping text.
-/

namespace SourceMap.Vlq

open Text (Reader bytes comma semicolon)

/-! ## Digits -/

theorem Digit.utf8EncodeChar_char : ∀ d : Digit, String.utf8EncodeChar d.char = [d.byte] := by
  decide

theorem Digit.byte_ne_comma : ∀ d : Digit, d.byte ≠ comma := by decide

theorem Digit.byte_ne_semicolon : ∀ d : Digit, d.byte ≠ semicolon := by decide

@[simp] theorem bytes_text (ds : List Digit) : bytes (text ds) = ds.map Digit.byte := by
  rw [text, Text.bytes_ofList, List.flatMap_map]
  simp only [Digit.utf8EncodeChar_char]
  exact List.map_eq_flatMap.symm

theorem toList_text (ds : List Digit) : (text ds).toList = ds.map Digit.char := by
  rw [text, String.toList_ofList]

theorem length_text (ds : List Digit) : (text ds).length = ds.length := by
  simp [text]

theorem Digit.byte_injective : Function.Injective Digit.byte := fun d e h =>
  Option.some_inj.1 (by rw [← ofByte?_byte, ← ofByte?_byte, h])

theorem Digit.eq_byte_of_ofByte? {b : UInt8} {d : Digit} (h : ofByte? b = some d) : b = d.byte := by
  have hall : ∀ n : Fin 256, (ofByte? (UInt8.ofNat n)).all fun e => UInt8.ofNat n = e.byte := by
    decide +kernel
  have hb := hall ⟨b.toNat, b.toNat_lt⟩
  simp only [UInt8.ofNat_toNat, h, Option.all_some, decide_eq_true_eq] at hb
  exact hb

/-! ## Words -/

/-- The digits of one value: the last is the only one that is not continued. -/
def IsWord : List Digit → Prop
  | [] => False
  | d :: ds => if d.continues then IsWord ds else ds = []

theorem IsWord.ne_nil {ds : List Digit} (h : IsWord ds) : ds ≠ [] := by
  rintro rfl
  exact h

/-- A word is one digit that is not continued, or a digit that is continued and then a word. -/
theorem isWord_induction {P : (ds : List Digit) → IsWord ds → Prop}
    (last : ∀ d (hc : d.continues = false), P [d] (by simp [IsWord, hc]))
    (more : ∀ d ds (hc : d.continues = true) (h : IsWord ds), P ds h →
      P (d :: ds) (by simpa [IsWord, hc] using h))
    {ds : List Digit} (h : IsWord ds) : P ds h := by
  induction ds with
  | nil => exact h.elim
  | cons d ds ih =>
    cases hc : d.continues with
    | false =>
      obtain rfl : ds = [] := by simpa [IsWord, hc] using h
      exact last d hc
    | true =>
      have hds : IsWord ds := by simpa [IsWord, hc] using h
      exact more d ds hc hds (ih hds)

theorem isWord_digits (n : Nat) : IsWord (digits n) := by
  fun_induction digits n with
  | case1 n hn => simp [IsWord, Digit.continues, hn]
  | case2 n hn ih => simpa [IsWord, Digit.continues] using ih

theorem length_digits_le {k n : Nat} (h : n < 32 ^ (k + 1)) : (digits n).length ≤ k + 1 := by
  induction k generalizing n with
  | zero =>
    have hn : n < 32 := by omega
    simp [digits, hn]
  | succ k ih =>
    unfold digits
    split
    · simp
    · have hk : n / 32 < 32 ^ (k + 1) := by rw [Nat.pow_succ] at h; omega
      simpa using ih hk

theorem fold_lt_of_fits64 {v : Int} (h : Fits64 v) : fold v < 32 ^ 13 := by
  obtain ⟨hl, hu⟩ := h
  cases v <;> simp only [fold, Int.ofNat_eq_natCast] at * <;> omega

theorem length_digits_fold_le {v : Int} (h : Fits64 v) : (digits (fold v)).length ≤ maxDigits :=
  length_digits_le (fold_lt_of_fits64 h)

/-! ## Reading -/

/-- A word ends where its last digit does, whatever follows. -/
theorem takeDigits_eq_ok_iff {room : Nat} {bs : List UInt8} {ds : List Digit} {taken : Nat} :
    takeDigits room bs = (.ok ds, taken) ↔
      IsWord ds ∧ ds.length ≤ room ∧ ds.map Digit.byte <+: bs ∧ taken = ds.length := by
  constructor
  · intro h
    fun_induction takeDigits room bs generalizing ds taken with
    | case1 => cases h
    | case2 => cases h
    | case3 => cases h
    | case4 b bs d room hd hc es n hes ih =>
      cases es with
      | error e => cases h
      | ok es =>
        cases h
        obtain ⟨hword, hroom, hstart, rfl⟩ := ih hes
        refine ⟨by simpa [IsWord, hc] using hword, by simpa using hroom, ?_, rfl⟩
        rw [Digit.eq_byte_of_ofByte? hd, List.map_cons]
        exact (List.prefix_cons_inj _).2 hstart
    | case5 b bs d room hd hc =>
      cases h
      exact ⟨by simp [IsWord, hc], by simp, by simp [Digit.eq_byte_of_ofByte? hd], rfl⟩
  · rintro ⟨hword, hroom, ⟨rest, rfl⟩, rfl⟩
    induction hword using isWord_induction generalizing room with
    | last d hc =>
      cases room with
      | zero => simp at hroom
      | succ room => simp [takeDigits, Digit.ofByte?_byte, hc]
    | more d ds hc hword ih =>
      cases room with
      | zero => simp at hroom
      | succ room =>
        have hlen : ds.length ≤ room := by simpa using hroom
        simp [takeDigits, Digit.ofByte?_byte, hc, ih hlen, Except.map]

theorem read_eq_ok_iff {r r' : Reader} {v : Int} :
    read r = (.ok v, r') ↔
      ∃ ds, IsWord ds ∧ ds.length ≤ maxDigits ∧ ds.map Digit.byte <+: r.rest ∧
        v = unfold (magnitude ds) ∧ Fits64 v ∧ r' = r.skip ds.length := by
  constructor
  · intro h
    unfold read at h
    rcases htake : takeDigits maxDigits r.rest with ⟨_ | ds, taken⟩
    · rw [htake] at h
      dsimp only at h
      split at h <;> simp_all
    · obtain ⟨hword, hroom, hstart, rfl⟩ := takeDigits_eq_ok_iff.1 htake
      rw [htake] at h
      dsimp only at h
      split at h
      · rename_i hfits
        cases h
        exact ⟨ds, hword, hroom, hstart, rfl, hfits, rfl⟩
      · cases h
  · rintro ⟨ds, hword, hroom, hstart, rfl, hfits, rfl⟩
    have htake := takeDigits_eq_ok_iff.2 ⟨hword, hroom, hstart, rfl⟩
    simp only [read, htake, hfits, if_true]

theorem readList_eq_ok_iff {r : Reader} {vs : List Int} :
    readList r = .ok vs ↔
      r.rest = [] ∧ vs = [] ∨
        ∃ v r' ws, read r = (.ok v, r') ∧ readList r' = .ok ws ∧ vs = v :: ws := by
  by_cases hr : r.rest = []
  · have hread : ∀ v r', read r ≠ (.ok v, r') := by
      simp [read, hr, takeDigits]
    rw [readList, dif_pos hr]
    simp [hr, hread, eq_comm]
  · rw [readList, dif_neg hr]
    split
    · rename_i hread
      simp [hr, hread]
    · rename_i w s hread
      cases hs : readList s <;> simp [hr, hread, hs, Except.map, eq_comm]

theorem fits64_of_readList {r : Reader} {vs : List Int} (h : readList r = .ok vs) :
    ∀ v ∈ vs, Fits64 v := by
  induction vs generalizing r with
  | nil => simp
  | cons v vs ih =>
    rcases readList_eq_ok_iff.1 h with ⟨-, hnil⟩ | ⟨w, r', ws, hread, hws, heq⟩
    · cases hnil
    · cases heq
      obtain ⟨_, -, -, -, -, hfits, -⟩ := read_eq_ok_iff.1 hread
      exact List.forall_mem_cons.2 ⟨hfits, ih hws⟩

/-- Whatever is read from a token fits 64 bits. -/
theorem fits64_of_decodeList {base : Nat} {token : List UInt8} {vs : List Int}
    (h : decodeList base token = .ok vs) : ∀ v ∈ vs, Fits64 v :=
  fits64_of_readList h

/-! ## Reading what was written -/

theorem read_encode {v : Int} (h : Fits64 v) {r : Reader} {rest : List UInt8}
    (hr : r.rest = bytes (encode v) ++ rest) :
    read r = (.ok v, r.skip (bytes (encode v)).length) := by
  rw [encode, bytes_text] at hr ⊢
  refine read_eq_ok_iff.2 ⟨digits (fold v), isWord_digits _, length_digits_fold_le h,
    ⟨rest, hr.symm⟩, ?_, h, by rw [List.length_map]⟩
  rw [magnitude_digits, unfold_fold]

theorem bytes_encode_ne_nil (v : Int) : bytes (encode v) ≠ [] := by
  simp [encode, digits_ne_nil]

@[simp] theorem encodeList_nil : encodeList [] = "" := rfl

@[simp] theorem encodeList_cons (v : Int) (vs : List Int) :
    encodeList (v :: vs) = encode v ++ encodeList vs := by
  simp [encodeList]

theorem readList_encodeList {vs : List Int} (h : ∀ v ∈ vs, Fits64 v) {r : Reader}
    (hr : r.rest = bytes (encodeList vs)) : readList r = .ok vs := by
  induction vs generalizing r with
  | nil => exact readList_eq_ok_iff.2 (.inl ⟨by simpa using hr, rfl⟩)
  | cons v vs ih =>
    obtain ⟨hv, hvs⟩ := List.forall_mem_cons.1 h
    rw [encodeList_cons, Text.bytes_append] at hr
    refine readList_eq_ok_iff.2 (.inr ⟨v, _, vs, read_encode hv hr, ih hvs ?_, rfl⟩)
    simp [Reader.skip, hr]

/-- Values of 64 bits come back as they were written. -/
theorem decodeList_encodeList {vs : List Int} (h : ∀ v ∈ vs, Fits64 v) (base : Nat) :
    decodeList base (bytes (encodeList vs)) = .ok vs :=
  readList_encodeList h rfl

theorem decode_encode {v : Int} (h : Fits64 v) : decode (bytes (encode v)) = .ok v := by
  have hread := read_encode (r := .ofBytes 0 (bytes (encode v))) h (List.append_nil _).symm
  rw [decode, hread]
  simp [Reader.isDone, Reader.skip, Reader.ofBytes]

theorem length_encode_le {v : Int} (h : Fits64 v) : (encode v).length ≤ maxDigits := by
  rw [encode, length_text]
  exact length_digits_fold_le h

theorem length_encode_pos (v : Int) : 0 < (encode v).length := by
  rw [encode, length_text]
  exact List.length_pos_of_ne_nil (digits_ne_nil _)

/-- Values of 64 bits come apart again where they are written one after another, each of them in one
to thirteen characters that alone are read as the value. -/
theorem decodeList_encodeList_packed {vs : List Int} (h : ∀ v ∈ vs, Fits64 v) :
    decodeList 0 (bytes (encodeList vs)) = .ok vs ∧
      ∀ v ∈ vs, 1 ≤ (encode v).length ∧ (encode v).length ≤ 13 ∧
        decode (bytes (encode v)) = .ok v :=
  ⟨decodeList_encodeList h 0, fun v hv =>
    ⟨length_encode_pos v, length_encode_le (h v hv), decode_encode (h v hv)⟩⟩

/-- The smallest value takes a bit more than 64 when it is folded. -/
theorem decodeList_encodeList_packed_extremes :
    2 ^ 64 ≤ fold (-9223372036854775808) ∧
      encodeList [-9223372036854775808, 0, -1, 9223372036854775807] =
        "hgggggggggggQAD+///////////P" ∧
      decodeList 0 (bytes "hgggggggggggQAD+///////////P") =
        .ok [-9223372036854775808, 0, -1, 9223372036854775807] ∧
      decode (bytes (encode (-9223372036854775808))) = .ok (-9223372036854775808) := by
  have hfits : ∀ v ∈ [-9223372036854775808, 0, -1, 9223372036854775807], Fits64 v := by decide
  have htext : encodeList [-9223372036854775808, 0, -1, 9223372036854775807] =
      "hgggggggggggQAD+///////////P" := by decide +kernel
  obtain ⟨hlist, hsingle⟩ := decodeList_encodeList_packed hfits
  rw [htext] at hlist
  exact ⟨by decide, htext, hlist, (hsingle _ List.mem_cons_self).2.2⟩

/-! ## The bytes of values -/

theorem forall_mem_bytes_encodeList {p : UInt8 → Prop} (hp : ∀ d : Digit, p d.byte)
    (vs : List Int) : ∀ b ∈ bytes (encodeList vs), p b := by
  induction vs with
  | nil => simp
  | cons v vs ih =>
    intro b hb
    rw [encodeList_cons, Text.bytes_append, List.mem_append] at hb
    rcases hb with hb | hb
    · rw [encode, bytes_text] at hb
      obtain ⟨d, -, rfl⟩ := List.mem_map.1 hb
      exact hp d
    · exact ih b hb

theorem comma_notMem_bytes_encodeList (vs : List Int) : comma ∉ bytes (encodeList vs) := fun h =>
  forall_mem_bytes_encodeList (p := (· ≠ comma)) Digit.byte_ne_comma vs _ h rfl

theorem semicolon_notMem_bytes_encodeList (vs : List Int) :
    semicolon ∉ bytes (encodeList vs) := fun h =>
  forall_mem_bytes_encodeList (p := (· ≠ semicolon)) Digit.byte_ne_semicolon vs _ h rfl

end SourceMap.Vlq
