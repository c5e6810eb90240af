import SourceMap.Proofs.RoundTrip.Text

/-!
# Canonical values

A value has many texts: digits that add nothing may end it, and zero may be negative. The one that
is written is the shortest. So text that is read and written again never grows, and it stays as it
is if and only if all its values are canonical.

## Main definitions

* `Vlq.valueTexts`, `Mappings.valueTexts` : the texts of the values of a token, and of all tokens.
* `Vlq.IsCanonical` : no digit is there in vain, and no zero is negative.
* `Canonizes` : what becomes of text when it is read and written again.

## Main statements

* `Vlq.digits_magnitude_eq_iff` : the digits that are cut from a number again.
* `Vlq.canonizes_encodeList`, `Segment.canonizes_encode`, `Line.canonizes_encode`,
  `Mappings.canonizes_encodeLines` : values, tokens, lines and texts that are written again.
* `Mappings.textOf_linesOf` : a complete text that is read and written again.
-/

namespace SourceMap

namespace Vlq

open Text (bytes)

/-! ## Digits cut again -/

/-- Digits that add up to nothing end in the digit zero. -/
theorem getLast?_of_magnitude_eq_zero {ds : List Digit} (h : IsWord ds) (h0 : magnitude ds = 0) :
    ds.getLast? = some 0 := by
  induction h using isWord_induction with
  | last d hc =>
    have hlt : d.val < 32 := by simpa [Digit.continues] using hc
    obtain rfl : d = 0 := by
      refine Fin.ext ?_
      simp only [magnitude, Digit.value] at h0
      change d.val = 0
      omega
    rw [List.getLast?_singleton]
  | more d ds hc h ih =>
    have hds : magnitude ds = 0 := by
      simp only [magnitude] at h0
      omega
    rw [List.getLast?_cons, ih hds]
    rfl

theorem digits_magnitude_singleton {d : Digit} (h : d.continues = false) :
    digits (magnitude [d]) = [d] := by
  have hlt : d.val < 32 := by simpa [Digit.continues] using h
  simp [magnitude, Digit.value, Nat.mod_eq_of_lt hlt, digits, hlt]

theorem digits_magnitude_cons_of_eq_zero (d : Digit) {ds : List Digit} (h0 : magnitude ds = 0) :
    digits (magnitude (d :: ds)) = [⟨d.value, by have := d.value_lt; omega⟩] := by
  have hlt := d.value_lt
  simp [magnitude, h0, digits, hlt]

theorem digits_magnitude_cons_of_ne_zero {d : Digit} (h : d.continues = true) {ds : List Digit}
    (h0 : magnitude ds ≠ 0) :
    digits (magnitude (d :: ds)) = d :: digits (magnitude ds) := by
  have hlt := d.value_lt
  have hge : 32 ≤ d.val := by simpa [Digit.continues] using h
  have hval : d.val = 32 + d.value := by
    have := d.isLt
    unfold Digit.value
    omega
  have hnot : ¬ magnitude (d :: ds) < 32 := by
    simp only [magnitude]
    omega
  rw [digits, dif_neg hnot]
  congr 1
  · refine Fin.ext ?_
    simp only [magnitude]
    omega
  · congr 1
    simp only [magnitude]
    omega

theorem length_digits_magnitude_le {ds : List Digit} (h : IsWord ds) :
    (digits (magnitude ds)).length ≤ ds.length := by
  induction h using isWord_induction with
  | last d hc => rw [digits_magnitude_singleton hc]
  | more d ds hc h ih =>
    by_cases h0 : magnitude ds = 0
    · simp [digits_magnitude_cons_of_eq_zero d h0]
    · simpa [digits_magnitude_cons_of_ne_zero hc h0] using ih

/-- The digits of a value are cut from its number again, unless zeros at the end are lost. -/
theorem digits_magnitude_eq_iff {ds : List Digit} (h : IsWord ds) :
    digits (magnitude ds) = ds ↔ ds.length = 1 ∨ ds.getLast? ≠ some 0 := by
  induction h using isWord_induction with
  | last d hc => simp [digits_magnitude_singleton hc]
  | more d ds hc h ih =>
    have hlast : (d :: ds).getLast? = ds.getLast? := by
      rw [List.getLast?_cons, List.getLast?_eq_getLast_of_ne_nil h.ne_nil]
      rfl
    have hlen : (d :: ds).length ≠ 1 := by
      simpa using h.ne_nil
    by_cases h0 : magnitude ds = 0
    · rw [digits_magnitude_cons_of_eq_zero d h0, hlast, getLast?_of_magnitude_eq_zero h h0]
      simp [h.ne_nil]
    · rw [digits_magnitude_cons_of_ne_zero hc h0, hlast, List.cons_inj_right, ih]
      -- a single digit that adds something is not zero
      have hsingle : ds.length = 1 → ds.getLast? ≠ some 0 := by
        intro hone hzero
        obtain ⟨e, rfl⟩ := List.length_eq_one_iff.1 hone
        obtain rfl : e = 0 := by simpa using hzero
        exact h0 rfl
      tauto

theorem fold_unfold (n : Nat) : fold (unfold n) = if n = 1 then 0 else n := by
  unfold unfold
  split
  · have he : fold ((n / 2 : Nat) : Int) = 2 * (n / 2) := rfl
    rw [he]
    split <;> omega
  · rcases hn : n / 2 with _ | k
    · have h1 : n = 1 := by omega
      rw [if_pos h1]
      rfl
    · have he : fold (-((k + 1 : Nat) : Int)) = 2 * (k + 1) + 1 := rfl
      rw [he]
      split <;> omega

/-- The digits of a value are those that it is written with, unless zeros at the end are lost or it
is the negative zero. -/
theorem digits_fold_unfold_magnitude_eq_iff {ds : List Digit} (h : IsWord ds) :
    digits (fold (unfold (magnitude ds))) = ds ↔
      (ds.length = 1 ∨ ds.getLast? ≠ some 0) ∧ ds ≠ [1] := by
  have hone : digits 1 = [1] := by simp [digits]
  rw [← digits_magnitude_eq_iff h, fold_unfold]
  split
  · rename_i h1
    have hne : digits 0 ≠ ds := by
      intro h0
      rw [← h0, magnitude_digits] at h1
      exact absurd h1 (by decide)
    rw [h1, hone]
    simp [hne, eq_comm]
  · rename_i h1
    refine (and_iff_left_of_imp fun _ hds => h1 ?_).symm
    rw [hds, ← hone, magnitude_digits]

/-! ## The texts of values -/

/-- The texts of the values of a token: a value ends with the first byte that does not continue
it. -/
def valueTexts : List UInt8 → List (List UInt8)
  | [] => []
  | b :: bs =>
    if (Digit.ofByte? b).any Digit.continues then
      match valueTexts bs with
      | [] => [[b]]
      | w :: ws => (b :: w) :: ws
    else [b] :: valueTexts bs

/-- The text of a value is written canonically: its last digit is not zero, unless it is the only
one, and it is not the negative zero. -/
def IsCanonical (w : List UInt8) : Prop :=
  (w.length = 1 ∨ w.getLast? ≠ some 'A'.toUInt8) ∧ w ≠ ['B'.toUInt8]

instance (w : List UInt8) : Decidable (IsCanonical w) := inferInstanceAs (Decidable (_ ∧ _))

theorem valueTexts_append {ds : List Digit} (h : IsWord ds) (rest : List UInt8) :
    valueTexts (ds.map Digit.byte ++ rest) = ds.map Digit.byte :: valueTexts rest := by
  induction h using isWord_induction with
  | last d hc => simp [valueTexts, Digit.ofByte?_byte, hc]
  | more d ds hc h ih => simp [valueTexts, Digit.ofByte?_byte, hc, ih]

/-- The canonical text of a value is the one that its number is written with. -/
theorem isCanonical_map_byte_iff {ds : List Digit} (h : IsWord ds) :
    IsCanonical (ds.map Digit.byte) ↔ digits (fold (unfold (magnitude ds))) = ds := by
  have hzero : (ds.map Digit.byte).getLast? = some 'A'.toUInt8 ↔ ds.getLast? = some 0 := by
    have hA : 'A'.toUInt8 = Digit.byte 0 := by decide
    rw [List.getLast?_map, hA, ← Option.map_some,
      (Option.map_injective Digit.byte_injective).eq_iff]
  have hminus : ds.map Digit.byte = ['B'.toUInt8] ↔ ds = [1] := by
    have hB : ['B'.toUInt8] = [1].map Digit.byte := by decide
    rw [hB, Digit.byte_injective.list_map.eq_iff]
  rw [IsCanonical, ne_eq, ne_eq, hzero, List.length_map, hminus,
    digits_fold_unfold_magnitude_eq_iff h]

end Vlq

/-! ## Written again -/

/-- What becomes of text when it is read and written again. It does not grow, and it stays as it is
if and only if the values in it are canonical. -/
structure Canonizes (values : List (List UInt8)) (old new : List UInt8) : Prop where
  length_le : new.length ≤ old.length
  eq_iff : new = old ↔ ∀ w ∈ values, Vlq.IsCanonical w

namespace Canonizes

theorem refl (bs : List UInt8) : Canonizes [] bs bs := ⟨Nat.le_refl _, by simp⟩

/-- Pieces that do not grow are the same together if and only if each of them is. -/
theorem append {ws ws' : List (List UInt8)} {old old' new new' : List UInt8}
    (h : Canonizes ws old new) (h' : Canonizes ws' old' new') :
    Canonizes (ws ++ ws') (old ++ old') (new ++ new') where
  length_le := by simpa using Nat.add_le_add h.length_le h'.length_le
  eq_iff := by
    rw [List.forall_mem_append, ← h.eq_iff, ← h'.eq_iff]
    constructor
    · intro heq
      have hlen : new.length = old.length := by
        have hsum := congrArg List.length heq
        simp only [List.length_append] at hsum
        have := h.length_le
        have := h'.length_le
        omega
      exact List.append_inj heq hlen
    · rintro ⟨rfl, rfl⟩
      rfl

/-- Pieces with separators between them. -/
theorem intercalate {values : List UInt8 → List (List UInt8)} (sep : List UInt8)
    {olds news : List (List UInt8)}
    (h : List.Forall₂ (fun old new => Canonizes (values old) old new) olds news) :
    Canonizes (olds.flatMap values) (sep.intercalate olds) (sep.intercalate news) := by
  induction h with
  | nil => exact refl []
  | @cons old new olds news hfirst hrest ih =>
    rw [List.flatMap_cons]
    cases hrest with
    | nil => simpa using hfirst
    | cons hsecond hrest =>
      rw [List.intercalate_cons_cons, List.intercalate_cons_cons]
      simpa using (hfirst.append (refl sep)).append ih

end Canonizes

namespace Vlq

open Text (bytes)

theorem canonizes_encode {ds : List Digit} (h : IsWord ds) :
    Canonizes [ds.map Digit.byte] (ds.map Digit.byte) (bytes (encode (unfold (magnitude ds)))) where
  length_le := by
    rw [encode, bytes_text, List.length_map, List.length_map, fold_unfold]
    split
    · have hone : (digits 0).length = 1 := by simp [digits]
      rw [hone]
      exact List.length_pos_of_ne_nil h.ne_nil
    · exact length_digits_magnitude_le h
  eq_iff := by
    rw [encode, bytes_text, Digit.byte_injective.list_map.eq_iff, ← isCanonical_map_byte_iff h]
    simp

theorem canonizes_readList {r : Text.Reader} {vs : List Int} (h : readList r = .ok vs) :
    Canonizes (valueTexts r.rest) r.rest (bytes (encodeList vs)) := by
  induction vs generalizing r with
  | nil =>
    rcases readList_eq_ok_iff.1 h with ⟨hr, -⟩ | ⟨_, _, _, -, -, hcons⟩
    · rw [hr]
      exact .refl []
    · cases hcons
  | cons v vs ih =>
    rcases readList_eq_ok_iff.1 h with ⟨-, hnil⟩ | ⟨_, r', _, hread, hvs, hcons⟩
    · cases hnil
    · cases hcons
      obtain ⟨ds, hword, -, ⟨rest, hrest⟩, rfl, -, rfl⟩ := read_eq_ok_iff.1 hread
      have hskip : (r.skip ds.length).rest = rest := by
        simp [Text.Reader.skip, ← hrest]
      rw [← hrest, valueTexts_append hword, encodeList_cons, Text.bytes_append, ← hskip]
      exact (canonizes_encode hword).append (ih hvs)

theorem canonizes_encodeList {base : Nat} {token : List UInt8} {vs : List Int}
    (h : decodeList base token = .ok vs) :
    Canonizes (valueTexts token) token (bytes (encodeList vs)) :=
  canonizes_readList h

end Vlq

theorem Segment.canonizes_encode {l : Limits} {offset : Nat} {token : List UInt8}
    {b b' : Baseline} {s : Segment} (h : decode l offset token b = (.ok s, b')) :
    Canonizes (Vlq.valueTexts token) token (Text.bytes (s.encode b).1) ∧ (s.encode b).2 = b' := by
  obtain ⟨hdeltas, rfl, -⟩ := decode_eq_ok_iff.1 h
  exact ⟨Vlq.canonizes_encodeList hdeltas, rfl⟩

namespace Line

open Text (bytes comma)

/-- The texts of the values of a line. -/
def valueTexts (text : List UInt8) : List (List UInt8) := (tokens text).flatMap Vlq.valueTexts

theorem canonizes_encodeTokens {l : Limits} {ts : List (List UInt8)} {offset : Nat}
    {b b' : Baseline} {line : Line} (h : decodeTokens l ts offset b = (.ok line, b')) :
    List.Forall₂ (fun old new => Canonizes (Vlq.valueTexts old) old new) ts
        ((encodeTokens line b).1.map bytes) ∧
      (encodeTokens line b).2 = b' := by
  induction ts generalizing offset b line with
  | nil =>
    cases h
    exact ⟨.nil, rfl⟩
  | cons t ts ih =>
    obtain ⟨s, c, rest, rfl, hs, hr⟩ := decodeTokens_cons_eq_ok_iff.1 h
    obtain ⟨hfirst, rfl⟩ := Segment.canonizes_encode hs
    obtain ⟨hrest, rfl⟩ := ih hr
    exact ⟨.cons hfirst hrest, rfl⟩

theorem canonizes_encode {l : Limits} {text : List UInt8} {offset : Nat} {b b' : Baseline}
    {line : Line} (h : decode l text offset b = (.ok line, b')) :
    Canonizes (valueTexts text) text (bytes (line.encode b).1) ∧ (line.encode b).2 = b' := by
  obtain ⟨htokens, hb⟩ := canonizes_encodeTokens h
  have hline := Canonizes.intercalate [comma] htokens
  rw [intercalate_tokens] at hline
  refine ⟨?_, hb⟩
  rw [encode, Text.bytes_intercalate, Text.bytes_comma]
  exact hline

end Line

namespace Mappings

open Text (bytes semicolon dropEndWhile)

/-- The texts of the values of a complete text. -/
def valueTexts (text : String) : List (List UInt8) :=
  ((bytes text).splitOn semicolon).flatMap Line.valueTexts

theorem canonizes_encodeLines {l : Limits} {ts : List (List UInt8)} {offset : Nat}
    {b b' : Baseline} {lines : List Line} (h : decodeLines l ts offset b = (.ok lines, b')) :
    List.Forall₂ (fun old new => Canonizes (Line.valueTexts old) old new) ts
        ((encodeLines lines b).1.map bytes) ∧
      (encodeLines lines b).2 = b' := by
  induction ts generalizing offset b lines with
  | nil =>
    cases h
    exact ⟨.nil, rfl⟩
  | cons t ts ih =>
    obtain ⟨line, c, rest, rfl, hline, hr⟩ := decodeLines_cons_eq_ok_iff.1 h
    obtain ⟨hfirst, rfl⟩ := Line.canonizes_encode hline
    obtain ⟨hrest, rfl⟩ := ih hr
    exact ⟨.cons hfirst hrest, rfl⟩

/-- The semicolons at the end stand behind no value. -/
theorem flatMap_lineTexts_ofText (text : String) :
    (ofText text).lineTexts.flatMap Line.valueTexts = valueTexts text := by
  rw [lineTexts_ofText, valueTexts]
  induction (bytes text).splitOn semicolon using List.reverseRecOn with
  | nil => rfl
  | append_singleton ts t ih =>
    rw [Text.dropEndWhile_append_singleton]
    split
    · rename_i ht
      obtain rfl := List.isEmpty_iff.1 ht
      rw [ih, List.flatMap_append, List.flatMap_singleton]
      exact (List.append_nil _).symm
    · rfl

theorem intercalate_lineTexts_ofText (text : String) :
    [semicolon].intercalate (ofText text).lineTexts = bytes (trimEnd text) := by
  rw [lineTexts_ofText, ← Text.splitOn_dropEndWhile, ← bytes_trimEnd]
  split
  · simp_all
  · exact List.intercalate_splitOn semicolon

/-- The last line that is read is not empty. -/
theorem dropEndWhile_of_linesOf {text : String} {l : Limits} {lines : List Line}
    (h : linesOf text l = .ok lines) : dropEndWhile List.isEmpty lines = lines := by
  obtain ⟨b, hlines⟩ := exists_decodeLines_of_decode h
  obtain ⟨c, hc⟩ := decodeLines_dropEndWhile hlines
  rw [lineTexts_ofText, Text.dropEndWhile_dropEndWhile, ← lineTexts_ofText, hlines] at hc
  simpa using (congrArg Prod.fst hc).symm

/-- Text that is read can be written again, and what is written is read as the same lines. It is
not longer, and the same if and only if the values are written canonically. -/
theorem textOf_linesOf {text : String} {limits : Limits} {lines : List Line}
    (h : linesOf text limits = .ok lines) :
    ∃ canon, textOf lines = .ok canon ∧ linesOf canon limits = .ok lines ∧
      canon.utf8ByteSize ≤ (trimEnd text).utf8ByteSize ∧
      (canon = trimEnd text ↔ ∀ w ∈ valueTexts text, Vlq.IsCanonical w) := by
  obtain ⟨b, hlines⟩ := exists_decodeLines_of_decode h
  have hwithin := (decode_eq_ok_iff.1 h).2
  have hcanon := Canonizes.intercalate [semicolon] (canonizes_encodeLines hlines).1
  rw [flatMap_lineTexts_ofText, intercalate_lineTexts_ofText, ← Text.bytes_semicolon,
    ← Text.bytes_intercalate] at hcanon
  refine ⟨_, textOf_eq lines, ?_, ?_, ?_⟩
  · rw [linesOf_intercalate hwithin, dropEndWhile_of_linesOf h]
  · simpa using hcanon.length_le
  · rw [← Text.bytes_inj, hcanon.eq_iff]

def Sample.redundant : List Line :=
  [[⟨0, none⟩, ⟨0, some ⟨0, 0, 1, none⟩⟩], [], [⟨32, some ⟨0, 0, 1889, none⟩⟩]]

open Sample

/-- A group that adds nothing and a negative zero are lost, and then there is nothing to lose. -/
theorem textOf_linesOf_redundant :
    linesOf "gA,BAAC;;gCAAg2D;" ⟨1, 0⟩ = .ok redundant ∧
      linesOf "A,AAAC;;gCAAg2D;" ⟨1, 0⟩ = .ok redundant ∧
      textOf redundant ≠ .ok "gA,BAAC;;gCAAg2D" ∧ textOf redundant = .ok "A,AAAC;;gCAAg2D" := by
  have hlong : linesOf "gA,BAAC;;gCAAg2D;" ⟨1, 0⟩ = .ok redundant := by decide +kernel
  have hshort : linesOf "A,AAAC;;gCAAg2D;" ⟨1, 0⟩ = .ok redundant := by decide +kernel
  obtain ⟨canon, hcanon, -, -, hlongIff⟩ := textOf_linesOf hlong
  obtain ⟨canon', hcanon', -, -, hshortIff⟩ := textOf_linesOf hshort
  obtain rfl : canon = canon' := by simpa [hcanon] using hcanon'
  have hne : canon ≠ "gA,BAAC;;gCAAg2D" := fun h =>
    absurd (hlongIff.1 (h.trans (by decide +kernel))) (by decide +kernel)
  have heq : canon = "A,AAAC;;gCAAg2D" :=
    (hshortIff.2 (by decide +kernel)).trans (by decide +kernel)
  refine ⟨hlong, hshort, ?_, ?_⟩
  · simpa [hcanon] using hne
  · rw [hcanon, heq]

end Mappings

end SourceMap
