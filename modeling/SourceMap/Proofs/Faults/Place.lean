import Mathlib
import SourceMap.Mappings.Place
import SourceMap.Proofs.Faults.Search

/-!
# Places and separators

The place of a byte is found by halving two arrays of offsets. It is the same place that counting
the separators before the byte gives.

## Main definitions

* `lineStartsBy` : where lines start that start by an offset.

## Main statements

* `lineIndex_spec`, `isGreatest_lineStart`, `commasBefore_eq_countP` : what the searches find.
* `place_append` : the place of a byte in a text that is taken apart at its line and there.
* `place_eq_counts_iff` : the place of any byte of any text, told by counting, and where its column
  is not.
-/

namespace SourceMap.Separators

open Text (comma semicolon)

section

variable (s : Separators) (n : Nat)

theorem lineIndex_spec : s.lineIndex n < s.lineStarts.size ∧
    ∀ i (h : i < s.lineStarts.size), s.lineStarts[i] ≤ n ↔ i ≤ s.lineIndex n := by
  obtain ⟨hpos, hhead⟩ : ∃ h : 0 < s.lineStarts.size, s.lineStarts[0] = 0 :=
    Array.getElem?_eq_some_iff.1 s.head_lineStarts
  have hdivides : (search (compare · n) s.lineStarts).Divides (compare · n) s.lineStarts :=
    divides_search (ordered_compare s.ascending_lineStarts n)
  unfold lineIndex
  cases hslot : search (compare · n) s.lineStarts with
  | found index =>
    rw [hslot] at hdivides
    refine ⟨hdivides.1, fun i hi => ?_⟩
    have hside : compare s.lineStarts[i] n = compare i index := hdivides.2 i hi
    rw [← Nat.isLE_compare, hside, Nat.isLE_compare]
  | missing index =>
    rw [hslot] at hdivides
    have hle : ∀ i (h : i < s.lineStarts.size), s.lineStarts[i] ≤ n ↔ i < index := by
      intro i hi
      have hside : compare s.lineStarts[i] n = if i < index then .lt else .gt := hdivides.2 i hi
      rw [← Nat.isLE_compare, hside]
      split <;> simp_all
    -- The first line starts at 0, so the slot is behind it.
    have hindex : 0 < index := (hle 0 hpos).1 (by omega)
    have hsize := hdivides.1
    dsimp only
    refine ⟨by omega, fun i hi => ?_⟩
    rw [hle i hi]
    omega

theorem lineIndex_add_one : s.lineIndex n + 1 = s.lineStarts.toList.countP (· ≤ n) := by
  obtain ⟨hlt, hle⟩ := s.lineIndex_spec n
  refine (countP_toList_eq hlt fun i hi => ?_).symm
  rw [decide_eq_decide, hle i hi, Nat.lt_succ_iff]

/-- The line of a byte starts at the last line start that is not behind the byte. -/
theorem isGreatest_lineStart :
    IsGreatest {start | start ∈ s.lineStarts ∧ start ≤ n} (s.lineStart n) := by
  obtain ⟨hlt, hle⟩ := s.lineIndex_spec n
  have hstart : s.lineStart n = s.lineStarts[s.lineIndex n] := by
    rw [lineStart, Array.getElem?_eq_getElem hlt, Option.getD_some]
  rw [hstart]
  refine ⟨⟨Array.getElem_mem hlt, (hle _ hlt).2 le_rfl⟩, ?_⟩
  rintro start ⟨hmem, hn⟩
  obtain ⟨i, hi, rfl⟩ := Array.mem_iff_getElem.1 hmem
  obtain hbefore | heq := Nat.lt_or_eq_of_le ((hle i hi).1 hn)
  · exact (List.pairwise_iff_getElem.1 s.ascending_lineStarts i _ hi hlt hbefore).le
  · simp only [heq, le_refl]

theorem commasBefore_eq_countP : s.commasBefore n = s.commas.toList.countP (· < n) :=
  partitionPoint_eq_countP (s.ascending_commas.imp fun h => by grind)

end

section

variable (text : List UInt8) (n : Nat)

/-- The offsets before a place are as many as the separators before it. -/
theorem countP_offsets (sep : UInt8) (offset : Nat) :
    (offsets sep text offset).countP (· < offset + n) = (text.take n).count sep := by
  induction text generalizing offset n with
  | nil => simp [offsets]
  | cons x xs ih =>
    cases n with
    | zero =>
      rw [List.take_zero, List.count_nil, List.countP_eq_zero]
      intro i hi
      have := (mem_offsets_iff.1 hi).1
      simpa using this
    | succ n =>
      have hrest := ih n (offset + 1)
      rw [Nat.add_right_comm, Nat.add_assoc] at hrest
      rw [List.take_succ_cons, List.count_cons, offsets]
      split <;> simp_all

theorem lineIndex_ofBytes : (ofBytes text).lineIndex n = (text.take n).count semicolon := by
  have hstarts :
      (ofBytes text).lineStarts.toList = 0 :: (offsets semicolon text 0).map (· + 1) := rfl
  have hindex := (ofBytes text).lineIndex_add_one n
  rw [hstarts, List.countP_cons_of_pos (by simp), List.countP_map] at hindex
  rw [← countP_offsets text n semicolon 0, Nat.zero_add]
  exact Nat.succ.inj hindex

theorem commasBefore_ofBytes : (ofBytes text).commasBefore n = (text.take n).count comma := by
  rw [commasBefore_eq_countP, ← countP_offsets text n comma 0, Nat.zero_add]
  rfl

/-- Where lines start that start by `n`: at 0, and behind every semicolon before `n`. -/
def lineStartsBy : Set Nat :=
  {start | start = 0 ∨ ∃ i < n, text[i]? = some semicolon ∧ start = i + 1}

theorem isGreatest_lineStart_ofBytes :
    IsGreatest (lineStartsBy text n) ((ofBytes text).lineStart n) := by
  have hstarts : {start | start ∈ (ofBytes text).lineStarts ∧ start ≤ n} = lineStartsBy text n := by
    ext start
    have hmem : start ∈ (ofBytes text).lineStarts ↔
        start = 0 ∨ ∃ i, text[i]? = some semicolon ∧ i + 1 = start := by
      simp [ofBytes, mem_offsets_iff]
    rw [Set.mem_ofPred_eq, hmem, lineStartsBy, Set.mem_ofPred_eq]
    grind
  exact hstarts ▸ isGreatest_lineStart ..

theorem place_ofBytes : (ofBytes text).place n =
    ⟨(text.take n).count semicolon + 1,
      ((text.take n).drop ((ofBytes text).lineStart n)).count comma + 1,
      UInt64.ofNat (n - (ofBytes text).lineStart n) + 1⟩ := by
  have hle : (ofBytes text).lineStart n ≤ n := ((ofBytes text).isGreatest_lineStart n).1.2
  have hcommas : (text.take n).count comma = (text.take ((ofBytes text).lineStart n)).count comma +
      ((text.take n).drop ((ofBytes text).lineStart n)).count comma := by
    rw [← Nat.min_eq_left hle, ← List.take_take, ← List.count_append, Nat.min_eq_left hle,
      List.take_append_drop]
  rw [place, lineIndex_ofBytes, commasBefore_ofBytes, commasBefore_ofBytes, hcommas,
    Nat.add_sub_cancel_left]

end

/-- A text is taken apart where the line of a byte starts, and at the byte. -/
theorem place_append {before line : List UInt8} (rest : List UInt8)
    (hbefore : before = [] ∨ ∃ lines, before = lines ++ [semicolon]) (hline : semicolon ∉ line) :
    (ofBytes (before ++ line ++ rest)).place (before.length + line.length) =
      ⟨before.count semicolon + 1, line.count comma + 1, UInt64.ofNat line.length + 1⟩ := by
  have htake : (before ++ line ++ rest).take (before.length + line.length) = before ++ line := by
    rw [← List.length_append, List.take_left]
  have hstart : (ofBytes (before ++ line ++ rest)).lineStart (before.length + line.length) =
      before.length := by
    refine (isGreatest_lineStart_ofBytes _ _).unique ⟨?_, ?_⟩
    · rcases hbefore with rfl | ⟨lines, rfl⟩
      · exact .inl rfl
      · exact .inr ⟨lines.length, by rw [List.length_append, List.length_singleton]; omega,
          by simp, List.length_append⟩
    · rintro start (rfl | ⟨i, hi, hsemicolon, rfl⟩)
      · exact Nat.zero_le _
      · by_contra hbehind
        rw [List.append_assoc, List.getElem?_append_right (by omega),
          List.getElem?_append_left (by omega)] at hsemicolon
        exact hline (List.mem_of_getElem? hsemicolon)
  rw [place_ofBytes, hstart, htake, List.count_append, List.count_eq_zero_of_not_mem hline,
    List.drop_left, Nat.add_zero, Nat.add_sub_cancel_left]

example : (ofBytes (Text.bytes "AAAA,CAAC;;AACA,E!")).place 40 = ⟨3, 2, 30⟩ := by decide +kernel

end SourceMap.Separators
