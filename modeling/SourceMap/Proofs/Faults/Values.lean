import SourceMap.Proofs.Faults.Span

/-!
# Values behind values

A value is read without a look at what follows it, and its errors are told by its place in the
whole text. So a text that goes on behind values that can be read is read as if it stood alone at
its place.

## Main statements

* `Vlq.readList_congr` : only the place in the whole text and what is left to read count.
* `Vlq.readList_append` : values that can be read come before those of the text behind them.
* `Vlq.decodeList_append` : the same for texts, and where their errors lie.
-/

namespace SourceMap.Vlq

open Text (Reader bytes)

theorem readList_of_read_eq_error {r : Reader} {e : MappingError} (hr : r.rest ≠ [])
    (h : (read r).1 = .error e) : readList r = .error e := by
  rw [readList, dif_neg hr]
  split
  · rename_i hread
    rw [hread] at h
    cases h
    rfl
  · rename_i hread
    rw [hread] at h
    cases h

theorem readList_of_read_eq_ok {r r' : Reader} {v : Int} (h : read r = (.ok v, r')) :
    readList r = (readList r').map (v :: ·) := by
  have hr : r.rest ≠ [] := by
    intro hr
    simp [read, hr, takeDigits] at h
  rw [readList, dif_neg hr]
  split
  · rename_i hread
    rw [hread] at h
    cases h
  · rename_i hread
    rw [hread] at h
    cases h
    rfl

/-- Only the place in the whole text and what is left to read count. -/
theorem readList_congr {r s : Reader} (hoffset : r.offset = s.offset) (hrest : r.rest = s.rest) :
    readList r = readList s := by
  have hread {r s : Reader} (ho : r.offset = s.offset) (hr : r.rest = s.rest) :
      (read r).1 = (read s).1 := by
    simp only [read, ho, hr]
  fun_induction readList r generalizing s with
  | case1 r hr => rw [readList, dif_pos (hrest ▸ hr)]
  | case2 r hr e r' hfirst =>
    rw [readList_of_read_eq_error (hrest ▸ hr)]
    rw [← hread hoffset hrest, hfirst]
  | case3 r hr v r' hfirst hlt ih =>
    have hr' : r' = r.skip (takeDigits maxDigits r.rest).2 := by rw [← read_snd, hfirst]
    have hs : read s = (.ok v, s.skip (takeDigits maxDigits r.rest).2) :=
      Prod.ext (by rw [← hread hoffset hrest, hfirst]) (by rw [read_snd, hrest])
    rw [readList_of_read_eq_ok hs, ih (s := s.skip (takeDigits maxDigits r.rest).2)]
    · rw [hr', Reader.offset_skip, Reader.offset_skip, hoffset]
    · rw [hr', Reader.skip, Reader.skip, hrest]

/-- Where `s` reads what `r` reads and then what `t` reads, at the place of `t`, the values of `r`
come first and `t` decides about the rest. -/
theorem readList_append {r s t : Reader} {vs : List Int} (h : readList r = .ok vs)
    (hrest : s.rest = r.rest ++ t.rest) (hoffset : t.offset = s.offset + r.rest.length) :
    readList s = (readList t).map (vs ++ ·) := by
  induction vs generalizing r s with
  | nil =>
    rcases readList_eq_ok_iff.1 h with ⟨hr, -⟩ | ⟨v, r', ws, -, -, heq⟩
    · rw [hr] at hrest hoffset
      rw [readList_congr hoffset.symm hrest]
      cases readList t <;> rfl
    · cases heq
  | cons v vs ih =>
    rcases readList_eq_ok_iff.1 h with ⟨-, hnil⟩ | ⟨w, r', ws, hread, hws, heq⟩
    · cases hnil
    · cases heq
      obtain ⟨ds, hword, hroom, hstart, hv, hfits, rfl⟩ := read_eq_ok_iff.1 hread
      -- `s` starts with the same word, and goes on where that word ends
      have hs : read s = (.ok v, s.skip ds.length) :=
        read_eq_ok_iff.2 ⟨ds, hword, hroom, hrest ▸ hstart.trans (List.prefix_append ..), hv, hfits,
          rfl⟩
      have hlength : ds.length ≤ r.rest.length := by simpa using hstart.length_le
      have hrest' : (s.skip ds.length).rest = (r.skip ds.length).rest ++ t.rest := by
        rw [Reader.skip, hrest, List.drop_append_of_le_length hlength, Reader.skip]
      have hoffset' : t.offset = (s.skip ds.length).offset + (r.skip ds.length).rest.length := by
        rw [hoffset, Reader.offset_skip, Reader.skip, List.length_drop]
        omega
      rw [readList_of_read_eq_ok hs, ih hws hrest' hoffset']
      cases readList t <;> rfl

/-- What stands behind values that can be read is read as if it stood alone at its place, with the
same values and with the same errors. An error names a span in the text that is not empty. -/
theorem decodeList_append (base : Nat) (token : List UInt8) :
    (∀ vs, decodeList 0 token = .ok vs → ∀ more,
        decodeList base (token ++ more) =
          (decodeList (base + token.length) more).map (vs ++ ·)) ∧
      ∀ e, decodeList base token = .error e →
        ∃ span, e.span? = some span ∧ span.Inside base token.length ∧ 0 < span.length :=
  ⟨fun _ h _ => readList_append h rfl rfl, fun _ => decodeList_eq_error⟩

/-- The byte that is no digit is found at its place in the whole text. -/
theorem decodeList_append_notADigit :
    decodeList 0 (bytes "gBD") = .ok [16, -1] ∧
      decodeList 8 (bytes "C!") = .error (.malformed .notADigit ⟨9, 1⟩) ∧
      decodeList 5 (bytes "gBD" ++ bytes "C!") = .error (.malformed .notADigit ⟨9, 1⟩) ∧
      decodeList 5 (bytes "gBD" ++ bytes "C") = .ok [16, -1, 1] ∧
      (⟨9, 1⟩ : Text.Span).Inside 8 2 := by
  have hstart : decodeList 0 (bytes "gBD") = .ok [16, -1] := by decide +kernel
  have hfault : decodeList 8 (bytes "C!") = .error (.malformed .notADigit ⟨9, 1⟩) := by
    decide +kernel
  have hvalue : decodeList 8 (bytes "C") = .ok [1] := by decide +kernel
  have happend := (decodeList_append 5 (bytes "gBD")).1 _ hstart
  obtain ⟨span, hspan, hin, -⟩ := (decodeList_append 8 (bytes "C!")).2 _ hfault
  cases hspan
  refine ⟨hstart, hfault, ?_, ?_, hin⟩
  · rw [happend]
    exact congrArg _ hfault
  · rw [happend]
    exact congrArg _ hvalue

end SourceMap.Vlq
