import SourceMap.Proofs.Faults.Field
import SourceMap.Proofs.Growth.Mappings

/-!
# Where reading stops

Every error of reading points into the token that could not be read. What comes before that token
was read: the lines before its line, and the segments before it in its line.

## Main definitions

* `Text.Span.Inside` : a span lies in a range of bytes.

## Main statements

* `Vlq.decodeList_eq_error`, `Segment.decode_eq_error` : errors point into their token.
* `Line.decodeTokens_eq_error` : the segments that are read before an error.
* `Mappings.decodeLines_eq_error` : the lines that are read before an error.
-/

namespace SourceMap

open Text (Span Reader)

/-- The span lies in the `length` bytes from `offset` on. -/
def Text.Span.Inside (s : Span) (offset length : Nat) : Prop :=
  offset ≤ s.offset ∧ s.offset + s.length ≤ offset + length

/-- A token is taken apart around a span inside it. -/
theorem Text.Span.Inside.exists_eq {s : Span} {offset : Nat} {token : List UInt8}
    (h : s.Inside offset token.length) :
    ∃ xs fault ys, token = xs ++ fault ++ ys ∧ s = ⟨offset + xs.length, fault.length⟩ := by
  obtain ⟨hlo, hhi⟩ := h
  obtain ⟨k, hk⟩ := Nat.exists_eq_add_of_le hlo
  have hxs : (token.take k).length = k := List.length_take_of_le (by omega)
  have hfault : ((token.drop k).take s.length).length = s.length :=
    List.length_take_of_le (by rw [List.length_drop]; omega)
  refine ⟨token.take k, (token.drop k).take s.length, (token.drop k).drop s.length, ?_, ?_⟩
  · rw [List.append_assoc, List.take_append_drop, List.take_append_drop]
  · rw [hxs, hfault, ← hk]

/-! ## Values -/

namespace Vlq

theorem takeDigits_snd_le (room : Nat) (bs : List UInt8) : (takeDigits room bs).2 ≤ bs.length := by
  fun_induction takeDigits room bs with
  | case1 => exact Nat.le_refl _
  | case2 => simp
  | case3 => simp
  | case4 b bs d room hd hc ds taken hds ih =>
    rw [hds] at ih
    simpa using ih
  | case5 => simp

theorem read_snd (r : Reader) : (read r).2 = r.skip (takeDigits maxDigits r.rest).2 := rfl

/-- A byte that is no digit is at fault alone, else the value is. -/
theorem read_eq_error {r : Reader} {e : MappingError} (hr : r.rest ≠ [])
    (h : (read r).1 = .error e) :
    ∃ span, e.span? = some span ∧ span.Inside r.offset r.rest.length ∧ 0 < span.length := by
  obtain ⟨b, bs, hb⟩ := List.exists_cons_of_ne_nil hr
  have hpos : 0 < (takeDigits maxDigits r.rest).2 := hb ▸ takeDigits_snd_pos maxDigits b bs
  have hle := takeDigits_snd_le maxDigits r.rest
  unfold read at h
  dsimp only at h
  split at h
  · cases h
    exact ⟨_, rfl, ⟨by simp, by dsimp only; omega⟩, Nat.one_pos⟩
  · cases h
    exact ⟨_, rfl, ⟨Nat.le_refl _, Nat.add_le_add_left hle _⟩, hpos⟩
  · split at h
    · cases h
    · cases h
      exact ⟨_, rfl, ⟨Nat.le_refl _, Nat.add_le_add_left hle _⟩, hpos⟩

theorem readList_eq_error {r : Reader} {e : MappingError} (h : readList r = .error e) :
    ∃ span, e.span? = some span ∧ span.Inside r.offset r.rest.length ∧ 0 < span.length := by
  fun_induction readList r with
  | case1 => cases h
  | case2 r hr e' r' hread =>
    cases h
    exact read_eq_error hr (congrArg Prod.fst hread)
  | case3 r hr v r' hread hlt ih =>
    rcases hvs : readList r' with e' | vs
    · rw [hvs] at h
      cases h
      obtain ⟨span, hspan, ⟨hlo, hhi⟩, hpos⟩ := ih hvs
      have hr' : r' = r.skip (takeDigits maxDigits r.rest).2 := by rw [← read_snd, hread]
      have hle := takeDigits_snd_le maxDigits r.rest
      rw [hr', Reader.offset_skip] at hlo hhi
      simp only [Reader.skip, List.length_drop] at hhi
      exact ⟨span, hspan, ⟨by omega, by omega⟩, hpos⟩
    · rw [hvs] at h
      cases h

theorem decodeList_eq_error {base : Nat} {token : List UInt8} {e : MappingError}
    (h : decodeList base token = .error e) :
    ∃ span, e.span? = some span ∧ span.Inside base token.length ∧ 0 < span.length :=
  readList_eq_error h

end Vlq

/-! ## Segments -/

theorem Field.decode_eq_error {f : Field} {l : Limits} {span : Span} {previous : UInt32}
    {delta : Int} {e : MappingError} (h : f.decode l span previous delta = .error e) :
    e.span? = some span := by
  unfold decode at h
  dsimp only at h
  split at h
  · rename_i e' hf
    cases h
    cases f <;> simp only [fault?] at hf <;> split at hf <;> cases hf <;> rfl
  · split at h <;> cases h
    rfl

theorem Baseline.advance_eq_error {l : Limits} {span : Span} {fds : List (Field × Int)}
    {b b' : Baseline} {e : MappingError} (h : Baseline.advance l span fds b = (.error e, b')) :
    e.span? = some span := by
  obtain ⟨_, _, _, _, -, -, hf⟩ := advance_eq_error_iff.1 h
  exact Field.decode_eq_error hf

theorem Segment.decode_eq_error {l : Limits} {offset : Nat} {token : List UInt8} {b b' : Baseline}
    {e : MappingError} (h : decode l offset token b = (.error e, b')) :
    ∃ span, e.span? = some span ∧ span.Inside offset token.length := by
  have htoken : (⟨offset, token.length⟩ : Span).Inside offset token.length :=
    ⟨Nat.le_refl _, Nat.le_refl _⟩
  unfold decode at h
  split at h
  · rename_i hds
    cases h
    obtain ⟨span, hspan, hin, -⟩ := Vlq.decodeList_eq_error hds
    exact ⟨span, hspan, hin⟩
  · dsimp only at h
    split at h
    · split at h
      · rename_i hadvance
        cases h
        exact ⟨_, Baseline.advance_eq_error hadvance, htoken⟩
      · cases h
    · cases h
      exact ⟨_, rfl, htoken⟩

/-! ## Lines -/

/-- An error of a line is that of one token, and the tokens before it were read. -/
theorem Line.decodeTokens_eq_error {l : Limits} {ts : List (List UInt8)} {offset : Nat}
    {b b' : Baseline} {e : MappingError} (h : decodeTokens l ts offset b = (.error e, b')) :
    ∃ tokens token rest start c, ts = tokens ++ token :: rest ∧
      decodeTokens l tokens offset b = (.ok start, c) ∧
      Segment.decode l (offset + (tokens.map (·.length + 1)).sum) token c = (.error e, b') := by
  induction ts generalizing offset b with
  | nil => cases h
  | cons t ts ih =>
    rw [decodeTokens] at h
    split at h
    · rename_i hs
      cases h
      exact ⟨[], t, ts, [], b, rfl, rfl, hs⟩
    · rename_i s c hs
      rcases hr : decodeTokens l ts (offset + t.length + 1) c with ⟨_ | line, d⟩ <;>
        rw [hr] at h <;> cases h
      obtain ⟨tokens, token, rest, start, d, rfl, hstart, htoken⟩ := ih hr
      refine ⟨t :: tokens, token, rest, s :: start, d, rfl,
        decodeTokens_cons_eq_ok_iff.2 ⟨s, c, start, rfl, hs, hstart⟩, ?_⟩
      rw [List.map_cons, List.sum_cons, ← htoken]
      congr 1
      omega

/-- An error of a text is that of one line, and the lines before it were read. -/
theorem Mappings.decodeLines_eq_error {l : Limits} {ts : List (List UInt8)} {offset : Nat}
    {b b' : Baseline} {e : MappingError} (h : decodeLines l ts offset b = (.error e, b')) :
    ∃ before text after lines c, ts = before ++ text :: after ∧
      decodeLines l before offset b = (.ok lines, c) ∧
      Line.decode l text (offset + (before.map (·.length + 1)).sum) c = (.error e, b') := by
  induction ts generalizing offset b with
  | nil => cases h
  | cons t ts ih =>
    rw [decodeLines] at h
    split at h
    · rename_i hline
      cases h
      exact ⟨[], t, ts, [], b, rfl, rfl, hline⟩
    · rename_i line c hline
      rcases hr : decodeLines l ts (offset + t.length + 1) c with ⟨_ | rest, d⟩ <;>
        rw [hr] at h <;> cases h
      obtain ⟨before, text, after, lines, d, rfl, hlines, htext⟩ := ih hr
      refine ⟨t :: before, text, after, line :: lines, d, rfl,
        decodeLines_cons_eq_ok_iff.2 ⟨line, c, lines, rfl, hline, hlines⟩, ?_⟩
      rw [List.map_cons, List.sum_cons, ← htext]
      congr 1
      omega

end SourceMap
