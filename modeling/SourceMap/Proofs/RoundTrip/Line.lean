import SourceMap.Mappings.Line
import SourceMap.Proofs.RoundTrip.Segment

/-!
# Lines read as they were written

## Main definitions

* `Line.Within` : all indices of a line are within limits.

## Main statements

* `decode_encode` : a line is read back from its text, whatever the generated column was before.
* `decode_eq_ok_iff_unbounded` : limits only refuse lines.
-/

namespace SourceMap.Line

open Text (bytes comma semicolon)

def Within (line : Line) (l : Limits) : Prop := ∀ s ∈ line, s.Within l

instance (line : Line) (l : Limits) : Decidable (line.Within l) :=
  inferInstanceAs (Decidable (∀ s ∈ line, s.Within l))

/-! ## Tokens -/

theorem mem_encodeTokens {line : Line} {b : Baseline} {token : String}
    (h : token ∈ (encodeTokens line b).1) : ∃ s c, token = (Segment.encode s c).1 := by
  induction line generalizing b with
  | nil => simp [encodeTokens] at h
  | cons s line ih =>
    rcases List.mem_cons.1 h with rfl | h
    · exact ⟨s, b, rfl⟩
    · exact ih h

/-- No token holds a comma, so the commas of a line tell its tokens apart. -/
theorem tokens_bytes_encode (line : Line) (b : Baseline) :
    tokens (bytes (encode line b).1) = (encodeTokens line b.newLine).1.map bytes := by
  cases line with
  | nil => rfl
  | cons s line =>
    have hsep : ∀ t ∈ (encodeTokens (s :: line) b.newLine).1.map bytes, comma ∉ t := by
      intro t ht
      obtain ⟨token, htoken, rfl⟩ := List.mem_map.1 ht
      obtain ⟨s, c, rfl⟩ := mem_encodeTokens htoken
      exact Segment.comma_notMem_bytes_encode s c
    have hne : bytes (encode (s :: line) b).1 ≠ [] := by
      have hs := Segment.bytes_encode_ne_nil s b.newLine
      simp only [encode, encodeTokens, Text.bytes_intercalate, List.map_cons]
      cases (encodeTokens line (s.encode b.newLine).2).1 <;> simp [hs]
    rw [tokens, if_neg (by simpa using hne)]
    simp only [encode, Text.bytes_intercalate, Text.bytes_comma]
    exact List.splitOn_intercalate comma hsep (by simp [encodeTokens])

theorem semicolon_notMem_bytes_encode (line : Line) (b : Baseline) :
    semicolon ∉ bytes (encode line b).1 := by
  intro h
  rw [encode, Text.bytes_intercalate] at h
  rcases Text.mem_intercalate h with h | ⟨_, ht, h⟩
  · exact absurd h (by decide)
  · obtain ⟨token, htoken, rfl⟩ := List.mem_map.1 ht
    obtain ⟨s, c, rfl⟩ := mem_encodeTokens htoken
    exact Segment.semicolon_notMem_bytes_encode s c h

/-! ## Reading -/

theorem decodeTokens_encodeTokens {line : Line} {l : Limits} (h : line.Within l) (offset : Nat)
    (b : Baseline) :
    decodeTokens l ((encodeTokens line b).1.map bytes) offset b =
      (.ok line, (encodeTokens line b).2) := by
  induction line generalizing offset b with
  | nil => rfl
  | cons s line ih =>
    have hs : s.Within l := h s List.mem_cons_self
    have hline : Within line l := fun t ht => h t (List.mem_cons_of_mem _ ht)
    simp only [encodeTokens, List.map_cons, decodeTokens, Segment.decode_encode hs, ih hline]
    rfl

theorem decode_encode {line : Line} {l : Limits} (h : line.Within l) (offset : Nat)
    (b : Baseline) :
    decode l (bytes (encode line b).1) offset b = (.ok line, (encode line b).2) := by
  rw [decode, tokens_bytes_encode]
  exact decodeTokens_encodeTokens h offset b.newLine

theorem decodeTokens_cons_eq_ok_iff {l : Limits} {t : List UInt8} {ts : List (List UInt8)}
    {offset : Nat} {b b' : Baseline} {line : Line} :
    decodeTokens l (t :: ts) offset b = (.ok line, b') ↔
      ∃ s c rest, line = s :: rest ∧ Segment.decode l offset t b = (.ok s, c) ∧
        decodeTokens l ts (offset + t.length + 1) c = (.ok rest, b') := by
  constructor
  · intro h
    rw [decodeTokens] at h
    split at h
    · cases h
    · rename_i s c hs
      rcases hr : decodeTokens l ts (offset + t.length + 1) c with ⟨_ | rest, d⟩ <;>
        rw [hr] at h <;> cases h
      exact ⟨s, c, rest, rfl, hs, hr⟩
  · rintro ⟨s, c, rest, rfl, hs, hr⟩
    rw [decodeTokens, hs]
    simp only [hr, Except.map]

theorem decodeTokens_eq_ok_iff_unbounded {l : Limits} {ts : List (List UInt8)} {offset : Nat}
    {b b' : Baseline} {line : Line} :
    decodeTokens l ts offset b = (.ok line, b') ↔
      decodeTokens .unbounded ts offset b = (.ok line, b') ∧ line.Within l := by
  induction ts generalizing offset b line with
  | nil =>
    constructor
    · rintro ⟨⟩
      exact ⟨rfl, by simp [Within]⟩
    · exact And.left
  | cons t ts ih =>
    simp only [decodeTokens_cons_eq_ok_iff]
    constructor
    · rintro ⟨s, c, rest, rfl, hs, hr⟩
      obtain ⟨hs, hsl⟩ := Segment.decode_eq_ok_iff_unbounded.1 hs
      obtain ⟨hr, hrl⟩ := ih.1 hr
      exact ⟨⟨s, c, rest, rfl, hs, hr⟩, List.forall_mem_cons.2 ⟨hsl, hrl⟩⟩
    · rintro ⟨⟨s, c, rest, rfl, hs, hr⟩, hl⟩
      obtain ⟨hsl, hrl⟩ := List.forall_mem_cons.1 hl
      exact ⟨s, c, rest, rfl, Segment.decode_eq_ok_iff_unbounded.2 ⟨hs, hsl⟩, ih.2 ⟨hr, hrl⟩⟩

theorem decode_eq_ok_iff_unbounded {l : Limits} {text : List UInt8} {offset : Nat}
    {b b' : Baseline} {line : Line} :
    decode l text offset b = (.ok line, b') ↔
      decode .unbounded text offset b = (.ok line, b') ∧ line.Within l :=
  decodeTokens_eq_ok_iff_unbounded

end SourceMap.Line
