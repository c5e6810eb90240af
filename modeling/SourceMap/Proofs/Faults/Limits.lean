import SourceMap.Proofs.Faults.Pieces

/-!
# Limits only refuse

Reading with limits goes through the same baselines as reading without. So a text that is read
within some limits is read within larger ones, and one that is not stops at the first segment with
an index behind its table.

## Main definitions

* `Segment.Breaks` : the error at a segment with an index that is not within limits.
* `Line.Breaks`, `Mappings.Breaks` : the error at the first such segment.

## Main statements

* `Segment.breaks_of_decode`, `Line.breaks_of_decodeTokens`, `Mappings.breaks_of_decodeLines` : what
  is read within some limits stops at the first index that breaks others.
* `Mappings.decode_narrowed` : reading one text within two limits.
-/

namespace SourceMap

open Text (Span bytes comma)

/-! ## Segments -/

/-- The error at a segment with an index that is not within limits. Its source is looked at before
its name. -/
inductive Segment.Breaks (l : Limits) (span : Span) : Segment → MappingError → Prop
  | source {column o} : l.sources ≤ o.source.toNat →
      Breaks l span ⟨column, some o⟩ (.sourceOutOfRange o.source.toNat l.sources span)
  | name {column o name} : o.source.toNat < l.sources → o.name = some name →
      l.names ≤ name.toNat →
      Breaks l span ⟨column, some o⟩ (.nameOutOfRange name.toNat l.names span)

/-- The error at the first segment of a line that breaks the limits. It points at the token that the
segment is read from. -/
def Line.Breaks (l : Limits) (tokens : List (Nat × List UInt8)) (line : Line) (e : MappingError) :
    Prop :=
  ∃ (start : Line) (s : Segment) (rest : Line) (token : Nat × List UInt8),
    line = start ++ s :: rest ∧ start.Within l ∧ tokens[start.length]? = some token ∧
      s.Breaks l ⟨token.1, token.2.length⟩ e

/-- The error at the first segment of a text that breaks the limits. -/
def Mappings.Breaks (l : Limits) (texts : List (Nat × List UInt8)) (lines : List Line)
    (e : MappingError) : Prop :=
  ∃ before line after text, lines = before ++ line :: after ∧
    (∀ line ∈ before, Line.Within line l) ∧ texts[before.length]? = some text ∧
      line.Breaks l (Text.pieces comma text.1 text.2) e

/-- The one difference that leads to `v` is refused just as `v` is. -/
theorem Field.decode_sub (f : Field) (l : Limits) (span : Span) (previous v : UInt32) :
    f.decode l span previous (v.toNat - previous.toNat) =
      match f.fault? l span v.toNat with
      | some e => .error e
      | none => .ok v := by
  have hv := v.toNat_lt
  have hadvance : advance previous (v.toNat - previous.toNat) = v.toNat := advance_eq_iff.2 rfl
  unfold decode
  simp only [hadvance]
  cases f.fault? l span v.toNat with
  | some e => rfl
  | none =>
    dsimp only
    rw [if_pos (by omega), Int.toNat_natCast, UInt32.ofNat_toNat]

theorem Baseline.fst_advance_steps (l : Limits) (span : Span) (fvs : List (Field × UInt32))
    (b : Baseline) :
    (Baseline.advance l span (b.steps fvs) b).1 =
      match fvs.findSome? fun p => p.1.fault? l span p.2.toNat with
      | some e => .error e
      | none => .ok () := by
  induction fvs generalizing b with
  | nil => rfl
  | cons p fvs ih =>
    obtain ⟨f, v⟩ := p
    rw [steps_cons, advance, Field.decode_sub, List.findSome?_cons]
    cases f.fault? l span v.toNat with
    | none => exact ih (b.set f v)
    | some e => rfl

namespace Segment

/-- What the fields of a segment are refused for. -/
theorem breaks_of_findSome? {l : Limits} {span : Span} {s : Segment} {e : MappingError}
    (h : s.values.findSome? (fun p => p.1.fault? l span p.2.toNat) = some e) :
    s.Breaks l span e := by
  obtain ⟨column, _ | ⟨source, line, originalColumn, name⟩⟩ := s
  · simp [values, Field.fault?] at h
  · by_cases hsource : l.sources ≤ source.toNat
    · have he : MappingError.sourceOutOfRange source.toNat l.sources span = e := by
        simpa [values, Field.fault?, hsource] using h
      exact he ▸ .source hsource
    · cases name with
      | none => simp [values, Field.fault?, hsource] at h
      | some name =>
        obtain ⟨hname, rfl⟩ : l.names ≤ name.toNat ∧
            MappingError.nameOutOfRange name.toNat l.names span = e := by
          simpa [values, Field.fault?, hsource, Int.not_ofNat_neg] using h
        exact .name (Nat.lt_of_not_le hsource) rfl hname

variable {l k : Limits} {offset : Nat} {b b' : Baseline}

/-- A token that is read within some limits is read within others that its segment keeps to, and
leaves the same baseline. -/
theorem decode_of_within {token : List UInt8} {s : Segment}
    (h : decode k offset token b = (.ok s, b')) (hl : s.Within l) :
    decode l offset token b = (.ok s, b') :=
  decode_eq_ok_iff_unbounded.2 ⟨(decode_eq_ok_iff_unbounded.1 h).1, hl⟩

/-- A token that is read within some limits is refused within others for an index of its segment. -/
theorem breaks_of_decode {token : List UInt8} {s : Segment}
    (h : decode k offset token b = (.ok s, b')) (hl : ¬s.Within l) :
    ∃ e c, decode l offset token b = (.error e, c) ∧ s.Breaks l ⟨offset, token.length⟩ e := by
  obtain ⟨hdeltas, -, -⟩ := decode_eq_ok_iff.1 h
  have hadvance := Baseline.fst_advance_steps l ⟨offset, token.length⟩ s.values b
  unfold decode
  rw [hdeltas]
  dsimp only
  rw [length_deltas_values, if_pos s.valueCount_eq, zip_deltas_values]
  cases hfault : s.values.findSome? fun p => p.1.fault? l ⟨offset, token.length⟩ p.2.toNat with
  | none =>
    rw [List.findSome?_eq_none_iff] at hfault
    exact absurd (fun p hp => Field.fault?_eq_none_iff.1 (hfault p hp)) hl
  | some e =>
    rw [hfault] at hadvance
    rcases hrun : Baseline.advance l ⟨offset, token.length⟩ (b.steps s.values) b with ⟨e' | _, c⟩
    · rw [hrun] at hadvance
      cases hadvance
      exact ⟨e, c, rfl, breaks_of_findSome? hfault⟩
    · rw [hrun] at hadvance
      cases hadvance

end Segment

/-! ## Lines -/

section

variable {l k : Limits} {offset : Nat} {b b' : Baseline}

theorem Line.breaks_of_decodeTokens {ts : List (List UInt8)} {line : Line}
    (h : decodeTokens k ts offset b = (.ok line, b')) (hl : ¬line.Within l) :
    ∃ e c, decodeTokens l ts offset b = (.error e, c) ∧
      line.Breaks l (Text.placed offset ts) e := by
  induction ts generalizing offset b line with
  | nil =>
    cases h
    exact absurd (by simp [Within]) hl
  | cons t ts ih =>
    obtain ⟨s, c, line, rfl, hs, hline⟩ := decodeTokens_cons_eq_ok_iff.1 h
    -- As long as the segments keep to the limits, reading goes on from the same baselines.
    by_cases hsl : s.Within l
    · have hs' := Segment.decode_of_within hs hsl
      have hrest : ¬Within line l := fun hw => hl (List.forall_mem_cons.2 ⟨hsl, hw⟩)
      obtain ⟨e, d, herror, start, r, rest, token, rfl, hstart, htoken, hr⟩ := ih hline hrest
      refine ⟨e, d, by simp only [decodeTokens, hs', herror, Except.map], s :: start, r, rest,
        token, rfl, List.forall_mem_cons.2 ⟨hsl, hstart⟩, htoken, hr⟩
    · obtain ⟨e, d, herror, hbreaks⟩ := Segment.breaks_of_decode hs hsl
      exact ⟨e, d, by rw [decodeTokens, herror], [], s, line, (offset, t), rfl, by simp [Within],
        rfl, hbreaks⟩

theorem Line.decode_of_within {text : List UInt8} {line : Line}
    (h : decode k text offset b = (.ok line, b')) (hl : line.Within l) :
    decode l text offset b = (.ok line, b') :=
  decode_eq_ok_iff_unbounded.2 ⟨(decode_eq_ok_iff_unbounded.1 h).1, hl⟩

theorem Line.breaks_of_decode {text : List UInt8} {line : Line}
    (h : decode k text offset b = (.ok line, b')) (hl : ¬line.Within l) :
    ∃ e c, decode l text offset b = (.error e, c) ∧
      line.Breaks l (Text.pieces comma offset text) e := by
  obtain ⟨e, c, herror, hbreaks⟩ := breaks_of_decodeTokens h hl
  refine ⟨e, c, herror, ?_⟩
  unfold tokens at hbreaks
  split at hbreaks
  · obtain ⟨_, _, _, _, -, -, ⟨⟩, -⟩ := hbreaks
  · exact hbreaks

theorem Mappings.breaks_of_decodeLines {ts : List (List UInt8)} {lines : List Line}
    (h : decodeLines k ts offset b = (.ok lines, b')) (hl : ¬∀ line ∈ lines, line.Within l) :
    ∃ e c, decodeLines l ts offset b = (.error e, c) ∧
      Breaks l (Text.placed offset ts) lines e := by
  induction ts generalizing offset b lines with
  | nil =>
    cases h
    exact absurd (by simp) hl
  | cons t ts ih =>
    obtain ⟨line, c, lines, rfl, hline, hlines⟩ := decodeLines_cons_eq_ok_iff.1 h
    by_cases hlinel : line.Within l
    · have hline' := Line.decode_of_within hline hlinel
      have hrest : ¬∀ line ∈ lines, line.Within l := fun hw =>
        hl (List.forall_mem_cons.2 ⟨hlinel, hw⟩)
      obtain ⟨e, d, herror, before, line', after, text, rfl, hbefore, htext, hbreaks⟩ :=
        ih hlines hrest
      exact ⟨e, d, by simp only [decodeLines, hline', herror, Except.map], line :: before, line',
        after, text, rfl, List.forall_mem_cons.2 ⟨hlinel, hbefore⟩, htext, hbreaks⟩
    · obtain ⟨e, d, herror, hbreaks⟩ := Line.breaks_of_decode hline hlinel
      exact ⟨e, d, by rw [decodeLines, herror], [], line, lines, (offset, t), rfl, by simp, rfl,
        hbreaks⟩

end

/-! ## Texts -/

namespace Mappings

theorem prefix_drop_of_mem_lineTexts {m : Mappings} {text token : Nat × List UInt8}
    (htext : text ∈ Text.placed 0 m.lineTexts)
    (htoken : token ∈ Text.pieces comma text.1 text.2) :
    token.2 <+: (bytes m.text).drop token.1 := by
  unfold lineTexts at htext
  split at htext
  · cases htext
  · exact Text.prefix_drop_of_mem_pieces_pieces htext htoken

theorem within_mono {l k : Limits} (hsources : l.sources ≤ k.sources) (hnames : l.names ≤ k.names)
    {lines : List Line} (h : ∀ line ∈ lines, line.Within l) : ∀ line ∈ lines, line.Within k := by
  intro line hline s hs p hp
  have hadmits := h line hline s hs p hp
  rcases p with ⟨_ | _, v⟩ <;> simp only [Limits.Admits] at hadmits ⊢ <;> omega

theorem resume_eq_of_replay_eq {m : Mappings} {l k : Limits} (h : m.replay l = m.replay k) :
    m.resume l = m.resume k := by
  unfold resume
  rw [h]

/-- Reading one text within two limits, the first of which are the smaller ones. What is read within
these is read within the others, and both leave one baseline. What is read within the others is read
within these if all its indices are, else the first index that is not decides the error. Reading
without limits agrees with reading within any. -/
theorem decode_narrowed (m : Mappings) {l k : Limits} (hsources : l.sources ≤ k.sources)
    (hnames : l.names ≤ k.names) (lines : List Line) :
    (m.decode l = .ok lines → ∃ b, m.replay l = (.ok lines, b) ∧ m.replay k = (.ok lines, b)) ∧
      (m.decode k = .ok lines →
        ((∀ line ∈ lines, line.Within l) → m.decode l = .ok lines) ∧
          ((¬∀ line ∈ lines, line.Within l) →
            ∃ e, m.decode l = .error e ∧ Breaks l (Text.placed 0 m.lineTexts) lines e)) ∧
      (∀ text ∈ Text.placed 0 m.lineTexts, ∀ token ∈ Text.pieces comma text.1 text.2,
        token.2 <+: (bytes m.text).drop token.1) ∧
      (m.decode l = .ok lines →
        m.replay .unbounded = m.replay l ∧ m.resume .unbounded = m.resume l) := by
  refine ⟨fun h => ?_, fun h => ⟨fun hl => ?_, fun hl => ?_⟩, fun text htext token htoken =>
    prefix_drop_of_mem_lineTexts htext htoken, fun h => ?_⟩
  · obtain ⟨⟨b, hreads⟩, hl⟩ := decode_eq_ok_iff.1 h
    exact ⟨b, replay_eq_ok_iff.2 ⟨hreads, hl⟩,
      replay_eq_ok_iff.2 ⟨hreads, within_mono hsources hnames hl⟩⟩
  · exact decode_eq_ok_iff.2 ⟨(decode_eq_ok_iff.1 h).1, hl⟩
  · obtain ⟨b, hread⟩ := exists_decodeLines_of_decode h
    obtain ⟨e, c, herror, hbreaks⟩ := breaks_of_decodeLines hread hl
    exact ⟨e, congrArg Prod.fst herror, hbreaks⟩
  · obtain ⟨⟨b, hreads⟩, hl⟩ := decode_eq_ok_iff.1 h
    have hreplay : m.replay .unbounded = m.replay l :=
      Eq.trans hreads (replay_eq_ok_iff.2 ⟨hreads, hl⟩).symm
    exact ⟨hreplay, resume_eq_of_replay_eq hreplay⟩

/-- A text with two sources. Within limits that have room for one only, the second token of its
second line is at fault. -/
theorem decode_narrowed_secondSource :
    let m := ofText "AAAAA;AAAA,CCAAA;A"
    let start : Line := [⟨0, some ⟨0, 0, 0, some 0⟩⟩]
    let line : Line := [⟨0, some ⟨0, 0, 0, none⟩⟩, ⟨1, some ⟨1, 0, 0, some 0⟩⟩]
    let lines := [start, line, [⟨0, none⟩]]
    m.decode ⟨2, 1⟩ = .ok lines ∧
      (∃ e, m.decode ⟨1, 1⟩ = .error e ∧ Breaks ⟨1, 1⟩ (Text.placed 0 m.lineTexts) lines e) ∧
      m.decode ⟨1, 1⟩ = .error (.sourceOutOfRange 1 1 ⟨11, 5⟩) ∧
      (∃ b, m.replay ⟨2, 1⟩ = (.ok lines, b) ∧ m.replay ⟨2, 9⟩ = (.ok lines, b)) ∧
      m.resume .unbounded = m.resume ⟨2, 1⟩ := by
  intro m start line lines
  have hread : m.decode ⟨2, 1⟩ = .ok lines := by decide +kernel
  have hbreaks := ((m.decode_narrowed (l := ⟨1, 1⟩) (by decide) (by decide) lines).2.1 hread).2
  have hgrown := m.decode_narrowed (l := ⟨2, 1⟩) (k := ⟨2, 9⟩) (by decide) (by decide) lines
  exact ⟨hread, hbreaks (by decide), by decide +kernel, hgrown.1 hread, (hgrown.2.2.2 hread).2⟩

end Mappings

end SourceMap
