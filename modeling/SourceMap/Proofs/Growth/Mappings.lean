import SourceMap.Mappings.Basic
import SourceMap.Proofs.RoundTrip.Line

/-!
# Mapping text as a list of lines

Text is never changed once it is written, and what is appended is written for the baseline that the
text leaves. So appending a line to the text appends it to the lines that the text is read as.

## Main definitions

* `Mappings.Reads` : the lines that a text is read as, and the baseline that it leaves.
* `Mappings.Consistent` : what is kept beside the text agrees with the text.

## Main statements

* `Mappings.append_eq_ok` : an appended line comes behind the lines that the text is read as.
* `Mappings.reads_extendTo` : the same for empty lines.
* `Mappings.decode_eq_ok_iff` : limits only refuse lines.
-/

namespace SourceMap.Mappings

open Text (bytes semicolon)

/-! ## Reading lines one after another -/

theorem decodeLines_cons_eq_ok_iff {l : Limits} {t : List UInt8} {ts : List (List UInt8)}
    {offset : Nat} {b b' : Baseline} {lines : List Line} :
    decodeLines l (t :: ts) offset b = (.ok lines, b') ↔
      ∃ line c rest, lines = line :: rest ∧ Line.decode l t offset b = (.ok line, c) ∧
        decodeLines l ts (offset + t.length + 1) c = (.ok rest, b') := by
  constructor
  · intro h
    rw [decodeLines] at h
    split at h
    · cases h
    · rename_i line c hline
      rcases hr : decodeLines l ts (offset + t.length + 1) c with ⟨_ | rest, d⟩ <;>
        rw [hr] at h <;> cases h
      exact ⟨line, c, rest, rfl, hline, hr⟩
  · rintro ⟨line, c, rest, rfl, hline, hr⟩
    rw [decodeLines, hline]
    simp only [hr, Except.map]

theorem decodeLines_append_eq_ok_iff {l : Limits} {ts us : List (List UInt8)} {offset : Nat}
    {b b' : Baseline} {lines : List Line} :
    decodeLines l (ts ++ us) offset b = (.ok lines, b') ↔
      ∃ start c rest, lines = start ++ rest ∧ decodeLines l ts offset b = (.ok start, c) ∧
        decodeLines l us (offset + (ts.map (·.length + 1)).sum) c = (.ok rest, b') := by
  induction ts generalizing offset b lines with
  | nil =>
    constructor
    · intro h
      exact ⟨[], b, lines, rfl, rfl, h⟩
    · rintro ⟨start, c, rest, rfl, hs, h⟩
      cases hs
      exact h
  | cons t ts ih =>
    have hoff : offset + t.length + 1 + (ts.map (·.length + 1)).sum =
        offset + ((t :: ts).map (·.length + 1)).sum := by
      simp only [List.map_cons, List.sum_cons]
      omega
    simp only [List.cons_append, decodeLines_cons_eq_ok_iff, ih, hoff]
    constructor
    · rintro ⟨line, c, _, rfl, hline, start, d, rest, rfl, hs, hr⟩
      exact ⟨line :: start, d, rest, rfl, ⟨line, c, start, rfl, hline, hs⟩, hr⟩
    · rintro ⟨_, d, rest, rfl, ⟨line, c, start, rfl, hline, hs⟩, hr⟩
      exact ⟨line, c, start ++ rest, rfl, hline, start, d, rest, rfl, hs, hr⟩

theorem decodeLines_eq_ok_iff_unbounded {l : Limits} {ts : List (List UInt8)} {offset : Nat}
    {b b' : Baseline} {lines : List Line} :
    decodeLines l ts offset b = (.ok lines, b') ↔
      decodeLines .unbounded ts offset b = (.ok lines, b') ∧ ∀ line ∈ lines, line.Within l := by
  induction ts generalizing offset b lines with
  | nil =>
    constructor
    · rintro ⟨⟩
      exact ⟨rfl, by simp⟩
    · exact And.left
  | cons t ts ih =>
    simp only [decodeLines_cons_eq_ok_iff]
    constructor
    · rintro ⟨line, c, rest, rfl, hline, hr⟩
      obtain ⟨hline, hl⟩ := Line.decode_eq_ok_iff_unbounded.1 hline
      obtain ⟨hr, hrl⟩ := ih.1 hr
      exact ⟨⟨line, c, rest, rfl, hline, hr⟩, List.forall_mem_cons.2 ⟨hl, hrl⟩⟩
    · rintro ⟨⟨line, c, rest, rfl, hline, hr⟩, h⟩
      obtain ⟨hl, hrl⟩ := List.forall_mem_cons.1 h
      exact ⟨line, c, rest, rfl, Line.decode_eq_ok_iff_unbounded.2 ⟨hline, hl⟩, ih.2 ⟨hr, hrl⟩⟩

theorem length_eq_of_decodeLines {l : Limits} {ts : List (List UInt8)} {offset : Nat}
    {b b' : Baseline} {lines : List Line} (h : decodeLines l ts offset b = (.ok lines, b')) :
    lines.length = ts.length := by
  induction ts generalizing offset b lines with
  | nil =>
    cases h
    rfl
  | cons t ts ih =>
    obtain ⟨line, c, rest, rfl, -, hr⟩ := decodeLines_cons_eq_ok_iff.1 h
    rw [List.length_cons, List.length_cons, ih hr]

/-! ## The view -/

/-- The text is read as `lines`, whatever their indices are, and leaves the baseline `b`. -/
def Reads (m : Mappings) (lines : List Line) (b : Baseline) : Prop :=
  m.replay .unbounded = (.ok lines, b)

/-- The number of lines is that of the text, and a line is continued from the baseline that the text
leaves. The generated column plays no part in that, for it starts again with the line. -/
structure Consistent (m : Mappings) : Prop where
  text_eq : m.lineCount = 0 → m.text = ""
  length_lineTexts : m.lineTexts.length = m.lineCount
  reads_of_last : ∀ {b}, m.last = some b → ∃ lines c, m.Reads lines c ∧ c.newLine = b.newLine

theorem replay_eq_ok_iff {m : Mappings} {l : Limits} {lines : List Line} {b : Baseline} :
    m.replay l = (.ok lines, b) ↔ m.Reads lines b ∧ ∀ line ∈ lines, line.Within l :=
  decodeLines_eq_ok_iff_unbounded

theorem decode_eq_ok_iff {m : Mappings} {l : Limits} {lines : List Line} :
    m.decode l = .ok lines ↔ (∃ b, m.Reads lines b) ∧ ∀ line ∈ lines, line.Within l := by
  rw [← exists_and_right]
  simp only [← replay_eq_ok_iff, decode]
  constructor
  · intro h
    exact ⟨(m.replay l).2, by rw [← h]⟩
  · rintro ⟨b, h⟩
    rw [h]

theorem Reads.unique {m : Mappings} {lines lines' : List Line} {b b' : Baseline}
    (h : m.Reads lines b) (h' : m.Reads lines' b') : lines = lines' ∧ b = b' := by
  have := h.symm.trans h'
  simpa using this

theorem Reads.length {m : Mappings} {lines : List Line} {b : Baseline} (h : m.Reads lines b)
    (hm : m.Consistent) : lines.length = m.lineCount :=
  (length_eq_of_decodeLines h).trans hm.length_lineTexts

/-! ## Adding text -/

theorem lineTexts_of_ne_zero {m : Mappings} (h : m.lineCount ≠ 0) :
    m.lineTexts = (bytes m.text).splitOn semicolon := by
  have he : m.isEmpty = false := by simpa [isEmpty] using h
  simp [lineTexts, he]

/-- What holds no semicolon is one more line. -/
theorem lineTexts_push {m : Mappings} (hm : m.Consistent) {text : String}
    (h : semicolon ∉ bytes text) (last : Option Baseline) :
    lineTexts ⟨m.openLine ++ text, m.lineCount + 1, last⟩ = m.lineTexts ++ [bytes text] := by
  have hsingle : (bytes text).splitOn semicolon = [bytes text] := List.splitOn_eq_singleton h
  by_cases h0 : m.lineCount = 0
  · simp [lineTexts, openLine, isEmpty, h0, hm.text_eq h0, hsingle]
  · have hsep : bytes ";" = [semicolon] := rfl
    have hopen : m.openLine = m.text ++ ";" := by simp [openLine, isEmpty, h0]
    rw [lineTexts_of_ne_zero (Nat.succ_ne_zero _), lineTexts_of_ne_zero h0, hopen,
      Text.bytes_append, Text.bytes_append, hsep, List.append_assoc, List.singleton_append,
      List.splitOn_append_cons_self, hsingle]

theorem reads_push {m : Mappings} (hm : m.Consistent) {lines : List Line} {b c : Baseline}
    (hr : m.Reads lines b) {text : String} (h : semicolon ∉ bytes text) {line : Line}
    (hline : ∀ offset, Line.decode .unbounded (bytes text) offset b = (.ok line, c))
    (last : Option Baseline) :
    Reads ⟨m.openLine ++ text, m.lineCount + 1, last⟩ (lines ++ [line]) c := by
  rw [Reads, replay, lineTexts_push hm h last, decodeLines_append_eq_ok_iff]
  exact ⟨lines, b, [line], rfl, hr,
    decodeLines_cons_eq_ok_iff.2 ⟨line, c, [], rfl, hline _, rfl⟩⟩

theorem Consistent.push {m : Mappings} (hm : m.Consistent) {text : String}
    (h : semicolon ∉ bytes text) {last : Option Baseline}
    (hlast : ∀ {b}, last = some b → ∃ lines c,
      Reads ⟨m.openLine ++ text, m.lineCount + 1, last⟩ lines c ∧ c.newLine = b.newLine) :
    Consistent ⟨m.openLine ++ text, m.lineCount + 1, last⟩ where
  text_eq h := by simp at h
  length_lineTexts := by rw [lineTexts_push hm h, List.length_append, hm.length_lineTexts]; rfl
  reads_of_last := hlast

/-! ## Operations -/

theorem consistent_empty : Consistent empty where
  text_eq _ := rfl
  length_lineTexts := rfl
  reads_of_last h := by
    cases h
    exact ⟨[], .zero, rfl, rfl⟩

theorem consistent_ofText (text : String) : (ofText text).Consistent := by
  unfold ofText
  dsimp only
  split
  · exact consistent_empty
  · have h0 : ((bytes (trimEnd text)).splitOn semicolon).length ≠ 0 := by
      simp
    exact ⟨fun h => absurd h h0, congrArg List.length (lineTexts_of_ne_zero h0), by simp⟩

/-- Imported text has not been read, unless there is nothing to read. -/
theorem ofText_of_last {text : String} (h : (ofText text).last.isSome) : ofText text = empty := by
  unfold ofText at h ⊢
  dsimp only at h ⊢
  split
  · rfl
  · rename_i hne
    simp [hne] at h

theorem resume_of_last {m : Mappings} (h : m.last.isSome) (l : Limits) : m.resume l = .ok m := by
  obtain ⟨b, hb⟩ := Option.isSome_iff_exists.1 h
  simp [resume, hb]

theorem isSome_last_of_resume {m m' : Mappings} {l : Limits} (h : m.resume l = .ok m') :
    m'.last.isSome := by
  unfold resume at h
  split at h
  · rename_i b hb
    cases h
    rw [hb]
    rfl
  · split at h
    · cases h
    · cases h
      rfl

/-- Text that is within the limits can be continued. -/
theorem resume_of_decode {m : Mappings} {l : Limits} {lines : List Line}
    (h : m.decode l = .ok lines) : ∃ m', m.resume l = .ok m' := by
  unfold resume
  split
  · exact ⟨m, rfl⟩
  · unfold decode at h
    split
    · rename_i e b he
      rw [he] at h
      cases h
    · exact ⟨_, rfl⟩

/-- The baseline is the one that the text leaves, also where it was kept and not read again. -/
theorem resume_eq_ok {m m' : Mappings} (hm : m.Consistent) {l : Limits}
    (h : m.resume l = .ok m') :
    ∃ lines b c, m.Reads lines b ∧ m' = { m with last := some c } ∧ b.newLine = c.newLine := by
  unfold resume at h
  split at h
  · rename_i c hc
    obtain ⟨lines, b, hr, hb⟩ := hm.reads_of_last hc
    cases h
    exact ⟨lines, b, c, hr, by rw [← hc], hb⟩
  · split at h
    · cases h
    · rename_i lines c hr
      cases h
      exact ⟨lines, c, c, (replay_eq_ok_iff.1 hr).1, rfl, rfl⟩

theorem Consistent.resume {m m' : Mappings} (hm : m.Consistent) {l : Limits}
    (h : m.resume l = .ok m') : m'.Consistent := by
  obtain ⟨lines, b, c, hr, rfl, hb⟩ := resume_eq_ok hm h
  refine ⟨hm.text_eq, hm.length_lineTexts, ?_⟩
  rintro _ ⟨⟩
  exact ⟨lines, b, hr, hb⟩

theorem append_eq_ok_iff {m m' : Mappings} {line : Line} :
    m.append line = .ok m' ↔ ∃ n, m.resume .unbounded = .ok n ∧
      m' = ⟨n.openLine ++ (line.encode (n.last.getD .zero)).1, n.lineCount + 1,
        some (line.encode (n.last.getD .zero)).2⟩ := by
  unfold append
  cases m.resume .unbounded with
  | error e => simp [bind, Except.bind]
  | ok n =>
    simp only [bind, Except.bind, pure, Except.pure, Except.ok.injEq, exists_eq_left']
    exact eq_comm

/-- Whatever can be appended to is read, and the line comes behind what is read. -/
theorem append_eq_ok {m m' : Mappings} (hm : m.Consistent) {line : Line}
    (h : m.append line = .ok m') :
    ∃ lines b c, m.Reads lines b ∧ m'.Reads (lines ++ [line]) c ∧ m'.last = some c ∧
      m'.lineCount = m.lineCount + 1 ∧ m'.Consistent := by
  obtain ⟨n, hn, rfl⟩ := append_eq_ok_iff.1 h
  obtain ⟨lines, b, c, hr, rfl, hbc⟩ := resume_eq_ok hm hn
  have hw : line.Within .unbounded := fun s _ p _ => Limits.admits_unbounded p.1 p.2
  have hsemi := Line.semicolon_notMem_bytes_encode line c
  have hline : ∀ offset, Line.decode .unbounded (bytes (line.encode c).1) offset b =
      (.ok line, (line.encode c).2) := by
    intro offset
    -- only the generated column may differ, and the line sets that back first
    rw [Line.decode, hbc]
    exact Line.decode_encode hw offset c
  have hpush := reads_push hm hr hsemi hline (some (line.encode c).2)
  refine ⟨lines, b, (line.encode c).2, hr, hpush, rfl, rfl, hm.push hsemi ?_⟩
  rintro _ ⟨⟩
  exact ⟨_, _, hpush, rfl⟩

theorem addEmptyLines_one (m : Mappings) :
    m.addEmptyLines 1 = ⟨m.openLine ++ "", m.lineCount + 1, m.last⟩ := by
  rw [String.append_empty]
  rfl

theorem reads_addEmptyLine {m : Mappings} (hm : m.Consistent) {lines : List Line} {b : Baseline}
    (hr : m.Reads lines b) : (m.addEmptyLines 1).Reads (lines ++ [[]]) b.newLine := by
  rw [addEmptyLines_one]
  exact reads_push hm hr (by simp) (fun _ => rfl) m.last

theorem consistent_addEmptyLine {m : Mappings} (hm : m.Consistent) :
    (m.addEmptyLines 1).Consistent := by
  rw [addEmptyLines_one]
  refine hm.push (by simp) ?_
  intro b hb
  obtain ⟨lines, c, hr, hc⟩ := hm.reads_of_last hb
  have hr' := reads_addEmptyLine hm hr
  rw [addEmptyLines_one] at hr'
  exact ⟨_, _, hr', hc⟩

theorem Consistent.addEmptyLines {m : Mappings} (hm : m.Consistent) (n : Nat) :
    (m.addEmptyLines n).Consistent := by
  induction n generalizing m with
  | zero => exact hm
  | succ n ih => exact ih (consistent_addEmptyLine hm)

theorem reads_addEmptyLines {m : Mappings} (hm : m.Consistent) {lines : List Line} {b : Baseline}
    (hr : m.Reads lines b) (n : Nat) :
    ∃ c, (m.addEmptyLines n).Reads (lines ++ List.replicate n []) c := by
  induction n generalizing m lines b with
  | zero =>
    rw [List.replicate_zero, List.append_nil]
    exact ⟨b, hr⟩
  | succ n ih =>
    obtain ⟨c, hc⟩ := ih (consistent_addEmptyLine hm) (reads_addEmptyLine hm hr)
    rw [List.append_assoc, List.singleton_append, ← List.replicate_succ] at hc
    exact ⟨c, hc⟩

@[simp] theorem last_addEmptyLines (m : Mappings) (n : Nat) :
    (m.addEmptyLines n).last = m.last := by
  induction n generalizing m with
  | zero => rfl
  | succ n ih => exact ih _

@[simp] theorem last_extendTo (m : Mappings) (lines : Nat) : (m.extendTo lines).last = m.last :=
  last_addEmptyLines m _

theorem Consistent.extendTo {m : Mappings} (hm : m.Consistent) (lines : Nat) :
    (m.extendTo lines).Consistent :=
  hm.addEmptyLines _

theorem reads_extendTo {m : Mappings} (hm : m.Consistent) {lines : List Line} {b : Baseline}
    (hr : m.Reads lines b) (n : Nat) : ∃ c, (m.extendTo n).Reads (lines.rightpad n []) c := by
  rw [extendTo, ← hr.length hm]
  exact reads_addEmptyLines hm hr _

end SourceMap.Mappings
