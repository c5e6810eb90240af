import SourceMap.Proofs.Growth.Mappings

/-!
# Complete texts

A text that is taken over loses the semicolons at its end, and a line is empty if and only if its
text is. So a text that was written is read back without the empty lines at its end.

## Main definitions

* `Mappings.encodeLines` : the texts of lines that are written one after another.

## Main statements

* `lineTexts_ofText` : the texts of the lines of a text that is taken over.
* `reads_ofText_text` : the text of mappings is read as their lines, without the empty lines at the
  end.
* `textOf_eq` : lines are written with a semicolon between them.
* `linesOf_textOf` : lines that are written are read back.
-/

namespace SourceMap

namespace Text

/-! ## Semicolons at the end -/

/-- The bytes of any other character are none of them a semicolon. -/
theorem eq_of_semicolon_mem_utf8EncodeChar {c : Char} (h : semicolon ∈ String.utf8EncodeChar c) :
    c = ';' :=
  Char.toNat_inj.1 ((mem_utf8EncodeChar_iff (by decide)).1 h)

theorem dropEndWhile_dropEndWhile (p : α → Bool) (xs : List α) :
    dropEndWhile p (dropEndWhile p xs) = dropEndWhile p xs :=
  List.rdropWhile_idempotent p xs

theorem dropEndWhile_append_of_getLast {p : α → Bool} {xs ys : List α} (hys : ys ≠ [])
    (h : p (ys.getLast hys) = false) : dropEndWhile p (xs ++ ys) = xs ++ ys := by
  rw [← List.dropLast_append_getLast hys, ← List.append_assoc, dropEndWhile_append_singleton, h]
  rfl

theorem bytes_ofList_dropEndWhile (cs : List Char) :
    bytes (String.ofList (dropEndWhile (· = ';') cs)) =
      dropEndWhile (· = semicolon) (bytes (String.ofList cs)) := by
  induction cs using List.reverseRecOn with
  | nil => rfl
  | append_singleton cs c ih =>
    have hlast : bytes (String.ofList (cs ++ [c])) =
        bytes (String.ofList cs) ++ String.utf8EncodeChar c := by
      rw [bytes_ofList, bytes_ofList, List.flatMap_append, List.flatMap_singleton]
    rw [dropEndWhile_append_singleton, hlast]
    by_cases hc : c = ';'
    · have hsemi : String.utf8EncodeChar ';' = [semicolon] := by decide
      simp [hc, hsemi, ih]
    · have hne : String.utf8EncodeChar c ≠ [] := by
        rw [← List.length_pos_iff, String.length_utf8EncodeChar]
        exact c.utf8Size_pos
      have hlast' : (String.utf8EncodeChar c).getLast hne ≠ semicolon := fun h =>
        hc (eq_of_semicolon_mem_utf8EncodeChar (h ▸ List.getLast_mem hne))
      rw [if_neg (by simpa using hc), hlast, dropEndWhile_append_of_getLast hne (by simpa)]

theorem splitOn_append_singleton_of_ne [BEq α] [LawfulBEq α] {a x : α} (h : x ≠ a) (xs : List α) :
    ∃ start last, xs.splitOn a = start ++ [last] ∧
      (xs ++ [x]).splitOn a = start ++ [last ++ [x]] := by
  induction xs with
  | nil => exact ⟨[], [], by simp, by simp [List.splitOn_eq_singleton, h.symm]⟩
  | cons y xs ih =>
    obtain ⟨start, last, hxs, hx⟩ := ih
    rw [List.cons_append, List.splitOn_cons_eq_if_modifyHead, List.splitOn_cons_eq_if_modifyHead,
      hxs, hx]
    by_cases hy : y == a
    · exact ⟨[] :: start, last, by simp [hy], by simp [hy]⟩
    · cases start with
      | nil => exact ⟨[], y :: last, by simp [hy], by simp [hy]⟩
      | cons s start => exact ⟨(y :: s) :: start, last, by simp [hy], by simp [hy]⟩

theorem notMem_of_mem_splitOn [BEq α] [LawfulBEq α] {a : α} {xs t : List α}
    (h : t ∈ xs.splitOn a) : a ∉ t := by
  induction xs using List.reverseRecOn generalizing t with
  | nil => simp_all
  | append_singleton xs x ih =>
    by_cases hx : x = a
    · subst hx
      rw [List.splitOn_append_cons_self, List.splitOn_nil, List.mem_append] at h
      rcases h with h | h
      · exact ih h
      · simp_all
    · obtain ⟨start, last, hxs, hsplit⟩ := splitOn_append_singleton_of_ne hx xs
      rw [hxs] at ih
      rw [hsplit, List.mem_append, List.mem_singleton] at h
      rcases h with h | rfl
      · exact ih (List.mem_append_left _ h)
      · simpa [Ne.symm hx] using ih (t := last) (by simp)

/-- What is between separators, without the empty pieces at the end. -/
theorem splitOn_dropEndWhile [DecidableEq α] (a : α) (xs : List α) :
    (if (dropEndWhile (· = a) xs).isEmpty then [] else (dropEndWhile (· = a) xs).splitOn a) =
      dropEndWhile List.isEmpty (xs.splitOn a) := by
  induction xs using List.reverseRecOn with
  | nil => rfl
  | append_singleton xs x ih =>
    rw [dropEndWhile_append_singleton]
    by_cases hx : x = a
    · have hsplit : (xs ++ [a]).splitOn a = xs.splitOn a ++ [[]] := by
        rw [List.splitOn_append_cons_self, List.splitOn_nil]
      simpa [hx, hsplit] using ih
    · obtain ⟨start, last, -, hsplit⟩ := splitOn_append_singleton_of_ne hx xs
      simp [hx, hsplit]

end Text

/-! ## Characters -/

theorem Vlq.Digit.isAlphanum_char :
    ∀ d : Digit, d.char.isAlphanum ∨ d.char = '+' ∨ d.char = '/' := by
  decide

theorem Vlq.mem_toList_encodeList {vs : List Int} {c : Char}
    (h : c ∈ (encodeList vs).toList) : ∃ d : Digit, c = d.char := by
  simp only [encodeList, String.toList_join, List.mem_flatMap, List.mem_map, encode] at h
  obtain ⟨_, ⟨v, -, rfl⟩, h⟩ := h
  rw [toList_text] at h
  obtain ⟨d, -, rfl⟩ := List.mem_map.1 h
  exact ⟨d, rfl⟩

namespace Line

theorem mem_toList_encode {line : Line} {b : Baseline} {c : Char}
    (h : c ∈ (line.encode b).1.toList) : c = ',' ∨ ∃ d : Vlq.Digit, c = d.char := by
  rw [encode, String.toList_intercalate] at h
  rcases Text.mem_intercalate h with h | ⟨_, ht, h⟩
  · exact .inl (by simpa using h)
  · obtain ⟨token, htoken, rfl⟩ := List.mem_map.1 ht
    obtain ⟨s, b, rfl⟩ := mem_encodeTokens htoken
    exact .inr (Vlq.mem_toList_encodeList h)

theorem intercalate_tokens (text : List UInt8) : [Text.comma].intercalate (tokens text) = text := by
  unfold tokens
  split
  · simp_all
  · exact List.intercalate_splitOn Text.comma

theorem comma_notMem_of_mem_tokens {text t : List UInt8} (h : t ∈ tokens text) :
    Text.comma ∉ t := by
  unfold tokens at h
  split at h
  · cases h
  · exact Text.notMem_of_mem_splitOn h

theorem length_eq_of_decodeTokens {l : Limits} {ts : List (List UInt8)} {offset : Nat}
    {b b' : Baseline} {line : Line} (h : decodeTokens l ts offset b = (.ok line, b')) :
    line.length = ts.length := by
  induction ts generalizing offset b line with
  | nil =>
    cases h
    rfl
  | cons t ts ih =>
    obtain ⟨s, c, rest, rfl, -, hr⟩ := decodeTokens_cons_eq_ok_iff.1 h
    rw [List.length_cons, List.length_cons, ih hr]

/-- Only an empty text is read as an empty line. -/
theorem isEmpty_of_decode {l : Limits} {text : List UInt8} {offset : Nat} {b b' : Baseline}
    {line : Line} (h : decode l text offset b = (.ok line, b')) : text.isEmpty = line.isEmpty := by
  have hlen := length_eq_of_decodeTokens h
  unfold tokens at hlen
  split at hlen
  · rename_i ht
    rw [ht, List.eq_nil_of_length_eq_zero hlen]
    rfl
  · rename_i ht
    have hne : line ≠ [] := by
      rintro rfl
      exact List.splitOn_ne_nil _ _ (List.eq_nil_of_length_eq_zero hlen.symm)
    rw [List.isEmpty_eq_false_iff.2 hne]
    simpa using ht

end Line

namespace Mappings

open Text (bytes comma semicolon dropEndWhile)

theorem bytes_trimEnd (text : String) :
    bytes (trimEnd text) = dropEndWhile (· = semicolon) (bytes text) := by
  have h := Text.bytes_ofList_dropEndWhile text.toList
  rwa [String.ofList_toList] at h

theorem lineTexts_ofText (text : String) :
    (ofText text).lineTexts = dropEndWhile List.isEmpty ((bytes text).splitOn semicolon) := by
  have hempty : (bytes (trimEnd text)).isEmpty = (trimEnd text).isEmpty := by
    rw [Bool.eq_iff_iff, List.isEmpty_iff, String.isEmpty_iff, ← Text.bytes_empty, Text.bytes_inj]
  rw [← Text.splitOn_dropEndWhile, ← bytes_trimEnd, hempty]
  unfold ofText
  dsimp only
  split
  · rfl
  · exact lineTexts_of_ne_zero (by simp)

theorem exists_decodeLines_of_decode {m : Mappings} {l : Limits}
    {r : Except MappingError (List Line)} (h : m.decode l = r) :
    ∃ b, decodeLines l m.lineTexts 0 .zero = (r, b) :=
  ⟨(m.replay l).2, Prod.ext h rfl⟩

/-! ## Empty lines at the end -/

/-- Without the empty texts at the end, the lines are those without the empty lines at the end. -/
theorem decodeLines_dropEndWhile {l : Limits} {ts : List (List UInt8)} {offset : Nat}
    {b b' : Baseline} {lines : List Line} (h : decodeLines l ts offset b = (.ok lines, b')) :
    ∃ c, decodeLines l (dropEndWhile List.isEmpty ts) offset b =
      (.ok (dropEndWhile List.isEmpty lines), c) := by
  induction ts using List.reverseRecOn generalizing lines b' with
  | nil =>
    cases h
    exact ⟨b, rfl⟩
  | append_singleton ts t ih =>
    obtain ⟨start, c, _, rfl, hs, hr⟩ := decodeLines_append_eq_ok_iff.1 h
    obtain ⟨line, d, _, rfl, hline, hnil⟩ := decodeLines_cons_eq_ok_iff.1 hr
    cases hnil
    rw [Text.dropEndWhile_append_singleton, Text.dropEndWhile_append_singleton,
      Line.isEmpty_of_decode hline]
    split
    · exact ih hs
    · exact ⟨_, h⟩

theorem lineTexts_ofText_text {m : Mappings} (hm : m.Consistent) :
    (ofText m.text).lineTexts = dropEndWhile List.isEmpty m.lineTexts := by
  rw [lineTexts_ofText]
  by_cases h0 : m.lineCount = 0
  · simp [lineTexts, isEmpty, h0, hm.text_eq h0]
    rfl
  · rw [lineTexts_of_ne_zero h0]

/-- The text of mappings is read as their lines. Empty lines at the end leave no trace in it. -/
theorem reads_ofText_text {m : Mappings} (hm : m.Consistent) {lines : List Line} {b : Baseline}
    (h : m.Reads lines b) : ∃ c, (ofText m.text).Reads (dropEndWhile List.isEmpty lines) c := by
  unfold Reads replay
  rw [lineTexts_ofText_text hm]
  exact decodeLines_dropEndWhile h

/-! ## Writing lines -/

/-- The texts of lines that are written one after another, and the baseline behind them. -/
def encodeLines : List Line → Baseline → List String × Baseline
  | [], b => ([], b)
  | line :: rest, b =>
    let (text, b) := line.encode b
    let (texts, b) := encodeLines rest b
    (text :: texts, b)

theorem foldlM_append {m : Mappings} {b : Baseline} (hb : m.last = some b) (lines : List Line) :
    ∃ m', lines.foldlM append m = .ok m' ∧
      m'.text = if lines = [] then m.text
        else m.openLine ++ ";".intercalate (encodeLines lines b).1 := by
  induction lines generalizing m b with
  | nil => exact ⟨m, rfl, rfl⟩
  | cons line lines ih =>
    have happend : m.append line =
        .ok ⟨m.openLine ++ (line.encode b).1, m.lineCount + 1, some (line.encode b).2⟩ :=
      append_eq_ok_iff.2 ⟨m, resume_of_last (by simp [hb]) _, by simp [hb]⟩
    obtain ⟨m', hm', htext⟩ := ih (m := ⟨_, _, _⟩) (b := (line.encode b).2) rfl
    refine ⟨m', ?_, ?_⟩
    · rw [List.foldlM_cons, happend]
      exact hm'
    · rw [htext, if_neg (List.cons_ne_nil _ _)]
      cases lines with
      | nil => simp [encodeLines]
      | cons line' lines =>
        simp [encodeLines, openLine, isEmpty, String.intercalate_cons_cons, String.append_assoc]

/-- Lines can always be written, and a semicolon stands between them. -/
theorem textOf_eq (lines : List Line) :
    textOf lines = .ok (";".intercalate (encodeLines lines .zero).1) := by
  obtain ⟨m, hm, htext⟩ := foldlM_append (m := empty) rfl lines
  have hempty : m.text = ";".intercalate (encodeLines lines .zero).1 := by
    rw [htext]
    cases lines with
    | nil => rfl
    | cons line lines => simp [openLine, empty, isEmpty]
  rw [textOf, hm, ← hempty]
  rfl

theorem mem_encodeLines {lines : List Line} {b : Baseline} {text : String}
    (h : text ∈ (encodeLines lines b).1) : ∃ line c, text = (Line.encode line c).1 := by
  induction lines generalizing b with
  | nil => simp [encodeLines] at h
  | cons line lines ih =>
    rcases List.mem_cons.1 h with rfl | h
    · exact ⟨line, b, rfl⟩
    · exact ih h

theorem decodeLines_encodeLines {lines : List Line} {l : Limits}
    (h : ∀ line ∈ lines, line.Within l) (offset : Nat) (b : Baseline) :
    decodeLines l ((encodeLines lines b).1.map bytes) offset b =
      (.ok lines, (encodeLines lines b).2) := by
  induction lines generalizing offset b with
  | nil => rfl
  | cons line lines ih =>
    have hline : line.Within l := h line List.mem_cons_self
    have hlines : ∀ line ∈ lines, line.Within l := fun k hk => h k (List.mem_cons_of_mem _ hk)
    simp only [encodeLines, List.map_cons, decodeLines, Line.decode_encode hline, ih hlines]
    rfl

/-- No line holds a semicolon, so the semicolons of a text tell its lines apart. -/
theorem splitOn_bytes_intercalate {lines : List Line} (h : lines ≠ []) (b : Baseline) :
    (bytes (";".intercalate (encodeLines lines b).1)).splitOn semicolon =
      (encodeLines lines b).1.map bytes := by
  rw [Text.bytes_intercalate, Text.bytes_semicolon]
  refine List.splitOn_intercalate semicolon ?_ ?_
  · intro t ht
    obtain ⟨text, htext, rfl⟩ := List.mem_map.1 ht
    obtain ⟨line, c, rfl⟩ := mem_encodeLines htext
    exact Line.semicolon_notMem_bytes_encode line c
  · obtain ⟨line, lines, rfl⟩ := List.exists_cons_of_ne_nil h
    simp [encodeLines]

/-! ## Reading what was written -/

theorem linesOf_intercalate {lines : List Line} {l : Limits}
    (h : ∀ line ∈ lines, line.Within l) :
    linesOf (";".intercalate (encodeLines lines .zero).1) l =
      .ok (dropEndWhile List.isEmpty lines) := by
  by_cases hne : lines = []
  · rw [hne]
    rfl
  · obtain ⟨c, hc⟩ := decodeLines_dropEndWhile (decodeLines_encodeLines h 0 .zero)
    rw [linesOf, decode, replay, lineTexts_ofText, splitOn_bytes_intercalate hne, hc]

/-- Lines that are written are read back, in any limits that admit them. Empty lines at the end
leave no trace in the text. -/
theorem linesOf_textOf {lines : List Line} {limits : Limits}
    (h : ∀ line ∈ lines, line.Within limits) :
    ∃ text, textOf lines = .ok text ∧
      (∀ c ∈ text.toList, c.isAlphanum ∨ c ∈ ['+', '/', ',', ';']) ∧
      linesOf text limits = .ok (dropEndWhile List.isEmpty lines) := by
  refine ⟨_, textOf_eq lines, ?_, linesOf_intercalate h⟩
  intro c hc
  rw [String.toList_intercalate] at hc
  rcases Text.mem_intercalate hc with hc | ⟨_, ht, hc⟩
  · exact .inr (by simp_all)
  · obtain ⟨text, htext, rfl⟩ := List.mem_map.1 ht
    obtain ⟨line, b, rfl⟩ := mem_encodeLines htext
    rcases Line.mem_toList_encode hc with rfl | ⟨d, rfl⟩
    · exact .inr (by decide)
    · have hd := d.isAlphanum_char
      simp only [List.mem_cons]
      tauto

/-- Columns descend, every field takes its largest value, and two lines at the end are empty. -/
def Sample.descending : List Line :=
  [[], [⟨9, some ⟨2, 4294967295, 0, some 1⟩⟩, ⟨4, some ⟨0, 0, 4294967295, none⟩⟩, ⟨0, none⟩], [],
    []]

open Sample

theorem linesOf_textOf_descending :
    ∃ text, textOf descending = .ok text ∧ linesOf text ⟨3, 2⟩ = .ok (descending.take 2) := by
  have hw : ∀ line ∈ descending, line.Within ⟨3, 2⟩ := by decide
  obtain ⟨text, htext, -, hlines⟩ := linesOf_textOf hw
  exact ⟨text, htext, hlines⟩

end Mappings

end SourceMap
