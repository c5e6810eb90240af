import SourceMap.Mappings.Step
import SourceMap.Mappings.Walk
import SourceMap.Proofs.Faults.Place
import SourceMap.Proofs.Faults.Span
import SourceMap.Proofs.RoundTrip.Text

/-!
# The place of an error

A walk gives the lines of a text one after another, up to the first that cannot be read. The place
that its error is reported at counts the lines and the segments that were read before it.

## Main definitions

* `Mappings.lineItems` : what a walk gives for lines that are told apart.
* `Mappings.FailsAt` : what was read before an error.

## Main statements

* `Mappings.consistent_after` : what is kept beside mapping text always agrees with it.
* `Mappings.items_walk` : a walk tells the lines apart by their semicolons.
* `Mappings.place_of_decode_eq_error` : the place of an error.
-/

namespace SourceMap

open Text (bytes comma semicolon Span)

namespace Mappings

/-! ## Steps keep the text consistent -/

theorem Consistent.apply {m : Mappings} (hm : m.Consistent) (s : Step) :
    (s.apply m).Consistent := by
  cases s with
  | takeOver text => exact consistent_ofText text
  | append line =>
    unfold Step.apply Step.run
    split
    · rename_i n hn
      obtain ⟨-, -, -, -, -, -, -, hc⟩ := append_eq_ok hm hn
      exact hc
    · exact hm
  | extendTo n => exact hm.extendTo n
  | resume l =>
    unfold Step.apply Step.run
    split
    · rename_i n hn
      exact hm.resume hn
    · exact hm

theorem consistent_after (steps : List Step) : (after steps).Consistent := by
  unfold after
  induction steps using List.reverseRecOn with
  | nil => exact consistent_empty
  | append_singleton steps s ih =>
    rw [List.foldl_append]
    exact ih.apply s

/-! ## Walks -/

/-- The lines with these texts, up to the first that cannot be read. -/
def lineItems (l : Limits) :
    List (List UInt8) → Nat → Baseline → List (Except MappingError Line × Baseline)
  | [], _, _ => []
  | text :: rest, offset, b =>
    match Line.decode l text offset b with
    | (.error e, b) => [(.error e, b)]
    | (.ok line, b) => (.ok line, b) :: lineItems l rest (offset + text.length + 1) b

end Mappings

namespace Walk

theorem items_of_remaining_eq_zero {w : Walk} (h : w.remaining = 0) : w.items = [] := by
  have hnext : w.next? = none := by simp [next?, h]
  rw [items]
  split
  · rfl
  · simp_all

theorem items_of_next? {w v : Walk} {line : Except MappingError Line}
    (h : w.next? = some (line, v)) : w.items = (line, v.baseline) :: v.items := by
  rw [items]
  split <;> simp_all

theorem takeWhile_intercalate {t : List UInt8} (h : semicolon ∉ t) (ts : List (List UInt8)) :
    ([semicolon].intercalate (t :: ts)).takeWhile (· ≠ semicolon) = t := by
  have ht : ∀ x ∈ t, decide (x ≠ semicolon) = true := by
    rintro x hx
    exact decide_eq_true fun h' => h (h' ▸ hx)
  cases ts with
  | nil => simpa using List.takeWhile_eq_self_iff.2 ht
  | cons u ts =>
    rw [List.intercalate_cons_cons, List.append_assoc, List.takeWhile_append_of_pos ht]
    simp

theorem drop_intercalate (t : List UInt8) (ts : List (List UInt8)) :
    ([semicolon].intercalate (t :: ts)).drop (t.length + 1) = [semicolon].intercalate ts := by
  cases ts with
  | nil => simp
  | cons u ts => simp [List.intercalate_cons_cons, List.drop_append]

/-- A walk over lines that are put together gives what they are read as. -/
theorem items_intercalate {l : Limits} {ts : List (List UInt8)} (h : ∀ t ∈ ts, semicolon ∉ t)
    (offset : Nat) (b : Baseline) :
    items ⟨[semicolon].intercalate ts, offset, ts.length, b, l⟩ =
      Mappings.lineItems l ts offset b := by
  induction ts generalizing offset b with
  | nil => exact items_of_remaining_eq_zero rfl
  | cons t ts ih =>
    obtain ⟨ht, hts⟩ := List.forall_mem_cons.1 h
    rw [Mappings.lineItems]
    rcases hline : Line.decode l t offset b with ⟨e | line, c⟩
    · have hnext : next? ⟨[semicolon].intercalate (t :: ts), offset, (t :: ts).length, b, l⟩ =
          some (.error e, ⟨[semicolon].intercalate ts, offset + t.length + 1, 0, c, l⟩) := by
        simp only [next?, List.length_cons, takeWhile_intercalate ht, drop_intercalate, hline]
      rw [items_of_next? hnext, items_of_remaining_eq_zero rfl]
    · have hnext : next? ⟨[semicolon].intercalate (t :: ts), offset, (t :: ts).length, b, l⟩ =
          some (.ok line,
            ⟨[semicolon].intercalate ts, offset + t.length + 1, ts.length, c, l⟩) := by
        simp only [next?, List.length_cons, takeWhile_intercalate ht, drop_intercalate, hline]
      rw [items_of_next? hnext, ih hts]

end Walk

namespace Mappings

/-- No line holds a semicolon, and the lines with semicolons between them are the text. -/
theorem lineTexts_spec {m : Mappings} (hm : m.Consistent) :
    (∀ t ∈ m.lineTexts, semicolon ∉ t) ∧ [semicolon].intercalate m.lineTexts = bytes m.text := by
  by_cases h0 : m.lineCount = 0
  · simp [lineTexts, isEmpty, h0, hm.text_eq h0]
  · rw [lineTexts_of_ne_zero h0]
    exact ⟨fun t => Text.notMem_of_mem_splitOn, List.intercalate_splitOn semicolon⟩

/-- A walk looks for one line after another, and finds what the semicolons tell apart. -/
theorem items_walk {m : Mappings} (hm : m.Consistent) (l : Limits) :
    (m.walk l).items = lineItems l m.lineTexts 0 .zero := by
  obtain ⟨hlines, htext⟩ := lineTexts_spec hm
  rw [walk, ← htext, ← hm.length_lineTexts]
  exact Walk.items_intercalate hlines 0 .zero

/-- The items before an error are the lines that were read. -/
theorem lineItems_append {l : Limits} {before : List (List UInt8)} {offset : Nat}
    {b c : Baseline} {lines : List Line} (h : decodeLines l before offset b = (.ok lines, c))
    (after : List (List UInt8)) :
    (lineItems l (before ++ after) offset b).map Prod.fst = lines.map .ok ++
      (lineItems l after (offset + (before.map (·.length + 1)).sum) c).map Prod.fst := by
  induction before generalizing offset b lines with
  | nil =>
    cases h
    rfl
  | cons t before ih =>
    obtain ⟨line, d, rest, rfl, hline, hrest⟩ := decodeLines_cons_eq_ok_iff.1 h
    have hoff : offset + t.length + 1 + (before.map (·.length + 1)).sum =
        offset + ((t :: before).map (·.length + 1)).sum := by
      simp only [List.map_cons, List.sum_cons]
      omega
    rw [List.cons_append, lineItems, hline]
    simp only [List.map_cons, ih hrest, hoff, List.cons_append]

/-! ## Where reading stops -/

/-- Reading stops with `e` behind `lines` and, in the line that comes next, behind the segments
`start`. -/
structure FailsAt (m : Mappings) (limits : Limits) (e : MappingError) (lines : List Line)
    (start : Line) : Prop where
  items_eq : (m.walk limits).items.map Prod.fst = lines.map .ok ++ [.error e]
  exists_token : ∃ before text after tokens token rest b c d,
    m.lineTexts = before ++ text :: after ∧ Line.tokens text = tokens ++ token :: rest ∧
    decodeLines limits before 0 .zero = (.ok lines, b) ∧
    Line.decodeTokens limits tokens (before.map (·.length + 1)).sum b.newLine = (.ok start, c) ∧
    Segment.decode limits ((before.map (·.length + 1)).sum + (tokens.map (·.length + 1)).sum) token
      c = (.error e, d)

theorem exists_failsAt {m : Mappings} (hm : m.Consistent) {l : Limits} {e : MappingError}
    (h : m.decode l = .error e) : ∃ lines start, m.FailsAt l e lines start := by
  obtain ⟨_, hfail⟩ := exists_decodeLines_of_decode h
  obtain ⟨before, text, after, lines, b, hlines, hbefore, hline⟩ := decodeLines_eq_error hfail
  rw [Nat.zero_add] at hline
  obtain ⟨tokens, token, rest, start, c, htokens, hstart, htoken⟩ :=
    Line.decodeTokens_eq_error hline
  refine ⟨lines, start, ?_, before, text, after, tokens, token, rest, b, c, _, hlines, htokens,
    hbefore, hstart, htoken⟩
  rw [items_walk hm, hlines, lineItems_append hbefore, Nat.zero_add, lineItems, hline]
  rfl

/-- The text before a piece, where no piece before it holds a separator. -/
theorem count_flatMap_separated {sep : UInt8} {pieces : List (List UInt8)}
    (h : ∀ t ∈ pieces, sep ∉ t) : (pieces.flatMap (· ++ [sep])).count sep = pieces.length := by
  induction pieces with
  | nil => rfl
  | cons t pieces ih =>
    obtain ⟨ht, hpieces⟩ := List.forall_mem_cons.1 h
    simp [List.count_append, List.count_eq_zero_of_not_mem ht, ih hpieces]

theorem length_flatMap_separated (sep : UInt8) (pieces : List (List UInt8)) :
    (pieces.flatMap (· ++ [sep])).length = (pieces.map (·.length + 1)).sum := by
  simp [List.length_flatMap]

theorem flatMap_separated_eq_or (sep : UInt8) (pieces : List (List UInt8)) :
    pieces.flatMap (· ++ [sep]) = [] ∨ ∃ xs, pieces.flatMap (· ++ [sep]) = xs ++ [sep] := by
  rcases List.eq_nil_or_concat pieces with rfl | ⟨pieces, t, rfl⟩
  · exact .inl rfl
  · exact .inr ⟨pieces.flatMap (· ++ [sep]) ++ t, by simp⟩

/-- The text is taken apart at the line where reading stops, and around the bytes at fault. -/
theorem FailsAt.exists_bytes_eq {m : Mappings} (hm : m.Consistent) {l : Limits} {e : MappingError}
    {lines : List Line} {start : Line} (h : m.FailsAt l e lines start) :
    ∃ before line fault rest, bytes m.text = before ++ line ++ (fault ++ rest) ∧
      e.span? = some ⟨(before ++ line).length, fault.length⟩ ∧
      (before = [] ∨ ∃ xs, before = xs ++ [semicolon]) ∧ before.count semicolon = lines.length ∧
      line.count comma = start.length ∧ semicolon ∉ line ++ fault ∧ comma ∉ fault := by
  obtain ⟨before, text, after, tokens, token, rest, b, c, d, hlines, htokens, hbefore, hstart,
    htoken⟩ := h.exists_token
  obtain ⟨span, hspan, hinside⟩ := Segment.decode_eq_error htoken
  obtain ⟨xs, fault, ys, rfl, rfl⟩ := hinside.exists_eq
  obtain ⟨hsemicolon, htext⟩ := lineTexts_spec hm
  rw [hlines] at hsemicolon htext
  obtain ⟨hsemicolonBefore, hsemicolonLine⟩ := List.forall_mem_append.1 hsemicolon
  have hcomma : ∀ t ∈ tokens ++ (xs ++ fault ++ ys) :: rest, comma ∉ t := fun t ht =>
    Line.comma_notMem_of_mem_tokens (htokens ▸ ht)
  obtain ⟨hcommaTokens, hcommaToken⟩ := List.forall_mem_append.1 hcomma
  have hcommaToken := hcommaToken _ List.mem_cons_self
  simp only [List.mem_append, not_or] at hcommaToken
  have hline := Line.intercalate_tokens text
  rw [htokens, Text.intercalate_append_cons] at hline
  rw [Text.intercalate_append_cons] at htext
  refine ⟨before.flatMap (· ++ [semicolon]), tokens.flatMap (· ++ [comma]) ++ xs, fault,
    ys ++ rest.flatMap (comma :: ·) ++ after.flatMap (semicolon :: ·), ?_, ?_,
    flatMap_separated_eq_or .., ?_, ?_, ?_, hcommaToken.1.2⟩
  · rw [← htext, ← hline]
    simp only [List.append_assoc]
  · rw [hspan]
    simp only [List.length_append, length_flatMap_separated, Nat.add_assoc]
  · rw [count_flatMap_separated hsemicolonBefore, length_eq_of_decodeLines hbefore]
  · have hxs : xs.count comma = 0 := List.count_eq_zero_of_not_mem hcommaToken.1.1
    rw [List.count_append, hxs, count_flatMap_separated hcommaTokens,
      Line.length_eq_of_decodeTokens hstart, Nat.add_zero]
  · have htextLine := hsemicolonLine text List.mem_cons_self
    rw [← hline] at htextLine
    simp only [List.mem_append, not_or] at htextLine ⊢
    tauto

/-- An error is reported at the line and at the segment where reading stopped, and what it points at
holds no separator. -/
theorem place_of_decode_eq_error {steps : List Step} {limits : Limits} {e : MappingError}
    (h : (after steps).decode limits = .error e) :
    ∃ span lines start, e.span? = some span ∧ (after steps).FailsAt limits e lines start ∧
      span.offset + span.length ≤ (bytes (after steps).text).length ∧
      (∀ x ∈ ((bytes (after steps).text).drop span.offset).take span.length,
        x ≠ comma ∧ x ≠ semicolon) ∧
      ((Separators.ofBytes (bytes (after steps).text)).place span.offset).line =
        lines.length + 1 ∧
      ((Separators.ofBytes (bytes (after steps).text)).place span.offset).segment =
        start.length + 1 := by
  obtain ⟨lines, start, hfails⟩ := exists_failsAt (consistent_after steps) h
  obtain ⟨before, line, fault, rest, htext, hspan, hends, hlines, hstart, hsemicolon, hcomma⟩ :=
    hfails.exists_bytes_eq (consistent_after steps)
  obtain ⟨hsemicolonLine, hsemicolonFault⟩ : semicolon ∉ line ∧ semicolon ∉ fault := by
    simpa using hsemicolon
  have hplace := Separators.place_append (fault ++ rest) hends hsemicolonLine
  rw [← htext, ← List.length_append, hlines, hstart] at hplace
  refine ⟨_, lines, start, hspan, hfails, ?_, ?_, ?_, ?_⟩
  · rw [htext]
    simp only [List.length_append]
    omega
  · intro x hx
    dsimp only at hx
    rw [htext, List.drop_left, List.take_left] at hx
    exact ⟨fun h => hcomma (h ▸ hx), fun h => hsemicolonFault (h ▸ hx)⟩
  · rw [hplace]
  · rw [hplace]

/-- A comma at the end of the text, behind an empty line, leaves a token without values there. -/
def Sample.openEnded : List Step := [.takeOver "A;;AAAA,"]

open Sample

theorem place_of_decode_eq_error_openEnded :
    (after openEnded).decode ⟨1, 0⟩ = .error (.valueCount 0 ⟨8, 0⟩) ∧
      ∃ lines start, (after openEnded).FailsAt ⟨1, 0⟩ (.valueCount 0 ⟨8, 0⟩) lines start ∧
        lines.length = 2 ∧ start.length = 1 := by
  have h : (after openEnded).decode ⟨1, 0⟩ = .error (.valueCount 0 ⟨8, 0⟩) := by decide +kernel
  obtain ⟨span, lines, start, hspan, hfails, -, -, hline, hsegment⟩ := place_of_decode_eq_error h
  obtain rfl : ⟨8, 0⟩ = span := Option.some_inj.1 hspan
  have hplace : (Separators.ofBytes (bytes (after openEnded).text)).place 8 = ⟨3, 2, 6⟩ := by
    decide +kernel
  rw [hplace] at hline hsegment
  exact ⟨h, lines, start, hfails, Nat.succ.inj hline.symm, Nat.succ.inj hsegment.symm⟩

end Mappings

end SourceMap
