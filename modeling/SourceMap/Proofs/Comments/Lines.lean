import SourceMap.Proofs.Comments.Grammar

/-!
# Comments line by line

A text falls into lines, each with the line feed that ends it. A comment lies within one of them, so
what is found in a text, and what is left of it, is put together from what is found and left of its
lines.

## Main definitions

* `Body.lines` : the lines of a text.
* `Body.Complete` : a line starts behind a text.
* `Body.leftover` : what is left of one line.

## Main statements

* `firstValue?_eq`, `dropComments_eq` : texts by their lines.
* `stripComments_linewise` : complete texts are looked at apart from what follows them, and lines
  that start with a comment are taken out whole.
-/

namespace SourceMap.Body

/-! ## Lines -/

/-- The lines of a text, each with the line feed that ends it. -/
def lines : List Char → List (List Char)
  | [] => []
  | c :: cs =>
    if c = '\n' then [c] :: lines cs
    else
      match lines cs with
      | [] => [[c]]
      | line :: rest => (c :: line) :: rest

/-- The text is empty or ends in a line feed, so that a line starts behind it. -/
def Complete (cs : List Char) : Prop := cs = [] ∨ ∃ front, cs = front ++ ['\n']

theorem complete_iff {cs : List Char} : Complete cs ↔ cs.getLast?.all (· = '\n') := by
  rcases List.eq_nil_or_concat cs with rfl | ⟨front, c, rfl⟩ <;> simp [Complete]

instance (cs : List Char) : Decidable (Complete cs) := decidable_of_iff _ complete_iff.symm

theorem complete_nil : Complete [] := .inl rfl

theorem Complete.append {a b : List Char} (ha : Complete a) (hb : Complete b) :
    Complete (a ++ b) := by
  obtain rfl | ⟨front, rfl⟩ := hb
  · rwa [List.append_nil]
  · exact .inr ⟨a ++ front, by rw [List.append_assoc]⟩

theorem Complete.of_suffix {a b : List Char} (ha : Complete a) (h : b <:+ a) : Complete b := by
  obtain rfl | ⟨front, rfl⟩ := ha
  · exact .inl (List.suffix_nil.1 h)
  · rcases List.suffix_concat_iff.1 h with rfl | ⟨front', rfl, -⟩
    · exact complete_nil
    · exact .inr ⟨front', rfl⟩

@[simp] theorem flatten_lines (cs : List Char) : (lines cs).flatten = cs := by
  fun_induction lines cs <;> simp_all

theorem lines_ne_nil {cs : List Char} (h : cs ≠ []) : lines cs ≠ [] := by
  intro hnil
  have hflat := flatten_lines cs
  rw [hnil] at hflat
  exact h hflat.symm

theorem lines_of_notMem {cs : List Char} (h : '\n' ∉ cs) (hne : cs ≠ []) : lines cs = [cs] := by
  fun_induction lines cs with
  | case1 => contradiction
  | case2 => simp at h
  | case3 c cs hc hnil ih =>
    obtain rfl : [] = cs := by simpa [hnil] using flatten_lines cs
    rfl
  | case4 c cs hc line rest hcons ih =>
    have hcs : cs ≠ [] := by
      rintro rfl
      cases hcons
    obtain ⟨rfl, rfl⟩ := List.cons.inj (hcons.symm.trans (ih (List.not_mem_of_not_mem_cons h) hcs))
    rfl

theorem lines_append_newline (front cs : List Char) :
    lines (front ++ '\n' :: cs) = lines (front ++ ['\n']) ++ lines cs := by
  induction front with
  | nil => simp [lines]
  | cons c front ih =>
    have hne : front ++ ['\n'] ≠ [] := by simp
    obtain ⟨line, rest, hfront⟩ := List.exists_cons_of_ne_nil (lines_ne_nil hne)
    simp only [List.cons_append, lines, ih, hfront]
    split <;> rfl

theorem lines_append {a : List Char} (ha : Complete a) (b : List Char) :
    lines (a ++ b) = lines a ++ lines b := by
  obtain rfl | ⟨front, rfl⟩ := ha
  · rfl
  · rw [List.append_assoc, List.singleton_append, lines_append_newline]

theorem lines_line {body : List Char} (h : '\n' ∉ body) (rest : List Char) :
    lines (body ++ '\n' :: rest) = (body ++ ['\n']) :: lines rest := by
  induction body with
  | nil => simp [lines]
  | cons c body ih =>
    have hc : c ≠ '\n' := fun hc => h (hc ▸ List.mem_cons_self)
    simp only [List.cons_append, lines, if_neg hc, ih (List.not_mem_of_not_mem_cons h)]

/-- A text is taken apart line by line, and the last line need not end. -/
@[elab_as_elim]
theorem lines_induction {P : List Char → Prop} (last : ∀ body, '\n' ∉ body → P body)
    (line : ∀ body rest, '\n' ∉ body → P rest → P (body ++ '\n' :: rest)) (cs : List Char) :
    P cs := by
  -- what has been seen of the current line comes first
  have hopen : ∀ body, '\n' ∉ body → P (body ++ cs) := by
    induction cs with
    | nil =>
      intro body h
      rw [List.append_nil]
      exact last body h
    | cons c cs ih =>
      intro body h
      by_cases hc : c = '\n'
      · subst hc
        exact line body cs h (ih [] (by simp))
      · have hnext := ih (body ++ [c]) (by simp [h, Ne.symm hc])
        rwa [List.append_assoc] at hnext
  exact hopen [] (by simp)

theorem exists_of_mem_lines {cs line : List Char} (h : line ∈ lines cs) :
    ∃ body, '\n' ∉ body ∧ (line = body ∨ line = body ++ ['\n']) := by
  induction cs using lines_induction with
  | last body hbody =>
    by_cases hne : body = []
    · subst hne
      cases h
    · rw [lines_of_notMem hbody hne, List.mem_singleton] at h
      exact ⟨body, hbody, .inl h⟩
  | line body rest hbody ih =>
    rw [lines_line hbody] at h
    rcases List.mem_cons.1 h with rfl | h
    · exact ⟨body, hbody, .inr rfl⟩
    · exact ih h

/-! ## One line -/

/-- What is left of a line. A carriage return ends a comment, but not its line. -/
def leftover (line : List Char) : List Char :=
  match comment? line with
  | none => line
  | some (_, rest) => (dropBreak rest).2

theorem leftover_of_none {line : List Char} (h : comment? line = none) : leftover line = line := by
  simp [leftover, h]

theorem leftover_of_some {line value rest : List Char} (h : comment? line = some (value, rest)) :
    leftover line = (dropBreak rest).2 := by
  simp [leftover, h]

theorem dropBreak_suffix (cs : List Char) : (dropBreak cs).2 <:+ cs := by
  unfold dropBreak
  split
  · exact ⟨['\r', '\n'], rfl⟩
  · exact List.suffix_cons ..
  · exact List.suffix_cons ..
  · exact List.suffix_rfl

theorem leftover_suffix (line : List Char) : leftover line <:+ line := by
  cases hc : comment? line with
  | none =>
    rw [leftover_of_none hc]
  | some found =>
    obtain ⟨⟨head, -, hline⟩, -⟩ := comment?_eq_some_iff.1 hc
    rw [leftover_of_some hc, hline, ← List.append_assoc]
    exact (dropBreak_suffix _).trans (List.suffix_append ..)

@[simp] theorem dropComments_nil (atStart : Bool) : dropComments atStart [] = [] := by
  rw [dropComments]

theorem dropComments_of_comment {cs value rest : List Char}
    (h : comment? cs = some (value, rest)) :
    dropComments true cs = dropComments (dropBreak rest).1 (dropBreak rest).2 := by
  cases cs with
  | nil => cases h
  | cons c cs =>
    have hat : commentAt? true (c :: cs) = some (value, rest) := h
    rw [dropComments]
    split <;> simp_all

theorem dropComments_cons {atStart : Bool} {c : Char} {cs : List Char}
    (h : commentAt? atStart (c :: cs) = none) :
    dropComments atStart (c :: cs) = c :: dropComments (c = '\n') cs := by
  rw [dropComments]
  split <;> simp_all

theorem dropComments_newline (atStart : Bool) (cs : List Char) :
    dropComments atStart ('\n' :: cs) = '\n' :: dropComments true cs :=
  dropComments_cons (by cases atStart <;> rfl)

/-- Behind the start of a line all is kept up to its end. -/
theorem dropComments_false_append {body : List Char} (h : '\n' ∉ body) (cs : List Char) :
    dropComments false (body ++ cs) = body ++ dropComments false cs := by
  induction body with
  | nil => rfl
  | cons c body ih =>
    have hc : (c = '\n') = False := by grind
    rw [List.cons_append, dropComments_cons rfl]
    simp [hc, ih (List.not_mem_of_not_mem_cons h)]

theorem firstValue?_newline (atStart : Bool) (cs : List Char) :
    firstValue? atStart ('\n' :: cs) = firstValue? true cs := by
  cases atStart <;> rfl

theorem firstValue?_false_append {body : List Char} (h : '\n' ∉ body) (cs : List Char) :
    firstValue? false (body ++ cs) = firstValue? false cs := by
  induction body with
  | nil => rfl
  | cons c body ih =>
    have hc : (c = '\n') = False := by grind
    simpa [firstValue?, commentAt?, hc] using ih (List.not_mem_of_not_mem_cons h)

/-- In a line without its line feed, the text behind a comment starts with a carriage return. -/
theorem comment?_cases {body : List Char} (h : '\n' ∉ body) :
    comment? body = none ∨ (∃ value, comment? body = some (value, [])) ∨
      ∃ value rest, comment? body = some (value, '\r' :: rest) ∧ '\n' ∉ rest := by
  rcases hc : comment? body with _ | ⟨value, _ | ⟨c, rest⟩⟩
  · exact .inl rfl
  · exact .inr (.inl ⟨value, rfl⟩)
  · obtain ⟨⟨head, -, rfl⟩, -, hrest⟩ := comment?_eq_some_iff.1 hc
    have hbreak := hrest c rfl
    grind [isBreak]

theorem dropBreak_cr_of_ne {c : Char} (hc : c ≠ '\n') (cs : List Char) :
    dropBreak ('\r' :: c :: cs) = (false, c :: cs) := by
  simp [dropBreak, hc]

/-- A line without a comment is kept. -/
theorem dropComments_append_of_none {body : List Char} (h : '\n' ∉ body) {more : List Char}
    (hmore : ∀ c ∈ more.head?, c = '\n') (hc : comment? (body ++ more) = none) :
    dropComments true (body ++ more) = body ++ dropComments false more := by
  cases body with
  | nil =>
    cases more with
    | nil => simp
    | cons c more =>
      obtain rfl : c = '\n' := hmore c rfl
      rw [List.nil_append, List.nil_append, dropComments_newline, dropComments_newline]
  | cons c body =>
    have hne : (c = '\n') = False := by grind
    have hat : commentAt? true (c :: (body ++ more)) = none := hc
    rw [List.cons_append, dropComments_cons hat]
    simp [hne, dropComments_false_append (List.not_mem_of_not_mem_cons h)]

theorem dropComments_last {body : List Char} (h : '\n' ∉ body) :
    dropComments true body = leftover body := by
  rcases comment?_cases h with hc | ⟨value, hc⟩ | ⟨value, tail, hc, htail⟩
  · have hnone : comment? (body ++ []) = none := by rwa [List.append_nil]
    have hkept := dropComments_append_of_none h (by simp) hnone
    simpa [leftover_of_none hc] using hkept
  · rw [dropComments_of_comment hc, leftover_of_some hc]
    simp [dropBreak]
  · rw [dropComments_of_comment hc, leftover_of_some hc]
    cases tail with
    | nil => simp [dropBreak]
    | cons c tail =>
      have hkept := dropComments_false_append htail []
      rw [dropBreak_cr_of_ne (by grind)]
      simpa using hkept

theorem dropComments_line {body : List Char} (h : '\n' ∉ body) (rest : List Char) :
    dropComments true (body ++ '\n' :: rest) =
      leftover (body ++ ['\n']) ++ dropComments true rest := by
  have hline := comment?_append_newline body []
  have hall := comment?_append_newline body rest
  rcases comment?_cases h with hc | ⟨value, hc⟩ | ⟨value, tail, hc, htail⟩ <;> rw [hc] at hline hall
  · rw [dropComments_append_of_none h (by simp) hall, dropComments_newline, leftover_of_none hline]
    simp
  · rw [dropComments_of_comment hall, leftover_of_some hline]
    rfl
  · rw [dropComments_of_comment hall, leftover_of_some hline]
    cases tail with
    | nil => rfl
    | cons c tail =>
      have hne : c ≠ '\n' := by grind
      rw [List.cons_append, List.cons_append, List.cons_append, List.cons_append,
        dropBreak_cr_of_ne hne, dropBreak_cr_of_ne hne, ← List.cons_append,
        dropComments_false_append htail, dropComments_newline]
      simp

theorem firstValue?_last {body : List Char} (h : '\n' ∉ body) :
    firstValue? true body = (comment? body).map Prod.fst := by
  cases body with
  | nil => rfl
  | cons c body =>
    have hne : (c = '\n') = False := by grind
    have hrest := firstValue?_false_append (List.not_mem_of_not_mem_cons h) []
    rw [List.append_nil] at hrest
    cases hc : comment? (c :: body) <;> simp [firstValue?, commentAt?, hc, hne, hrest]

theorem firstValue?_line {body : List Char} (h : '\n' ∉ body) (rest : List Char) :
    firstValue? true (body ++ '\n' :: rest) =
      ((comment? (body ++ ['\n'])).map Prod.fst).or (firstValue? true rest) := by
  cases body with
  | nil => rw [List.nil_append, firstValue?_newline]; rfl
  | cons c body =>
    have hne : (c = '\n') = False := by grind
    have hrest := firstValue?_false_append (List.not_mem_of_not_mem_cons h) ('\n' :: rest)
    rw [firstValue?_newline] at hrest
    have hall := comment?_append_newline (c :: body) rest
    rw [List.cons_append] at hall
    rw [comment?_append_newline, List.cons_append]
    cases hc : comment? (c :: body) <;> simp [firstValue?, commentAt?, hall, hc, hne, hrest]

/-! ## All lines -/

/-- The first value is that of the first line that starts with a comment. -/
theorem firstValue?_eq (cs : List Char) :
    firstValue? true cs = (lines cs).findSome? fun line => (comment? line).map Prod.fst := by
  induction cs using lines_induction with
  | last body h =>
    rw [firstValue?_last h]
    by_cases hne : body = []
    · subst hne
      rfl
    · simp [lines_of_notMem h hne]
  | line body rest h ih =>
    rw [firstValue?_line h, lines_line h, List.findSome?_cons, ih]
    cases comment? (body ++ ['\n']) <;> rfl

/-- What is left of a text is what is left of its lines. -/
theorem dropComments_eq (cs : List Char) : dropComments true cs = (lines cs).flatMap leftover := by
  induction cs using lines_induction with
  | last body h =>
    rw [dropComments_last h]
    by_cases hne : body = []
    · subst hne
      rfl
    · simp [lines_of_notMem h hne]
  | line body rest h ih => rw [dropComments_line h, lines_line h, List.flatMap_cons, ih]

theorem firstValue?_append {a : List Char} (ha : Complete a) (b : List Char) :
    firstValue? true (a ++ b) = (firstValue? true a).or (firstValue? true b) := by
  simp [firstValue?_eq, lines_append ha]

theorem dropComments_append {a : List Char} (ha : Complete a) (b : List Char) :
    dropComments true (a ++ b) = dropComments true a ++ dropComments true b := by
  simp [dropComments_eq, lines_append ha]

/-- A line is kept if it does not start with a comment. If it does, only what a carriage return
separates from the comment is left. -/
theorem leftover_cases {cs line : List Char} (h : line ∈ lines cs) :
    (¬ StartsComment line ∧ leftover line = line) ∨ (StartsComment line ∧ leftover line = []) ∨
      ∃ first rest, line = first ++ '\r' :: rest ∧ (∀ c ∈ first, isBreak c = false) ∧
        StartsComment first ∧ leftover line = rest := by
  obtain ⟨body, hbody, hline⟩ := exists_of_mem_lines h
  obtain ⟨more, rfl, hmore⟩ : ∃ more, line = body ++ more ∧ (more = [] ∨ more = ['\n']) := by
    rcases hline with rfl | rfl
    · exact ⟨[], by simp⟩
    · exact ⟨['\n'], by simp⟩
  have hbreak : ∀ c ∈ more.head?, isBreak c := by
    rcases hmore with rfl | rfl <;> simp [isBreak]
  have hread := comment?_append hbreak body
  rw [startsComment_append_iff hbreak]
  rcases comment?_cases hbody with hc | ⟨value, hc⟩ | ⟨value, tail, hc, htail⟩ <;> rw [hc] at hread
  · exact .inl ⟨by simp [startsComment_iff, hc], leftover_of_none hread⟩
  · refine .inr (.inl ⟨by simp [startsComment_iff, hc], ?_⟩)
    rw [leftover_of_some hread]
    rcases hmore with rfl | rfl <;> rfl
  · replace hread : comment? (body ++ more) = some (value, '\r' :: (tail ++ more)) := hread
    cases tail with
    | nil =>
      refine .inr (.inl ⟨by simp [startsComment_iff, hc], ?_⟩)
      rw [leftover_of_some hread]
      rcases hmore with rfl | rfl <;> rfl
    | cons c tail =>
      obtain ⟨⟨head, hhead, rfl⟩, hvalue, -⟩ := comment?_eq_some_iff.1 hc
      refine .inr (.inr ⟨head ++ value, c :: tail ++ more, by simp, ?_, ?_, ?_⟩)
      · intro d hd
        exact (List.mem_append.1 hd).elim (hhead.isBreak_eq_false d) (hvalue d)
      · exact ⟨head, hhead, List.prefix_append ..⟩
      · rw [leftover_of_some hread, List.cons_append, dropBreak_cr_of_ne (by grind)]

/-- Without a carriage return, nothing is left of a line that starts with a comment. -/
theorem leftover_of_notMem {cs line : List Char} (hcr : '\r' ∉ cs) (h : line ∈ lines cs) :
    leftover line = if StartsComment line then [] else line := by
  rcases leftover_cases h with ⟨hnot, hkept⟩ | ⟨hstarts, hnil⟩ | ⟨first, rest, rfl, -⟩
  · rw [if_neg hnot, hkept]
  · rw [if_pos hstarts, hnil]
  · have hmem : '\r' ∈ (lines cs).flatten := List.mem_flatten.2 ⟨_, h, by simp⟩
    rw [flatten_lines] at hmem
    exact absurd hmem hcr

theorem flatMap_ite_nil (p : List Char → Prop) [DecidablePred p] (ls : List (List Char)) :
    (ls.flatMap fun line => if p line then [] else line) = (ls.filter (¬ p ·)).flatten := by
  induction ls with
  | nil => rfl
  | cons line ls ih => by_cases h : p line <;> simp [h, ih]

/-- A text that a line starts behind is looked at apart from what follows it. -/
theorem stripComments_linewise :
    (∀ a b : String, Complete a.toList →
      stripComments (a ++ b) = stripComments a ++ stripComments b ∧
        mapUrl? (a ++ b) = (mapUrl? a).or (mapUrl? b)) ∧
    ∀ text : String, '\r' ∉ text.toList →
      stripComments text =
        String.ofList ((lines text.toList).filter (¬ StartsComment ·)).flatten := by
  constructor
  · intro a b ha
    simp only [stripComments, mapUrl?, String.toList_append, dropComments_append ha,
      firstValue?_append ha, String.ofList_append]
    cases firstValue? true a.toList <;> simp
  · intro text hcr
    rw [stripComments, dropComments_eq, ← flatMap_ite_nil]
    exact congrArg _ (List.flatMap_congr fun line hline => leftover_of_notMem hcr hline)

/-- Comments in both forms and with blanks. The last line is none: the mark does not start it. -/
theorem stripComments_linewise_bothForms :
    (Complete "a();\n//# sourceMappingURL=a.js.map\n".toList ∧
      stripComments ("a();\n//# sourceMappingURL=a.js.map\n" ++ "b();\n") = "a();\n" ++ "b();\n" ∧
      mapUrl? ("a();\n//# sourceMappingURL=a.js.map\n" ++ "b();\n") = some "a.js.map") ∧
    '\r' ∉ "//@\tſourcemappingurl = b.js.map\n\nc() //# sourceMappingURL=c".toList ∧
      stripComments "//@\tſourcemappingurl = b.js.map\n\nc() //# sourceMappingURL=c" =
        "\nc() //# sourceMappingURL=c" := by
  obtain ⟨happend, hlines⟩ := stripComments_linewise
  have ha : Complete "a();\n//# sourceMappingURL=a.js.map\n".toList := by decide +kernel
  have hcr : '\r' ∉ "//@\tſourcemappingurl = b.js.map\n\nc() //# sourceMappingURL=c".toList := by
    decide +kernel
  obtain ⟨hstrip, hurl⟩ := happend _ "b();\n" ha
  exact ⟨⟨ha, hstrip.trans (by decide +kernel), hurl.trans (by decide +kernel)⟩, hcr,
    (hlines _ hcr).trans (by decide +kernel)⟩

end SourceMap.Body
