import Mathlib
import SourceMap.Body

/-!
# The grammar of comments

What is read as a comment, whatever way it is read. A comment opens with its mark, the keyword and
`=`, and all that follows up to the line break is its value. So a comment lies within one line, and
it is the same comment whatever follows that line.

## Main definitions

* `Body.Opening` : what stands in front of the value.
* `Body.StartsComment` : a text has a comment at its front.

## Main statements

* `comment?_eq_some_iff` : the texts that are read as comments.
* `comment?_append` : a line break, and what follows it, is not part of the comment before it.
-/

namespace SourceMap.Body

/-- The mark, the keyword in any case with blanks around it, and `=`. -/
inductive Opening : List Char → Prop where
  | intro (mark : Char) (before word after : List Char) (hmark : mark = '#' ∨ mark = '@')
      (hbefore : ∀ c ∈ before, c = ' ' ∨ c = '\t')
      (hword : List.Forall₂ (fun letter c => isLetter letter c) keyword word)
      (hafter : ∀ c ∈ after, c = ' ' ∨ c = '\t') :
      Opening ('/' :: '/' :: mark :: (before ++ word ++ after ++ ['=']))

/-- A comment stands at the front of the text. -/
def StartsComment (cs : List Char) : Prop := ∃ head, Opening head ∧ head <+: cs

/-! ## Reading the parts -/

theorem dropWord?_eq_some_iff {word cs rest : List Char} : dropWord? word cs = some rest ↔
    ∃ text, List.Forall₂ (fun letter c => isLetter letter c) word text ∧ cs = text ++ rest := by
  fun_induction dropWord? word cs with
  | case1 cs =>
    simp only [Option.some.injEq, List.forall₂_nil_left_iff, exists_eq_left, List.nil_append]
  | case2 => simp
  | case3 letter word c cs hc ih =>
    rw [ih]
    constructor
    · rintro ⟨text, htext, rfl⟩
      exact ⟨c :: text, .cons hc htext, rfl⟩
    · rintro ⟨_, _ | ⟨-, htext⟩, hcs⟩
      obtain ⟨rfl, rfl⟩ := List.cons.inj hcs
      exact ⟨_, htext, rfl⟩
  | case4 letter word c cs hc =>
    refine iff_of_false (Option.some_ne_none _).symm ?_
    rintro ⟨_, _ | ⟨hletter, -⟩, hcs⟩
    obtain ⟨rfl, -⟩ := List.cons.inj hcs
    exact hc hletter

theorem exists_blanks_append_dropSpaces (cs : List Char) :
    ∃ blanks, (∀ c ∈ blanks, c = ' ' ∨ c = '\t') ∧ cs = blanks ++ dropSpaces cs := by
  refine ⟨cs.takeWhile fun c => c = ' ' || c = '\t', ?_, List.takeWhile_append_dropWhile.symm⟩
  intro c hc
  simpa using List.mem_takeWhile_imp hc

/-- Blanks are dropped up to the first character that is none. -/
theorem dropSpaces_append_cons {blanks : List Char} (h : ∀ c ∈ blanks, c = ' ' ∨ c = '\t')
    {c : Char} (hc : c ≠ ' ' ∧ c ≠ '\t') (cs : List Char) :
    dropSpaces (blanks ++ c :: cs) = c :: cs := by
  have hblank : ∀ c ∈ blanks, (c = ' ' || c = '\t') = true := fun c hc => by simpa using h c hc
  rw [dropSpaces, List.dropWhile_append_of_pos hblank]
  exact List.dropWhile_cons_of_neg (by simpa using hc)

theorem ne_blank_of_isLetter {c : Char} (h : isLetter 's' c) : c ≠ ' ' ∧ c ≠ '\t' := by
  constructor <;> rintro rfl <;> simp [isLetter] at h

/-! ## Reading a comment -/

/-- What opens a comment is read up to the value. -/
theorem comment?_opening_append {head : List Char} (h : Opening head) (cs : List Char) :
    comment? (head ++ cs) = some (cs.takeWhile (!isBreak ·), cs.dropWhile (!isBreak ·)) := by
  obtain ⟨mark, before, word, after, hmark, hbefore, hword, hafter⟩ := h
  obtain ⟨c, rest, rfl, hc⟩ : ∃ c rest, word = c :: rest ∧ isLetter 's' c := by
    cases hword with
    | cons hc _ => exact ⟨_, _, rfl, hc⟩
  have hm : (mark = '#' || mark = '@') = true := by simpa using hmark
  have hstart : dropSpaces (before ++ c :: rest ++ after ++ ['='] ++ cs) =
      c :: rest ++ (after ++ '=' :: cs) := by
    have hs := dropSpaces_append_cons hbefore (ne_blank_of_isLetter hc)
      (rest ++ (after ++ '=' :: cs))
    simpa using hs
  have hread : dropWord? keyword (c :: rest ++ (after ++ '=' :: cs)) = some (after ++ '=' :: cs) :=
    dropWord?_eq_some_iff.2 ⟨_, hword, rfl⟩
  have hend : dropSpaces (after ++ '=' :: cs) = '=' :: cs :=
    dropSpaces_append_cons hafter (by decide) cs
  change comment? ('/' :: '/' :: mark :: (before ++ c :: rest ++ after ++ ['='] ++ cs)) = _
  rw [comment?, if_pos hm, hstart, hread, Option.map_some, hend]
  rfl

theorem exists_opening_of_comment? {cs : List Char} (h : (comment? cs).isSome) :
    ∃ head tail, Opening head ∧ cs = head ++ tail := by
  unfold comment? at h
  split at h
  · rename_i mark cs
    split_ifs at h with hmark
    · split at h
      · rename_i tail hw
        obtain ⟨text, hword, hspaces⟩ := Option.map_eq_some_iff.1 hw
        obtain ⟨word, hletters, hcs⟩ := dropWord?_eq_some_iff.1 hword
        obtain ⟨before, hbefore, hb⟩ := exists_blanks_append_dropSpaces cs
        obtain ⟨after, hafter, ha⟩ := exists_blanks_append_dropSpaces text
        have hmark' : mark = '#' ∨ mark = '@' := by simpa using hmark
        refine ⟨_, tail, .intro mark before word after hmark' hbefore hletters hafter, ?_⟩
        rw [hb, hcs, ha, hspaces]
        simp
      · cases h
    · cases h
  · cases h

/-- A line break is a form of itself only. -/
theorem eq_of_isLetter_of_isBreak {letter c : Char} (h : isLetter letter c) (hc : isBreak c) :
    c = letter := by
  have hlower : c.toLower = c ∧ c ≠ 'ſ' := by
    simp only [isBreak, Bool.or_eq_true, decide_eq_true_eq] at hc
    rcases hc with rfl | rfl <;> decide
  grind [isLetter]

theorem mem_of_forall₂_isLetter {word text : List Char}
    (h : List.Forall₂ (fun letter c => isLetter letter c) word text) {c : Char} (hc : c ∈ text)
    (hbreak : isBreak c) : c ∈ word := by
  induction h with
  | nil => cases hc
  | cons hletter _ ih => grind [eq_of_isLetter_of_isBreak]

/-- No line break stands in front of the value. -/
theorem Opening.isBreak_eq_false {head : List Char} (h : Opening head) :
    ∀ c ∈ head, isBreak c = false := by
  obtain ⟨mark, before, word, after, hmark, hbefore, hword, hafter⟩ := h
  have hkeyword : keyword.any isBreak = false := by decide
  have hletters : ∀ c ∈ word, isBreak c = false := by
    intro c hc
    by_contra hbreak
    rw [Bool.not_eq_false] at hbreak
    exact List.any_eq_false.1 hkeyword c (mem_of_forall₂_isLetter hword hc hbreak) hbreak
  grind [isBreak]

/-- What is read as a comment with a value. -/
theorem comment?_eq_some_iff {cs value rest : List Char} : comment? cs = some (value, rest) ↔
    (∃ head, Opening head ∧ cs = head ++ (value ++ rest)) ∧ (∀ c ∈ value, isBreak c = false) ∧
      ∀ c ∈ rest.head?, isBreak c := by
  constructor
  · intro h
    have hsome : (comment? cs).isSome := by simp [h]
    obtain ⟨head, tail, hhead, rfl⟩ := exists_opening_of_comment? hsome
    rw [comment?_opening_append hhead] at h
    obtain ⟨rfl, rfl⟩ :
        tail.takeWhile (!isBreak ·) = value ∧ tail.dropWhile (!isBreak ·) = rest := by
      simpa using h
    refine ⟨⟨head, hhead, by rw [List.takeWhile_append_dropWhile]⟩, ?_, ?_⟩
    · intro c hc
      simpa using List.mem_takeWhile_imp hc
    · intro c hc
      have hfirst := List.head?_dropWhile_not (!isBreak ·) tail
      rw [hc] at hfirst
      simpa using hfirst
  · rintro ⟨⟨head, hhead, rfl⟩, hvalue, hrest⟩
    have hvalue' : ∀ c ∈ value, (!isBreak c) = true := fun c hc => by simp [hvalue c hc]
    rw [comment?_opening_append hhead, List.takeWhile_append_of_pos hvalue',
      List.dropWhile_append_of_pos hvalue']
    cases rest with
    | nil => simp
    | cons c rest => simp [hrest c rfl]

theorem startsComment_iff {cs : List Char} : StartsComment cs ↔ (comment? cs).isSome := by
  constructor
  · rintro ⟨head, hhead, tail, rfl⟩
    rw [comment?_opening_append hhead]
    rfl
  · intro h
    obtain ⟨head, tail, hhead, rfl⟩ := exists_opening_of_comment? h
    exact ⟨head, hhead, List.prefix_append ..⟩

instance (cs : List Char) : Decidable (StartsComment cs) :=
  decidable_of_iff _ startsComment_iff.symm

/-! ## A comment and what follows its line -/

/-- A line break, and all that follows it, is not part of what opens a comment. -/
theorem startsComment_append_iff {more : List Char} (h : ∀ c ∈ more.head?, isBreak c)
    (cs : List Char) : StartsComment (cs ++ more) ↔ StartsComment cs := by
  constructor
  · rintro ⟨head, hhead, hfront⟩
    rcases List.prefix_or_prefix_of_prefix hfront (List.prefix_append cs more) with
      hin | ⟨beyond, rfl⟩
    · exact ⟨head, hhead, hin⟩
    · -- what goes beyond `cs` would start with a line break
      obtain rfl : beyond = [] := by
        cases beyond with
        | nil => rfl
        | cons c beyond =>
          obtain ⟨rest, rfl⟩ := List.prefix_append_right_inj cs |>.1 hfront
          have hbreak := hhead.isBreak_eq_false c (by simp)
          rw [h c rfl] at hbreak
          cases hbreak
      exact ⟨_, hhead, by rw [List.append_nil]⟩
  · rintro ⟨head, hhead, hfront⟩
    exact ⟨head, hhead, hfront.trans (List.prefix_append ..)⟩

theorem comment?_append {more : List Char} (h : ∀ c ∈ more.head?, isBreak c) (cs : List Char) :
    comment? (cs ++ more) = (comment? cs).map fun (value, rest) => (value, rest ++ more) := by
  cases hc : comment? cs with
  | none =>
    have hnone : ¬ StartsComment cs := by simp [startsComment_iff, hc]
    rw [← startsComment_append_iff h cs, startsComment_iff] at hnone
    simpa using hnone
  | some found =>
    obtain ⟨value, rest⟩ := found
    obtain ⟨⟨head, hhead, rfl⟩, hvalue, hrest⟩ := comment?_eq_some_iff.1 hc
    refine comment?_eq_some_iff.2 ⟨⟨head, hhead, by simp⟩, hvalue, ?_⟩
    cases rest with
    | nil => exact h
    | cons c rest => exact hrest

theorem comment?_append_newline (cs more : List Char) : comment? (cs ++ '\n' :: more) =
    (comment? cs).map fun (value, rest) => (value, rest ++ '\n' :: more) :=
  comment?_append (by simp [isBreak]) cs

end SourceMap.Body
