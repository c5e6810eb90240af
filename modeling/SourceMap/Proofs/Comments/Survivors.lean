import SourceMap.Proofs.Comments.Lines
import SourceMap.Proofs.Merge.Load

/-!
# Comments that survive

A carriage return alone ends a comment but starts no line. So what stands behind it is kept when the
comment is taken out, and then stands at the start of the line. If that is a comment again, it
survives.

## Main definitions

* `Body.DoubledLine` : two comments at the front of a line, with only a carriage return between
  them.
* `Body.Doubled` : a text has such a line.

## Main statements

* `lines_dropComments` : the lines of what is left of a text.
* `dropComments_eq_self_iff` : a text is left as it is if and only if it has no comment.
* `comment_survives_iff` : comments survive in texts with a doubled line, and in no others.
-/

namespace SourceMap

namespace Body

/-- Two comments stand at the front of the line, with only a carriage return between them. -/
def DoubledLine (line : List Char) : Prop :=
  ∃ first rest, line = first ++ '\r' :: rest ∧ (∀ c ∈ first, isBreak c = false) ∧
    StartsComment first ∧ StartsComment rest

def Doubled (cs : List Char) : Prop := ∃ line ∈ lines cs, DoubledLine line

/-! ## What is left of a text -/

/-- Line breaks are no comment. -/
theorem not_startsComment_of_isBreak {cs : List Char} (h : ∀ c ∈ cs, isBreak c) :
    ¬ StartsComment cs := by
  rintro ⟨head, hhead, hfront⟩
  have hmem : '/' ∈ head := by
    obtain ⟨⟩ := hhead
    exact List.mem_cons_self
  exact absurd (h '/' (hfront.subset hmem)) (by decide)

/-- Of a doubled line, and of no other, a comment is left. -/
theorem startsComment_leftover_iff {cs line : List Char} (h : line ∈ lines cs) :
    StartsComment (leftover line) ↔ DoubledLine line := by
  constructor
  · intro hleft
    rcases leftover_cases h with
      ⟨hnot, hkept⟩ | ⟨-, hnil⟩ | ⟨first, rest, hline, hbreak, hfirst, hrest⟩
    · rw [hkept] at hleft
      exact absurd hleft hnot
    · rw [hnil] at hleft
      exact absurd hleft (not_startsComment_of_isBreak nofun)
    · rw [hrest] at hleft
      exact ⟨first, rest, hline, hbreak, hfirst, hleft⟩
  · rintro ⟨first, rest, rfl, hbreak, hfirst, hrest⟩
    obtain ⟨⟨value, behind⟩, hc⟩ := Option.isSome_iff_exists.1 (startsComment_iff.1 hfirst)
    obtain ⟨⟨head, -, hline⟩, -, hbehind⟩ := comment?_eq_some_iff.1 hc
    -- all of the first comment up to the carriage return is its value
    obtain rfl : behind = [] := by
      cases behind with
      | nil => rfl
      | cons c behind => simp [hbreak c (by simp [hline])] at hbehind
    have hread : comment? (first ++ '\r' :: rest) = some (value, [] ++ '\r' :: rest) := by
      rw [comment?_append (by simp [isBreak]), hc]
      rfl
    rw [leftover_of_some hread]
    cases rest with
    | nil => exact hrest
    | cons c rest =>
      have hne : c ≠ '\n' := by
        rintro rfl
        simp [startsComment_iff, comment?] at hrest
      rwa [List.nil_append, dropBreak_cr_of_ne hne]

/-- What is left of a line is a line, unless nothing is. -/
theorem lines_leftover {cs line : List Char} (h : line ∈ lines cs) :
    lines (leftover line) = [leftover line].filter (· ≠ []) := by
  have hpart := leftover_suffix line
  by_cases hne : leftover line = []
  · simp [hne, lines]
  · have hone : lines (leftover line) = [leftover line] := by
      obtain ⟨body, hbody, rfl | rfl⟩ := exists_of_mem_lines h
      · exact lines_of_notMem (fun hmem => hbody (hpart.subset hmem)) hne
      · rcases List.suffix_concat_iff.1 hpart with hnil | ⟨part, hleft, hin⟩
        · contradiction
        · rw [hleft]
          exact lines_line (fun hmem => hbody (hin.subset hmem)) []
    simp [hone, hne]

/-- The lines of what is left of a text are what is left of its lines, where anything is. -/
theorem lines_dropComments (cs : List Char) :
    lines (dropComments true cs) = ((lines cs).map leftover).filter (· ≠ []) := by
  induction cs using lines_induction with
  | last body h =>
    by_cases hne : body = []
    · subst hne
      simp [lines]
    · have hone := lines_of_notMem h hne
      have hmem : body ∈ lines body := by simp [hone]
      rw [dropComments_last h, hone, lines_leftover hmem]
      rfl
  | line body rest h ih =>
    have hmem : body ++ ['\n'] ∈ lines (body ++ ['\n']) := by simp [lines_line h []]
    have hcomplete : Complete (leftover (body ++ ['\n'])) :=
      Complete.of_suffix (.inr ⟨body, rfl⟩) (leftover_suffix _)
    rw [dropComments_line h, lines_line h, lines_append hcomplete, ih,
      lines_leftover hmem, ← List.filter_append]
    rfl

theorem firstValue?_eq_none_iff {cs : List Char} :
    firstValue? true cs = none ↔ ∀ line ∈ lines cs, ¬ StartsComment line := by
  simp [firstValue?_eq, startsComment_iff]

/-- A comment is found in what is left of a text if and only if one of its lines is doubled. -/
theorem firstValue?_dropComments_eq_none_iff {cs : List Char} :
    firstValue? true (dropComments true cs) = none ↔ ¬ Doubled cs := by
  have hnil : ¬ StartsComment [] := not_startsComment_of_isBreak nofun
  rw [firstValue?_eq_none_iff, lines_dropComments]
  constructor
  · rintro h ⟨line, hline, hdoubled⟩
    rw [← startsComment_leftover_iff hline] at hdoubled
    have hne : leftover line ≠ [] := fun hne => hnil (hne ▸ hdoubled)
    exact h _ (List.mem_filter.2 ⟨List.mem_map_of_mem hline, by simpa using hne⟩) hdoubled
  · intro h part hpart hstarts
    obtain ⟨line, hline, rfl⟩ := List.mem_map.1 (List.mem_filter.1 hpart).1
    exact h ⟨line, hline, (startsComment_leftover_iff hline).1 hstarts⟩

theorem leftover_eq_self_iff {line : List Char} : leftover line = line ↔ comment? line = none := by
  refine ⟨fun h => ?_, leftover_of_none⟩
  by_contra hc
  obtain ⟨⟨value, rest⟩, hc⟩ := Option.ne_none_iff_exists'.1 hc
  have hlt := length_comment?_lt hc
  have hle := (dropBreak_suffix rest).length_le
  rw [leftover_of_some hc] at h
  rw [h] at hle
  omega

theorem dropComments_sublist (cs : List Char) : (dropComments true cs).Sublist cs := by
  induction cs using lines_induction with
  | last body h =>
    rw [dropComments_last h]
    exact (leftover_suffix body).sublist
  | line body rest h ih =>
    have hline : body ++ '\n' :: rest = (body ++ ['\n']) ++ rest := List.append_cons ..
    rw [dropComments_line h, hline]
    exact (leftover_suffix _).sublist.append ih

theorem dropComments_eq_self_iff {cs : List Char} :
    dropComments true cs = cs ↔ firstValue? true cs = none := by
  induction cs using lines_induction with
  | last body h => simp [dropComments_last h, firstValue?_last h, leftover_eq_self_iff]
  | line body rest h ih =>
    have hline : body ++ '\n' :: rest = (body ++ ['\n']) ++ rest := List.append_cons ..
    rw [dropComments_line h, firstValue?_line h, hline, Option.or_eq_none_iff,
      Option.map_eq_none_iff, ← ih, ← leftover_eq_self_iff]
    constructor
    · intro heq
      -- neither part can make up for what is missing in the other
      have hl := (leftover_suffix (body ++ ['\n'])).length_le
      have hr := (dropComments_sublist rest).length_le
      have hlen := congrArg List.length heq
      rw [List.length_append, List.length_append] at hlen
      exact List.append_inj heq (by omega)
    · rintro ⟨hl, hr⟩
      rw [hl, hr]

/-! ## Line breaks at the end -/

theorem doubledLine_append_iff {c : Char} (hc : isBreak c) (line : List Char) :
    DoubledLine (line ++ [c]) ↔ DoubledLine line := by
  constructor
  · rintro ⟨first, rest, hline, hbreak, hfirst, hrest⟩
    rcases List.eq_nil_or_concat rest with rfl | ⟨rest, d, rfl⟩
    · exact absurd hrest (not_startsComment_of_isBreak nofun)
    · rw [List.concat_eq_append, ← List.cons_append, ← List.append_assoc] at hline
      obtain ⟨rfl, hd⟩ := List.append_inj' hline rfl
      obtain rfl : c = d := by simpa using hd
      rw [List.concat_eq_append, startsComment_append_iff (by simpa using hc)] at hrest
      exact ⟨first, rest, rfl, hbreak, hfirst, hrest⟩
  · rintro ⟨first, rest, rfl, hbreak, hfirst, hrest⟩
    refine ⟨first, rest ++ [c], by simp, hbreak, hfirst, ?_⟩
    rwa [startsComment_append_iff (by simpa using hc)]

theorem doubled_of_notMem_iff {body : List Char} (h : '\n' ∉ body) :
    Doubled body ↔ DoubledLine body := by
  by_cases hne : body = []
  · subst hne
    simp [Doubled, DoubledLine, lines]
  · simp [Doubled, lines_of_notMem h hne]

/-- A line break at the end adds no comment. -/
theorem doubled_concat_iff {c : Char} (hc : isBreak c) (cs : List Char) :
    Doubled (cs ++ [c]) ↔ Doubled cs := by
  induction cs using lines_induction with
  | last body h =>
    rw [doubled_of_notMem_iff h, ← doubledLine_append_iff hc]
    have hone : lines (body ++ [c]) = [body ++ [c]] := by
      by_cases hn : c = '\n'
      · subst hn
        exact lines_line h []
      · exact lines_of_notMem (by simp [h, Ne.symm hn]) (by simp)
    simp [Doubled, hone]
  | line body rest h ih =>
    rw [Doubled, Doubled] at *
    rw [List.append_assoc, List.cons_append, lines_line h, lines_line h]
    simp only [List.mem_cons, exists_eq_or_imp, ih]

theorem doubled_dropEndWhile_iff (cs : List Char) :
    Doubled (Text.dropEndWhile isBreak cs) ↔ Doubled cs := by
  induction cs using List.reverseRecOn with
  | nil => rfl
  | append_singleton cs c ih =>
    rw [Text.dropEndWhile_append_singleton]
    split_ifs with hc
    · rw [ih, doubled_concat_iff hc]
    · rfl

theorem doubled_endLine_iff (text : String) :
    Doubled (endLine text).toList ↔ Doubled text.toList := by
  have hend : (endLine text).toList = Text.dropEndWhile isBreak text.toList ++ ['\n'] := by
    simp [endLine]
  rw [hend, doubled_concat_iff (by decide), doubled_dropEndWhile_iff]

/-! ## Texts without their comments -/

theorem mapUrl?_stripComments_eq_none_iff (text : String) :
    mapUrl? (stripComments text) = none ↔ ¬ Doubled text.toList := by
  rw [mapUrl?, Option.map_eq_none_iff, stripComments, String.toList_ofList,
    firstValue?_dropComments_eq_none_iff]

theorem stripComments_stripComments_eq_iff (text : String) :
    stripComments (stripComments text) = stripComments text ↔ ¬ Doubled text.toList := by
  rw [← firstValue?_dropComments_eq_none_iff, ← dropComments_eq_self_iff]
  simp only [stripComments, String.toList_ofList]
  exact ⟨fun h => by simpa using congrArg String.toList h, fun h => by rw [h]⟩

end Body

namespace Bundle

variable {σ : Type} [FileSystem (StateM σ)]

theorem body_of_setText {text : String} {autoload : Bool} {b c : Bundle} {files files' : σ}
    (h : (setText text autoload : Edit (StateM σ) Unit).outcome b files = ((.ok (), c), files')) :
    c.body = some (Body.stripComments (Body.endLine text)) := by
  unfold setText at h
  rw [Edit.outcome_bind, Edit.outcome_get] at h
  dsimp only at h
  split_ifs at h
  · cases hurl : Body.mapUrl? (Body.endLine text) with
    | none =>
      rw [hurl] at h
      cases h
      rfl
    | some url =>
      rw [hurl] at h
      dsimp only at h
      rw [Edit.outcome_bind, Edit.outcome_get] at h
      dsimp only at h
      cases hp : b.urls.path? url with
      | none =>
        rw [hp] at h
        cases h
        rfl
      | some p =>
        rw [hp] at h
        obtain ⟨_, d, t, -, hset⟩ := Edit.outcome_bind_eq_ok.1 h
        cases hset
        rfl
  · cases h
    rfl

/-- A comment survives in a text if and only if the text has a doubled line. These texts, and no
others, change when their comments are taken out again, and of these, and no others, a body is
stored that has a comment. -/
theorem comment_survives_iff (text : String) :
    (Body.mapUrl? (Body.stripComments text) = none ↔ ¬ Body.Doubled text.toList) ∧
      (Body.stripComments (Body.stripComments text) = Body.stripComments text ↔
        ¬ Body.Doubled text.toList) ∧
      ∀ {autoload : Bool} {b c : Bundle} {files files' : σ},
        (setText text autoload : Edit (StateM σ) Unit).outcome b files = ((.ok (), c), files') →
          ∃ body, c.body = some body ∧
            (Body.mapUrl? body = none ↔ ¬ Body.Doubled text.toList) := by
  refine ⟨Body.mapUrl?_stripComments_eq_none_iff text,
    Body.stripComments_stripComments_eq_iff text, ?_⟩
  intro autoload b c files files' h
  refine ⟨_, body_of_setText h, ?_⟩
  rw [Body.mapUrl?_stripComments_eq_none_iff, Body.doubled_endLine_iff]

/-- Behind a carriage return a comment is none, unless there is one in front of it too. -/
theorem comment_survives_notDoubled :
    (setText "a();\r//# sourceMappingURL=a\n//@ sourceMappingURL=b\rc();\r" true :
        Edit (StateM Disk) Unit).outcome (empty .empty) ⟨[], []⟩ =
      ((.ok (), { empty .empty with
        body := some "a();\r//# sourceMappingURL=a\nc();\n", mapUrl := some "b" }), ⟨[], []⟩) ∧
      Body.mapUrl? "a();\r//# sourceMappingURL=a\nc();\n" = none := by
  have hset : (setText "a();\r//# sourceMappingURL=a\n//@ sourceMappingURL=b\rc();\r" true :
        Edit (StateM Disk) Unit).outcome (empty .empty) ⟨[], []⟩ =
      ((.ok (), { empty .empty with
        body := some "a();\r//# sourceMappingURL=a\nc();\n", mapUrl := some "b" }), ⟨[], []⟩) := by
    decide +kernel
  obtain ⟨hstrip, -, hbody⟩ := comment_survives_iff (σ := Disk)
    "a();\r//# sourceMappingURL=a\n//@ sourceMappingURL=b\rc();\r"
  obtain ⟨body, hb, hiff⟩ := hbody hset
  obtain rfl := Option.some.inj hb
  exact ⟨hset, hiff.2 (hstrip.1 (by decide +kernel))⟩

/-- The second comment comes to the start of the line, where it counts as a comment. -/
theorem comment_survives_doubled :
    Body.stripComments "//# sourceMappingURL=a\r//# sourceMappingURL=b\n" =
        "//# sourceMappingURL=b\n" ∧
      Body.mapUrl? "//# sourceMappingURL=b\n" = some "b" ∧
      Body.stripComments "//# sourceMappingURL=b\n" ≠ "//# sourceMappingURL=b\n" ∧
      ((empty .empty).setBody "//# sourceMappingURL=a\r//# sourceMappingURL=b\n").body =
        some "//# sourceMappingURL=b\n" := by
  decide +kernel

end Bundle

end SourceMap
