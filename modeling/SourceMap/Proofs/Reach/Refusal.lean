import SourceMap.Proofs.Reach.Built
import SourceMap.Proofs.Reach.Unchanged

/-!
# Bundles that refuse to be appended to

Imported text is checked against the tables when something is appended, but only if it has not been
continued before. Adding a line continues the text without that check. So a line that is added to
text with an index out of range opens it to every donor, whose sources then get that index.

## Main definitions

* `Bundle.Refuses` : nothing can be appended to a bundle.
* `Operation.edits` : operations that build, and those that take over a map.
* `Bundle.ContinuesReadable` : every line that a run adds leaves a bundle that can be read.

## Main statements

* `append_accepts_iff` : what can be appended to what.
* `refuses_iff` : what refuses all donors.
* `refuses_states_iff` : bundles that cannot be read refuse along a run if and only if its lines
  leave bundles that can be read.
-/

namespace SourceMap

/-- The operation builds, or takes over the map in a text. -/
def Operation.edits : Operation → Bool
  | setMap _ => true
  | op => op.builds

/-- The operation adds a line to the text. -/
def Operation.addsLine : Operation → Bool
  | addLine _ | addNamedLine _ => true
  | _ => false

namespace Bundle

variable {b c donor : Bundle}

/-- Nothing can be appended to `b`. -/
def Refuses (b : Bundle) : Prop := ∀ donor, ∃ e, (b.append donor).1 = .error e

/-- A donor is accepted if it can be read and has sources for its contents, and if the text it comes
behind can be read or has been continued before. -/
theorem append_accepts_iff : (b.append donor).1 = .ok () ↔
    donor.Readable ∧ donor.ContentsKnown ∧ (b.mappings.last.isSome ∨ b.Readable) := by
  rw [← resume_eq_ok_iff]
  cases hd : donor.namedLines with
  | error e =>
    have hr : ¬ donor.Readable := by
      rintro ⟨named, hn⟩
      simp [hd] at hn
    rw [append_of_donor_error hd]
    exact iff_of_false nofun fun h => hr h.1
  | ok lines =>
    cases hm : b.mappings.resume b.limits with
    | error e =>
      rw [append_of_resume_error hd hm]
      exact iff_of_false nofun fun ⟨_, _, m, h⟩ => nomatch h
    | ok m =>
      rw [append_eq_ok_iff hd hm]
      exact ⟨fun h => ⟨⟨lines, hd⟩, h, m, rfl⟩, fun h => h.2.1⟩

theorem refuses_iff : b.Refuses ↔ b.mappings.last = none ∧ ¬ b.Readable := by
  constructor
  · intro h
    obtain ⟨e, he⟩ := h (empty .empty)
    have hempty : (empty .empty).Readable ∧ (empty .empty).ContentsKnown :=
      ⟨(sound_empty .empty).readable, contentsKnown_empty .empty⟩
    have hno : ¬ (b.mappings.last.isSome ∨ b.Readable) := by
      intro hor
      rw [append_accepts_iff.2 ⟨hempty.1, hempty.2, hor⟩] at he
      cases he
    simpa using hno
  · rintro ⟨hl, hr⟩ donor
    cases happ : (b.append donor).1 with
    | error e => exact ⟨e, rfl⟩
    | ok u =>
      have hor := (append_accepts_iff.1 happ).2.2
      simp [hl, hr] at hor

/-! ## Runs -/

/-- The text has been read, or has not been continued since it was imported. -/
def Guarded (b : Bundle) : Prop := b.mappings.last.isSome → b.Readable

theorem guarded_iff : b.Guarded ↔ (¬ b.Readable → b.Refuses) := by
  unfold Guarded
  rw [refuses_iff]
  cases b.mappings.last <;> simp

/-- Imported text that has no lines has been read. -/
theorem guarded_load (b : Bundle) (e : Envelope) : (b.load e).Guarded := by
  have hm : (b.load e).mappings = .ofText (e.mappings.getD "") := by
    unfold load
    dsimp only
  intro hl
  rw [hm] at hl
  have hempty := Mappings.ofText_of_last hl
  exact readable_iff_lines.2 ⟨[], by rw [lines, hm, hempty]; rfl⟩

variable {σ : Type} [FileSystem (StateM σ)]

theorem apply_setMap (text : String) (b : Bundle) (files : σ) :
    (Operation.setMap text).apply b files = b ∨
      ∃ e, (Operation.setMap text).apply b files = b.load e := by
  change (Edit.outcome (setMap text) b files).1.2 = b ∨
    ∃ e, (Edit.outcome (setMap text) b files).1.2 = _
  rw [outcome_setMap]
  cases Envelope.read text with
  | error fault => exact .inl rfl
  | ok e => exact .inr ⟨e, rfl⟩

/-- Text that is out of range is noticed before anything is appended to it. -/
theorem Guarded.append (hb : b.mappings.Consistent) (h : b.Guarded) (donor : Bundle) :
    (b.append donor).2.Guarded := by
  by_cases hr : b.Readable
  · exact fun _ => hr.append hb donor
  · have hno : ¬ ∃ m, b.mappings.resume b.limits = .ok m := by
      rw [resume_eq_ok_iff]
      exact fun hor => hr (hor.elim h id)
    rcases append_cases b donor with ⟨e, happ⟩ | ⟨lines, m, -, hm⟩
    · rwa [happ]
    · exact absurd ⟨m, hm⟩ hno

/-- Once a line has been added, the text is not checked again. -/
theorem guarded_iff_of_line (hb : b.mappings.Consistent) {line : Line}
    (happ : b.mappings.append line = .ok c.mappings) :
    c.Guarded ↔ (b.mappings.lineCount < c.mappings.lineCount → c.Readable) := by
  obtain ⟨-, -, d, -, -, hlast, hcount, -⟩ := Mappings.append_eq_ok hb happ
  simp [Guarded, hlast, hcount]

/-- Adding lines is all that opens a bundle to donors, unless it can be read with them. -/
theorem guarded_apply_iff (hb : b.mappings.Consistent) (h : b.Guarded) {op : Operation}
    (hop : op.edits) (files : σ) : (op.apply b files).Guarded ↔
      (op.addsLine → b.mappings.lineCount < (op.apply b files).mappings.lineCount →
        (op.apply b files).Readable) := by
  by_cases hset : ∃ text, op = .setMap text
  · obtain ⟨text, rfl⟩ := hset
    refine iff_of_true ?_ nofun
    rcases apply_setMap text b files with happ | ⟨e, happ⟩ <;> rw [happ]
    · exact h
    · exact guarded_load b e
  · have hbuilds : op.builds := by
      cases op <;> simp_all [Operation.edits]
    -- text that stays as it is stays guarded
    have hsame : b.Extends (op.apply b files) → (op.apply b files).mappings = b.mappings →
        ((op.apply b files).Guarded ↔ (op.addsLine →
          b.mappings.lineCount < (op.apply b files).mappings.lineCount →
            (op.apply b files).Readable)) := by
      intro he hm
      refine iff_of_true (fun hl => ?_) fun _ hlt => ?_
      · rw [hm] at hl
        exact (h hl).of_extends he hm
      · rw [hm] at hlt
        exact absurd hlt (Nat.lt_irrefl _)
    rcases op.apply_cases_of_keepsMap (Operation.keepsMap_of_builds hbuilds) b files with
      ⟨hg, hm⟩ | ⟨line, rfl, hc⟩ | ⟨line, rfl, hc⟩ | ⟨donor, rfl, hc⟩
    · exact hsame hg.tables hm
    · obtain ⟨-, m, happ, hc⟩ := addLine_eq_ok_iff.1 hc
      have happ' : b.mappings.append line =
          .ok ((Operation.addLine line).apply b files).mappings := by
        rw [hc]
        exact happ
      simpa [Operation.addsLine] using guarded_iff_of_line hb happ'
    · rcases addNamedLine_cases b line with ⟨m, happ, hadd⟩ | ⟨e, -, hadd⟩
      · have happ' : b.mappings.append (b.internLine line).1 =
            .ok ((Operation.addNamedLine line).apply b files).mappings := by
          rw [hc, hadd]
          exact happ
        simpa [Operation.addsLine] using guarded_iff_of_line hb happ'
      · obtain ⟨sources, names, hf⟩ := internLine_frame b line
        refine hsame ?_ ?_ <;> rw [hc]
        · exact (grows_addNamedLine b line).tables
        · rw [hadd, hf]
    · rw [hc]
      exact iff_of_true (h.append hb donor) nofun

/-- Every line that one of the operations adds leaves a bundle that can be read. -/
def ContinuesReadable (b : Bundle) : List (Operation × σ) → Prop
  | [] => True
  | (op, files) :: rest =>
    (op.addsLine → b.mappings.lineCount < (op.apply b files).mappings.lineCount →
      (op.apply b files).Readable) ∧ (op.apply b files).ContinuesReadable rest

theorem forall_guarded_iff (hb : b.mappings.Consistent) (h : b.Guarded)
    {steps : List (Operation × σ)} (hs : ∀ s ∈ steps, s.1.edits) :
    (∀ c ∈ b.states steps, c.Guarded) ↔ b.ContinuesReadable steps := by
  induction steps generalizing b with
  | nil =>
    refine iff_of_true ?_ trivial
    intro c hc
    rw [List.mem_singleton.1 hc]
    exact h
  | cons s steps ih =>
    obtain ⟨op, files⟩ := s
    obtain ⟨hop, hs⟩ := List.forall_mem_cons.1 hs
    have hc := op.consistent_apply hb files
    rw [states, ContinuesReadable, List.forall_mem_cons, ← guarded_apply_iff hb h hop]
    constructor
    · rintro ⟨-, hall⟩
      have hnext := hall _ (head_mem_states _ steps)
      exact ⟨hnext, (ih hc hnext hs).1 hall⟩
    · rintro ⟨hnext, hrest⟩
      exact ⟨h, (ih hc hnext hs).2 hrest⟩

/-- Along a run every bundle that cannot be read refuses all donors if and only if every line that
the run adds leaves a bundle that can be read. -/
theorem refuses_states_iff (urls : UrlTable) {steps : List (Operation × σ)}
    (hs : ∀ s ∈ steps, s.1.edits) :
    (∀ c ∈ (empty urls).states steps, ¬ c.Readable → c.Refuses) ↔
      (empty urls).ContinuesReadable steps := by
  have hempty := sound_empty urls
  rw [← forall_guarded_iff hempty.consistent (fun _ => hempty.readable) hs]
  simp only [guarded_iff]

namespace Sample

/-- Takes over a map of one source, with a line that refers to a second. -/
def takeOutOfRange : Operation :=
  .setMap ("\x7b\"version\":3,\"sources\":[\"a.js\"],\"names\":[],\"mappings\":\"ACAA\"\x7d")

def outOfRange : Bundle := takeOutOfRange.apply (empty .empty) (⟨[], []⟩ : Disk)

/-- The same bundle with an empty line. -/
def continued : Bundle := Operation.apply (.addLine []) outOfRange (⟨[], []⟩ : Disk)

/-- A bundle of one line, in another source. -/
def foreign : Bundle :=
  Operation.apply (.addNamedLine [⟨0, some ⟨"b.js", 0, 0, none⟩⟩]) (empty .empty) (⟨[], []⟩ : Disk)

end Sample

open Sample

theorem refuses_outOfRange : (∀ s ∈ [(takeOutOfRange, (⟨[], []⟩ : Disk))], s.1.edits) ∧
    ¬ outOfRange.Readable ∧ outOfRange.Refuses := by
  have hs : ∀ s ∈ [(takeOutOfRange, (⟨[], []⟩ : Disk))], s.1.edits := by
    simp [takeOutOfRange, Operation.edits]
  have hread : ¬ outOfRange.Readable := by decide +kernel
  have hlines : (empty .empty).ContinuesReadable [(takeOutOfRange, (⟨[], []⟩ : Disk))] :=
    ⟨by simp [takeOutOfRange, Operation.addsLine], trivial⟩
  have hall := (refuses_states_iff .empty hs).2 hlines
  exact ⟨hs, hread, hall outOfRange (List.mem_cons_of_mem _ List.mem_cons_self) hread⟩

/-- The line that was out of range comes to refer to the source of the donor. -/
theorem append_continued : continued.Reachable ∧
    continued.namedLines = .error (.sourceOutOfRange 1 1 ⟨0, 4⟩) ∧
      (continued.append foreign).1 = .ok () ∧ (continued.append foreign).2.namedLines =
        .ok [[⟨0, some ⟨"b.js", 0, 0, none⟩⟩], [], [⟨0, some ⟨"b.js", 0, 0, none⟩⟩]] := by
  refine ⟨.step (.step (.empty .empty) (.setMap _) nofun _) (.addLine _) nofun _, ?_, ?_, ?_⟩ <;>
    decide +kernel

end Bundle

end SourceMap
