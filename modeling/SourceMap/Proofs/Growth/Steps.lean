import SourceMap.Mappings.Step
import SourceMap.Proofs.Growth.Mappings

/-!
# Mapping text behaves as a list of lines

Whatever is done to mapping text, it is read as the lines of the text that was taken over last, with
the lines behind them that were added since. Each step does to these lines what it would do to a
plain list.

## Main definitions

* `Mappings.Holds` : the lines that mapping text holds within limits.
* `Mappings.Step.Within` : the indices that a step writes are within limits.

## Main statements

* `Holds.apply` : a step on mapping text is the same step on the lines.
* `decode_after` : the lines after any steps.
-/

namespace SourceMap.Mappings

/-- The text is read as `lines`, and can be continued. -/
structure Holds (m : Mappings) (limits : Limits) (lines : List Line) : Prop where
  consistent : m.Consistent
  decode : m.decode limits = .ok lines

/-- All indices that a step writes are within limits. -/
def Step.Within (limits : Limits) : Step → Prop
  | append line => line.Within limits
  | takeOver _ | extendTo _ | resume _ => True

instance (limits : Limits) (s : Step) : Decidable (s.Within limits) :=
  match s with
  | .append line => inferInstanceAs (Decidable (line.Within limits))
  | .takeOver _ | .extendTo _ | .resume _ => .isTrue trivial

variable {m : Mappings} {limits : Limits} {lines : List Line}

theorem Holds.reads (h : m.Holds limits lines) :
    (∃ b, m.Reads lines b) ∧ ∀ line ∈ lines, line.Within limits :=
  decode_eq_ok_iff.1 h.decode

theorem Holds.lineCount (h : m.Holds limits lines) : m.lineCount = lines.length := by
  obtain ⟨⟨b, hr⟩, -⟩ := h.reads
  exact (hr.length h.consistent).symm

/-! ## One step -/

/-- Limits play no part in finding where the text left off, so a line can always be added. -/
theorem Holds.append (h : m.Holds limits lines) {line : Line} (hline : line.Within limits) :
    ∃ n, m.append line = .ok n ∧ n.Holds limits (lines ++ [line]) := by
  obtain ⟨⟨b, hr⟩, hw⟩ := h.reads
  have hdecode : m.decode .unbounded = .ok lines :=
    decode_eq_ok_iff.2 ⟨⟨b, hr⟩, fun _ _ _ _ p _ => Limits.admits_unbounded p.1 p.2⟩
  obtain ⟨k, hk⟩ := resume_of_decode hdecode
  have happ : m.append line = .ok _ := append_eq_ok_iff.2 ⟨k, hk, rfl⟩
  obtain ⟨lines', b', c, hr', hn, -, -, hc⟩ := append_eq_ok h.consistent happ
  obtain ⟨rfl, -⟩ := hr.unique hr'
  refine ⟨_, happ, hc, decode_eq_ok_iff.2 ⟨⟨c, hn⟩, ?_⟩⟩
  intro l hl
  rcases List.mem_append.1 hl with hl | hl
  · exact hw l hl
  · rw [List.mem_singleton.1 hl]
    exact hline

theorem Holds.extendTo (h : m.Holds limits lines) (n : Nat) :
    (m.extendTo n).Holds limits (lines.rightpad n []) := by
  obtain ⟨⟨b, hr⟩, hw⟩ := h.reads
  refine ⟨h.consistent.extendTo n, decode_eq_ok_iff.2 ⟨reads_extendTo h.consistent hr n, ?_⟩⟩
  intro l hl
  rcases List.mem_append.1 hl with hl | hl
  · exact hw l hl
  · rw [List.eq_of_mem_replicate hl]
    exact fun s hs => nomatch hs

/-- Only the baseline that is kept beside the text changes. -/
theorem Holds.resume (h : m.Holds limits lines) {l : Limits} {n : Mappings}
    (hn : m.resume l = .ok n) : n.Holds limits lines := by
  have hc := h.consistent.resume hn
  obtain ⟨_, _, c, -, rfl, -⟩ := resume_eq_ok h.consistent hn
  exact ⟨hc, h.decode⟩

/-- Whatever a step does to mapping text that is not replaced, it does to the lines. -/
theorem Holds.apply (h : m.Holds limits lines) {s : Step} (hs : s.text? = none)
    (hw : s.Within limits) : (s.apply m).Holds limits (s.onLines lines) := by
  cases s with
  | takeOver text => cases hs
  | append line =>
    obtain ⟨n, hn, hh⟩ := h.append hw
    simp only [Step.apply, Step.run, hn]
    exact hh
  | extendTo n => exact h.extendTo n
  | resume l =>
    simp only [Step.apply, Step.run, Step.onLines]
    split
    · rename_i n hn
      exact h.resume hn
    · exact h

/-! ## Runs -/

theorem after_concat (steps : List Step) (s : Step) :
    after (steps ++ [s]) = s.apply (after steps) := by
  simp [after]

theorem lastText_concat (steps : List Step) (s : Step) :
    lastText (steps ++ [s]) = s.text?.getD (lastText steps) := by
  simp [lastText]

theorem since_concat (steps : List Step) (s : Step) :
    since (steps ++ [s]) = if s.text?.isSome then [] else since steps ++ [s] := by
  simp [since]

/-- Steps that take over no text go on from where the ones before them left off. -/
theorem since_append {rest : List Step} (hr : ∀ s ∈ rest, s.text? = none) (steps : List Step) :
    since (steps ++ rest) = since steps ++ rest ∧ lastText (steps ++ rest) = lastText steps := by
  induction rest using List.reverseRecOn with
  | nil => simp
  | append_singleton rest s ih =>
    obtain ⟨hsince, htext⟩ := ih fun t ht => hr t (List.mem_append_left _ ht)
    have hs : s.text? = none := hr s (by simp)
    rw [← List.append_assoc, since_concat, lastText_concat, hs, hsince, htext]
    simp

theorem holds_after {steps : List Step} {start : List Line}
    (hstart : linesOf (lastText steps) limits = .ok start)
    (hw : ∀ s ∈ since steps, s.Within limits) :
    (after steps).Holds limits ((since steps).foldl Step.onLines start) := by
  induction steps using List.reverseRecOn with
  | nil =>
    -- no text has no lines
    obtain rfl : [] = start := Except.ok.inj hstart
    exact ⟨consistent_empty, rfl⟩
  | append_singleton steps s ih =>
    rw [lastText_concat] at hstart
    rw [since_concat] at hw ⊢
    rw [after_concat]
    cases hs : s.text? with
    | some text =>
      obtain rfl : s = .takeOver text := by
        cases s <;> simp_all [Step.text?]
      rw [hs] at hstart
      exact ⟨consistent_ofText text, hstart⟩
    | none =>
      simp only [hs, Option.isSome_none, Bool.false_eq_true, if_false, Option.getD_none]
        at hstart hw ⊢
      obtain ⟨hsince, hlast⟩ := List.forall_mem_append.1 hw
      rw [List.foldl_append]
      exact (ih hstart hsince).apply hs (hlast s (List.mem_singleton_self s))

/-- Mapping text is read as the lines of the text that was taken over last, followed by the lines
and the empty lines that were added since. No line that was added since was refused. -/
theorem decode_after {steps : List Step} {start : List Line}
    (hstart : linesOf (lastText steps) limits = .ok start)
    (hw : ∀ s ∈ since steps, s.Within limits) :
    (∀ before line rest, steps = before ++ .append line :: rest → (∀ s ∈ rest, s.text? = none) →
      ∃ m, (after before).append line = .ok m) ∧
    (after steps).decode limits = .ok ((since steps).foldl Step.onLines start) ∧
    (after steps).lineCount = ((since steps).foldl Step.onLines start).length := by
  have hall := holds_after hstart hw
  refine ⟨?_, hall.decode, hall.lineCount⟩
  rintro before line rest rfl hrest
  have hrest' : ∀ s ∈ .append line :: rest, s.text? = none :=
    List.forall_mem_cons.2 ⟨rfl, hrest⟩
  obtain ⟨hsince, htext⟩ := since_append hrest' before
  rw [htext] at hstart
  rw [hsince] at hw
  obtain ⟨hbefore, hafter⟩ := List.forall_mem_append.1 hw
  have hline := hafter (.append line) List.mem_cons_self
  obtain ⟨m, hm, -⟩ := (holds_after hstart hbefore).append hline
  exact ⟨m, hm⟩

/-- Empty lines come before the imported text has been read, which fails at first. -/
def Sample.padded : List Step :=
  [.append [⟨8, none⟩], .takeOver "AAAA,CAAC;;", .resume ⟨0, 0⟩, .extendTo 3,
    .append [⟨2, some ⟨1, 0, 7, some 0⟩⟩], .append [], .extendTo 7]

open Sample

theorem decode_after_padded :
    (∃ m, (after (padded.take 4)).append [⟨2, some ⟨1, 0, 7, some 0⟩⟩] = .ok m) ∧
    (after padded).decode ⟨2, 1⟩ = .ok [[⟨0, some ⟨0, 0, 0, none⟩⟩, ⟨1, some ⟨0, 0, 1, none⟩⟩],
      [], [], [⟨2, some ⟨1, 0, 7, some 0⟩⟩], [], [], []] ∧ (after padded).lineCount = 7 := by
  have hstart : linesOf (lastText padded) ⟨2, 1⟩ =
      .ok [[⟨0, some ⟨0, 0, 0, none⟩⟩, ⟨1, some ⟨0, 0, 1, none⟩⟩]] := by
    decide +kernel
  have hw : ∀ s ∈ since padded, s.Within ⟨2, 1⟩ := by decide
  obtain ⟨happend, hdecode, hcount⟩ := decode_after hstart hw
  exact ⟨happend _ _ (padded.drop 5) rfl (by decide), hdecode, hcount⟩

end SourceMap.Mappings
