import SourceMap.Proofs.Growth.Change

/-!
# The lines of a bundle grow

A bundle is read as lines of strings. These are the lines of its mapping text, each under the tables
as they are now, so they stay as they are when the tables grow and when text is added.

## Main statements

* `namedLines_eq_ok_iff` : the lines of a bundle, by its mapping text and its tables.
* `namedLines_addNamedLines` : added lines come behind the lines that are there.
* `addNamedLines_of_last` : lines can be added wherever the text has been read once.
-/

namespace SourceMap

theorem mapM_eq_ok_iff {f : α → Except ε β} {xs : List α} {ys : List β} :
    xs.mapM f = .ok ys ↔ List.Forall₂ (fun x y => f x = .ok y) xs ys := by
  induction xs generalizing ys with
  | nil => simp [pure, Except.pure, eq_comm]
  | cons x xs ih =>
    rw [List.mapM_cons, List.forall₂_cons_left_iff]
    simp only [← ih]
    cases hx : f x with
    | error e => simp [bind, Except.bind]
    | ok y =>
      cases hxs : xs.mapM f <;> simp [bind, Except.bind, pure, Except.pure, eq_comm]

theorem forall_mem_of_forall₂ {R : α → β → Prop} {p : α → Prop} (hp : ∀ x y, R x y → p x)
    {xs : List α} {ys : List β} (h : List.Forall₂ R xs ys) : ∀ x ∈ xs, p x :=
  ((List.forall₂_and_left xs ys).1 (h.imp fun x y hr => ⟨hp x y hr, hr⟩)).1

theorem forall₂_replicate {R : α → β → Prop} {a : α} {b : β} (h : R a b) (n : Nat) :
    List.Forall₂ R (List.replicate n a) (List.replicate n b) := by
  induction n with
  | zero => exact .nil
  | succ n ih => exact .cons h ih

namespace Bundle

theorem within_of_names {b : Bundle} {line : Line} {named : NamedLine}
    (h : List.Forall₂ b.Names line named) : line.Within b.limits :=
  forall_mem_of_forall₂ (fun _ _ hs => hs.within) h

theorem namedLines_eq_ok_iff {b : Bundle} {named : List NamedLine} :
    b.namedLines = .ok named ↔
      ∃ lines c, b.mappings.Reads lines c ∧ List.Forall₂ (List.Forall₂ b.Names) lines named := by
  have hnames : ∀ lines : List Line, lines.mapM (fun line => line.mapM b.nameSegment) = .ok named ↔
      List.Forall₂ (List.Forall₂ b.Names) lines named := by
    intro lines
    simp only [mapM_eq_ok_iff]
    rfl
  unfold namedLines Bundle.lines
  constructor
  · intro h
    cases hl : b.mappings.decode b.limits with
    | error e =>
      rw [hl] at h
      cases h
    | ok lines =>
      rw [hl] at h
      obtain ⟨⟨c, hr⟩, -⟩ := Mappings.decode_eq_ok_iff.1 hl
      exact ⟨lines, c, hr, (hnames lines).1 h⟩
  · rintro ⟨lines, c, hr, hn⟩
    have hw := forall_mem_of_forall₂ (fun _ _ h => within_of_names h) hn
    rw [Mappings.decode_eq_ok_iff.2 ⟨⟨c, hr⟩, hw⟩]
    exact (hnames lines).2 hn

/-- Lines stay what they are when the tables grow and text is added. -/
theorem namedLines_append {b b' : Bundle} (he : b.Extends b') {rest : List Line}
    {named named' : List NamedLine}
    (hr : ∀ lines c, b.mappings.Reads lines c → ∃ d, b'.mappings.Reads (lines ++ rest) d)
    (hrest : List.Forall₂ (List.Forall₂ b'.Names) rest named') (h : b.namedLines = .ok named) :
    b'.namedLines = .ok (named ++ named') := by
  obtain ⟨lines, c, hl, hn⟩ := namedLines_eq_ok_iff.1 h
  obtain ⟨d, hd⟩ := hr lines c hl
  have hn' : List.Forall₂ (List.Forall₂ b'.Names) lines named :=
    hn.imp fun _ _ hl => hl.imp fun _ _ hs => hs.extend he
  exact namedLines_eq_ok_iff.2 ⟨lines ++ rest, d, hd, List.rel_append hn' hrest⟩

theorem length_of_namedLines {b : Bundle} {named : List NamedLine} (hm : b.mappings.Consistent)
    (h : b.namedLines = .ok named) : named.length = b.mappings.lineCount := by
  obtain ⟨lines, c, hr, hn⟩ := namedLines_eq_ok_iff.1 h
  rw [← hn.length_eq, hr.length hm]

/-! ## Adding lines -/

/-- Either the text can be continued, or only the tables change. -/
theorem addNamedLine_cases (b : Bundle) (line : NamedLine) :
    (∃ m, b.mappings.append (b.internLine line).1 = .ok m ∧
      b.addNamedLine line = (.ok (), { (b.internLine line).2 with mappings := m })) ∨
    ∃ e, b.mappings.append (b.internLine line).1 = .error e ∧
      b.addNamedLine line = (.error e, (b.internLine line).2) := by
  obtain ⟨sources, names, h⟩ := internLine_frame b line
  have hm : (b.internLine line).2.mappings = b.mappings := by rw [h]
  unfold addNamedLine
  dsimp only
  rw [hm]
  cases b.mappings.append (b.internLine line).1 with
  | error e => exact .inr ⟨e, rfl, rfl⟩
  | ok m => exact .inl ⟨m, rfl, rfl⟩

theorem grows_addNamedLine (b : Bundle) (line : NamedLine) : b.Grows (b.addNamedLine line).2 := by
  have hi := grows_internLine b line
  obtain ⟨sources, names, hf⟩ := internLine_frame b line
  rcases addNamedLine_cases b line with ⟨m, happ, h⟩ | ⟨e, -, h⟩
  · rw [h]
    have happ' : (b.internLine line).2.mappings.append (b.internLine line).1 = .ok m := by
      rw [hf]
      exact happ
    exact hi.trans (Change.line happ').grows
  · rw [h]
    exact hi

theorem addNamedLine_frame (b : Bundle) (line : NamedLine) :
    ∃ sources names mappings,
      (b.addNamedLine line).2 = { b with sources, names, mappings } := by
  obtain ⟨sources, names, hf⟩ := internLine_frame b line
  rcases addNamedLine_cases b line with ⟨m, -, h⟩ | ⟨e, -, h⟩ <;> rw [h, hf]
  · exact ⟨_, _, _, rfl⟩
  · exact ⟨_, _, _, rfl⟩

/-- A line that can be added comes last, and the lines before it stay as they were. -/
theorem namedLines_addNamedLine {b : Bundle} (hm : b.mappings.Consistent) {line : NamedLine}
    (hok : (b.addNamedLine line).1 = .ok ()) (ha : (b.addNamedLine line).2.Addressable)
    {named : List NamedLine} (h : b.namedLines = .ok named) :
    (b.addNamedLine line).2.namedLines = .ok (named ++ [line]) := by
  have he := (grows_addNamedLine b line).tables
  rcases addNamedLine_cases b line with ⟨m, happ, hadd⟩ | ⟨e, -, hadd⟩
  · obtain ⟨lines, c, d, hr, hrm, -⟩ := Mappings.append_eq_ok hm happ
    rw [hadd] at ha he ⊢
    refine namedLines_append he ?_ (.cons (names_internLine b line ha) .nil) h
    intro lines' c' hr'
    obtain ⟨rfl, -⟩ := hr.unique hr'
    exact ⟨d, hrm⟩
  · rw [hadd] at hok
    cases hok

/-- Text that has been read once can be continued. -/
theorem addNamedLine_of_last {b : Bundle} (h : b.mappings.last.isSome) (line : NamedLine) :
    (b.addNamedLine line).1 = .ok () ∧ (b.addNamedLine line).2.mappings.last.isSome ∧
      (b.addNamedLine line).2.mappings.lineCount = b.mappings.lineCount + 1 := by
  have hr := Mappings.resume_of_last h .unbounded
  rcases addNamedLine_cases b line with ⟨m, happ, hadd⟩ | ⟨e, happ, -⟩
  · obtain ⟨n, hn, rfl⟩ := Mappings.append_eq_ok_iff.1 happ
    obtain rfl : b.mappings = n := by simpa [hr] using hn
    rw [hadd]
    exact ⟨rfl, rfl, rfl⟩
  · rw [Mappings.append_eq_ok_iff.2 ⟨_, hr, rfl⟩] at happ
    cases happ

/-! ## Adding lines one after another -/

theorem addNamedLines_cons_of_ok {b : Bundle} {line : NamedLine}
    (h : (b.addNamedLine line).1 = .ok ()) (lines : List NamedLine) :
    b.addNamedLines (line :: lines) = (b.addNamedLine line).2.addNamedLines lines := by
  rw [addNamedLines]
  split <;> simp_all

theorem addNamedLines_cons_of_error {b : Bundle} {line : NamedLine} {e : MappingError}
    (h : (b.addNamedLine line).1 = .error e) (lines : List NamedLine) :
    b.addNamedLines (line :: lines) = (.error e, (b.addNamedLine line).2) := by
  rw [addNamedLines]
  split <;> simp_all

/-- What holds after every added line holds after all of them, also where one cannot be added. -/
theorem addNamedLines_keeps {P : Bundle → Prop} (hstep : ∀ b line, P b → P (b.addNamedLine line).2)
    (lines : List NamedLine) {b : Bundle} (h : P b) : P (b.addNamedLines lines).2 := by
  induction lines generalizing b with
  | nil => exact h
  | cons line lines ih =>
    cases hl : (b.addNamedLine line).1 with
    | error e =>
      rw [addNamedLines_cons_of_error hl]
      exact hstep b line h
    | ok u =>
      rw [addNamedLines_cons_of_ok hl]
      exact ih (hstep b line h)

theorem grows_addNamedLines (b : Bundle) (lines : List NamedLine) :
    b.Grows (b.addNamedLines lines).2 :=
  addNamedLines_keeps (fun c line h => h.trans (grows_addNamedLine c line)) lines (.refl b)

theorem addNamedLines_frame (b : Bundle) (lines : List NamedLine) :
    ∃ sources names mappings,
      (b.addNamedLines lines).2 = { b with sources, names, mappings } := by
  refine addNamedLines_keeps
    (P := fun c => ∃ sources names mappings, c = { b with sources, names, mappings })
    ?_ lines ⟨_, _, _, rfl⟩
  rintro c line ⟨sources, names, mappings, h⟩
  obtain ⟨sources', names', mappings', h'⟩ := addNamedLine_frame c line
  exact ⟨sources', names', mappings', by rw [h', h]⟩

theorem addNamedLines_of_last {b : Bundle} (h : b.mappings.last.isSome)
    (lines : List NamedLine) :
    (b.addNamedLines lines).1 = .ok () ∧ (b.addNamedLines lines).2.mappings.last.isSome ∧
      (b.addNamedLines lines).2.mappings.lineCount = b.mappings.lineCount + lines.length := by
  induction lines generalizing b with
  | nil => exact ⟨rfl, h, rfl⟩
  | cons line lines ih =>
    obtain ⟨hok, hlast, hcount⟩ := addNamedLine_of_last h line
    obtain ⟨hoks, hlasts, hcounts⟩ := ih hlast
    rw [addNamedLines_cons_of_ok hok]
    refine ⟨hoks, hlasts, ?_⟩
    rw [hcounts, hcount, List.length_cons]
    omega

theorem namedLines_addNamedLines {b : Bundle} (hm : b.mappings.Consistent)
    {lines : List NamedLine} (hok : (b.addNamedLines lines).1 = .ok ())
    (ha : (b.addNamedLines lines).2.Addressable) {named : List NamedLine}
    (h : b.namedLines = .ok named) :
    (b.addNamedLines lines).2.namedLines = .ok (named ++ lines) := by
  induction lines generalizing b named with
  | nil =>
    rw [List.append_nil]
    exact h
  | cons line lines ih =>
    cases hl : (b.addNamedLine line).1 with
    | error e =>
      rw [addNamedLines_cons_of_error hl] at hok
      cases hok
    | ok u =>
      rw [addNamedLines_cons_of_ok hl] at hok ha ⊢
      have ha' := ha.of_extends (grows_addNamedLines _ lines).tables
      have hline := namedLines_addNamedLine hm hl ha' h
      rw [ih ((grows_addNamedLine b line).consistent hm) hok ha hline]
      simp

end Bundle

end SourceMap
