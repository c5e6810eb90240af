import SourceMap.Proofs.Reach.SourceContents
import SourceMap.Proofs.Reach.Unchanged

/-!
# Lines that are refused

A line with indices is refused before anything changes. A line with strings is refused only where
the text so far cannot be read, and by then its sources and names are in the tables.

## Main definitions

* `Bundle.Knows` : the strings of a line are in the tables already.

## Main statements

* `internLine_eq_self_iff` : known lines, and no others, add nothing to the tables.
* `refusedLine_unchanged_iff` : what a line that is refused leaves behind.
-/

namespace SourceMap

variable {σ : Type}

/-- Only text that cannot be read keeps a line from being added. -/
theorem Mappings.append_eq_error_iff {m : Mappings} {line : Line} {fault : MappingError} :
    m.append line = .error fault ↔ m.resume .unbounded = .error fault := by
  unfold append
  cases m.resume .unbounded <;> simp [bind, Except.bind, pure, Except.pure]

theorem StringTable.eq_of_prefix {t u : StringTable} (h : t.values <+: u.values)
    (g : u.values <+: t.values) : t = u := by
  obtain ⟨ts⟩ := t
  obtain ⟨us⟩ := u
  exact congrArg StringTable.mk (h.eq_of_length_le g.length_le)

namespace Bundle

/-! ## Known strings -/

/-- The strings of the segment are in the tables already. -/
def KnowsSegment (b : Bundle) (s : NamedSegment) : Prop :=
  ∀ o ∈ s.origin, o.source ∈ b.sources.values ∧ ∀ name ∈ o.name, name ∈ b.names.values

instance (b : Bundle) (s : NamedSegment) : Decidable (b.KnowsSegment s) :=
  inferInstanceAs (Decidable (∀ o ∈ s.origin, _ ∧ ∀ name ∈ o.name, _))

/-- The strings of the line are in the tables already. -/
def Knows (b : Bundle) (line : NamedLine) : Prop := ∀ s ∈ line, b.KnowsSegment s

instance (b : Bundle) (line : NamedLine) : Decidable (b.Knows line) :=
  inferInstanceAs (Decidable (∀ s ∈ line, b.KnowsSegment s))

theorem tables_eq_self_iff {b : Bundle} {sources names : StringTable} :
    { b with sources, names } = b ↔ sources = b.sources ∧ names = b.names := by
  constructor
  · intro h
    exact ⟨congrArg Bundle.sources h, congrArg Bundle.names h⟩
  · rintro ⟨rfl, rfl⟩
    rfl

theorem internSegment_eq_self_iff {b : Bundle} {s : NamedSegment} :
    (b.internSegment s).2 = b ↔ b.KnowsSegment s := by
  obtain ⟨c, _ | ⟨source, line, column, name⟩⟩ := s
  · simp [internSegment, KnowsSegment]
  · cases name with
    | none =>
      change ({ b with sources := (b.sources.intern source).2, names := b.names } : Bundle) = b ↔ _
      rw [tables_eq_self_iff, StringTable.intern_snd_eq_self_iff]
      simp [KnowsSegment]
    | some name =>
      change ({ b with
        sources := (b.sources.intern source).2, names := (b.names.intern name).2 } : Bundle) = b ↔ _
      rw [tables_eq_self_iff, StringTable.intern_snd_eq_self_iff,
        StringTable.intern_snd_eq_self_iff]
      simp [KnowsSegment]

/-- Known lines, and no others, add nothing to the tables. -/
theorem internLine_eq_self_iff {b : Bundle} {line : NamedLine} :
    (b.internLine line).2 = b ↔ b.Knows line := by
  induction line generalizing b with
  | nil => simp [internLine, Knows]
  | cons s line ih =>
    have hrest : (b.internLine (s :: line)).2 = ((b.internSegment s).2.internLine line).2 := rfl
    rw [hrest, Knows, List.forall_mem_cons, ← internSegment_eq_self_iff]
    constructor
    · intro h
      -- tables only grow, so what they are again in the end they have been all along
      have hback := extends_internLine (b.internSegment s).2 line
      have hsame : (b.internSegment s).2 = b := by
        obtain ⟨sources, names, hf⟩ := internSegment_frame b s
        have hgrown := extends_internSegment b s
        rw [h] at hback
        rw [hf] at hback hgrown ⊢
        exact tables_eq_self_iff.2 ⟨StringTable.eq_of_prefix hback.sources hgrown.sources,
          StringTable.eq_of_prefix hback.names hgrown.names⟩
      rw [hsame] at h
      exact ⟨hsame, ih.1 h⟩
    · rintro ⟨hsame, hline⟩
      rw [hsame]
      exact ih.2 hline

/-! ## Lines that are refused -/

variable [FileSystem (StateM σ)]

/-- A line with indices that is refused leaves the bundle as it was. A line with strings is refused
only where the text cannot be read. The bundle is left as it was then if the strings of the line are
in its tables, and only if they are. -/
theorem refusedLine_unchanged_iff (b : Bundle) (files files' : σ) :
    (∀ line e c, ((Operation.addLine line).run : Edit (StateM σ) Unit).outcome b files =
        ((.error e, c), files') → c = b) ∧
      ∀ line e c, ((Operation.addNamedLine line).run : Edit (StateM σ) Unit).outcome b files =
          ((.error e, c), files') →
        (∃ fault, b.mappings.resume .unbounded = .error fault ∧ e = .mapping fault) ∧
          c.mappings = b.mappings ∧ (b.Unchanged c ↔ b.Knows line) := by
  constructor
  · intro line e c h
    unfold Operation.run at h
    rw [Edit.outcome_changeTo_eq] at h
    cases hadd : b.addLine line <;> simp only [hadd] at h <;> cases h
    rfl
  · intro line e c h
    unfold Operation.run at h
    rw [Edit.outcome_changeTo_eq] at h
    obtain ⟨sources, names, hf⟩ := internLine_frame b line
    rcases addNamedLine_cases b line with ⟨m, -, hadd⟩ | ⟨fault, hfault, hadd⟩ <;>
      rw [hadd] at h <;> cases h
    refine ⟨⟨fault, Mappings.append_eq_error_iff.1 hfault, rfl⟩, by rw [hf], ?_⟩
    rw [← internLine_eq_self_iff]
    constructor
    · intro h
      rw [hf] at h ⊢
      exact tables_eq_self_iff.2 ⟨h.sources, h.names⟩
    · intro h
      rw [h]
      exact .refl b

/-- A bundle with one source, whose text cannot be read. -/
def Sample.unreadable : Bundle :=
  Operation.apply
    (.setMap "\x7b\"version\":3,\"sources\":[\"a.js\"],\"names\":[],\"mappings\":\"!\"\x7d")
    (empty .empty) (⟨[], []⟩ : Disk)

open Sample

/-- Lines that refer to the one source there is. -/
theorem refusedLine_unchanged_knownLine :
    (∃ e c, ((Operation.addLine [⟨0, some ⟨0, 0, 0, none⟩⟩]).run : Edit (StateM Disk) Unit).outcome
        unreadable ⟨[], []⟩ = ((.error e, c), ⟨[], []⟩) ∧ c = unreadable) ∧
      ∃ e c, ((Operation.addNamedLine [⟨0, some ⟨"a.js", 0, 0, none⟩⟩]).run :
        Edit (StateM Disk) Unit).outcome unreadable ⟨[], []⟩ = ((.error e, c), ⟨[], []⟩) ∧
          unreadable.Unchanged c := by
  have hline : ((Operation.addLine [⟨0, some ⟨0, 0, 0, none⟩⟩]).run :
      Edit (StateM Disk) Unit).outcome unreadable ⟨[], []⟩ =
        ((.error (.mapping (.malformed .notADigit ⟨0, 1⟩)), unreadable), ⟨[], []⟩) := by
    decide +kernel
  have hnamed : ((Operation.addNamedLine [⟨0, some ⟨"a.js", 0, 0, none⟩⟩]).run :
      Edit (StateM Disk) Unit).outcome unreadable ⟨[], []⟩ =
        ((.error (.mapping (.malformed .notADigit ⟨0, 1⟩)), unreadable), ⟨[], []⟩) := by
    decide +kernel
  obtain ⟨hlines, hnameds⟩ :=
    refusedLine_unchanged_iff unreadable (⟨[], []⟩ : Disk) ⟨[], []⟩
  obtain ⟨-, -, hunchanged⟩ := hnameds _ _ _ hnamed
  exact ⟨⟨_, _, hline, hlines _ _ _ hline⟩, _, _, hnamed, hunchanged.2 (by decide +kernel)⟩

/-- The source and the name of a line that is refused are in the tables afterwards. -/
theorem refusedLine_unknownLine : unreadable.Reachable ∧
    (unreadable.addNamedLine [⟨0, some ⟨"b.js", 0, 0, some "f"⟩⟩]).1 =
        .error (.malformed .notADigit ⟨0, 1⟩) ∧
      unreadable.sources = ⟨["a.js"]⟩ ∧ unreadable.names = ⟨[]⟩ ∧
        (unreadable.addNamedLine [⟨0, some ⟨"b.js", 0, 0, some "f"⟩⟩]).2.sources =
            ⟨["a.js", "b.js"]⟩ ∧
          (unreadable.addNamedLine [⟨0, some ⟨"b.js", 0, 0, some "f"⟩⟩]).2.names = ⟨["f"]⟩ := by
  refine ⟨.step (.empty .empty) (.setMap _) nofun _, ?_⟩
  decide +kernel

end Bundle

end SourceMap
