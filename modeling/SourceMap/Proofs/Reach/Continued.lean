import SourceMap.Files.Disk
import SourceMap.Proofs.Growth.Readable
import SourceMap.Proofs.Reach.Operation

/-!
# Bundles between maps

As long as no map is taken over, nothing that has been written into a bundle is ever changed: what
comes is put behind what is there. So an index that was given out goes on naming its string, and
lines that could be read are read again, with whatever follows them.

## Main definitions

* `Bundle.Continues` : one bundle has all that another has, in front of the rest.
* `Bundle.after` : the bundle that a run of operations leads to.
* `Bundle.sourceGiven?`, `Bundle.nameGiven?` : the indices that operations give out.

## Main statements

* `Grows.exists_lines` : small changes put lines behind the lines that are there.
* `continues_after` : a run that takes over no map continues a bundle.
* `continues_of_reachable` : so it does from any of its points, and it keeps the indices that were
  given out there.
-/

namespace SourceMap

variable {σ : Type}

/-! ## Text and lines of a bundle that grows -/

namespace Mappings

theorem exists_text_openLine (m : Mappings) : ∃ rest, m.openLine = m.text ++ rest := by
  unfold openLine
  split
  · exact ⟨"", by simp⟩
  · exact ⟨";", rfl⟩

theorem exists_text_addEmptyLines (m : Mappings) (n : Nat) :
    ∃ rest, (m.addEmptyLines n).text = m.text ++ rest := by
  induction n generalizing m with
  | zero => exact ⟨"", by simp [addEmptyLines]⟩
  | succ n ih =>
    obtain ⟨first, hfirst⟩ := m.exists_text_openLine
    obtain ⟨rest, hrest⟩ := ih { m with text := m.openLine, lineCount := m.lineCount + 1 }
    exact ⟨first ++ rest, by rw [addEmptyLines, hrest, hfirst, String.append_assoc]⟩

theorem text_resume {m n : Mappings} {l : Limits} (h : m.resume l = .ok n) : n.text = m.text := by
  unfold resume at h
  split at h
  · cases h
    rfl
  · split at h <;> cases h
    rfl

theorem exists_text_append {m n : Mappings} {line : Line} (h : m.append line = .ok n) :
    ∃ rest, n.text = m.text ++ rest := by
  obtain ⟨k, hk, rfl⟩ := append_eq_ok_iff.1 h
  obtain ⟨rest, hrest⟩ := k.exists_text_openLine
  rw [text_resume hk] at hrest
  exact ⟨_, by rw [hrest, String.append_assoc]⟩

end Mappings

namespace Bundle

theorem Change.exists_text {b c : Bundle} (h : b.Change c) :
    ∃ rest, c.mappings.text = b.mappings.text ++ rest := by
  cases h with
  | describe | source | name | contents => exact ⟨"", String.append_empty.symm⟩
  | resume hm => exact ⟨"", by rw [String.append_empty]; exact Mappings.text_resume hm⟩
  | line hm => exact Mappings.exists_text_append hm
  | emptyLines lines => exact Mappings.exists_text_addEmptyLines _ _

theorem Grows.exists_text {b c : Bundle} (h : b.Grows c) :
    ∃ rest, c.mappings.text = b.mappings.text ++ rest := by
  refine h.keeps (P := fun c => ∃ rest, c.mappings.text = b.mappings.text ++ rest) ?_ ⟨"", by simp⟩
  rintro c d hd ⟨rest, hc⟩
  obtain ⟨more, hmore⟩ := hd.exists_text
  exact ⟨rest ++ more, by rw [hmore, hc, String.append_assoc]⟩

/-- The text is read as `lines` and whatever follows them. -/
def ReadsFrom (b : Bundle) (lines : List Line) : Prop :=
  b.mappings.Consistent ∧ ∃ rest d, b.mappings.Reads (lines ++ rest) d

theorem Change.readsFrom {b c : Bundle} (h : b.Change c) {lines : List Line}
    (hb : b.ReadsFrom lines) : c.ReadsFrom lines := by
  obtain ⟨hm, rest, d, hr⟩ := hb
  refine ⟨h.consistent hm, ?_⟩
  cases h with
  | describe | source | name | contents => exact ⟨rest, d, hr⟩
  | resume hres =>
    obtain ⟨-, -, last, -, rfl, -⟩ := Mappings.resume_eq_ok hm hres
    exact ⟨rest, d, hr⟩
  | @line line _ happ =>
    obtain ⟨read, _, d', hread, hr', -⟩ := Mappings.append_eq_ok hm happ
    obtain ⟨rfl, -⟩ := hread.unique hr
    exact ⟨rest ++ [line], d', by rwa [← List.append_assoc]⟩
  | emptyLines n =>
    obtain ⟨d', hr'⟩ := Mappings.reads_extendTo hm hr n
    rw [List.rightpad, List.append_assoc] at hr'
    exact ⟨_, d', hr'⟩

/-- Lines that can be read stay, and what is added comes behind them. -/
theorem Grows.exists_lines {b c : Bundle} (h : b.Grows c) (hm : b.mappings.Consistent)
    (hc : c.Readable) {lines : List Line} (hl : b.lines = .ok lines) :
    ∃ rest, c.lines = .ok (lines ++ rest) := by
  obtain ⟨⟨d, hr⟩, -⟩ := Mappings.decode_eq_ok_iff.1 hl
  obtain ⟨-, rest, d', hr'⟩ := h.keeps (P := fun c => c.ReadsFrom lines)
    (fun _ _ hd => hd.readsFrom) ⟨hm, [], d, by rwa [List.append_nil]⟩
  obtain ⟨all, hall⟩ := readable_iff_lines.1 hc
  obtain ⟨⟨d'', hr''⟩, -⟩ := Mappings.decode_eq_ok_iff.1 hall
  obtain ⟨rfl, -⟩ := hr'.unique hr''
  exact ⟨rest, hall⟩

end Bundle

/-! ## Operations -/

namespace Bundle

/-- The bundle `c` has all that `b` has, in front of whatever else it has. -/
structure Continues (b c : Bundle) : Prop where
  tables : b.Extends c
  text : ∃ rest, c.mappings.text = b.mappings.text ++ rest
  lines : ∀ lines, b.lines = .ok lines → ∃ rest, c.lines = .ok (lines ++ rest)

variable {b : Bundle} [FileSystem (StateM σ)]

theorem grows_apply {op : Operation} (hop : op.keepsMap) (b : Bundle) (files : σ) :
    b.Grows (op.apply b files) := by
  rcases op.apply_cases_of_keepsMap hop b files with
    ⟨hg, -⟩ | ⟨line, -, hc⟩ | ⟨line, -, hc⟩ | ⟨donor, -, hc⟩
  · exact hg
  · exact grows_addLine hc
  · rw [hc]
    exact grows_addNamedLine b line
  · rw [hc]
    exact grows_append b donor

/-- What can be read can still be read, also where the operation failed. -/
theorem Readable.apply (hm : b.mappings.Consistent) (h : b.Readable) {op : Operation}
    (hop : op.keepsMap) (files : σ) : (op.apply b files).Readable := by
  rcases op.apply_cases_of_keepsMap hop b files with
    ⟨hg, hsame⟩ | ⟨line, -, hc⟩ | ⟨line, -, hc⟩ | ⟨donor, -, hc⟩
  · exact h.of_extends hg.tables hsame
  · exact h.addLine hm hc
  · rw [hc]
    exact h.addNamedLine hm line
  · rw [hc]
    exact h.append hm donor

/-! ## Runs -/

/-- The bundle after the operations, where the files are as given before each of them. -/
def after (b : Bundle) (steps : List (Operation × σ)) : Bundle :=
  steps.foldl (fun b s => s.1.apply b s.2) b

theorem after_append (b : Bundle) (earlier later : List (Operation × σ)) :
    b.after (earlier ++ later) = (b.after earlier).after later :=
  List.foldl_append

theorem consistent_after (hm : b.mappings.Consistent) (steps : List (Operation × σ)) :
    (b.after steps).mappings.Consistent := by
  induction steps generalizing b with
  | nil => exact hm
  | cons s steps ih => exact ih (s.1.consistent_apply hm s.2)

theorem grows_after {steps : List (Operation × σ)} (hs : ∀ s ∈ steps, s.1.keepsMap) :
    b.Grows (b.after steps) := by
  induction steps generalizing b with
  | nil => exact .refl b
  | cons s steps ih =>
    obtain ⟨hop, hs⟩ := List.forall_mem_cons.1 hs
    exact (grows_apply hop b s.2).trans (ih hs)

theorem Readable.after (hm : b.mappings.Consistent) (h : b.Readable)
    {steps : List (Operation × σ)} (hs : ∀ s ∈ steps, s.1.keepsMap) : (b.after steps).Readable := by
  induction steps generalizing b with
  | nil => exact h
  | cons s steps ih =>
    obtain ⟨hop, hs⟩ := List.forall_mem_cons.1 hs
    exact ih (s.1.consistent_apply hm s.2) (h.apply hm hop s.2) hs

theorem continues_after (hm : b.mappings.Consistent) {steps : List (Operation × σ)}
    (hs : ∀ s ∈ steps, s.1.keepsMap) : b.Continues (b.after steps) where
  tables := (grows_after hs).tables
  text := (grows_after hs).exists_text
  lines lines hl := by
    have hread : b.Readable := readable_iff_lines.2 ⟨lines, hl⟩
    exact (grows_after hs).exists_lines hm (hread.after hm hs) hl

/-! ## Indices that are given out -/

/-- What the operation gives out as the index of a source, and the source. -/
def sourceGiven? (b : Bundle) : Operation → Option (Nat × String)
  | .internSource source => some ((b.internSource source).1, source)
  | .storeContents source text => some ((b.storeContents source text).1, source)
  | _ => none

def nameGiven? (b : Bundle) : Operation → Option (Nat × String)
  | .internName name => some ((b.internName name).1, name)
  | _ => none

theorem get_of_sourceGiven? {op : Operation} {i : Nat} {source : String}
    (h : b.sourceGiven? op = some (i, source)) (files : σ) :
    (op.apply b files).sources.get i = .ok source := by
  cases op <;> cases h
  · exact StringTable.get_intern b.sources source
  · exact StringTable.get_intern b.sources source

theorem get_of_nameGiven? {op : Operation} {i : Nat} {name : String}
    (h : b.nameGiven? op = some (i, name)) (files : σ) :
    (op.apply b files).names.get i = .ok name := by
  cases op <;> cases h
  exact StringTable.get_intern b.names name

/-- From any point of a run to any later one, tables and text only become longer, lines that could
be read are read again in front of all others, and an index that was given out names the string it
was given out for. Reading a bundle and writing its map as text change nothing at any point. -/
theorem continues_of_reachable (hb : b.Reachable) {earlier later : List (Operation × σ)}
    (hs : ∀ s ∈ earlier ++ later, s.1.keepsMap) :
    (b.after earlier).Continues (b.after (earlier ++ later)) ∧
      ∀ op files rest, later = (op, files) :: rest →
        (∀ i source, (b.after earlier).sourceGiven? op = some (i, source) →
          (b.after (earlier ++ later)).sources.get i = .ok source) ∧
        ∀ i name, (b.after earlier).nameGiven? op = some (i, name) →
          (b.after (earlier ++ later)).names.get i = .ok name := by
  have hlater : ∀ s ∈ later, s.1.keepsMap := fun s h => hs s (List.mem_append_right _ h)
  have hm := consistent_after hb.consistent earlier
  rw [after_append]
  refine ⟨continues_after hm hlater, ?_⟩
  rintro op files rest rfl
  -- the tables of the bundle that has given the index out are the start of all later ones
  obtain ⟨-, hrest⟩ := List.forall_mem_cons.1 hlater
  have he := (grows_after (b := op.apply (b.after earlier) files) hrest).tables
  constructor
  · intro i source h
    exact StringTable.get_of_prefix he.sources (get_of_sourceGiven? h files)
  · intro i name h
    exact StringTable.get_of_prefix he.names (get_of_nameGiven? h files)

namespace Sample

/-- A map that holds one source twice, with a line that refers to the second. -/
def repeated : Bundle :=
  Operation.apply (.setMap ("\x7b\"version\":3,\"sources\":[\"a.js\",\"a.js\"],\"names\":[]," ++
    "\"mappings\":\"ACAA\"\x7d")) (empty .empty) (⟨[], []⟩ : Disk)

/-- A line of a source that is new, and one of a source that there is not. -/
def addBoth : List (Operation × Disk) :=
  [(.addNamedLine [⟨4, some ⟨"b.js", 1, 2, some "f"⟩⟩], ⟨[], []⟩),
    (.addLine [⟨0, some ⟨9, 0, 0, none⟩⟩], ⟨[], []⟩)]

/-- A source for which contents are looked for, and then the first bundle once more. -/
def addSource : List (Operation × Disk) :=
  [(.internSource "c.js", ⟨[], []⟩), (.contentsOf "c.js", ⟨[], []⟩), (.append repeated, ⟨[], []⟩)]

end Sample

open Sample

theorem continues_repeated : (repeated.after addBoth).lines =
      .ok [[⟨0, some ⟨1, 0, 0, none⟩⟩], [⟨4, some ⟨2, 1, 2, some 0⟩⟩]] ∧
    (∃ rest, (repeated.after (addBoth ++ addSource)).lines =
      .ok ([[⟨0, some ⟨1, 0, 0, none⟩⟩], [⟨4, some ⟨2, 1, 2, some 0⟩⟩]] ++ rest)) ∧
    (repeated.after addBoth).sourceGiven? (.internSource "c.js") = some (3, "c.js") ∧
      (repeated.after (addBoth ++ addSource)).sources.get 3 = .ok "c.js" := by
  have hb : repeated.Reachable := .step (.empty .empty) (.setMap _) nofun _
  have hs : ∀ s ∈ addBoth ++ addSource, s.1.keepsMap := by
    simp [addBoth, addSource, Operation.keepsMap]
  have hlines : (repeated.after addBoth).lines =
      .ok [[⟨0, some ⟨1, 0, 0, none⟩⟩], [⟨4, some ⟨2, 1, 2, some 0⟩⟩]] := by
    decide +kernel
  have hgiven : (repeated.after addBoth).sourceGiven? (.internSource "c.js") =
      some (3, "c.js") := by
    decide +kernel
  obtain ⟨hcontinues, hindices⟩ := continues_of_reachable hb hs
  exact ⟨hlines, hcontinues.lines _ hlines, hgiven, (hindices _ _ _ rfl).1 3 "c.js" hgiven⟩

end Bundle

end SourceMap
