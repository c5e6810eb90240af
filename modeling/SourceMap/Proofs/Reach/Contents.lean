import SourceMap.Files.Disk
import SourceMap.Proofs.Reach.Operation

/-!
# Contents along a run

Every operation stores contents for a source that it has or adds. Only a map that is taken over
brings contents by index, and there may be more of them than sources.

## Main definitions

* `Envelope.Fits` : a map has contents for its own sources only.
* `Bundle.states` : the bundles along a run of operations.
* `Bundle.TakesFitting` : every map that a run takes over fits.

## Main statements

* `contentsKnown_load_iff` : a map that is taken over keeps contents with sources if it fits.
* `contentsKnown_states_iff` : they stay together along a run if and only if every map in it fits.
-/

namespace SourceMap

/-- How many sources a map brings. Without any, the generated file is taken to be one. -/
def Envelope.sourceCount (e : Envelope) (file : Option String) : Nat :=
  if e.sources.isEmpty && (e.file.or file).isSome then 1 else e.sources.length

/-- There are contents for sources of the map only, where `file` is the name of the generated file
unless the map has another. -/
def Envelope.Fits (e : Envelope) (file : Option String) : Prop :=
  ∀ i text, (e.sourcesContent.getD [])[i]? = some (some text) → i < e.sourceCount file

namespace Bundle

theorem size_sources_load (b : Bundle) (e : Envelope) :
    (b.load e).sources.size = e.sourceCount b.file := by
  unfold load Envelope.sourceCount
  dsimp only
  cases he : e.file.or b.file with
  | none => simp [StringTable.size]
  | some file =>
    cases hs : e.sources with
    | nil => simp [StringTable.isEmpty, StringTable.intern, StringTable.index?, StringTable.size]
    | cons s ss => simp [StringTable.isEmpty, StringTable.size]

theorem contents_load (b : Bundle) (e : Envelope) :
    (b.load e).contents = .ofList (e.sourcesContent.getD []) := by
  unfold load
  dsimp only

theorem contentsKnown_load_iff {b : Bundle} {e : Envelope} :
    (b.load e).ContentsKnown ↔ e.Fits b.file := by
  rw [ContentsKnown, size_sources_load, contents_load]
  exact Contents.below_ofList

variable {σ : Type} [FileSystem (StateM σ)]

/-- What an operation does to contents that are known. -/
theorem contentsKnown_apply_iff {b : Bundle} (h : b.ContentsKnown) (op : Operation) (files : σ) :
    (op.apply b files).ContentsKnown ↔
      ∀ c e, op.taken? b files = some (c, e) → e.Fits c.file := by
  rcases op.apply_cases b files with ⟨file, e, mapUrl, body, ht, happ⟩ | ⟨ht, hg⟩
  · have hload : (op.apply b files).ContentsKnown ↔ e.Fits file := by
      have hc := contentsKnown_load_iff (b := { b with file }) (e := e)
      rw [happ]
      generalize load { b with file } e = d at hc ⊢
      exact hc
    rw [hload, ht]
    constructor
    · rintro he c e' ⟨⟩
      exact he
    · intro he
      exact he _ e rfl
  · rw [ht]
    exact iff_of_true (hg.contentsKnown h) (by simp)

/-! ## Runs -/

/-- The bundles before and after each of the operations, where the files are as given before each
of them. -/
def states (b : Bundle) : List (Operation × σ) → List Bundle
  | [] => [b]
  | (op, files) :: rest => b :: (op.apply b files).states rest

/-- Every map that one of the operations takes over fits. -/
def TakesFitting (b : Bundle) : List (Operation × σ) → Prop
  | [] => True
  | (op, files) :: rest =>
    (∀ c e, op.taken? b files = some (c, e) → e.Fits c.file) ∧ (op.apply b files).TakesFitting rest

theorem head_mem_states (b : Bundle) (steps : List (Operation × σ)) : b ∈ b.states steps := by
  cases steps with
  | nil => exact List.mem_singleton_self b
  | cons s steps => exact List.mem_cons_self

theorem forall_contentsKnown_iff {b : Bundle} (h : b.ContentsKnown) (steps : List (Operation × σ)) :
    (∀ c ∈ b.states steps, c.ContentsKnown) ↔ b.TakesFitting steps := by
  induction steps generalizing b with
  | nil =>
    refine iff_of_true ?_ trivial
    intro c hc
    rw [List.mem_singleton.1 hc]
    exact h
  | cons s steps ih =>
    obtain ⟨op, files⟩ := s
    rw [states, TakesFitting, List.forall_mem_cons, ← contentsKnown_apply_iff h]
    constructor
    · rintro ⟨-, hall⟩
      have hnext := hall _ (head_mem_states _ steps)
      exact ⟨hnext, (ih hnext).1 hall⟩
    · rintro ⟨hnext, hrest⟩
      exact ⟨h, (ih hnext).2 hrest⟩

/-- In every bundle along a run, contents belong to sources that are registered, and a source that
is new has none if and only if every map that is taken over on the way fits. -/
theorem contentsKnown_states_iff (urls : UrlTable) (steps : List (Operation × σ)) :
    (∀ c ∈ (empty urls).states steps, c.ContentsKnown ∧
      ∀ source, c.sources.index? source = none →
        (c.internSource source).2.contents.get? (c.internSource source).1 = none) ↔
      (empty urls).TakesFitting steps := by
  rw [← forall_contentsKnown_iff (contentsKnown_empty urls) steps]
  constructor
  · intro h c hc
    exact (h c hc).1
  · intro h c hc
    exact ⟨h c hc, fun _ hs => get?_eq_none_of_contentsKnown (h c hc) hs⟩

/-- A bundle with contents for two sources, of which it has one. -/
def Sample.orphaned : Bundle :=
  Operation.apply (.setMap ("\x7b\"version\":3,\"sources\":[\"b.js\"]," ++
    "\"sourcesContent\":[\"b\",\"c\"],\"names\":[],\"mappings\":\"AAAA\"\x7d"))
    (empty .empty) (⟨[], []⟩ : Disk)

open Sample

theorem reachable_orphaned : orphaned.Reachable :=
  .step (.empty .empty) (.setMap _) nofun _

/-- A source that is new finds the second text to be its own. -/
theorem internSource_orphaned : orphaned.Reachable ∧ ¬ orphaned.ContentsKnown ∧
    orphaned.sources.index? "new.js" = none ∧
      (orphaned.internSource "new.js").2.contents.get? (orphaned.internSource "new.js").1 =
        some "c" := by
  refine ⟨reachable_orphaned, ?_, ?_, ?_⟩ <;> decide +kernel

end Bundle

end SourceMap
