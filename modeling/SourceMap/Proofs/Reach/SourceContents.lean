import SourceMap.Files.Disk
import SourceMap.Proofs.Reach.Contents
import SourceMap.Proofs.Reach.Refusal

/-!
# Contents by the name of their source

Two bundles number their sources each in its own way, so contents that go over from one to the
other are found again by name. Where the donor has a source in several places, its last contents
win; the receiver keeps them at the first place that it has for the source.

## Main definitions

* `Contents.Ascending` : contents in the order of their indices, each index at most once.
* `Bundle.contentsFor?` : what is stored for a source, under the first of its indices.
* `Bundle.stored` : all indices under which something is stored for a source.

## Main statements

* `Reachable.ascending` : contents are always in order.
* `contentsFor?_storeContents` : storing contents changes what one source has.
* `contentsFor?_append_of_reachable` : which contents every source has after a donor has been
  appended, and that all others stay where they are.
-/

namespace SourceMap

/-! ## Contents in order -/

namespace Contents

/-- Every index comes behind all that are smaller, and only once. -/
def Ascending (c : Contents) : Prop := c.entries.Pairwise (·.1 < ·.1)

theorem ascending_empty : empty.Ascending := List.Pairwise.nil

theorem Ascending.insert {c : Contents} (h : c.Ascending) (i : Nat) (s : String) :
    (c.insert i s).Ascending := by
  obtain ⟨es⟩ := c
  unfold Ascending Contents.insert at *
  dsimp only at h ⊢
  induction es with
  | nil => exact List.pairwise_singleton _ _
  | cons e es ih =>
    obtain ⟨j, t⟩ := e
    obtain ⟨hj, hes⟩ := List.pairwise_cons.1 h
    simp only [insertEntry]
    split_ifs with hlt heq
    · refine List.pairwise_cons.2 ⟨?_, h⟩
      rintro e (_ | ⟨_, he⟩)
      · exact hlt
      · exact Nat.lt_trans hlt (hj e he)
    · subst heq
      exact List.pairwise_cons.2 ⟨hj, hes⟩
    · refine List.pairwise_cons.2 ⟨?_, ih hes⟩
      intro e he
      rcases mem_insertEntry he with rfl | he
      · dsimp only
        omega
      · exact hj e he

theorem ascending_ofList (texts : List (Option String)) : (ofList texts).Ascending := by
  have hidx : texts.zipIdx.Pairwise (·.2 < ·.2) := by
    rw [← List.pairwise_map (f := Prod.snd), List.zipIdx_map_snd]
    exact List.pairwise_lt_range'
  refine List.Pairwise.filterMap _ ?_ hidx
  rintro ⟨text, i⟩ ⟨text', i'⟩ hlt e he e' he'
  obtain ⟨-, -, rfl⟩ := Option.map_eq_some_iff.1 he
  obtain ⟨-, -, rfl⟩ := Option.map_eq_some_iff.1 he'
  exact hlt

theorem mem_entries_of_get? {c : Contents} {i : Nat} {s : String} (h : c.get? i = some s) :
    (i, s) ∈ c.entries := by
  obtain ⟨before, behind, he, -⟩ := List.lookup_eq_some_iff.1 h
  rw [he]
  exact List.mem_append_right _ List.mem_cons_self

theorem isSome_get?_iff {c : Contents} {i : Nat} :
    (c.get? i).isSome ↔ ∃ s, (i, s) ∈ c.entries := by
  constructor
  · intro h
    obtain ⟨s, hs⟩ := Option.isSome_iff_exists.1 h
    exact ⟨s, mem_entries_of_get? hs⟩
  · rintro ⟨s, hs⟩
    rw [Option.isSome_iff_ne_none, get?, Ne, List.lookup_eq_none_iff]
    intro h
    simpa using h _ hs

end Contents

namespace Bundle

theorem Change.ascending {b c : Bundle} (h : b.Change c) (hb : b.contents.Ascending) :
    c.contents.Ascending := by
  cases h with
  | describe | source | name | resume | line | emptyLines => exact hb
  | contents _ text => exact hb.insert _ text

theorem Grows.ascending {b c : Bundle} (h : b.Grows c) (hb : b.contents.Ascending) :
    c.contents.Ascending :=
  h.keeps (P := fun c => c.contents.Ascending) (fun _ _ => Change.ascending) hb

theorem Reachable.ascending {b : Bundle} (h : b.Reachable) : b.contents.Ascending := by
  induction h with
  | empty urls => exact Contents.ascending_empty
  | @step b _ op _ _ _ files ih _ =>
    rcases op.apply_cases b files with ⟨file, e, mapUrl, body, -, happ⟩ | ⟨-, hg⟩
    · have hload := contents_load { b with file } e
      rw [happ]
      dsimp only
      rw [hload]
      exact Contents.ascending_ofList _
    · exact hg.ascending ih

/-! ## What a source has -/

/-- What is stored for `source`, under the first of its indices. -/
def contentsFor? (b : Bundle) (source : String) : Option String :=
  (b.sources.index? source).bind b.contents.get?

/-- The indices of `source` under which something is stored. -/
def stored (b : Bundle) (source : String) : Set Nat :=
  { i | b.sources.get i = .ok source ∧ (b.contents.get? i).isSome }

/-- A source that is new has nothing stored yet, and the others keep what they have. -/
theorem contentsFor?_of_extends {b c : Bundle} (hk : b.ContentsKnown) (he : b.Extends c)
    (hc : c.contents = b.contents) (source : String) :
    c.contentsFor? source = b.contentsFor? source := by
  unfold contentsFor?
  rw [hc]
  rcases StringTable.index?_of_prefix he.sources source with h | ⟨hnone, i, hi, h⟩
  · rw [h]
  · rw [h, hnone]
    exact Contents.Below.get?_eq_none hk hi

theorem contentsFor?_storeContents (b : Bundle) (source text other : String) :
    (b.storeContents source text).2.contentsFor? other =
      if other = source then some text else b.contentsFor? other := by
  have hindex := StringTable.index?_intern b.sources source other
  have hget (j : Nat) : (b.storeContents source text).2.contents.get? j =
      if j = (b.sources.intern source).1 then some text else b.contents.get? j :=
    Contents.get?_insert b.contents _ j text
  change ((b.sources.intern source).2.index? other).bind _ = _
  rw [hindex]
  split_ifs with h
  · rw [Option.bind_some, hget, if_pos rfl]
  · unfold contentsFor?
    cases hi : b.sources.index? other with
    | none => rfl
    | some j =>
      -- an index names one string, so that of another source is not overwritten
      have hne : j ≠ (b.sources.intern source).1 := by
        rintro rfl
        have hold := StringTable.get_of_prefix (StringTable.values_prefix_intern b.sources source)
          (StringTable.get_of_index? hi)
        rw [StringTable.get_intern] at hold
        exact h (Except.ok.inj hold).symm
      rw [Option.bind_some, Option.bind_some, hget, if_neg hne]

/-- Contents are stored under an index that the source has already, or behind the table. -/
theorem get?_storeContents_of_ne {b : Bundle} {source : String} {i : Nat}
    (hi : i < b.sources.size) (h : b.sources.index? source ≠ some i) (text : String) :
    (b.storeContents source text).2.contents.get? i = b.contents.get? i := by
  have hne : i ≠ (b.sources.intern source).1 := by
    rcases b.sources.intern_fst source with hs | ⟨-, hs⟩
    · rintro rfl
      exact h hs
    · omega
  exact (Contents.get?_insert b.contents _ i text).trans (if_neg hne)

/-! ## Taking over contents -/

section

variable {b c donor : Bundle} {t : StringTable} {es : List (Nat × String)}

theorem storeAll_append_of_ok {before : List (Nat × String)} (h : ∀ e ∈ before, e.1 < t.size)
    (behind : List (Nat × String)) :
    b.storeAll t (before ++ behind) = (b.storeAll t before).2.storeAll t behind := by
  induction before generalizing b with
  | nil => rfl
  | cons e before ih =>
    obtain ⟨i, text⟩ := e
    obtain ⟨hi, hrest⟩ := List.forall_mem_cons.1 h
    have hs : t.get i = .ok t.values[i] :=
      StringTable.get_eq_ok_iff.2 (List.getElem?_eq_getElem hi)
    rw [List.cons_append, storeAll_cons_of_get hs, storeAll_cons_of_get hs, ih hrest]

/-- Contents of other sources leave those of a source alone. -/
theorem contentsFor?_storeAll_of_ne {source : String} (h : ∀ e ∈ es, t.get e.1 ≠ .ok source) :
    (b.storeAll t es).2.contentsFor? source = b.contentsFor? source := by
  induction es generalizing b with
  | nil => rfl
  | cons e es ih =>
    obtain ⟨i, text⟩ := e
    obtain ⟨hi, hes⟩ := List.forall_mem_cons.1 h
    cases hs : t.get i with
    | error e => simp [storeAll, hs]
    | ok other =>
      have hne : source ≠ other := by
        rintro rfl
        exact hi hs
      rw [storeAll_cons_of_get hs, ih hes, contentsFor?_storeContents, if_neg hne]

/-- The last of the contents that there are for a source are those that it has afterwards. -/
theorem contentsFor?_storeAll_of_last {before behind : List (Nat × String)} {i : Nat}
    {source text : String} (hbefore : ∀ e ∈ before, e.1 < t.size) (hi : t.get i = .ok source)
    (hbehind : ∀ e ∈ behind, t.get e.1 ≠ .ok source) :
    (b.storeAll t (before ++ (i, text) :: behind)).2.contentsFor? source = some text := by
  rw [storeAll_append_of_ok hbefore, storeAll_cons_of_get hi, contentsFor?_storeAll_of_ne hbehind,
    contentsFor?_storeContents, if_pos rfl]

/-- What is stored at an index stays, unless it is the first one of a source with new contents. -/
theorem get?_storeAll_of_ne {i : Nat} (hi : i < b.sources.size)
    (h : ∀ e ∈ es, ∀ source, t.get e.1 = .ok source → b.sources.index? source ≠ some i) :
    (b.storeAll t es).2.contents.get? i = b.contents.get? i := by
  induction es generalizing b with
  | nil => rfl
  | cons e es ih =>
    obtain ⟨j, text⟩ := e
    obtain ⟨hj, hes⟩ := List.forall_mem_cons.1 h
    cases hs : t.get j with
    | error e => simp [storeAll, hs]
    | ok source =>
      have hprefix : b.sources.values <+: (b.storeContents source text).2.sources.values :=
        StringTable.values_prefix_intern b.sources source
      rw [storeAll_cons_of_get hs, ih (Nat.lt_of_lt_of_le hi hprefix.length_le),
        get?_storeContents_of_ne hi (hj source hs)]
      intro e he other hother
      rcases StringTable.index?_of_prefix hprefix other with hsame | ⟨-, k, hk, hnew⟩
      · rw [hsame]
        exact hes e he other hother
      · rw [hnew]
        rintro ⟨⟩
        omega

/-! ## Appending -/

/-- Up to the point where contents are taken over, the tables grow and the contents are left. -/
theorem exists_storeAll_of_append (h : b.append donor = (.ok (), c)) :
    ∃ j, b.Extends j ∧ j.contents = b.contents ∧
      c.sources = (j.storeAll donor.sources donor.contents.entries).2.sources ∧
        c.contents = (j.storeAll donor.sources donor.contents.entries).2.contents := by
  obtain ⟨⟨lines, hd⟩, -, hb⟩ := append_accepts_iff.1 (congrArg Prod.fst h)
  obtain ⟨m, hm⟩ := resume_eq_ok_iff.2 hb
  obtain ⟨embeds, happ⟩ := append_of_ok hd hm
  obtain rfl : _ = c := (congrArg Prod.snd happ).symm.trans (congrArg Prod.snd h)
  have hgrows := (Change.resume hm).grows.trans (grows_joined _ donor lines)
  refine ⟨_, hgrows.tables, ?_, rfl, rfl⟩
  obtain ⟨sources, names, mappings, body, hjoined⟩ :=
    joined_frame { b with mappings := m } donor lines
  rw [hjoined]

/-- After a donor has been appended, a source for which the donor stores anything has the contents
at the last of the donor's indices for it, and any other source has what it had. What the receiver
stores is replaced only at the first index of a source for which the donor stores anything. -/
theorem contentsFor?_append_of_reachable (hk : b.ContentsKnown) (hd : donor.Reachable)
    (h : b.append donor = (.ok (), c)) :
    (∀ source,
      ((donor.stored source).Nonempty → ∃ i, IsGreatest (donor.stored source) i ∧
        c.contentsFor? source = donor.contents.get? i) ∧
      (¬ (donor.stored source).Nonempty → c.contentsFor? source = b.contentsFor? source)) ∧
    ∀ i < b.sources.size,
      (∀ source, (donor.stored source).Nonempty → b.sources.index? source ≠ some i) →
        c.contents.get? i = b.contents.get? i := by
  have hknown := (append_accepts_iff.1 (congrArg Prod.fst h)).2.1
  obtain ⟨j, hext, hsame, hsources, hcontents⟩ := exists_storeAll_of_append h
  have hfor (source : String) : c.contentsFor? source =
      (j.storeAll donor.sources donor.contents.entries).2.contentsFor? source := by
    unfold contentsFor?
    rw [hsources, hcontents]
  have hstored {e : Nat × String} (he : e ∈ donor.contents.entries) {source : String}
      (hs : donor.sources.get e.1 = .ok source) : e.1 ∈ donor.stored source :=
    ⟨hs, Contents.isSome_get?_iff.2 ⟨e.2, he⟩⟩
  refine ⟨fun source => ⟨fun hne => ?_, fun hnone => ?_⟩, fun i hi hother => ?_⟩
  · have hbounded : BddAbove (donor.stored source) :=
      ⟨donor.sources.size, fun i hi => Nat.le_of_lt (StringTable.lt_size_of_get hi.1)⟩
    have hmem := Nat.sSup_mem hne hbounded
    refine ⟨sSup (donor.stored source), ⟨hmem, fun i hi => le_csSup hbounded hi⟩, ?_⟩
    obtain ⟨text, ht⟩ := Option.isSome_iff_exists.1 hmem.2
    obtain ⟨before, behind, hsplit⟩ :=
      List.append_of_mem (Contents.mem_entries_of_get? ht)
    have hasc := hd.ascending
    unfold Contents.Ascending at hasc
    rw [hsplit] at hasc
    rw [hfor, hsplit, ht]
    refine contentsFor?_storeAll_of_last ?_ hmem.1 ?_
    · intro e he
      exact hknown e (by rw [hsplit]; exact List.mem_append_left _ he)
    · -- whatever comes behind has a larger index, and this one is the largest for the source
      intro e he hs
      have hlt := (List.pairwise_cons.1 (List.pairwise_append.1 hasc).2.1).1 e he
      have hle := le_csSup hbounded (hstored (by rw [hsplit]; simp [he]) hs)
      exact absurd hlt (Nat.not_lt.2 hle)
  · rw [hfor, contentsFor?_storeAll_of_ne fun e he hs => hnone ⟨e.1, hstored he hs⟩]
    exact contentsFor?_of_extends hk hext hsame source
  · rw [hcontents, get?_storeAll_of_ne (Nat.lt_of_lt_of_le hi hext.sources.length_le), hsame]
    intro e he source hs
    rcases StringTable.index?_of_prefix hext.sources source with hold | ⟨-, k, hk, hnew⟩
    · rw [hold]
      exact hother source ⟨e.1, hstored he hs⟩
    · rw [hnew]
      rintro ⟨⟩
      omega

end

namespace Sample

/-- A bundle with a map of one segment. -/
def withContents (sources texts : List String) : Bundle :=
  { empty .empty with
    sources := ⟨sources⟩
    mappings := .ofText "AAAA"
    contents := .ofList (texts.map some)
    embedsContents := true
    hasMap := true }

/-- A bundle that has `x.js` twice, with contents in both places. -/
def twofold : Bundle := withContents ["x.js", "y.js", "x.js"] ["1", "2", "3"]

/-- A bundle that has `y.js` twice, with contents in both places, and a source that `twofold` does
not have. -/
def twofoldDonor : Bundle := withContents ["y.js", "z.js", "y.js"] ["4", "5", "6"]

end Sample

open Sample

theorem reachable_twofoldDonor : twofoldDonor.Reachable := by
  have hread : Operation.apply
      (.setMap ("\x7b\"version\":3,\"sources\":[\"y.js\",\"z.js\",\"y.js\"]," ++
        "\"sourcesContent\":[\"4\",\"5\",\"6\"],\"names\":[],\"mappings\":\"AAAA\"\x7d"))
      (empty .empty) (⟨[], []⟩ : Disk) = twofoldDonor := by
    decide +kernel
  rw [← hread]
  exact .step (.empty .empty) (.setMap _) nofun _

theorem isGreatest_stored_twofoldDonor : IsGreatest (twofoldDonor.stored "y.js") 2 := by
  refine ⟨⟨rfl, rfl⟩, fun i hi => ?_⟩
  have hsize : twofoldDonor.sources.size = 3 := rfl
  have := StringTable.lt_size_of_get hi.1
  omega

theorem eq_of_nonempty_stored_twofoldDonor {source : String}
    (h : (twofoldDonor.stored source).Nonempty) : source = "y.js" ∨ source = "z.js" := by
  obtain ⟨i, hi, -⟩ := h
  have hvalues : twofoldDonor.sources.values = ["y.js", "z.js", "y.js"] := rfl
  have hmem := List.mem_of_getElem? (StringTable.get_eq_ok_iff.1 hi)
  rw [hvalues] at hmem
  simp only [List.mem_cons, List.not_mem_nil, or_false] at hmem
  rcases hmem with h | h | h
  · exact .inl h
  · exact .inr h
  · exact .inl h

/-- The last contents of `y.js` replace those of the receiver. Those of `x.js` stay in both places,
of which the first counts. -/
theorem contentsFor?_append_twofold : twofold.ContentsKnown ∧
    ∃ c, twofold.append twofoldDonor = (.ok (), c) ∧ c.contentsFor? "y.js" = some "6" ∧
      c.contentsFor? "x.js" = some "1" ∧ c.contents.get? 2 = some "3" := by
  have hk : twofold.ContentsKnown := by decide
  have hok : (twofold.append twofoldDonor).1 = .ok () := by decide +kernel
  have happ {r : Except MappingError Unit × Bundle} (hr : r.1 = .ok ()) : r = (.ok (), r.2) :=
    Prod.ext hr rfl
  obtain ⟨hsources, hkept⟩ :=
    contentsFor?_append_of_reachable hk reachable_twofoldDonor (happ hok)
  refine ⟨hk, _, happ hok, ?_, ?_, ?_⟩
  · have hgreatest := isGreatest_stored_twofoldDonor
    obtain ⟨i, hi, hfor⟩ := (hsources "y.js").1 ⟨2, hgreatest.1⟩
    rw [hfor, hi.unique hgreatest]
    rfl
  · rw [(hsources "x.js").2 fun hne => by simpa using eq_of_nonempty_stored_twofoldDonor hne]
    rfl
  · rw [hkept 2 (by decide)]
    · rfl
    · intro source hne
      rcases eq_of_nonempty_stored_twofoldDonor hne with rfl | rfl <;> decide

end Bundle

end SourceMap
