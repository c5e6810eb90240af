import SourceMap.Bundle.Envelope
import SourceMap.Proofs.Growth.Contents
import SourceMap.Proofs.RoundTrip.Envelope
import SourceMap.Proofs.RoundTrip.Root

/-!
# Maps loaded as they were saved

Saving leaves out of the sources what all of them start with, and lists contents by the position of
their source. Loading puts both together again.

## Main statements

* `Bundle.sources_toEnvelope` : the root of a saved map and its entries are the sources.
* `Contents.get?_ofList` : contents are found where they stand in a list.
* `Bundle.readMap_mapText` : the map of a bundle is loaded as it was saved.
-/

namespace SourceMap

/-! ## The root of the sources -/

theorem append_drop_of_isPrefix {root s : String} (h : root.toList <+: s.toList) :
    root ++ String.ofList (s.toList.drop root.length) = s := by
  obtain ⟨rest, hs⟩ := h
  rw [← hs, ← String.length_toList, List.drop_left, ← String.toList_inj]
  simp [hs]

/-! ## Contents -/

namespace Contents

theorem lookup_filterMap_zipIdx (texts : List (Option String)) (start i : Nat) :
    ((texts.zipIdx start).filterMap fun (text, i) => text.map (i, ·)).lookup i =
      if start ≤ i then texts[i - start]?.join else none := by
  induction texts generalizing start with
  | nil => simp
  | cons text texts ih =>
    have hrest : ((texts.zipIdx (start + 1)).filterMap fun (text, i) => text.map (i, ·)).lookup i =
        if start < i then (text :: texts)[i - start]?.join else none := by
      rw [ih]
      by_cases hi : start < i
      · have hsub : i - start = i - (start + 1) + 1 := by omega
        simp [hi, hsub]
      · simp [hi]
    rw [List.zipIdx_cons]
    cases text with
    | none =>
      simp only [List.filterMap_cons, Option.map_none, hrest]
      by_cases hi : start = i <;> grind
    | some t =>
      simp only [List.filterMap_cons, Option.map_some, List.lookup_cons, hrest]
      by_cases hi : start = i <;> grind

theorem get?_ofList (texts : List (Option String)) (i : Nat) :
    (ofList texts).get? i = texts[i]?.join := by
  have h := lookup_filterMap_zipIdx texts 0 i
  rwa [if_pos (Nat.zero_le i), Nat.sub_zero] at h

end Contents

theorem Mappings.text_ofText (text : String) : (ofText text).text = trimEnd text := by
  unfold ofText
  dsimp only
  split
  · next h => exact (String.isEmpty_iff.1 h).symm
  · rfl

namespace Bundle

theorem prefix_of_savedRoot? {b : Bundle} {root : String} (h : b.savedRoot? = some root) :
    ∀ s ∈ b.sources.values, root.toList <+: s.toList := by
  unfold savedRoot? at h
  split at h
  · cases h
  · rcases Option.or_eq_some_iff.1 h with h | ⟨-, h⟩
    · obtain ⟨-, hfits⟩ := Option.filter_eq_some_iff.1 h
      simpa using hfits
    · exact (Envelope.sharedDirectory_of_sharedRoot? h).starts

theorem prefix_getD_savedRoot? (b : Bundle) :
    ∀ s ∈ b.sources.values, (b.savedRoot?.getD "").toList <+: s.toList := by
  cases hroot : b.savedRoot? with
  | none => simp
  | some root => exact prefix_of_savedRoot? hroot

/-- The root of a saved map and its entries are the sources. -/
theorem sources_toEnvelope (b : Bundle) :
    b.toEnvelope.sources.map (fun source => b.toEnvelope.sourceRoot.getD "" ++ source.getD "") =
      b.sources.values := by
  simp only [toEnvelope, List.map_map]
  refine (List.map_congr_left fun s hs => ?_).trans (List.map_id _)
  exact append_drop_of_isPrefix (b.prefix_getD_savedRoot? s hs)

theorem get?_sourcesContent_toEnvelope {b : Bundle} (h : b.ContentsKnown) (i : Nat) :
    (Contents.ofList (b.toEnvelope.sourcesContent.getD [])).get? i =
      if b.embedsContents then b.contents.get? i else none := by
  rw [Contents.get?_ofList]
  cases hb : b.embedsContents with
  | false => simp [toEnvelope, hb]
  | true =>
    by_cases hi : i < b.sources.size
    · simp [toEnvelope, hb, hi]
    · have hnone := h.get?_eq_none (Nat.le_of_not_lt hi)
      simp [toEnvelope, hb, hi, hnone]

/-- The map of a bundle is loaded as it was saved, but for separators at the end of its text. -/
theorem readMap_mapText (urls : UrlTable) {b : Bundle} (hcontents : b.ContentsKnown)
    (hsources : 0 < b.sources.size ∨ b.file = none) :
    ∃ c, (empty urls).readMap b.mapText = .ok c ∧ c.file = b.file ∧ c.sources = b.sources ∧
      c.names = b.names ∧ c.mappings.text = Mappings.trimEnd b.mappings.text ∧
      ∀ i, c.contents.get? i = if b.embedsContents then b.contents.get? i else none := by
  have hread : (empty urls).readMap b.mapText = .ok ((empty urls).load b.toEnvelope) := by
    rw [readMap, mapText, Envelope.read_write]
    rfl
  have hfile : ((empty urls).load b.toEnvelope).file = b.file := by
    simp [load, toEnvelope, empty]
  have hsame : ((empty urls).load b.toEnvelope).sources = b.sources := by
    unfold load
    dsimp only
    rw [sources_toEnvelope]
    rcases hsources with hsize | hnone
    · have hne : b.sources.isEmpty = false := by
        simpa [StringTable.isEmpty, StringTable.size, List.length_pos_iff] using hsize
      cases (b.toEnvelope.file.or (empty urls).file) <;> simp [hne]
    · simp [toEnvelope, empty, hnone]
  have htext : ((empty urls).load b.toEnvelope).mappings.text =
      Mappings.trimEnd b.mappings.text := Mappings.text_ofText b.mappings.text
  exact ⟨_, hread, hfile, hsame, rfl, htext, get?_sourcesContent_toEnvelope hcontents⟩

/-- A bundle whose sources share another directory than the root that was asked for. Its text
cannot be read and ends in empty lines. -/
def Sample.rooted : Bundle :=
  { empty .empty with
    file := some "all.js"
    sourceRoot := some "lib/"
    sources := ⟨["src/a.js", "src/lib/b.js", "src/a.js"]⟩
    mappings := (Mappings.ofText "AAAA;!").extendTo 4
    contents := Contents.empty.insert 1 "\"b\"\n"
    embedsContents := true }

open Sample

theorem readMap_mapText_rooted : rooted.savedRoot? = some "src/" ∧
    ∃ c, (empty .empty).readMap rooted.mapText = .ok c ∧ c.file = some "all.js" ∧
      c.sources = ⟨["src/a.js", "src/lib/b.js", "src/a.js"]⟩ ∧ c.mappings.text = "AAAA;!" ∧
      c.contents.get? 0 = none ∧ c.contents.get? 1 = some "\"b\"\n" := by
  have hcontents : rooted.ContentsKnown := by decide
  have hsources : 0 < rooted.sources.size ∨ rooted.file = none := by decide
  obtain ⟨c, hread, hfile, hsame, -, htext, hget⟩ := readMap_mapText .empty hcontents hsources
  have htrim : Mappings.trimEnd rooted.mappings.text = "AAAA;!" := by decide +kernel
  exact ⟨by decide +kernel, c, hread, hfile, hsame, htext.trans htrim, hget 0, hget 1⟩

end Bundle

end SourceMap
