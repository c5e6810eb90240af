import SourceMap.Proofs.Reach.Contents

/-!
# Appending that fails

A donor that cannot be read and a map that cannot be continued are noticed before anything changes.
Contents without a source are noticed last, when the lines and the body are already there.

## Main definitions

* `Bundle.Unchanged` : the parts of a bundle that a failure should leave alone.

## Main statements

* `append_unchanged_iff` : the donors that leave alone whatever they cannot be appended to.
-/

namespace SourceMap.Bundle

/-- What a program can see of a bundle is the same. -/
structure Unchanged (b c : Bundle) : Prop where
  sources : c.sources = b.sources
  names : c.names = b.names
  text : c.mappings.text = b.mappings.text
  lineCount : c.mappings.lineCount = b.mappings.lineCount
  body : c.body = b.body
  contents : c.contents = b.contents
  embedsContents : c.embedsContents = b.embedsContents
  mapUrl : c.mapUrl = b.mapUrl

theorem Unchanged.refl (b : Bundle) : b.Unchanged b := ⟨rfl, rfl, rfl, rfl, rfl, rfl, rfl, rfl⟩

variable {b donor : Bundle} {lines : List NamedLine} {m : Mappings}

/-- Once lines can be added, only contents without a source make appending fail. -/
theorem append_eq_ok_iff (hd : donor.namedLines = .ok lines)
    (hm : b.mappings.resume b.limits = .ok m) :
    (b.append donor).1 = .ok () ↔ donor.ContentsKnown := by
  obtain ⟨embeds, h⟩ := append_of_ok hd hm
  rw [h]
  exact storeAll_eq_ok_iff

/-- The URL of the map is forgotten before contents are taken over. -/
theorem mapUrl_append (hd : donor.namedLines = .ok lines)
    (hm : b.mappings.resume b.limits = .ok m) : (b.append donor).2.mapUrl = none := by
  obtain ⟨embeds, h⟩ := append_of_ok hd hm
  obtain ⟨sources, contents, hf⟩ := storeAll_frame ({ b with mappings := m }.joined donor lines)
    donor.sources donor.contents.entries
  rw [h, hf]
  rfl

theorem reachable_setMapUrl (url : Option String) :
    Reachable { empty .empty with mapUrl := url } :=
  .step (.empty .empty) (.setMapUrl url) nofun (⟨[], []⟩ : Disk)

/-- A donor leaves alone whatever it cannot be appended to if and only if it cannot be read at all,
or has no contents without a source. -/
theorem append_unchanged_iff (donor : Bundle) :
    (∀ (b : Bundle) e, b.Reachable → (b.append donor).1 = .error e →
      b.Unchanged (b.append donor).2) ↔
        (∃ e, donor.namedLines = .error e) ∨ donor.ContentsKnown := by
  constructor
  · intro h
    cases hd : donor.namedLines with
    | error e => exact .inl ⟨e, rfl⟩
    | ok lines =>
      -- a bundle without lines can always be continued, and its URL shows the change
      refine .inr ((append_eq_ok_iff (b := { empty .empty with mapUrl := some "" }) hd rfl).1 ?_)
      cases happ : (append { empty .empty with mapUrl := some "" } donor).1 with
      | ok u => rfl
      | error e =>
        have hurl := (h _ e (reachable_setMapUrl (some "")) happ).mapUrl
        rw [mapUrl_append hd rfl] at hurl
        cases hurl
  · intro h b e _ happ
    cases hd : donor.namedLines with
    | error e =>
      rw [append_of_donor_error hd]
      exact .refl b
    | ok lines =>
      cases hm : b.mappings.resume b.limits with
      | error e =>
        rw [append_of_resume_error hd hm]
        exact .refl b
      | ok m =>
        have hk : donor.ContentsKnown := h.resolve_left fun ⟨e, he⟩ => by simp [hd] at he
        rw [(append_eq_ok_iff hd hm).2 hk] at happ
        cases happ

/-- A bundle of one line, with a URL of its map. -/
def Sample.linked : Bundle :=
  Operation.apply (.setMapUrl (some "a.js.map"))
    (Operation.apply (.addNamedLine [⟨0, some ⟨"a.js", 0, 0, none⟩⟩]) (empty .empty)
      (⟨[], []⟩ : Disk)) (⟨[], []⟩ : Disk)

open Sample

/-- The second text has no source, which is noticed when the line is there already. -/
theorem append_orphaned : linked.Reachable ∧ orphaned.Reachable ∧
    (linked.append orphaned).1 = .error (.noSuchEntry 1 1) ∧
      ¬ linked.Unchanged (linked.append orphaned).2 := by
  refine ⟨?_, reachable_orphaned, by decide +kernel, fun h => ?_⟩
  · exact .step (.step (.empty .empty) (.addNamedLine _) nofun _) (.setMapUrl _) nofun _
  · have hcount : (linked.append orphaned).2.mappings.lineCount ≠ linked.mappings.lineCount := by
      decide +kernel
    exact hcount h.lineCount

end SourceMap.Bundle
