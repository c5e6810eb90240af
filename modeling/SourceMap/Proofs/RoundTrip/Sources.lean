import SourceMap.Proofs.RoundTrip.Map

/-!
# Sources cut behind their root

Saving a map writes one root for all sources, and of each source the bytes behind it.

## Main definitions

* `Text.Cut` : a text as a start and what its bytes are behind that.

## Main statements

* `Bundle.cut_saved` : the root is the longest shared directory, or one that was asked for, and
  every source is cut behind it.
-/

namespace SourceMap

/-- The bytes of `s` behind those of `start` are `rest`. They begin where a character of `s` does,
and together with `start` they are `s`. -/
structure Text.Cut (s start rest : String) : Prop where
  isValid : (String.Pos.Raw.mk start.utf8ByteSize).IsValid s
  bytes_eq : Text.bytes rest = (Text.bytes s).drop start.utf8ByteSize
  append_eq : start ++ rest = s

theorem Text.Cut.of_append_eq {s start rest : String} (h : start ++ rest = s) :
    Cut s start rest where
  isValid := String.Pos.Raw.isValid_iff_exists_append.2 ⟨start, rest, h.symm, rfl⟩
  bytes_eq := by
    rw [← h, Text.bytes_append, ← Text.length_bytes start, List.drop_left]
  append_eq := h

namespace Bundle

/-- The sources of a saved map are cut behind its root. -/
theorem cut_sources_toEnvelope (b : Bundle) :
    List.Forall₂
      (fun s entry => ∃ rest, entry = some rest ∧ Text.Cut s (b.toEnvelope.sourceRoot.getD "") rest)
      b.sources.values b.toEnvelope.sources := by
  refine List.forall₂_map_right_iff.2 (List.forall₂_same.2 fun s hs => ⟨_, rfl, ?_⟩)
  exact .of_append_eq (append_drop_of_isPrefix (b.prefix_getD_savedRoot? s hs))

/-- The root of at least two sources is the longest directory that they share, if they share any.
Whatever root is asked for, a saved map has a root and entries that are put together to the
sources, and the entries begin at a boundary between two characters. -/
theorem cut_saved :
    (∀ sources : List String, 2 ≤ sources.length →
      ((∃ p, Envelope.SharedDirectory sources p) →
        ∃ root, Envelope.sharedRoot? sources = some root ∧
          Envelope.SharedDirectory sources root ∧
          ∀ p, Envelope.SharedDirectory sources p → p.toList <+: root.toList) ∧
      ((¬∃ p, Envelope.SharedDirectory sources p) → Envelope.sharedRoot? sources = none)) ∧
    ∀ b : Bundle, ∃ e, Envelope.read b.mapText = .ok e ∧
      List.Forall₂
        (fun s entry => ∃ rest, entry = some rest ∧ Text.Cut s (e.sourceRoot.getD "") rest)
        b.sources.values e.sources := by
  refine ⟨fun sources hsize => ⟨?_, fun hnone => ?_⟩, fun b => ?_⟩
  · rintro ⟨p, hp⟩
    obtain ⟨root, hroot, -⟩ := hp.exists_sharedRoot? hsize
    refine ⟨root, hroot, Envelope.sharedDirectory_of_sharedRoot? hroot, fun q hq => ?_⟩
    obtain ⟨root', hroot', hstart⟩ := hq.exists_sharedRoot? hsize
    rwa [Option.some_inj.1 (hroot'.symm.trans hroot)] at hstart
  · rw [Option.eq_none_iff_forall_ne_some]
    exact fun root hroot => hnone ⟨root, Envelope.sharedDirectory_of_sharedRoot? hroot⟩
  · exact ⟨b.toEnvelope, Envelope.read_write b.toEnvelope, b.cut_sources_toEnvelope⟩

/-- Sources in a directory with an empty name below one that is not ASCII. Two are equal, and one
is a directory. -/
def Sample.nested : Bundle :=
  { empty .empty with
    sourceRoot := some "/ä//b"
    sources := ⟨["/ä//b/c.js", "/ä//b/", "/ä//b/c.js", "/ä//bc.js"]⟩ }

open Sample

theorem cut_saved_nested :
    Envelope.SharedDirectory nested.sources.values "/" ∧
      Envelope.sharedRoot? nested.sources.values = some "/ä//" ∧
      (∀ p, Envelope.SharedDirectory nested.sources.values p → p.toList <+: "/ä//".toList) ∧
      (¬∃ p, Envelope.SharedDirectory ["a/c.js", "b/c.js"] p) ∧
      nested.savedRoot? = some "/ä//b" ∧
      ∃ e, Envelope.read nested.mapText = .ok e ∧
        List.Forall₂
          (fun s entry => ∃ rest, entry = some rest ∧ Text.Cut s (e.sourceRoot.getD "") rest)
          nested.sources.values e.sources := by
  have hslash : Envelope.SharedDirectory nested.sources.values "/" := ⟨by decide, by decide⟩
  have hshared : Envelope.sharedRoot? nested.sources.values = some "/ä//" := by decide +kernel
  have hnone : Envelope.sharedRoot? ["a/c.js", "b/c.js"] = none := by decide +kernel
  refine ⟨hslash, hshared, fun p hp => ?_, fun hp => ?_, by decide +kernel, cut_saved.2 nested⟩
  · obtain ⟨root, hroot, -, hlongest⟩ := (cut_saved.1 _ (by decide)).1 ⟨"/", hslash⟩
    rw [Option.some_inj.1 (hshared.symm.trans hroot)]
    exact hlongest p hp
  · obtain ⟨root, hroot, -⟩ := (cut_saved.1 _ (by decide)).1 hp
    cases hnone.symm.trans hroot

end Bundle

end SourceMap
