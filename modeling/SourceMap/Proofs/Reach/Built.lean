import SourceMap.Files.Disk
import SourceMap.Proofs.Growth.Readable
import SourceMap.Proofs.Reach.Operation

/-!
# Bundles that are built line by line

A bundle that takes over no map has written all of its text itself. So it can always be read, it can
always be continued, and an added line is read as it was given.

## Main definitions

* `Operation.builds` : operations that add to a bundle and ask for neither a file nor a map.
* `Bundle.Built` : the bundles that such operations lead to.
* `Bundle.Sound` : what they preserve.

## Main statements

* `Sound.apply` : each of them preserves soundness.
* `namedLines_of_built` : what is built can be read, and lines come one after another.
-/

namespace SourceMap

/-- The operation adds to a bundle, and asks for neither a file nor a map. -/
def Operation.builds : Operation → Bool
  | internSource _ | internName _ | addLine _ | addNamedLine _ | storeContents .. | append _ => true
  | setText _ autoload => !autoload
  | _ => false

theorem Operation.keepsMap_of_builds {op : Operation} (hop : op.builds) : op.keepsMap := by
  cases op <;> simp_all [builds, keepsMap]

namespace Bundle

/-- The bundles that are built from an empty one. Whatever is appended is built in the same way. -/
inductive Built : Bundle → Prop where
  | empty (urls : UrlTable) : Built (empty urls)
  | step {b : Bundle} (hb : Built b) (op : Operation) (hop : op.builds)
      (hdonor : ∀ donor, op = .append donor → Built donor) {σ : Type}
      [FileSystem (StateM σ)] (files : σ) : Built (op.apply b files)

/-- The bundle can be read, and lines can be added without reading it. -/
structure Sound (b : Bundle) : Prop where
  consistent : b.mappings.Consistent
  last : b.mappings.last.isSome
  readable : b.Readable

variable {b c : Bundle}

theorem sound_empty (urls : UrlTable) : (empty urls).Sound :=
  ⟨Mappings.consistent_empty, rfl, [], rfl⟩

theorem Sound.of_extends (h : b.Sound) (he : b.Extends c) (hm : c.mappings = b.mappings) :
    c.Sound := by
  refine ⟨?_, ?_, h.readable.of_extends he hm⟩ <;> rw [hm]
  · exact h.consistent
  · exact h.last

theorem Sound.addLine (h : b.Sound) {line : Line} (hc : b.addLine line = .ok c) : c.Sound := by
  have hreadable := h.readable.addLine h.consistent hc
  obtain ⟨-, m, happ, rfl⟩ := addLine_eq_ok_iff.1 hc
  obtain ⟨-, -, d, -, -, hlast, -, hm⟩ := Mappings.append_eq_ok h.consistent happ
  exact ⟨hm, by rw [hlast]; rfl, hreadable⟩

theorem Sound.addNamedLine (h : b.Sound) (line : NamedLine) : (b.addNamedLine line).2.Sound :=
  ⟨(grows_addNamedLine b line).consistent h.consistent, (addNamedLine_of_last h.last line).2.1,
    h.readable.addNamedLine h.consistent line⟩

theorem Sound.append (h : b.Sound) (donor : Bundle) : (b.append donor).2.Sound :=
  ⟨(grows_append b donor).consistent h.consistent, isSome_last_append h.last donor,
    h.readable.append h.consistent donor⟩

theorem Sound.apply (h : b.Sound) {op : Operation} (hop : op.builds) {σ : Type}
    [FileSystem (StateM σ)] (files : σ) : (op.apply b files).Sound := by
  rcases op.apply_cases_of_keepsMap (Operation.keepsMap_of_builds hop) b files with
    ⟨hg, hm⟩ | ⟨line, -, hc⟩ | ⟨line, -, hc⟩ | ⟨donor, -, hc⟩
  · exact h.of_extends hg.tables hm
  · exact h.addLine hc
  · rw [hc]
    exact h.addNamedLine line
  · rw [hc]
    exact h.append donor

theorem Built.sound (h : b.Built) : b.Sound := by
  induction h with
  | empty urls => exact sound_empty urls
  | step hb op hop hdonor files ih ihdonor => exact ih.apply hop files

/-- What is built can be read, with indices or with strings, as many lines as there are. A line can
always be added if it is given in strings, and comes last as it was given. A line that is given in
indices comes last as what it means under the tables. -/
theorem namedLines_of_built (h : b.Built) :
    ∃ lines named, b.lines = .ok lines ∧ b.namedLines = .ok named ∧
      lines.length = b.mappings.lineCount ∧ named.length = b.mappings.lineCount ∧
      (∀ line, (b.addNamedLine line).1 = .ok () ∧ ((b.addNamedLine line).2.Addressable →
        (b.addNamedLine line).2.namedLines = .ok (named ++ [line]))) ∧
      ∀ line c, b.addLine line = .ok c →
        ∃ n, line.mapM b.nameSegment = .ok n ∧ c.namedLines = .ok (named ++ [n]) := by
  obtain ⟨hm, hlast, hreadable⟩ := h.sound
  obtain ⟨lines, hlines⟩ := readable_iff_lines.1 hreadable
  obtain ⟨named, hnamed⟩ := hreadable
  refine ⟨lines, named, hlines, hnamed, ?_, length_of_namedLines hm hnamed, ?_, ?_⟩
  · obtain ⟨⟨d, hr⟩, -⟩ := Mappings.decode_eq_ok_iff.1 hlines
    exact hr.length hm
  · intro line
    have hok := (addNamedLine_of_last hlast line).1
    exact ⟨hok, fun ha => namedLines_addNamedLine hm hok ha hnamed⟩
  · intro line c hc
    exact namedLines_addLine hm hc hnamed

namespace Sample

/-- One line of a map, and one line of a body. -/
def oneLine : Bundle :=
  Operation.apply (.addNamedLine [⟨4, some ⟨"a.js", 1, 2, some "f"⟩⟩])
    (Operation.apply (.setText "f()\n\n" false) (empty .empty) (⟨[], []⟩ : Disk)) (⟨[], []⟩ : Disk)

/-- The same twice. A line of a source that is unknown has been refused before. -/
def doubled : Bundle :=
  Operation.apply (.append oneLine)
    (Operation.apply (.addLine [⟨0, some ⟨1, 0, 0, none⟩⟩]) oneLine (⟨[], []⟩ : Disk))
    (⟨[], []⟩ : Disk)

end Sample

open Sample

theorem built_oneLine : oneLine.Built :=
  .step (.step (.empty .empty) (.setText _ _) rfl nofun _) (.addNamedLine _) rfl nofun _

theorem built_doubled : doubled.Built := by
  refine .step (.step built_oneLine (.addLine _) rfl nofun _) (.append _) rfl ?_ _
  rintro donor ⟨⟩
  exact built_oneLine

theorem namedLines_doubled : doubled.mappings.lineCount = 2 ∧
    (doubled.addNamedLine [⟨0, some ⟨"b.js", 3, 0, none⟩⟩]).2.namedLines =
      .ok [[⟨4, some ⟨"a.js", 1, 2, some "f"⟩⟩], [⟨4, some ⟨"a.js", 1, 2, some "f"⟩⟩],
        [⟨0, some ⟨"b.js", 3, 0, none⟩⟩]] := by
  have hnamed : doubled.namedLines =
      .ok [[⟨4, some ⟨"a.js", 1, 2, some "f"⟩⟩], [⟨4, some ⟨"a.js", 1, 2, some "f"⟩⟩]] := by
    decide +kernel
  obtain ⟨-, named, -, hnamed', -, hlen, hadd, -⟩ := namedLines_of_built built_doubled
  obtain rfl := Except.ok.inj (hnamed.symm.trans hnamed')
  exact ⟨hlen.symm, (hadd _).2 (by decide +kernel)⟩

end Bundle

end SourceMap
