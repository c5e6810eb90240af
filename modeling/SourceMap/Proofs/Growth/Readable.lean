import SourceMap.Proofs.Growth.Append

/-!
# Bundles that can be read

A bundle can be read if its text is well formed and all its indices are in its tables. Growing keeps
that: tables only become longer, and lines are written with indices that the tables have.

## Main definitions

* `Bundle.Readable` : the lines of a bundle can be read.

## Main statements

* `readable_iff_lines` : it does not matter whether lines are read with indices or with strings.
* `Readable.addNamedLine`, `Readable.addLine`, `Readable.append` : what keeps a bundle readable.
* `resume_eq_ok_iff` : a bundle can be continued if it can be read, or has been continued before.
-/

namespace SourceMap

theorem exists_forall₂ {R : α → β → Prop} {xs : List α} (h : ∀ x ∈ xs, ∃ y, R x y) :
    ∃ ys, List.Forall₂ R xs ys := by
  induction xs with
  | nil => exact ⟨[], .nil⟩
  | cons x xs ih =>
    obtain ⟨⟨y, hy⟩, hxs⟩ := List.forall_mem_cons.1 h
    obtain ⟨ys, hys⟩ := ih hxs
    exact ⟨y :: ys, .cons hy hys⟩

theorem StringTable.exists_get {t : StringTable} {i : Nat} (h : i < t.size) :
    ∃ s, t.get i = .ok s :=
  ⟨_, get_eq_ok_iff.2 (List.getElem?_eq_getElem h)⟩

namespace Bundle

/-- The lines of `b` can be read. -/
def Readable (b : Bundle) : Prop := ∃ named, b.namedLines = .ok named

instance (b : Bundle) : Decidable b.Readable :=
  match h : b.namedLines with
  | .ok named => .isTrue ⟨named, h⟩
  | .error _ => .isFalse fun ⟨_, hn⟩ => by simp [h] at hn

variable {b c : Bundle}

/-- Within the limits of the tables every segment means something. -/
theorem exists_names_of_within {s : Segment} (h : s.Within b.limits) : ∃ n, b.Names s n := by
  obtain ⟨column, _ | ⟨i, line, col, _ | j⟩⟩ := s
  · exact ⟨_, rfl⟩
  · have hi : i.toNat < b.sources.size := h (.source, i) (by simp [Segment.values])
    obtain ⟨source, hs⟩ := StringTable.exists_get hi
    exact ⟨_, names_located_iff.2 ⟨source, hs, rfl⟩⟩
  · have hi : i.toNat < b.sources.size := h (.source, i) (by simp [Segment.values])
    have hj : j.toNat < b.names.size := h (.name, j) (by simp [Segment.values])
    obtain ⟨source, hs⟩ := StringTable.exists_get hi
    obtain ⟨name, hn⟩ := StringTable.exists_get hj
    exact ⟨_, names_named_iff.2 ⟨source, name, hs, hn, rfl⟩⟩

theorem exists_line_of_within {line : Line} (h : line.Within b.limits) :
    ∃ named, List.Forall₂ b.Names line named :=
  exists_forall₂ fun s hs => exists_names_of_within (h s hs)

theorem readable_iff_lines : b.Readable ↔ ∃ lines, b.lines = .ok lines := by
  constructor
  · rintro ⟨named, h⟩
    obtain ⟨lines, c, hr, hn⟩ := namedLines_eq_ok_iff.1 h
    have hw := forall_mem_of_forall₂ (fun _ _ hl => within_of_names hl) hn
    exact ⟨lines, Mappings.decode_eq_ok_iff.2 ⟨⟨c, hr⟩, hw⟩⟩
  · rintro ⟨lines, h⟩
    obtain ⟨⟨c, hr⟩, hw⟩ := Mappings.decode_eq_ok_iff.1 h
    obtain ⟨named, hn⟩ := exists_forall₂ fun line hl => exists_line_of_within (hw line hl)
    exact ⟨named, namedLines_eq_ok_iff.2 ⟨lines, c, hr, hn⟩⟩

/-! ## Tables that grow -/

/-- Longer tables change no line of the same text. -/
theorem namedLines_of_extends (he : b.Extends c) (hm : c.mappings = b.mappings)
    {named : List NamedLine} (h : b.namedLines = .ok named) : c.namedLines = .ok named := by
  rw [← List.append_nil named]
  refine namedLines_append he ?_ .nil h
  intro lines d hr
  rw [List.append_nil, hm]
  exact ⟨d, hr⟩

theorem Readable.of_extends (h : b.Readable) (he : b.Extends c) (hm : c.mappings = b.mappings) :
    c.Readable := by
  obtain ⟨named, hn⟩ := h
  exact ⟨named, namedLines_of_extends he hm hn⟩

/-- An index that is cut to 32 bits may be that of another entry, but there is one. -/
theorem exists_get_toNat_ofNat {t : StringTable} {i : Nat} (h : i < t.size) :
    ∃ s, t.get (UInt32.ofNat i).toNat = .ok s := by
  refine StringTable.exists_get (Nat.lt_of_le_of_lt ?_ h)
  rw [UInt32.toNat_ofNat']
  exact Nat.mod_le ..

theorem exists_names_internSegment (b : Bundle) (s : NamedSegment) :
    ∃ n, (b.internSegment s).2.Names (b.internSegment s).1 n := by
  obtain ⟨column, _ | ⟨source, line, col, _ | name⟩⟩ := s
  · exact ⟨_, rfl⟩
  · obtain ⟨source', hs⟩ := exists_get_toNat_ofNat (StringTable.intern_fst_lt b.sources source)
    exact ⟨_, names_located_iff.2 ⟨source', hs, rfl⟩⟩
  · obtain ⟨source', hs⟩ := exists_get_toNat_ofNat (StringTable.intern_fst_lt b.sources source)
    obtain ⟨name', hn⟩ := exists_get_toNat_ofNat (StringTable.intern_fst_lt b.names name)
    exact ⟨_, names_named_iff.2 ⟨source', name', hs, hn, rfl⟩⟩

/-- A line that is taken into the tables is within their limits, however long they become. -/
theorem exists_names_internLine (b : Bundle) (line : NamedLine) :
    ∃ named, List.Forall₂ (b.internLine line).2.Names (b.internLine line).1 named := by
  induction line generalizing b with
  | nil => exact ⟨[], .nil⟩
  | cons s line ih =>
    obtain ⟨n, hn⟩ := exists_names_internSegment b s
    obtain ⟨named, hnamed⟩ := ih (b.internSegment s).2
    exact ⟨n :: named, .cons (hn.extend (extends_internLine _ line)) hnamed⟩

/-! ## Lines that are added -/

/-- A line comes behind the lines that are there, with what it means under the tables. -/
theorem namedLines_of_append (he : b.Extends c) (hb : b.mappings.Consistent) {line : Line}
    (happ : b.mappings.append line = .ok c.mappings) {n : NamedLine}
    (hn : List.Forall₂ c.Names line n) {named : List NamedLine} (h : b.namedLines = .ok named) :
    c.namedLines = .ok (named ++ [n]) := by
  obtain ⟨lines, d, d', hr, hr', -⟩ := Mappings.append_eq_ok hb happ
  refine namedLines_append he ?_ (.cons hn .nil) h
  intro lines' c' hr''
  obtain ⟨rfl, -⟩ := hr.unique hr''
  exact ⟨d', hr'⟩

theorem Readable.addNamedLine (hb : b.mappings.Consistent) (h : b.Readable) (line : NamedLine) :
    (b.addNamedLine line).2.Readable := by
  obtain ⟨sources, names, hf⟩ := internLine_frame b line
  have he := (grows_addNamedLine b line).tables
  obtain ⟨n, hn⟩ := exists_names_internLine b line
  rcases addNamedLine_cases b line with ⟨m, happ, hadd⟩ | ⟨e, -, hadd⟩ <;> rw [hadd] at he ⊢
  · obtain ⟨named, hnamed⟩ := h
    exact ⟨_, namedLines_of_append he hb happ hn hnamed⟩
  · exact h.of_extends he (by rw [hf])

theorem forM_discard_eq_ok_iff {f : α → Except ε β} {xs : List α} :
    (xs.forM fun x => discard (f x)) = .ok () ↔ ∃ ys, xs.mapM f = .ok ys := by
  induction xs with
  | nil => exact iff_of_true rfl ⟨[], rfl⟩
  | cons x xs ih =>
    change (discard (f x) >>= fun _ => xs.forM fun x => discard (f x)) = .ok () ↔ _
    rw [List.mapM_cons]
    cases f x with
    | error e => exact iff_of_false nofun nofun
    | ok y =>
      change (xs.forM fun x => discard (f x)) = .ok () ↔ _
      rw [ih]
      cases xs.mapM f <;> simp [bind, Except.bind, pure, Except.pure]

/-- A line can be added if its indices are in the tables and the text can be continued. -/
theorem addLine_eq_ok_iff {line : Line} :
    b.addLine line = .ok c ↔ (∃ n, line.mapM b.nameSegment = .ok n) ∧
      ∃ m, b.mappings.append line = .ok m ∧ c = { b with mappings := m } := by
  rw [← forM_discard_eq_ok_iff]
  unfold addLine
  cases line.forM fun s => discard (b.nameSegment s) with
  | error e => simp [bind, Except.bind]
  | ok u => cases b.mappings.append line <;> simp [bind, Except.bind, pure, Except.pure, eq_comm]

theorem namedLines_addLine (hb : b.mappings.Consistent) {line : Line}
    (hc : b.addLine line = .ok c) {named : List NamedLine} (h : b.namedLines = .ok named) :
    ∃ n, line.mapM b.nameSegment = .ok n ∧ c.namedLines = .ok (named ++ [n]) := by
  obtain ⟨⟨n, hn⟩, m, happ, rfl⟩ := addLine_eq_ok_iff.1 hc
  exact ⟨n, hn, namedLines_of_append (b := b) (c := { b with mappings := m })
    ⟨List.prefix_rfl, List.prefix_rfl⟩ hb happ (mapM_eq_ok_iff.1 hn) h⟩

theorem Readable.addLine (hb : b.mappings.Consistent) (h : b.Readable) {line : Line}
    (hc : b.addLine line = .ok c) : c.Readable := by
  obtain ⟨named, hnamed⟩ := h
  obtain ⟨n, -, hn⟩ := namedLines_addLine hb hc hnamed
  exact ⟨_, hn⟩

/-! ## Appending -/

theorem Readable.joined {donor : Bundle} (hb : b.mappings.Consistent) (h : b.Readable)
    (lines : List NamedLine) : (b.joined donor lines).Readable := by
  obtain ⟨named, hnamed⟩ := h
  have hopened : (b.opened donor).Readable := ⟨_, namedLines_opened donor hb hnamed⟩
  obtain ⟨hc, named', hstacked⟩ := addNamedLines_keeps
    (P := fun c => c.mappings.Consistent ∧ c.Readable)
    (fun c line hc => ⟨(grows_addNamedLine c line).consistent hc.1, hc.2.addNamedLine hc.1 line⟩)
    lines ⟨(grows_opened b donor).consistent hb, hopened⟩
  exact ⟨_, namedLines_align (b := (b.stacked donor lines).takeBody donor.body) hc hstacked⟩

theorem Readable.storeAll (h : b.Readable) (t : StringTable) (es : List (Nat × String)) :
    (b.storeAll t es).2.Readable :=
  storeAll_keeps
    (fun c source text hc => hc.of_extends (grows_storeContents c source text).tables rfl) t es h

/-- A bundle stays readable whatever is appended, also where that fails halfway. -/
theorem Readable.append (hb : b.mappings.Consistent) (h : b.Readable) (donor : Bundle) :
    (b.append donor).2.Readable := by
  rcases append_cases b donor with ⟨e, happ⟩ | ⟨lines, m, hd, hm⟩
  · rwa [happ]
  · obtain ⟨embeds, happ⟩ := append_of_ok hd hm
    have hc := hb.resume hm
    obtain ⟨_, _, c, -, rfl, -⟩ := Mappings.resume_eq_ok hb hm
    have hresumed : { b with mappings := { b.mappings with last := some c } }.Readable := h
    rw [happ]
    exact (hresumed.joined hc lines).storeAll donor.sources donor.contents.entries

/-- What has been read once stays ready for more lines, also where appending fails. -/
theorem isSome_last_append (hl : b.mappings.last.isSome) (donor : Bundle) :
    (b.append donor).2.mappings.last.isSome := by
  rcases append_cases b donor with ⟨e, happ⟩ | ⟨lines, m, hd, -⟩
  · rwa [happ]
  · obtain ⟨embeds, happ⟩ := append_of_ok hd (Mappings.resume_of_last hl b.limits)
    obtain ⟨sources, contents, hf⟩ :=
      storeAll_frame (b.joined donor lines) donor.sources donor.contents.entries
    rw [happ, hf]
    exact last_joined hl

/-- Text is checked against the tables only as long as it has not been continued. -/
theorem resume_eq_ok_iff :
    (∃ m, b.mappings.resume b.limits = .ok m) ↔ b.mappings.last.isSome ∨ b.Readable := by
  rw [readable_iff_lines]
  constructor
  · rintro ⟨m, hm⟩
    cases hl : b.mappings.last with
    | some c => exact .inl rfl
    | none =>
      simp only [Mappings.resume, hl] at hm
      split at hm
      · cases hm
      · rename_i lines c hr
        exact .inr ⟨lines, by rw [Bundle.lines, Mappings.decode, hr]⟩
  · rintro (hl | ⟨lines, h⟩)
    · exact ⟨_, Mappings.resume_of_last hl _⟩
    · exact Mappings.resume_of_decode h

end Bundle

end SourceMap
