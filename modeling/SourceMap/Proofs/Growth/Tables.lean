import SourceMap.Bundle.Lines
import SourceMap.Proofs.Growth.Mappings

/-!
# Tables that grow keep their meaning

An entry of a table stays at its index, so a segment that refers to it goes on meaning the same.

## Main definitions

* `Bundle.Extends` : the tables of one bundle start with those of another.
* `Bundle.Names` : what a segment means under the tables of a bundle.
* `Bundle.Addressable` : every entry of the tables has an index of 32 bits.

## Main statements

* `Names.extend` : a segment keeps its meaning when tables grow.
* `names_internLine` : a line that is taken into the tables means what it meant.
-/

namespace SourceMap

namespace StringTable

theorem lt_size_of_get {t : StringTable} {i : Nat} {s : String} (h : t.get i = .ok s) :
    i < t.size :=
  (List.getElem?_eq_some_iff.1 (get_eq_ok_iff.1 h)).1

theorem get_of_prefix {t u : StringTable} {i : Nat} {s : String} (h : t.values <+: u.values)
    (hs : t.get i = .ok s) : u.get i = .ok s := by
  obtain ⟨hi, hv⟩ := List.getElem?_eq_some_iff.1 (get_eq_ok_iff.1 hs)
  rw [get_eq_ok_iff, List.prefix_iff_getElem?.1 h i hi, hv]

theorem get_intern (t : StringTable) (s : String) : (t.intern s).2.get (t.intern s).1 = .ok s := by
  rw [get_eq_ok_iff, intern]
  split
  · rename_i i hi
    obtain ⟨hlt, hv, -⟩ := List.idxOf?_eq_some_iff.1 hi
    exact List.getElem?_eq_some_iff.2 ⟨hlt, hv⟩
  · simp [size]

theorem lt_size_of_index? {t : StringTable} {s : String} {i : Nat} (h : t.index? s = some i) :
    i < t.size := by
  obtain ⟨hi, -⟩ := List.idxOf?_eq_some_iff.1 h
  exact hi

theorem lt_size_of_mem_entries {t : StringTable} {e : Nat × String} (h : e ∈ t.entries) :
    e.1 < t.size := by
  obtain ⟨⟨s, i⟩, hs, rfl⟩ := List.mem_map.1 h
  exact (List.getElem?_eq_some_iff.1 (List.mem_zipIdx_iff_getElem?.1 hs)).1

theorem intern_fst_lt (t : StringTable) (s : String) : (t.intern s).1 < (t.intern s).2.size :=
  lt_size_of_get (get_intern t s)

theorem index?_append (xs ys : List String) (s : String) :
    StringTable.index? ⟨xs ++ ys⟩ s =
      (StringTable.index? ⟨xs⟩ s).or ((StringTable.index? ⟨ys⟩ s).map (· + xs.length)) :=
  List.findIdx?_append

/-- Strings that are added change no first index within the table, and come behind it. -/
theorem index?_of_prefix {t u : StringTable} (h : t.values <+: u.values) (s : String) :
    u.index? s = t.index? s ∨ t.index? s = none ∧ ∃ i, t.size ≤ i ∧ u.index? s = some i := by
  obtain ⟨⟨xs⟩, ⟨_⟩⟩ := t, u
  obtain ⟨ys, rfl⟩ := h
  rw [index?_append]
  cases StringTable.index? ⟨xs⟩ s with
  | some i => exact .inl rfl
  | none =>
    cases StringTable.index? ⟨ys⟩ s with
    | none => exact .inl rfl
    | some i => exact .inr ⟨rfl, i + xs.length, Nat.le_add_left .., rfl⟩

theorem index?_intern (t : StringTable) (s u : String) :
    (t.intern s).2.index? u = if u = s then some (t.intern s).1 else t.index? u := by
  have hnew : StringTable.index? ⟨[s]⟩ u = if u = s then some 0 else none := by
    by_cases h : u = s
    · simp [index?, List.idxOf?, List.findIdx?_cons, h]
    · simp [index?, List.idxOf?, List.findIdx?_cons, h, Ne.symm h]
  unfold intern
  cases hs : t.index? s with
  | some i =>
    split_ifs with hu
    · rw [hu, hs]
    · rfl
  | none =>
    dsimp only
    rw [index?_append, hnew]
    split_ifs with hu
    · subst hu
      rw [hs]
      simp [size]
    · simp

theorem get_of_index? {t : StringTable} {s : String} {i : Nat} (h : t.index? s = some i) :
    t.get i = .ok s := by
  obtain ⟨hi, hs, -⟩ := List.idxOf?_eq_some_iff.1 h
  exact get_eq_ok_iff.2 (List.getElem?_eq_some_iff.2 ⟨hi, hs⟩)

/-- The index that a string is given is the first one it has, or the next that is free. -/
theorem intern_fst (t : StringTable) (s : String) :
    t.index? s = some (t.intern s).1 ∨ t.index? s = none ∧ (t.intern s).1 = t.size := by
  unfold intern
  cases t.index? s with
  | some i => exact .inl rfl
  | none => exact .inr ⟨rfl, rfl⟩

/-- Only a string that is new is added. -/
theorem intern_snd_eq_self_iff {t : StringTable} {s : String} :
    (t.intern s).2 = t ↔ s ∈ t.values := by
  unfold intern
  cases hi : t.index? s with
  | some i => simpa using List.mem_of_getElem? (get_eq_ok_iff.1 (get_of_index? hi))
  | none =>
    have hnew : s ∉ t.values := List.idxOf?_eq_none_iff.1 hi
    refine iff_of_false (fun h => ?_) hnew
    simpa using congrArg StringTable.values h

end StringTable

namespace Bundle

/-- The tables of `b'` start with those of `b`. -/
structure Extends (b b' : Bundle) : Prop where
  sources : b.sources.values <+: b'.sources.values
  names : b.names.values <+: b'.names.values

theorem Extends.refl (b : Bundle) : b.Extends b := ⟨List.prefix_rfl, List.prefix_rfl⟩

theorem Extends.trans {a b c : Bundle} (h : a.Extends b) (g : b.Extends c) : a.Extends c :=
  ⟨h.sources.trans g.sources, h.names.trans g.names⟩

/-- Every entry of the tables has an index of 32 bits. -/
def Addressable (b : Bundle) : Prop := b.sources.size < 2 ^ 32 ∧ b.names.size < 2 ^ 32

instance (b : Bundle) : Decidable b.Addressable :=
  inferInstanceAs (Decidable (_ ∧ _))

theorem Addressable.of_extends {b b' : Bundle} (h : b'.Addressable) (he : b.Extends b') :
    b.Addressable :=
  ⟨Nat.lt_of_le_of_lt he.sources.length_le h.1, Nat.lt_of_le_of_lt he.names.length_le h.2⟩

/-- The segment `s` means `n` under the tables of `b`. -/
def Names (b : Bundle) (s : Segment) (n : NamedSegment) : Prop := b.nameSegment s = .ok n

theorem names_located_iff {b : Bundle} {c i line column : UInt32} {n : NamedSegment} :
    b.Names ⟨c, some ⟨i, line, column, none⟩⟩ n ↔ ∃ source, b.sources.get i.toNat = .ok source ∧
      n = ⟨c, some ⟨source, line, column, none⟩⟩ := by
  unfold Names nameSegment
  cases hs : b.sources.get i.toNat <;> simp [hs, bind, Except.bind, pure, Except.pure, eq_comm]

theorem names_named_iff {b : Bundle} {c i line column j : UInt32} {n : NamedSegment} :
    b.Names ⟨c, some ⟨i, line, column, some j⟩⟩ n ↔ ∃ source name,
      b.sources.get i.toNat = .ok source ∧ b.names.get j.toNat = .ok name ∧
        n = ⟨c, some ⟨source, line, column, some name⟩⟩ := by
  unfold Names nameSegment
  cases hs : b.sources.get i.toNat <;> cases hn : b.names.get j.toNat <;>
    simp [hs, hn, bind, Except.bind, pure, Except.pure, Functor.map, Except.map, Option.mapM,
      eq_comm]

/-- A segment keeps its meaning when tables grow. -/
theorem Names.extend {b b' : Bundle} (he : b.Extends b') {s : Segment} {n : NamedSegment}
    (h : b.Names s n) : b'.Names s n := by
  obtain ⟨c, _ | ⟨i, line, column, _ | j⟩⟩ := s
  · exact h
  · obtain ⟨source, hs, rfl⟩ := names_located_iff.1 h
    exact names_located_iff.2 ⟨source, StringTable.get_of_prefix he.sources hs, rfl⟩
  · obtain ⟨source, name, hs, hn, rfl⟩ := names_named_iff.1 h
    exact names_named_iff.2 ⟨source, name, StringTable.get_of_prefix he.sources hs,
      StringTable.get_of_prefix he.names hn, rfl⟩

/-- What means something is within the limits of the tables. -/
theorem Names.within {b : Bundle} {s : Segment} {n : NamedSegment} (h : b.Names s n) :
    s.Within b.limits := by
  obtain ⟨c, _ | ⟨i, line, column, _ | j⟩⟩ := s
  · simp [Segment.Within, Segment.values, Limits.Admits]
  · obtain ⟨source, hs, rfl⟩ := names_located_iff.1 h
    simpa [Segment.Within, Segment.values, Limits.Admits, limits] using
      StringTable.lt_size_of_get hs
  · obtain ⟨source, name, hs, hn, rfl⟩ := names_named_iff.1 h
    simpa [Segment.Within, Segment.values, Limits.Admits, limits] using
      ⟨StringTable.lt_size_of_get hs, StringTable.lt_size_of_get hn⟩

/-! ## Taking strings into the tables -/

theorem extends_internSource (b : Bundle) (source : String) :
    b.Extends (b.internSource source).2 :=
  ⟨StringTable.values_prefix_intern b.sources source, List.prefix_rfl⟩

theorem extends_internName (b : Bundle) (name : String) : b.Extends (b.internName name).2 :=
  ⟨List.prefix_rfl, StringTable.values_prefix_intern b.names name⟩

theorem extends_internSegment (b : Bundle) (s : NamedSegment) :
    b.Extends (b.internSegment s).2 := by
  obtain ⟨c, _ | ⟨source, line, column, _ | name⟩⟩ := s
  · exact .refl b
  · exact extends_internSource b source
  · exact (extends_internSource b source).trans (extends_internName _ name)

/-- Only the tables change. -/
theorem internSegment_frame (b : Bundle) (s : NamedSegment) :
    ∃ sources names, (b.internSegment s).2 = { b with sources, names } := by
  obtain ⟨c, _ | ⟨source, line, column, _ | name⟩⟩ := s <;> exact ⟨_, _, rfl⟩

theorem get_toNat_ofNat {t : StringTable} {i : Nat} {s : String} (ht : t.size < 2 ^ 32)
    (h : t.get i = .ok s) : t.get (UInt32.ofNat i).toNat = .ok s := by
  rw [UInt32.toNat_ofNat_of_lt' (Nat.lt_trans (StringTable.lt_size_of_get h) ht)]
  exact h

theorem names_internSegment {b : Bundle} {s : NamedSegment}
    (h : (b.internSegment s).2.Addressable) :
    (b.internSegment s).2.Names (b.internSegment s).1 s := by
  obtain ⟨c, _ | ⟨source, line, column, _ | name⟩⟩ := s
  · rfl
  · exact names_located_iff.2
      ⟨source, get_toNat_ofNat h.1 (StringTable.get_intern b.sources source), rfl⟩
  · exact names_named_iff.2 ⟨source, name,
      get_toNat_ofNat h.1 (StringTable.get_intern b.sources source),
      get_toNat_ofNat h.2 (StringTable.get_intern b.names name), rfl⟩

theorem extends_internLine (b : Bundle) (line : NamedLine) : b.Extends (b.internLine line).2 := by
  induction line generalizing b with
  | nil => exact .refl b
  | cons s line ih => exact (extends_internSegment b s).trans (ih _)

theorem internLine_frame (b : Bundle) (line : NamedLine) :
    ∃ sources names, (b.internLine line).2 = { b with sources, names } := by
  induction line generalizing b with
  | nil => exact ⟨_, _, rfl⟩
  | cons s line ih =>
    obtain ⟨sources, names, h⟩ := internSegment_frame b s
    obtain ⟨sources', names', h'⟩ := ih (b.internSegment s).2
    refine ⟨sources', names', ?_⟩
    change ((b.internSegment s).2.internLine line).2 = _
    rw [h', h]

/-- A line that is taken into the tables means what it meant, unless these become too long. -/
theorem names_internLine (b : Bundle) (line : NamedLine) (h : (b.internLine line).2.Addressable) :
    List.Forall₂ (b.internLine line).2.Names (b.internLine line).1 line := by
  induction line generalizing b with
  | nil => exact .nil
  | cons s line ih =>
    have he := extends_internLine (b.internSegment s).2 line
    exact .cons ((names_internSegment (h.of_extends he)).extend he) (ih _ h)

end Bundle

end SourceMap
