import SourceMap.Bundle.Append
import SourceMap.Proofs.Growth.Tables

/-!
# Contents of registered sources

Contents are kept by the bare index of their source. So a text whose index is beyond the table goes
over to whatever source gets that index later.

## Main definitions

* `Bundle.ContentsKnown` : every text is stored for a source of the table.

## Main statements

* `get?_eq_none_of_contentsKnown` : a source that is new has no contents yet.
* `storeAll_eq_ok_iff` : contents can be taken over exactly where their sources are known.
-/

namespace SourceMap

namespace Contents

theorem mem_insertEntry {e : Nat × String} {i : Nat} {s : String} {es : List (Nat × String)}
    (h : e ∈ insertEntry i s es) : e = (i, s) ∨ e ∈ es := by
  induction es with
  | nil => exact .inl (List.mem_singleton.1 h)
  | cons d es ih =>
    obtain ⟨j, t⟩ := d
    simp only [insertEntry] at h
    split_ifs at h
    · exact List.mem_cons.1 h
    · exact (List.mem_cons.1 h).imp_right (List.mem_cons_of_mem _)
    · rcases List.mem_cons.1 h with rfl | h
      · exact .inr List.mem_cons_self
      · exact (ih h).imp_right (List.mem_cons_of_mem _)

/-- Every index of a text is below `n`. -/
def Below (c : Contents) (n : Nat) : Prop := ∀ e ∈ c.entries, e.1 < n

theorem below_empty (n : Nat) : empty.Below n := by
  simp [Below, empty]

theorem Below.mono {c : Contents} {m n : Nat} (h : c.Below m) (hmn : m ≤ n) : c.Below n :=
  fun e he => Nat.lt_of_lt_of_le (h e he) hmn

theorem Below.insert {c : Contents} {n : Nat} (h : c.Below n) {i : Nat} (hi : i < n)
    (s : String) : (c.insert i s).Below n := by
  intro e he
  rcases mem_insertEntry he with rfl | he
  · exact hi
  · exact h e he

theorem Below.get?_eq_none {c : Contents} {n : Nat} (h : c.Below n) {i : Nat} (hi : n ≤ i) :
    c.get? i = none := by
  refine List.lookup_eq_none_iff.2 fun e he => ?_
  have := h e he
  simp only [bne_iff_ne]
  omega

theorem mem_entries_ofList {texts : List (Option String)} {e : Nat × String} :
    e ∈ (ofList texts).entries ↔ texts[e.1]? = some (some e.2) := by
  obtain ⟨i, s⟩ := e
  simp only [ofList, List.mem_filterMap, Prod.exists, List.mem_zipIdx_iff_getElem?]
  constructor
  · rintro ⟨_ | t, j, ht, h⟩ <;> simp at h
    obtain ⟨rfl, rfl⟩ := h
    exact ht
  · intro h
    exact ⟨some s, i, h, rfl⟩

theorem below_ofList {texts : List (Option String)} {n : Nat} :
    (ofList texts).Below n ↔ ∀ i s, texts[i]? = some (some s) → i < n := by
  simp only [Below, mem_entries_ofList, Prod.forall]

end Contents

namespace Bundle

/-- Every text is stored for a source of the table. -/
def ContentsKnown (b : Bundle) : Prop := b.contents.Below b.sources.size

instance (b : Bundle) : Decidable b.ContentsKnown :=
  inferInstanceAs (Decidable (∀ e ∈ b.contents.entries, e.1 < b.sources.size))

theorem contentsKnown_empty (urls : UrlTable) : (empty urls).ContentsKnown :=
  Contents.below_empty _

/-- A table that has grown still knows the sources of the contents. -/
theorem ContentsKnown.of_extends {b b' : Bundle} (h : b.ContentsKnown) (he : b.Extends b')
    (hc : b'.contents = b.contents) : b'.ContentsKnown := by
  unfold ContentsKnown
  rw [hc]
  exact h.mono he.sources.length_le

/-- A source that is registered for the first time has no contents yet. -/
theorem get?_eq_none_of_contentsKnown {b : Bundle} (h : b.ContentsKnown) {source : String}
    (hs : b.sources.index? source = none) :
    (b.internSource source).2.contents.get? (b.internSource source).1 = none := by
  have hi : (b.internSource source).1 = b.sources.size := by
    simp [internSource, StringTable.intern, hs]
  exact h.get?_eq_none (Nat.le_of_eq hi.symm)

/-! ## Taking over contents -/

theorem storeAll_cons_of_get {b : Bundle} {t : StringTable} {i : Nat} {source : String}
    (h : t.get i = .ok source) (text : String) (rest : List (Nat × String)) :
    b.storeAll t ((i, text) :: rest) = (b.storeContents source text).2.storeAll t rest := by
  simp [storeAll, h]

/-- What holds after every text holds after all of them, also where one has no source. -/
theorem storeAll_keeps {P : Bundle → Prop}
    (hstep : ∀ b source text, P b → P (b.storeContents source text).2) (t : StringTable)
    (es : List (Nat × String)) {b : Bundle} (h : P b) : P (b.storeAll t es).2 := by
  induction es generalizing b with
  | nil => exact h
  | cons e es ih =>
    obtain ⟨i, text⟩ := e
    cases hs : t.get i with
    | error e => simpa [storeAll, hs] using h
    | ok source =>
      rw [storeAll_cons_of_get hs]
      exact ih (hstep b source text h)

theorem storeAll_eq_ok_iff {b : Bundle} {t : StringTable} {es : List (Nat × String)} :
    (b.storeAll t es).1 = .ok () ↔ ∀ e ∈ es, e.1 < t.size := by
  induction es generalizing b with
  | nil => simp [storeAll]
  | cons e es ih =>
    obtain ⟨i, text⟩ := e
    cases hs : t.get i with
    | error err =>
      have hi : ¬ i < t.size := by
        intro hlt
        have := StringTable.get_eq_ok_iff.2 (List.getElem?_eq_getElem hlt)
        simp [hs] at this
      simp [storeAll, hs, hi]
    | ok source =>
      rw [storeAll_cons_of_get hs, ih, List.forall_mem_cons]
      exact (and_iff_right (StringTable.lt_size_of_get hs)).symm

/-- Only sources and contents change. -/
theorem storeAll_frame (b : Bundle) (t : StringTable) (es : List (Nat × String)) :
    ∃ sources contents, (b.storeAll t es).2 = { b with sources, contents } := by
  refine storeAll_keeps (P := fun c => ∃ sources contents, c = { b with sources, contents })
    ?_ t es ⟨_, _, rfl⟩
  rintro c source text ⟨sources, contents, rfl⟩
  exact ⟨_, _, rfl⟩

end Bundle

end SourceMap
