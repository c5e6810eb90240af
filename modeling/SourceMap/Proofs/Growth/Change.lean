import SourceMap.Proofs.Growth.Contents

/-!
# The smallest changes of a bundle

Whatever is done to a bundle, unless a map is loaded, comes down to a few small changes: a string
is added to a table, contents are stored at a known index, or the mapping text is continued.

## Main definitions

* `Bundle.Change` : one small change.
* `Bundle.Grows` : any number of them.

## Main statements

* `Grows.tables`, `Grows.consistent`, `Grows.contentsKnown` : what small changes preserve.
-/

namespace SourceMap.Bundle

inductive Change : Bundle → Bundle → Prop where
  /-- Nothing changes in the tables, the mappings or the contents. -/
  | describe (b : Bundle) (file sourceRoot : Option String) (embedsContents : Bool)
      (mapUrl body : Option String) (hasMap : Bool) (urls : UrlTable) :
      Change b { b with file, sourceRoot, embedsContents, mapUrl, body, hasMap, urls }
  | source (b : Bundle) (source : String) : Change b (b.internSource source).2
  | name (b : Bundle) (name : String) : Change b (b.internName name).2
  | contents {b : Bundle} {i : Nat} (hi : i < b.sources.size) (text : String) :
      Change b { b with contents := b.contents.insert i text }
  | resume {b : Bundle} {l : Limits} {m : Mappings} (h : b.mappings.resume l = .ok m) :
      Change b { b with mappings := m }
  | line {b : Bundle} {line : Line} {m : Mappings} (h : b.mappings.append line = .ok m) :
      Change b { b with mappings := m }
  | emptyLines (b : Bundle) (lines : Nat) :
      Change b { b with mappings := b.mappings.extendTo lines }

/-- Any number of small changes. -/
def Grows : Bundle → Bundle → Prop := Relation.ReflTransGen Change

theorem Grows.refl (b : Bundle) : b.Grows b := Relation.ReflTransGen.refl

theorem Grows.trans {a b c : Bundle} (h : a.Grows b) (g : b.Grows c) : a.Grows c :=
  Relation.ReflTransGen.trans h g

theorem Change.grows {b c : Bundle} (h : b.Change c) : b.Grows c := .single h

/-- What every small change preserves holds after any number of them. -/
theorem Grows.keeps {P : Bundle → Prop} (hstep : ∀ b c, b.Change c → P b → P c) {b c : Bundle}
    (h : b.Grows c) (hb : P b) : P c := by
  induction h with
  | refl => exact hb
  | tail _ hc ih => exact hstep _ _ hc ih

theorem Change.tables {b c : Bundle} (h : b.Change c) : b.Extends c := by
  cases h with
  | source source => exact extends_internSource b source
  | name name => exact extends_internName b name
  | describe | contents | resume | line | emptyLines => exact ⟨List.prefix_rfl, List.prefix_rfl⟩

theorem Grows.tables {b c : Bundle} (h : b.Grows c) : b.Extends c :=
  h.keeps (P := b.Extends) (fun _ _ hc hb => hb.trans hc.tables) (.refl b)

theorem Change.consistent {b c : Bundle} (h : b.Change c) (hb : b.mappings.Consistent) :
    c.mappings.Consistent := by
  cases h with
  | describe | source | name | contents => exact hb
  | resume hm => exact hb.resume hm
  | line hm =>
    obtain ⟨-, -, -, -, -, -, -, hc⟩ := Mappings.append_eq_ok hb hm
    exact hc
  | emptyLines lines => exact hb.extendTo lines

theorem Grows.consistent {b c : Bundle} (h : b.Grows c) (hb : b.mappings.Consistent) :
    c.mappings.Consistent :=
  h.keeps (P := fun c => c.mappings.Consistent) (fun _ _ => Change.consistent) hb

theorem Change.contentsKnown {b c : Bundle} (h : b.Change c) (hb : b.ContentsKnown) :
    c.ContentsKnown := by
  cases h with
  | describe | name | resume | line | emptyLines => exact hb
  | source source => exact hb.of_extends (extends_internSource b source) rfl
  | contents hi text => exact Contents.Below.insert hb hi text

theorem Grows.contentsKnown {b c : Bundle} (h : b.Grows c) (hb : b.ContentsKnown) :
    c.ContentsKnown :=
  h.keeps (fun _ _ => Change.contentsKnown) hb

/-! ## Strings and contents -/

theorem grows_internSegment (b : Bundle) (s : NamedSegment) : b.Grows (b.internSegment s).2 := by
  obtain ⟨c, _ | ⟨source, line, column, _ | name⟩⟩ := s
  · exact .refl b
  · exact (Change.source b source).grows
  · exact (Change.source b source).grows.trans (Change.name _ name).grows

theorem grows_internLine (b : Bundle) (line : NamedLine) : b.Grows (b.internLine line).2 := by
  induction line generalizing b with
  | nil => exact .refl b
  | cons s line ih => exact (grows_internSegment b s).trans (ih _)

theorem grows_storeContents (b : Bundle) (source text : String) :
    b.Grows (b.storeContents source text).2 :=
  (Change.source b source).grows.trans
    (Change.contents (StringTable.intern_fst_lt b.sources source) text).grows

theorem grows_storeAll (b : Bundle) (t : StringTable) (es : List (Nat × String)) :
    b.Grows (b.storeAll t es).2 :=
  storeAll_keeps (fun c source text h => h.trans (grows_storeContents c source text)) t es
    (.refl b)

end SourceMap.Bundle
