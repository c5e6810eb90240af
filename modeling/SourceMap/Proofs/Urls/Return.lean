import SourceMap.Proofs.Urls.Longest

/-!
# From a path to a URL and back

The URL of a path is written with one slash between the URL of its pair and what lies below. So it
goes on with a part of its own, and the pair is the only one whose URL it starts with, unless
another pair has a URL that starts with it or that it starts with. A path need not be text, but a
URL is, so names that are no text do not come back.

## Main definitions

* `Path.Component.IsText` : a URL can show the component as it is.
* `UrlTable.Apart` : neither of two URLs starts with the other.
* `UrlTable.ExtendsByText` : what a path adds to that of a pair is text.

## Main statements

* `Path.exists_parts_of_components` : how the components below another place are shown in a URL.
* `UrlTable.remainder_append` : what a URL goes on with when it was put together with one slash.
* `UrlTable.path?_of_url?` : with one pair, when the URL of a path leads back to it.
* `UrlTable.path?_urlOf?` : the same for a table in which no URL of a pair starts with another.
-/

namespace SourceMap

open Text (slash)

namespace Path

/-- A URL can show the component as it is. -/
def Component.IsText : Component → Prop
  | name bytes => Text.IsUtf8 bytes
  | _ => True

instance (c : Component) : Decidable c.IsText :=
  match c with
  | .name bytes => inferInstanceAs (Decidable (Text.IsUtf8 bytes))
  | .root | .here | .up => inferInstanceAs (Decidable True)

theorem isText_bodyComponent {piece : List UInt8} :
    (bodyComponent piece).IsText ↔ Text.IsUtf8 piece := by
  unfold bodyComponent
  split
  · next hup => exact iff_of_true trivial ⟨"..", hup.symm⟩
  · exact Iff.rfl

/-- What lies below another place is written in pieces that are no dots and have no slashes. -/
theorem exists_pieces_of_components {p q : Path} {down : List Component} (hq : q.components ≠ [])
    (h : p.components = q.components ++ down) :
    ∃ below : List (List UInt8), (∀ piece ∈ below, isIdle piece = false ∧ slash ∉ piece) ∧
      below.map bodyComponent = down := by
  obtain ⟨first, rest, hpieces⟩ := List.exists_cons_of_ne_nil (List.splitOn_ne_nil slash p.bytes)
  have hp : p.bytes ≠ [] := by
    intro hp
    have hnil : p.components = [] := by simp [components, hp]
    rw [hnil] at h
    exact hq (List.append_eq_nil_iff.1 h.symm).1
  rw [components_of_pieces hp hpieces] at h
  obtain ⟨c, cs, hc⟩ := List.exists_cons_of_ne_nil hq
  rw [hc, List.cons_append, List.cons.injEq] at h
  obtain ⟨before, below, hsplit, -, hbelow⟩ := List.map_eq_append_iff.1 h.2
  refine ⟨below, fun piece hpiece => ?_, hbelow⟩
  have hmem : piece ∈ rest.filter (!isIdle ·) := hsplit ▸ List.mem_append_right _ hpiece
  obtain ⟨hrest, hidle⟩ := List.mem_filter.1 hmem
  refine ⟨by simpa using hidle, ?_⟩
  exact Text.notMem_of_mem_splitOn (hpieces ▸ List.mem_cons_of_mem _ hrest)

/-- What lies below another place is shown in parts of a URL. They are what lies there if and only
if that is text. -/
theorem exists_parts_of_components {p q : Path} {down : List Component} (hq : q.components ≠ [])
    (h : p.components = q.components ++ down) :
    ∃ parts : List (List Char), (∀ part ∈ parts, part ≠ [] ∧ part ≠ ['.'] ∧ '/' ∉ part) ∧
      (parts.map partComponent).map (·.text) = down.map (·.text) ∧
      (parts.map partComponent = down ↔ ∀ c ∈ down, c.IsText) := by
  obtain ⟨below, hbelow, rfl⟩ := exists_pieces_of_components hq h
  refine ⟨below.map fun piece => (Text.ofBytes piece).toList, ?_, ?_, ?_⟩
  · intro part hpart
    obtain ⟨piece, hpiece, rfl⟩ := List.mem_map.1 hpart
    obtain ⟨hidle, hslash⟩ := hbelow piece hpiece
    -- A part that is empty or a dot has no replacement character, so it is the piece itself.
    have hparts : ¬((Text.ofBytes piece).toList = [] ∨ (Text.ofBytes piece).toList = ['.']) := by
      intro hpart
      have hsame : Text.bytes (Text.ofBytes piece) = piece := by
        refine Text.bytes_ofBytes ?_
        rcases hpart with hpart | hpart <;> rw [hpart] <;> decide
      rw [← isIdle_bytes_iff, String.ofList_toList, hsame, hidle] at hpart
      exact Bool.false_ne_true hpart
    rw [not_or] at hparts
    exact ⟨hparts.1, hparts.2, fun h => hslash (Text.mem_of_mem_ofBytes (by decide) (by decide) h)⟩
  · rw [List.map_map, List.map_map, List.map_map]
    refine List.map_congr_left fun piece _ => ?_
    simp [text_partComponent, Component.text_bodyComponent]
  · rw [List.map_map, List.map_inj_left, List.forall_mem_map]
    refine forall₂_congr fun piece _ => ?_
    rw [isText_bodyComponent, Text.isUtf8_iff, Function.comp_apply, partComponent,
      String.ofList_toList, bodyComponent_inj]

end Path

namespace UrlTable

/-! ## One pair -/

variable {start url : String} {p q : Path}

/-- What a URL goes on with when it was put together with one slash. -/
theorem remainder_append (hslashes : ¬['/', '/'] <:+ start.toList) {rest : List Char}
    (hrest : rest ≠ [])
    (hurl : url = String.ofList (Text.dropEndWhile (· = '/') start.toList) ++ "/" ++
      String.ofList rest) :
    start.toList <+: url.toList ∧ url ≠ start ∧ remainder start url = rest := by
  have htext : url.toList = (if start.toList.getLast? = some '/' then start.toList
      else start.toList ++ ['/']) ++ rest := by
    rw [hurl, ← dropEndWhile_slash hslashes]
    simp
  have hstarts : start.toList <+: url.toList := by
    rw [htext]
    split
    · exact List.prefix_append ..
    · rw [List.append_assoc]
      exact List.prefix_append ..
  have hbehind := append_behind hstarts
  rw [htext] at hbehind
  refine ⟨hstarts, fun heq => ?_, ?_⟩
  · have hlength := congrArg List.length hbehind
    have hpos := List.length_pos_of_ne_nil hrest
    rw [(behind_eq_nil_iff hstarts).2 heq] at hlength
    split at hlength <;> simp only [List.length_append, List.length_nil] at hlength <;> omega
  · unfold remainder
    split at hbehind
    · next hlast =>
      rw [if_neg (not_and_of_not_left _ (not_not.2 hlast))]
      exact List.append_cancel_left hbehind
    · next hlast =>
      rw [List.append_assoc] at hbehind
      rw [List.append_cancel_left hbehind, if_pos ⟨hlast, rfl⟩]
      rfl

/-- What a URL goes on with for what lies below another place. Its parts are what lies there if and
only if that is text. -/
theorem exists_rest_of_components {down : List Path.Component} (hq : q.components ≠ [])
    (hdown : p.components = q.components ++ down) (hne : down ≠ []) :
    ∃ rest, rest ≠ [] ∧ Plain rest ∧
      "/".intercalate (down.map (·.text)) = String.ofList rest ∧
      ((rest.splitOn '/').map Path.partComponent = down ↔ ∀ c ∈ down, c.IsText) := by
  obtain ⟨parts, hparts, htext, hcomponents⟩ := Path.exists_parts_of_components hq hdown
  have hnil : parts ≠ [] := by
    rintro rfl
    exact hne (List.map_eq_nil_iff.1 htext.symm)
  have hsplit : (['/'].intercalate parts).splitOn '/' = parts :=
    List.splitOn_intercalate '/' (fun part hpart => (hparts part hpart).2.2) hnil
  have hparted := text_parts (['/'].intercalate parts)
  rw [hsplit, htext] at hparted
  refine ⟨['/'].intercalate parts, fun hrest => ?_, ?_, hparted, hsplit.symm ▸ hcomponents⟩
  · rw [hrest, List.splitOn_nil] at hsplit
    exact (hparts [] (hsplit ▸ List.mem_cons_self)).1 rfl
  · intro part hpart
    obtain ⟨hempty, hdot, -⟩ := hparts part (hsplit ▸ hpart)
    exact ⟨hempty, hdot⟩

/-- With one pair, the URL of a path leads back to the path if and only if what the path adds to
that of the pair is text. -/
theorem path?_of_url? (hslashes : ¬['/', '/'] <:+ start.toList) (hq : q.bytes ≠ [])
    {down : List Path.Component} (hdown : p.components = q.components ++ down)
    (h : url? ⟨[(q, start)]⟩ p = some url) :
    start.toList <+: url.toList ∧ ∃ r, path? ⟨[(q, start)]⟩ url = some r ∧
      (r.components = p.components ↔ ∀ c ∈ down, c.IsText) := by
  rw [url?_singleton hdown, Option.some_inj] at h
  by_cases hnil : down = []
  · rw [if_pos hnil] at h
    subst h hnil
    refine ⟨List.prefix_rfl, _, path?_singleton.2 ⟨List.prefix_rfl, rfl⟩, ?_⟩
    rw [hdown]
    simp [behind, ← String.length_toList]
  · obtain ⟨rest, hrest, hplain, htext, hcomponents⟩ :=
      exists_rest_of_components (Path.components_ne_nil hq) hdown hnil
    rw [if_neg hnil, htext] at h
    obtain ⟨hstarts, hne, hremainder⟩ := remainder_append hslashes hrest h.symm
    obtain ⟨r, hpath⟩ : ∃ r, path? ⟨[(q, start)]⟩ url = some r :=
      ⟨_, path?_singleton.2 ⟨hstarts, rfl⟩⟩
    obtain ⟨-, hr⟩ := components_of_path? hpath (.inr (hremainder ▸ hplain))
    refine ⟨hstarts, r, hpath, ?_⟩
    rw [hr, if_neg hne, hremainder, hdown, List.append_cancel_left_eq, hcomponents]

/-! ## Any number of pairs -/

/-- Neither of the two URLs starts with the other. -/
def Apart (e f : Path × String) : Prop :=
  ¬e.2.toList <+: f.2.toList ∧ ¬f.2.toList <+: e.2.toList

instance : Std.Symm Apart := ⟨fun _ _ h => h.symm⟩

instance (e f : Path × String) : Decidable (Apart e f) := inferInstanceAs (Decidable (_ ∧ _))

/-- Only one pair matches a URL. -/
theorem path?_of_prefix {t : UrlTable} (hapart : t.entries.Pairwise Apart) {e : Path × String}
    (he : e ∈ t.entries) (hstarts : e.2.toList <+: url.toList)
    (h : path? ⟨[e]⟩ url = some p) : t.path? url = some p := by
  refine path?_eq_some_iff.2 ⟨e, ?_, h⟩
  have hmem : e ∈ t.entries.filter (·.2.toList.isPrefixOf url.toList) :=
    List.mem_filter.2 ⟨he, List.isPrefixOf_iff_prefix.2 hstarts⟩
  cases hlast : last? (·.2.length) (t.entries.filter (·.2.toList.isPrefixOf url.toList)) with
  | none =>
    rw [eq_nil_of_last? hlast] at hmem
    cases hmem
  | some f =>
    obtain ⟨hf, hfprefix⟩ := List.mem_filter.1 (mem_and_le_of_last? hlast).1
    by_contra hne
    have hfe : f ≠ e := fun heq => hne (congrArg some heq)
    obtain ⟨hfe, hef⟩ := hapart.forall hf he hfe
    rcases List.prefix_or_prefix_of_prefix (List.isPrefixOf_iff_prefix.1 hfprefix) hstarts with
      h | h
    · exact hfe h
    · exact hef h

/-- `p` is the path of a pair or lies below it, and what it adds to that path is text. -/
def ExtendsByText (t : UrlTable) (p : Path) : Prop :=
  ∃ e ∈ t.entries, ∃ down, p.components = e.1.components ++ down ∧ ∀ c ∈ down, c.IsText

/-- What a path adds to that of the longest match is the least that it adds to any. -/
theorem extendsByText_iff {t : UrlTable} {e : Path × String} {down : List Path.Component}
    (hlast : last? (·.1.components.length)
      (t.entries.filter (·.1.components.isPrefixOf p.components)) = some e)
    (hdown : p.components = e.1.components ++ down) :
    t.ExtendsByText p ↔ ∀ c ∈ down, c.IsText := by
  obtain ⟨hmem, hle⟩ := mem_and_le_of_last? hlast
  refine ⟨?_, fun h => ⟨e, (List.mem_filter.1 hmem).1, down, hdown, h⟩⟩
  rintro ⟨f, hf, below, hbelow, htext⟩
  have hfits : f.1.components.isPrefixOf p.components :=
    List.isPrefixOf_iff_prefix.2 ⟨below, hbelow.symm⟩
  have hlength := hle f (List.mem_filter.2 ⟨hf, hfits⟩)
  have hsuffix : down <:+ below := by
    refine List.suffix_of_suffix_length_le ⟨_, hdown.symm⟩ ⟨_, hbelow.symm⟩ ?_
    have hsame := congrArg List.length (hdown.symm.trans hbelow)
    rw [List.length_append, List.length_append] at hsame
    omega
  exact fun c hc => htext c (hsuffix.subset hc)

/-- The URL of a path leads to a path again, if no URL of a pair starts with another or ends in two
slashes. It is the same path if and only if what it adds to that of the pair is text, because a URL
is text and shows other names with replacement characters. The paths of the pairs need not be
absolute for that, only not empty. -/
theorem path?_urlOf? [FileSystem (StateM σ)] {files : σ} {t : UrlTable}
    (hpaths : ∀ e ∈ t.entries, e.1.bytes ≠ [])
    (hslashes : ∀ e ∈ t.entries, ¬['/', '/'] <:+ e.2.toList) (hapart : t.entries.Pairwise Apart)
    (hp : FileSystem.Settled p files)
    (hurl : (t.urlOf? p : StateM σ (Option String)).run files = (some url, files)) :
    ∃ q, t.path? url = some q ∧ (q.components = p.components ↔ t.ExtendsByText p) := by
  obtain ⟨r, hsettle, hr⟩ := hp
  have hurl? : t.url? r = some url :=
    (Prod.ext_iff.1 ((run_urlOf?_of_settle hsettle t).symm.trans hurl)).1
  obtain ⟨e, hlast, he⟩ := url?_eq_some_iff.1 hurl?
  obtain ⟨hmem, hfits⟩ := List.mem_filter.1 (mem_and_le_of_last? hlast).1
  obtain ⟨down, hdown⟩ := List.isPrefixOf_iff_prefix.1 hfits
  obtain ⟨hstarts, q, hq, hcomponents⟩ :=
    path?_of_url? (hslashes e hmem) (hpaths e hmem) hdown.symm he
  rw [hr] at hlast hdown hcomponents
  refine ⟨q, path?_of_prefix hapart hmem hstarts hq, ?_⟩
  rw [hcomponents, extendsByText_iff hlast hdown.symm]

open Sample

/-- The path lies in both directories, one of them within the other, and steps up again. -/
theorem path?_urlOf?_nested :
    let t : UrlTable := ⟨[(⟨"/web"⟩, "http://x/"), (⟨"/web/js"⟩, "http://cdn.x")]⟩
    let p : Path := ⟨"/web/js//../a.js"⟩
    (ofPairs t.entries .empty : StateM Disk UrlTable).run bare = (t, bare) ∧
      (t.urlOf? p : StateM Disk (Option String)).run bare = (some "http://cdn.x/../a.js", bare) ∧
      ∃ q, t.path? "http://cdn.x/../a.js" = some q ∧ q.components = p.components := by
  intro t p
  have hp : FileSystem.Settled p bare := by
    refine ⟨p, Prod.ext ?_ ?_, rfl⟩ <;> decide +kernel
  have hbuilt : (ofPairs t.entries .empty : StateM Disk UrlTable).run bare = (t, bare) := by
    refine Prod.ext ?_ ?_ <;> decide +kernel
  have hurl : (t.urlOf? p : StateM Disk (Option String)).run bare =
      (some "http://cdn.x/../a.js", bare) := by
    refine Prod.ext ?_ ?_ <;> decide +kernel
  have htext : t.ExtendsByText p :=
    ⟨(⟨"/web"⟩, "http://x/"), List.mem_cons_self, [.name "js", .up, .name "a.js"],
      by decide +kernel, by decide +kernel⟩
  obtain ⟨q, hq, hcomponents⟩ :=
    path?_urlOf? (by decide +kernel) (by decide +kernel) (by decide +kernel) hp hurl
  exact ⟨hbuilt, hurl, q, hq, hcomponents.2 htext⟩

/-- The name of a file is a byte that is no text and `.js`. It is shown with a replacement
character, and another file has that name. -/
theorem path?_urlOf?_replaced :
    let t : UrlTable := ⟨[(⟨"/web"⟩, "http://x")]⟩
    let p : Path := ⟨Text.bytes "/web/" ++ [0xFF] ++ Text.bytes ".js"⟩
    (ofPairs t.entries .empty : StateM Disk UrlTable).run bare = (t, bare) ∧
      FileSystem.Settled p bare ∧
      (t.urlOf? p : StateM Disk (Option String)).run bare = (some "http://x/\uFFFD.js", bare) ∧
      t.path? "http://x/\uFFFD.js" = some ⟨"/web/\uFFFD.js"⟩ ∧
      (⟨"/web/\uFFFD.js"⟩ : Path).components ≠ p.components := by
  intro t p
  have hp : FileSystem.Settled p bare := by
    refine ⟨p, Prod.ext ?_ ?_, rfl⟩ <;> decide +kernel
  have hbuilt : (ofPairs t.entries .empty : StateM Disk UrlTable).run bare = (t, bare) := by
    refine Prod.ext ?_ ?_ <;> decide +kernel
  have hurl : (t.urlOf? p : StateM Disk (Option String)).run bare =
      (some "http://x/\uFFFD.js", bare) := by
    refine Prod.ext ?_ ?_ <;> decide +kernel
  exact ⟨hbuilt, hp, hurl, by decide +kernel, by decide +kernel⟩

end UrlTable

end SourceMap
