import SourceMap.Files.Disk
import SourceMap.Proofs.RoundTrip.Text
import SourceMap.Proofs.Urls.Components
import SourceMap.UrlTable

/-!
# From a URL to a path and back

A URL is matched by its characters, a path by its components. So a URL that goes on within a part of
the URL of its pair has a path inside that of the pair, and the path has another URL.

## Main definitions

* `FileSystem.Settled` : a path that the file system leaves as it is.
* `UrlTable.behind`, `UrlTable.remainder` : what a URL goes on with, with the slash between and
  without.
* `UrlTable.Boundary` : the match ends where a part of the URL does.
* `UrlTable.Plain` : no part of a URL is empty or a dot.

## Main statements

* `UrlTable.components_of_path?` : the path of a URL lies as deep below that of the pair as the URL
  has parts.
* `UrlTable.url?_of_path?` : the URL of such a path.
* `UrlTable.urlOf?_path?_iff` : a URL comes back from its path if and only if the match ends at a
  boundary.
-/

namespace SourceMap

/-- Settling `p` leads to the same components and leaves the files as they are. -/
def FileSystem.Settled [FileSystem (StateM σ)] (p : Path) (files : σ) : Prop :=
  ∃ q, (settle p : StateM σ Path).run files = (q, files) ∧ q.components = p.components

namespace UrlTable

/-! ## One pair -/

/-- What `url` goes on with behind `start`. -/
def behind (start url : String) : List Char := url.toList.drop start.length

/-- What follows behind `start` and the slash that ends it. The slash may be the last character of
`start` or the first one behind it. -/
def remainder (start url : String) : List Char :=
  if start.toList.getLast? ≠ some '/' ∧ (behind start url).head? = some '/' then
    (behind start url).tail
  else behind start url

/-- No part of `url` goes on where `start` ends. -/
def Boundary (start url : String) : Prop :=
  url = start ∨ start.toList.getLast? = some '/' ∨ (behind start url).head? = some '/'

instance (start url : String) : Decidable (Boundary start url) :=
  inferInstanceAs (Decidable (_ ∨ _ ∨ _))

variable {start url : String} {p q : Path}

theorem append_behind (h : start.toList <+: url.toList) :
    start.toList ++ behind start url = url.toList := by
  obtain ⟨rest, hrest⟩ := h
  rw [behind, ← hrest, ← String.length_toList, List.drop_left]

theorem behind_eq_nil_iff (h : start.toList <+: url.toList) :
    behind start url = [] ↔ url = start := by
  rw [← String.toList_inj, ← append_behind h]
  simp

theorem path?_singleton :
    path? ⟨[(q, start)]⟩ url = some p ↔ start.toList <+: url.toList ∧
      (((behind start url).splitOn '/').filter (!·.isEmpty)).foldl
        (fun p part => p.join (String.ofList part)) q = p := by
  by_cases h : start.toList <+: url.toList
  · simp [path?, last?, h, behind]
  · simp [path?, last?, h]

theorem url?_singleton {down : List Path.Component} (h : p.components = q.components ++ down) :
    url? ⟨[(q, start)]⟩ p = some (if down = [] then start else
      String.ofList (Text.dropEndWhile (· = '/') start.toList) ++ "/" ++
        "/".intercalate (down.map (·.text))) := by
  have hdrop : p.components.drop q.components.length = down := by rw [h, List.drop_left]
  have hfits : q.components <+: p.components := ⟨down, h.symm⟩
  simp only [url?, last?, List.filter_cons, List.isPrefixOf_iff_prefix.2 hfits, if_true,
    List.filter_nil, List.foldl_cons, List.foldl_nil, Option.map_some, hdrop]
  cases down <;> rfl

/-! ## Parts of a URL -/

/-- Part for part, what follows behind `start` is free of empty parts and dots. -/
def Plain (rest : List Char) : Prop := ∀ part ∈ rest.splitOn '/', part ≠ [] ∧ part ≠ ['.']

instance (rest : List Char) : Decidable (Plain rest) :=
  inferInstanceAs (Decidable (∀ part ∈ rest.splitOn '/', part ≠ [] ∧ part ≠ ['.']))

theorem parts_behind (hplain : Plain (remainder start url)) :
    ((behind start url).splitOn '/').filter (!·.isEmpty) = (remainder start url).splitOn '/' := by
  have hkeep : ((remainder start url).splitOn '/').filter (!·.isEmpty) =
      (remainder start url).splitOn '/' := by
    rw [List.filter_eq_self]
    intro part hpart
    simpa using (hplain part hpart).1
  rw [← hkeep]
  unfold remainder
  split
  · next h =>
    obtain ⟨rest, hrest⟩ := List.head?_eq_some_iff.1 h.2
    rw [hrest, List.tail_cons, ← List.nil_append ('/' :: rest), List.splitOn_append_cons_self]
    simp
  · rfl

theorem text_parts (rest : List Char) :
    "/".intercalate (((rest.splitOn '/').map Path.partComponent).map (·.text)) =
      String.ofList rest := by
  have htext : ((rest.splitOn '/').map Path.partComponent).map (·.text) =
      (rest.splitOn '/').map String.ofList := by
    rw [List.map_map]
    exact List.map_congr_left fun part _ => Path.text_partComponent part
  rw [htext, ← String.toList_inj, String.toList_intercalate, List.map_map]
  have hid : (String.toList ∘ String.ofList) = id := funext fun cs => String.toList_ofList
  rw [hid, List.map_id]
  exact (List.intercalate_splitOn '/').trans String.toList_ofList.symm

/-! ## The URL of the path of a URL -/

theorem dropEndWhile_slash (hslashes : ¬['/', '/'] <:+ start.toList) :
    Text.dropEndWhile (· = '/') start.toList ++ ['/'] =
      if start.toList.getLast? = some '/' then start.toList else start.toList ++ ['/'] := by
  rcases start.toList.eq_nil_or_concat' with hnil | ⟨init, c, hinit⟩
  · rw [hnil]
    rfl
  · rw [hinit] at hslashes ⊢
    rw [Text.dropEndWhile_append_singleton, List.getLast?_concat]
    by_cases hc : c = '/'
    · subst hc
      -- The character before the last one is no slash, so nothing more is dropped.
      have hdrop : Text.dropEndWhile (· = '/') init = init := by
        rcases init.eq_nil_or_concat' with rfl | ⟨init, d, rfl⟩
        · rfl
        · rw [Text.dropEndWhile_append_singleton, if_neg]
          intro hd
          exact hslashes ⟨init, by simp [of_decide_eq_true hd]⟩
      simp [hdrop]
    · simp [hc]

/-- The path of a URL lies below that of the pair, one component for each part of the URL. -/
theorem components_of_path? (hpath : path? ⟨[(q, start)]⟩ url = some p)
    (hurl : url = start ∨ Plain (remainder start url)) :
    start.toList <+: url.toList ∧ p.components = q.components ++
      if url = start then [] else ((remainder start url).splitOn '/').map Path.partComponent := by
  obtain ⟨hstart, rfl⟩ := path?_singleton.1 hpath
  refine ⟨hstart, ?_⟩
  by_cases heq : url = start
  · rw [if_pos heq, (behind_eq_nil_iff hstart).2 heq]
    simp
  · have hplain := hurl.resolve_left heq
    rw [parts_behind hplain, if_neg heq]
    refine Path.components_foldl_join (fun part hpart => ?_) q
    obtain ⟨hempty, hdot⟩ := hplain part hpart
    exact ⟨hempty, hdot, Text.notMem_of_mem_splitOn hpart⟩

/-- What a path is mapped to when it is that of a URL. Where the match ended within a part, a slash
has come between. -/
theorem url?_of_path? {r : Path} (hslashes : ¬['/', '/'] <:+ start.toList)
    (hpath : path? ⟨[(q, start)]⟩ url = some p)
    (hurl : url = start ∨ Plain (remainder start url)) (hr : r.components = p.components) :
    url? ⟨[(q, start)]⟩ r = some
      (if Boundary start url then url
        else start ++ "/" ++ String.ofList (behind start url)) := by
  obtain ⟨hstart, hcomponents⟩ := components_of_path? hpath hurl
  rw [url?_singleton (hr.trans hcomponents)]
  by_cases heq : url = start
  · simp [heq, Boundary]
  · have hurlText := append_behind hstart
    have hdrop := dropEndWhile_slash hslashes
    rw [if_neg heq, if_neg (by simp [List.splitOn_ne_nil]), text_parts, Option.some_inj,
      ← String.toList_inj]
    have hleft : (String.ofList (Text.dropEndWhile (· = '/') start.toList) ++ "/" ++
        String.ofList (remainder start url)).toList =
        Text.dropEndWhile (· = '/') start.toList ++ ['/'] ++ remainder start url := by
      simp
    rw [hleft, hdrop]
    by_cases hlast : start.toList.getLast? = some '/'
    · have hboundary : Boundary start url := .inr (.inl hlast)
      rw [if_pos hlast, if_pos hboundary, remainder,
        if_neg (not_and_of_not_left _ (not_not.2 hlast)), hurlText]
    · rw [if_neg hlast]
      by_cases hhead : (behind start url).head? = some '/'
      · have hboundary : Boundary start url := .inr (.inr hhead)
        obtain ⟨rest, hrest⟩ := List.head?_eq_some_iff.1 hhead
        rw [if_pos hboundary, remainder, if_pos ⟨hlast, hhead⟩, ← hurlText, hrest]
        simp
      · have hboundary : ¬Boundary start url := by simp [Boundary, heq, hlast, hhead]
        rw [if_neg hboundary, remainder, if_neg (not_and_of_not_right _ hhead)]
        simp

/-! ## On a file system -/

section

variable [FileSystem (StateM σ)] {files : σ}

theorem run_add {r : Path} (h : (FileSystem.settle p : StateM σ Path).run files = (r, files))
    (t : UrlTable) (url : String) :
    (t.add p url : StateM σ UrlTable).run files = (t.insert r url, files) := by
  rw [add, StateT.run_bind, h]
  rfl

theorem run_urlOf?_of_settle {r : Path}
    (h : (FileSystem.settle p : StateM σ Path).run files = (r, files)) (t : UrlTable) :
    (t.urlOf? p : StateM σ (Option String)).run files = (t.url? r, files) := by
  rw [urlOf?, StateT.run_bind, h]
  rfl

theorem run_add_empty {t : UrlTable} (hp : FileSystem.Settled p files)
    (hadd : (empty.add p start : StateM σ UrlTable).run files = (t, files)) :
    ∃ r, r.components = p.components ∧ t = ⟨[(r, start)]⟩ := by
  obtain ⟨r, hsettle, hr⟩ := hp
  exact ⟨r, hr, (Prod.ext_iff.1 (hadd.symm.trans (run_add hsettle empty start))).1⟩

theorem run_urlOf? {t : UrlTable} {url? : Option String} (hp : FileSystem.Settled p files)
    (hurl : ∀ r : Path, r.components = p.components → t.url? r = url?) :
    (t.urlOf? p : StateM σ (Option String)).run files = (url?, files) := by
  obtain ⟨r, hsettle, hr⟩ := hp
  rw [run_urlOf?_of_settle hsettle, hurl r hr]

/-- In a table with one pair, a URL is mapped to a path inside that of the pair. It comes back from
there if and only if the match ends at a boundary. Where it does not, a URL comes back that has a
slash more. -/
theorem urlOf?_path?_iff {t : UrlTable} (hslashes : ¬['/', '/'] <:+ start.toList)
    (hq : FileSystem.Settled q files) (hp : FileSystem.Settled p files)
    (hadd : (empty.add q start : StateM σ UrlTable).run files = (t, files))
    (hpath : t.path? url = some p) (hurl : url = start ∨ Plain (remainder start url)) :
    q.components <+: p.components ∧
      ((t.urlOf? p : StateM σ (Option String)).run files = (some url, files) ↔
        Boundary start url) ∧
      (¬Boundary start url → (t.urlOf? p : StateM σ (Option String)).run files =
        (some (start ++ "/" ++ String.ofList (behind start url)), files)) := by
  obtain ⟨r, hr, rfl⟩ := run_add_empty hq hadd
  obtain ⟨hstart, hcomponents⟩ := components_of_path? hpath hurl
  have hrun := run_urlOf? hp fun _ h => url?_of_path? hslashes hpath hurl h
  refine ⟨⟨_, by rw [hcomponents, hr]⟩, ?_, fun h => by rw [hrun, if_neg h]⟩
  rw [hrun]
  by_cases hboundary : Boundary start url
  · simp [hboundary]
  · -- The URL that comes back is one character longer.
    have hlength := congrArg List.length (append_behind hstart)
    rw [if_neg hboundary]
    refine iff_of_false (fun h => ?_) hboundary
    have hback := congrArg (fun v : Option String × σ => v.1.map String.length) h
    have hslash : "/".length = 1 := rfl
    rw [List.length_append, String.length_toList, String.length_toList] at hlength
    simp only [Option.map_some, String.length_append, String.length_ofList,
      Option.some_inj] at hback
    omega

end

/-- A disk without files. -/
def Sample.bare : Disk := ⟨[], []⟩

open Sample

/-- Steps up and a slash at the end of the URL of the pair do no harm. -/
theorem urlOf?_path?_iff_steppedUp :
    let t : UrlTable := ⟨[(⟨"/web"⟩, "http://x/")]⟩
    let p : Path := ⟨"/web/lib/../a.js"⟩
    (empty.add ⟨"/web"⟩ "http://x/" : StateM Disk UrlTable).run bare = (t, bare) ∧
      t.path? "http://x/lib/../a.js" = some p ∧
      (t.urlOf? p : StateM Disk (Option String)).run bare =
        (some "http://x/lib/../a.js", bare) := by
  intro t p
  have hq : FileSystem.Settled ⟨"/web"⟩ bare := by
    refine ⟨⟨"/web"⟩, Prod.ext ?_ ?_, rfl⟩ <;> decide +kernel
  have hp : FileSystem.Settled p bare := by
    refine ⟨p, Prod.ext ?_ ?_, rfl⟩ <;> decide +kernel
  have hadd : (empty.add ⟨"/web"⟩ "http://x/" : StateM Disk UrlTable).run bare = (t, bare) := by
    refine Prod.ext ?_ ?_ <;> decide +kernel
  have hpath : t.path? "http://x/lib/../a.js" = some p := by decide +kernel
  have hplain : Plain (remainder "http://x/" "http://x/lib/../a.js") := by decide +kernel
  have hboundary : Boundary "http://x/" "http://x/lib/../a.js" := by decide +kernel
  exact ⟨hadd, hpath,
    (urlOf?_path?_iff (by decide +kernel) hq hp hadd hpath (.inr hplain)).2.1.2 hboundary⟩

/-- A host that starts as the host of the pair does is taken for a directory below it. -/
theorem urlOf?_path?_withinHost :
    let t : UrlTable := ⟨[(⟨"/web"⟩, "http://x")]⟩
    let p : Path := ⟨"/web/yz/a.js"⟩
    FileSystem.Settled ⟨"/web"⟩ bare ∧ FileSystem.Settled p bare ∧
      (empty.add ⟨"/web"⟩ "http://x" : StateM Disk UrlTable).run bare = (t, bare) ∧
      Plain (remainder "http://x" "http://xyz/a.js") ∧
      t.path? "http://xyz/a.js" = some p ∧
      (⟨"/web"⟩ : Path).components <+: p.components ∧
      (t.urlOf? p : StateM Disk (Option String)).run bare = (some "http://x/yz/a.js", bare) := by
  intro t p
  refine ⟨⟨⟨"/web"⟩, Prod.ext ?_ ?_, rfl⟩, ⟨p, Prod.ext ?_ ?_, rfl⟩, Prod.ext ?_ ?_, ?_, ?_, ?_,
    Prod.ext ?_ ?_⟩ <;> decide +kernel

end UrlTable

end SourceMap
