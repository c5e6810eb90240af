import SourceMap.Command.Run
import SourceMap.Proofs.Urls.Boundary

/-!
# Look-ups go by the longest match

The pairs of a table are tried in turn, and the last of the longest matches is kept. Two matches of
one length are the same text, so where no path and no URL comes twice the order does not count.

## Main definitions

* `UrlTable.Longest` : the one element that fits and is longer than all others that fit.
* `UrlTable.insertAll` : the table after pairs are inserted in turn.
* `UrlTable.without` : the table without the pair for a path.

## Main statements

* `path?_eq_some_iff`, `url?_eq_some_iff` : a look-up goes by one pair of the table.
* `without_insertAll` : a pair that is put in place of another leaves nothing of it.
* `lookups_of_perm` : what is looked up in tables that differ in the order of their pairs.
-/

namespace SourceMap

namespace UrlTable

/-! ## The last of the longest -/

/-- `x` fits, and all other elements that fit are shorter. -/
structure Longest (fits : α → Prop) (size : α → Nat) (xs : List α) (x : α) : Prop where
  mem : x ∈ xs
  fit : fits x
  size_lt : ∀ y ∈ xs, fits y → y ≠ x → size y < size x

section

variable {size : α → Nat} {xs : List α} {x : α}

theorem last?_append_singleton (size : α → Nat) (xs : List α) (x : α) :
    last? size (xs ++ [x]) =
      match last? size xs with
      | none => some x
      | some b => if size b ≤ size x then some x else some b := by
  rw [last?, List.foldl_append]
  rfl

theorem eq_nil_of_last? (h : last? size xs = none) : xs = [] := by
  rcases xs.eq_nil_or_concat' with rfl | ⟨init, y, rfl⟩
  · rfl
  · rw [last?_append_singleton] at h
    split at h
    · cases h
    · split at h <;> cases h

/-- The element that is kept is at least as long as all others. -/
theorem mem_and_le_of_last? (h : last? size xs = some x) : x ∈ xs ∧ ∀ y ∈ xs, size y ≤ size x := by
  induction xs using List.reverseRecOn generalizing x with
  | nil => cases h
  | append_singleton xs y ih =>
    rw [last?_append_singleton] at h
    cases hb : last? size xs with
    | none =>
      rw [hb] at h
      cases h
      simp [eq_nil_of_last? hb]
    | some b =>
      obtain ⟨hmem, hle⟩ := ih hb
      rw [hb] at h
      dsimp only at h
      split at h
      · rename_i hby
        cases h
        refine ⟨by simp, fun z hz => ?_⟩
        rcases List.mem_append.1 hz with hz | hz
        · exact (hle z hz).trans hby
        · rw [List.mem_singleton.1 hz]
      · rename_i hby
        cases h
        refine ⟨List.mem_append_left _ hmem, fun z hz => ?_⟩
        rcases List.mem_append.1 hz with hz | hz
        · exact hle z hz
        · rw [List.mem_singleton.1 hz]
          exact Nat.le_of_not_le hby

/-- Where elements that fit differ in length, one of them is the longest or there is none. -/
theorem last?_filter_eq_some_iff {fits : α → Bool}
    (hsize : ∀ y ∈ xs, ∀ z ∈ xs, fits y → fits z → size y = size z → y = z) :
    last? size (xs.filter fits) = some x ↔ Longest (fits · = true) size xs x := by
  constructor
  · intro h
    obtain ⟨hmem, hle⟩ := mem_and_le_of_last? h
    obtain ⟨hx, hfits⟩ := List.mem_filter.1 hmem
    refine ⟨hx, hfits, fun y hy hfy hne => ?_⟩
    refine Nat.lt_of_le_of_ne (hle y (List.mem_filter.2 ⟨hy, hfy⟩)) fun heq => ?_
    exact hne (hsize y hy x hx hfy hfits heq)
  · rintro ⟨hx, hfits, hlt⟩
    have hmem : x ∈ xs.filter fits := List.mem_filter.2 ⟨hx, hfits⟩
    cases h : last? size (xs.filter fits) with
    | none =>
      rw [eq_nil_of_last? h] at hmem
      cases hmem
    | some y =>
      obtain ⟨hy, hle⟩ := mem_and_le_of_last? h
      obtain ⟨hy, hfy⟩ := List.mem_filter.1 hy
      by_cases hne : y = x
      · rw [hne]
      · exact absurd (hle x hmem) (Nat.not_le.2 (hlt y hy hfy hne))

/-- What is made of the element that is kept is what would be made of it alone. -/
theorem map_last?_filter_eq_some_iff {fits : α → Bool} {f : α → β} {y : β} :
    (last? size (xs.filter fits)).map f = some y ↔
      ∃ x, last? size (xs.filter fits) = some x ∧
        (last? size ([x].filter fits)).map f = some y := by
  cases h : last? size (xs.filter fits) with
  | none => simp
  | some x =>
    have hfits := (List.mem_filter.1 (mem_and_le_of_last? h).1).2
    simp [hfits, last?]

end

/-! ## One pair of a table -/

variable {t : UrlTable} {url : String} {p : Path}

/-- A URL is looked up by one pair of the table, as if it were the only one. -/
theorem path?_eq_some_iff : t.path? url = some p ↔
    ∃ e, last? (·.2.length) (t.entries.filter (·.2.toList.isPrefixOf url.toList)) = some e ∧
      path? ⟨[e]⟩ url = some p :=
  map_last?_filter_eq_some_iff

/-- A path is looked up by one pair of the table, as if it were the only one. -/
theorem url?_eq_some_iff : t.url? p = some url ↔
    ∃ e, last? (·.1.components.length)
        (t.entries.filter (·.1.components.isPrefixOf p.components)) = some e ∧
      url? ⟨[e]⟩ p = some url :=
  map_last?_filter_eq_some_iff

/-! ## Pairs inserted in turn -/

/-- The table after `es` are inserted in turn. -/
def insertAll (t : UrlTable) (es : List (Path × String)) : UrlTable :=
  es.foldl (fun t e => t.insert e.1 e.2) t

/-- The table without the pair for the path with these components. -/
def without (t : UrlTable) (place : List Path.Component) : UrlTable :=
  ⟨t.entries.filter (·.1.components ≠ place)⟩

theorem insertAll_append (t : UrlTable) (es fs : List (Path × String)) :
    t.insertAll (es ++ fs) = (t.insertAll es).insertAll fs :=
  List.foldl_append

theorem without_insert (t : UrlTable) (p : Path) (url : String) (place : List Path.Component) :
    (t.insert p url).without place =
      if p.components = place then t.without place else (t.without place).insert p url := by
  unfold without insert
  rw [List.filter_append, List.filter_filter]
  split
  · next h => simp [h]
  · next h =>
    rw [List.filter_filter, List.filter_cons_of_pos (by simpa using h), List.filter_nil]
    simp only [Bool.and_comm]

/-- Leaving a pair out is the same before others are inserted and afterwards. -/
theorem without_insertAll (t : UrlTable) (es : List (Path × String))
    (place : List Path.Component) :
    (t.insertAll es).without place =
      (t.without place).insertAll (es.filter (·.1.components ≠ place)) := by
  induction es generalizing t with
  | nil => rfl
  | cons e es ih =>
    change ((t.insert e.1 e.2).insertAll es).without place = _
    rw [ih, without_insert]
    split
    · next h => rw [List.filter_cons_of_neg (by simpa using h)]
    · next h => rw [List.filter_cons_of_pos (by simpa using h)]; rfl

/-- A pair for a path that is inserted again later can be left out. -/
theorem insertAll_replaced (t : UrlTable) {p q : Path} (h : p.components = q.components)
    (before between after : List (Path × String)) (url url' : String) :
    t.insertAll (before ++ (p, url) :: between ++ (q, url') :: after) =
      t.insertAll (before ++ between ++ (q, url') :: after) := by
  have hwithout : (t.insertAll (before ++ (p, url) :: between)).without q.components =
      (t.insertAll (before ++ between)).without q.components := by
    rw [without_insertAll, without_insertAll, List.filter_append, List.filter_append,
      List.filter_cons_of_neg (by simpa using h)]
  rw [insertAll_append, insertAll_append t (before ++ between)]
  exact congrArg (fun u : UrlTable => insertAll ⟨u.entries ++ [(q, url')]⟩ after) hwithout

/-- Pairs for different places are kept as they are. -/
theorem entries_insertAll {t : UrlTable} {es : List (Path × String)}
    (h : ((t.entries ++ es).map (·.1.components)).Nodup) :
    (t.insertAll es).entries = t.entries ++ es := by
  induction es generalizing t with
  | nil => exact (List.append_nil _).symm
  | cons e es ih =>
    have hkeep : (t.insert e.1 e.2).entries = t.entries ++ [e] := by
      refine congrArg (· ++ [e]) (List.filter_eq_self.2 fun f hf => ?_)
      exact decide_eq_true
        ((List.pairwise_append.1 (List.pairwise_map.1 h)).2.2 f hf e List.mem_cons_self)
    change ((t.insert e.1 e.2).insertAll es).entries = _
    rw [ih] <;> rw [hkeep, List.append_assoc, List.singleton_append]
    exact h

/-! ## Tables in which no match is as long as another -/

/-- Each look-up in `t` goes by the pair of `es` with the longest match, as if it were the only one.
-/
structure GoesByLongest (t : UrlTable) (es : List (Path × String)) : Prop where
  path?_iff : ∀ url p, t.path? url = some p ↔
    ∃ e, Longest (fun e => e.2.toList <+: url.toList) (·.2.length) es e ∧
      path? ⟨[e]⟩ url = some p
  url?_iff : ∀ p url, t.url? p = some url ↔
    ∃ e, Longest (fun e => e.1.components <+: p.components) (·.1.components.length) es e ∧
      url? ⟨[e]⟩ p = some url

theorem Longest.perm {fits : α → Prop} {size : α → Nat} {xs ys : List α} {x : α}
    (h : Longest fits size xs x) (hperm : xs.Perm ys) : Longest fits size ys x :=
  ⟨hperm.mem_iff.1 h.mem, h.fit, fun y hy => h.size_lt y (hperm.mem_iff.2 hy)⟩

theorem GoesByLongest.perm {es fs : List (Path × String)} (h : t.GoesByLongest es)
    (hperm : es.Perm fs) : t.GoesByLongest fs where
  path?_iff url p := (h.path?_iff url p).trans
    ⟨fun ⟨e, he, hp⟩ => ⟨e, he.perm hperm, hp⟩, fun ⟨e, he, hp⟩ => ⟨e, he.perm hperm.symm, hp⟩⟩
  url?_iff p url := (h.url?_iff p url).trans
    ⟨fun ⟨e, he, hp⟩ => ⟨e, he.perm hperm, hp⟩, fun ⟨e, he, hp⟩ => ⟨e, he.perm hperm.symm, hp⟩⟩

/-- Two starts of one length are the same, so where all are different one of them is the longest. -/
theorem last?_filter_prefix_eq_some_iff {start : α → List β} {size : α → Nat} {whole : List β}
    [BEq β] [LawfulBEq β] {xs : List α} {x : α} (hsize : ∀ x, size x = (start x).length)
    (hstarts : (xs.map start).Nodup) :
    last? size (xs.filter fun x => (start x).isPrefixOf whole) = some x ↔
      Longest (start · <+: whole) size xs x := by
  rw [last?_filter_eq_some_iff]
  · simp only [List.isPrefixOf_iff_prefix]
  · intro y hy z hz hstart hstart' heq
    refine List.inj_on_of_nodup_map hstarts hy hz ?_
    rw [hsize, hsize] at heq
    exact (List.prefix_of_prefix_length_le (List.isPrefixOf_iff_prefix.1 hstart)
      (List.isPrefixOf_iff_prefix.1 hstart') heq.le).eq_of_length heq

theorem goesByLongest_entries (hpaths : (t.entries.map (·.1.components)).Nodup)
    (hurls : (t.entries.map Prod.snd).Nodup) : t.GoesByLongest t.entries where
  path?_iff url p := by
    have htexts : (t.entries.map (·.2.toList)).Nodup := by
      have h := hurls.map (fun _ _ => String.toList_inj.1)
      rwa [List.map_map] at h
    rw [path?_eq_some_iff]
    exact exists_congr fun e => and_congr_left fun _ =>
      last?_filter_prefix_eq_some_iff (fun _ => String.length_toList.symm) htexts
  url?_iff p url := by
    rw [url?_eq_some_iff]
    exact exists_congr fun e => and_congr_left fun _ =>
      last?_filter_prefix_eq_some_iff (fun _ => rfl) hpaths

/-! ## On a file system -/

section

variable [FileSystem (StateM σ)] {files : σ} {canon : Path → Path}

theorem run_ofPairs
    (hcanon : ∀ p, (FileSystem.settle p : StateM σ Path).run files = (canon p, files))
    (pairs : List (Path × String)) (t : UrlTable) :
    (ofPairs pairs t : StateM σ UrlTable).run files =
      (t.insertAll (pairs.map fun e => (canon e.1, e.2)), files) := by
  induction pairs generalizing t with
  | nil => rfl
  | cons e pairs ih =>
    rw [ofPairs, StateT.run_bind, run_add (hcanon e.1)]
    exact ih _

theorem goesByLongest_insertAll {es : List (Path × String)}
    (hpaths : (es.map (·.1.components)).Nodup) (hurls : (es.map Prod.snd).Nodup) :
    (empty.insertAll es).GoesByLongest es := by
  have hentries : (empty.insertAll es).entries = es := entries_insertAll (t := empty) hpaths
  have h := goesByLongest_entries (t := empty.insertAll es)
  rw [hentries] at h
  exact h hpaths hurls

/-- Pairs for different places and with different URLs can be added in any order, and every look-up
goes by the longest match. A pair whose place is added again later leaves no trace. -/
theorem lookups_of_perm
    (hcanon : ∀ p, (FileSystem.settle p : StateM σ Path).run files = (canon p, files))
    {pairs pairs' : List (Path × String)} (hperm : pairs.Perm pairs')
    (hpaths : (pairs.map fun e => (canon e.1).components).Nodup)
    (hurls : (pairs.map Prod.snd).Nodup) :
    (∃ t t', (ofPairs pairs .empty : StateM σ UrlTable).run files = (t, files) ∧
        (ofPairs pairs' .empty : StateM σ UrlTable).run files = (t', files) ∧
        t.GoesByLongest (pairs.map fun e => (canon e.1, e.2)) ∧
        (∀ url, t'.path? url = t.path? url) ∧
        ∀ p, (t.urlOf? p : StateM σ (Option String)).run files = (t.url? (canon p), files) ∧
          (t'.urlOf? p : StateM σ (Option String)).run files = (t.url? (canon p), files)) ∧
      ∀ before p url between q url' after, (canon p).components = (canon q).components →
        (ofPairs (before ++ (p, url) :: between ++ (q, url') :: after) .empty :
            StateM σ UrlTable).run files =
          (ofPairs (before ++ between ++ (q, url') :: after) .empty :
            StateM σ UrlTable).run files := by
  refine ⟨⟨_, _, run_ofPairs hcanon pairs .empty, run_ofPairs hcanon pairs' .empty, ?_⟩, ?_⟩
  · have hmap := hperm.map fun e : Path × String => (canon e.1, e.2)
    have hpaths' : ((pairs.map fun e => (canon e.1, e.2)).map (·.1.components)).Nodup := by
      rwa [List.map_map]
    have hurls' : ((pairs.map fun e => (canon e.1, e.2)).map Prod.snd).Nodup := by
      rwa [List.map_map]
    have h := goesByLongest_insertAll hpaths' hurls'
    have h' := (goesByLongest_insertAll ((hmap.map _).nodup_iff.1 hpaths')
      ((hmap.map _).nodup_iff.1 hurls')).perm hmap.symm
    have hurl : ∀ p, url? (empty.insertAll (pairs'.map fun e => (canon e.1, e.2))) p =
        url? (empty.insertAll (pairs.map fun e => (canon e.1, e.2))) p :=
      fun p => Option.ext fun url => (h'.url?_iff p url).trans (h.url?_iff p url).symm
    refine ⟨h, fun url => Option.ext fun p => ?_, fun p => ⟨run_urlOf?_of_settle (hcanon p) _, ?_⟩⟩
    · exact (h'.path?_iff url p).trans (h.path?_iff url p).symm
    · rw [run_urlOf?_of_settle (hcanon p), hurl]
  · intro before p url between q url' after hsame
    rw [run_ofPairs hcanon, run_ofPairs hcanon]
    simp only [List.map_append, List.map_cons]
    rw [insertAll_replaced _ hsame]

end

/-- A disk with one directory, which is the working directory. -/
def Sample.workshop : Disk := ⟨["w"], [(["w"], .directory)]⟩

open Sample

/-- One of the paths is settled, and each of the pairs lies within the other's directory or URL. -/
theorem lookups_of_perm_nested :
    let pairs : List (Path × String) := [(⟨"."⟩, "http://x/"), (⟨"/w/lib"⟩, "http://x/lib/")]
    let t : UrlTable := ⟨[(⟨"/w"⟩, "http://x/"), (⟨"/w/lib"⟩, "http://x/lib/")]⟩
    let t' : UrlTable := ⟨[(⟨"/w/lib"⟩, "http://x/lib/"), (⟨"/w"⟩, "http://x/")]⟩
    (ofPairs pairs .empty : StateM Disk UrlTable).run workshop = (t, workshop) ∧
      (ofPairs pairs.reverse .empty : StateM Disk UrlTable).run workshop = (t', workshop) ∧
      t.path? "http://x/lib/a.js" = some ⟨"/w/lib/a.js"⟩ ∧
      t'.path? "http://x/lib/a.js" = some ⟨"/w/lib/a.js"⟩ ∧
      (t'.urlOf? ⟨"/w/lib/a.js"⟩ : StateM Disk (Option String)).run workshop =
        (some "http://x/lib/a.js", workshop) ∧
      (ofPairs ((⟨"/w"⟩, "http://y/") :: pairs.reverse) .empty :
        StateM Disk UrlTable).run workshop = (t', workshop) := by
  intro pairs t t'
  have hcanon : ∀ p, (FileSystem.settle p : StateM Disk Path).run workshop =
      (((FileSystem.settle p : StateM Disk Path).run workshop).1, workshop) := by
    intro p
    have hresolve : (FileSystem.resolve p : StateM Disk _).run workshop =
        (workshop.resolve p, workshop) := rfl
    rw [FileSystem.settle, StateT.run_bind, hresolve]
    cases workshop.resolve p <;> rfl
  have hrun : (ofPairs pairs .empty : StateM Disk UrlTable).run workshop = (t, workshop) := by
    refine Prod.ext ?_ ?_ <;> decide +kernel
  have hrun' : (ofPairs pairs.reverse .empty : StateM Disk UrlTable).run workshop =
      (t', workshop) := by
    refine Prod.ext ?_ ?_ <;> decide +kernel
  have hpath : t.path? "http://x/lib/a.js" = some ⟨"/w/lib/a.js"⟩ := by decide +kernel
  obtain ⟨⟨u, u', hu, hu', -, hpaths, hurls⟩, hreplaced⟩ :=
    lookups_of_perm hcanon pairs.reverse_perm.symm (by decide +kernel) (by decide +kernel)
  obtain rfl : t = u := (Prod.ext_iff.1 (hrun.symm.trans hu)).1
  obtain rfl : t' = u' := (Prod.ext_iff.1 (hrun'.symm.trans hu')).1
  refine ⟨hrun, hrun', hpath, (hpaths _).trans hpath, (hurls _).2.trans ?_, ?_⟩
  · refine Prod.ext ?_ rfl
    decide +kernel
  · have h := hreplaced [] ⟨"/w"⟩ "http://y/" [(⟨"/w/lib"⟩, "http://x/lib/")] ⟨"."⟩ "http://x/" []
      (by decide +kernel)
    exact h.trans hrun'

end UrlTable

end SourceMap
