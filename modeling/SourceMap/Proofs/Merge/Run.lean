import SourceMap.Proofs.Merge.Reload
import SourceMap.Proofs.Merge.Save
import SourceMap.Proofs.Reach.Concat
import SourceMap.Proofs.Reach.Refusal

/-!
# The pair of files that merging writes

Merging loads all inputs before it writes anything. What it writes is the inputs one after another,
each of them as high as the longer of its body and its map, in both of the files.

## Main definitions

* `MergeJob.mapPath` : where the map goes.

## Main statements

* `Bundle.appendAll_of_loaded` : what comes of loaded bundles that could be appended.
* `Command.mergeFiles_eq_ok` : the steps of a merge that succeeds.
* `Invocation.run_merge` : the files after it.
-/

namespace SourceMap

/-! ## Appending what has been loaded -/

namespace Bundle

theorem accepts_of_appendAll {b m : Bundle} {ds : List Bundle} (h : b.appendAll ds = .ok m) :
    ∀ d ∈ ds, d.Readable ∧ d.ContentsKnown := by
  induction ds generalizing b with
  | nil => simp
  | cons d ds ih =>
    rw [appendAll] at h
    rcases hb : b.append d with ⟨_ | _, c⟩ <;> rw [hb] at h
    · cases h
    · have hd := append_accepts_iff.1 (congrArg Prod.fst hb)
      exact List.forall_mem_cons.2 ⟨⟨hd.1, hd.2.1⟩, ih h⟩

/-- The start of a merge. -/
theorem lined_start (urls : UrlTable) (embedsContents : Bool) :
    ({ empty urls with embedsContents } : Bundle).Lined :=
  ⟨Mappings.consistent_empty, rfl, rfl, rfl⟩

/-- Without a body there was nothing to append, for all that is loaded has one. -/
theorem appendAll_of_loaded {urls : UrlTable} {embedsContents : Bool} {m : Bundle}
    {ds : List Bundle} (hds : ∀ d ∈ ds, d.Loaded)
    (h : ({ empty urls with embedsContents } : Bundle).appendAll ds = .ok m) :
    m.mappings.Consistent ∧ m.body.getD "" = String.join (ds.map fullBody) ∧
      ∃ lines, List.Forall₂ (fun d ls => d.namedLines = .ok ls) ds lines ∧
        (m.Addressable → m.namedLines =
          .ok (List.zipWith (fun d ls => ls.rightpad d.height []) ds lines).flatten) := by
  have haccepts := accepts_of_appendAll h
  obtain ⟨lines, hlines⟩ := exists_forall₂ fun d hd => (haccepts d hd).1
  obtain ⟨m', hm', -, hlined, -, hsome, hfull, hnamed⟩ := appendAll_of_lined hlines
    (fun d hd => (hds d hd).consistent) (fun d hd => (haccepts d hd).2)
    (lined_start urls embedsContents)
  obtain rfl : m = m' := by simpa [h] using hm'
  refine ⟨hlined.consistent, ?_, lines, hlines, fun ha => hnamed ha [] rfl⟩
  have hjoin : m.fullBody = String.join (ds.map fullBody) := by
    rw [hfull]
    exact String.empty_append
  cases hbody : m.body with
  | some body =>
    have hall := hlined.body
    rw [if_pos (by rw [hbody]; rfl), hjoin] at hall
    rw [← hbody, hall, Option.getD_some]
  | none =>
    have hds' : ds = [] := by
      refine List.eq_nil_iff_forall_not_mem.2 fun d hd => ?_
      have hany : ds.any (·.body.isSome) := List.any_eq_true.2 ⟨d, hd, (hds d hd).body⟩
      rw [hbody, hany, Bool.or_true] at hsome
      cases hsome
    subst hds'
    rfl

theorem rightUnique_namedLines :
    Relator.RightUnique fun (b : Bundle) ls => b.namedLines = .ok ls :=
  fun _ _ _ h h' => Except.ok.inj (h.symm.trans h')

end Bundle

/-! ## The steps of a merge -/

variable {σ : Type} [FileSystem (StateM σ)]

namespace MergeJob

/-- Where the map of a merge goes. -/
def mapPath (job : MergeJob) : Path := job.mapOut.getD (Command.mapBeside job.out)

/-- The inputs, loaded from the files `s` and appended one after another, make up `m`. -/
def Merges (job : MergeJob) (urls : UrlTable) (s : σ) (m : Bundle) : Prop :=
  ∃ ds, List.Forall₂ (Command.Loads urls s) job.inputs ds ∧
    ({ Bundle.empty urls with embedsContents := job.embedContents } : Bundle).appendAll ds = .ok m

/-- The URL of the merged map, with the files as they are. -/
def mapUrlAt (job : MergeJob) (urls : UrlTable) (s : σ) : Option String :=
  ((Command.mapUrlOf urls job.url job.mapPath : StateM σ _).run s).1

/-- The merged bundle under the URLs that the paths of the outputs have in `s`. -/
def named (job : MergeJob) (urls : UrlTable) (s : σ) (m : Bundle) : Bundle :=
  { m with mapUrl := job.mapUrlAt urls s, file := m.urls.urlAt job.out s }

/-- What is printed for a merge. -/
def summary (job : MergeJob) (m : Bundle) : String :=
  Command.paintBold .green "merged" ++ s!" {job.inputs.length} inputs into " ++
    Command.paint .cyan job.out.text ++
    s!" ({m.mappings.lineCount} lines, {m.sources.size} sources)\n"

end MergeJob

namespace Command

theorem rightUnique_loads (urls : UrlTable) (s : σ) : Relator.RightUnique (Loads urls s) := by
  intro p d d' h h'
  cases h.symm.trans h'
  rfl

variable [FileStore σ]

/-- A map that can be written has a URL, if only its name. -/
theorem run_mapUrlOf (urls : UrlTable) (url : Option String) {map : Path} {s : σ}
    (h : map.fileName?.isSome) :
    ∃ u, (mapUrlOf urls url map : StateM σ _).run s = (some u, s) := by
  cases url with
  | some u => exact ⟨u, rfl⟩
  | none =>
    obtain ⟨name, hname⟩ := Option.isSome_iff_exists.1 h
    obtain ⟨found, hurl⟩ := (urls.keepsFiles_urlOf? map).exists_run_eq s
    unfold mapUrlOf
    rw [StateT.run_bind, hurl]
    cases found with
    | some u => exact ⟨u, rfl⟩
    | none => exact ⟨Text.ofBytes name, by rw [hname]; rfl⟩

theorem keepsFiles_mapUrlOf (urls : UrlTable) (url : Option String) (map : Path) :
    KeepsFiles (mapUrlOf urls url map : StateM σ _) := by
  cases url with
  | some u => exact .pure _
  | none => exact (urls.keepsFiles_urlOf? map).bind fun _ => .pure _

theorem run_mapUrlOf_eq (urls : UrlTable) (job : MergeJob) (s : σ) :
    (mapUrlOf urls job.url job.mapPath : StateM σ _).run s = (job.mapUrlAt urls s, s) :=
  Prod.ext rfl (keepsFiles_mapUrlOf urls job.url job.mapPath s)

/-- All is loaded from the files as they were. Then the merged file is written, and then its map,
with the contents that are found by then. -/
theorem mergeFiles_eq_ok_iff {urls : UrlTable} {job : MergeJob} {out : String} {s s' : σ} :
    (mergeFiles urls job : ExceptT Failure (StateM σ) String).run.run s = (.ok out, s') ↔
      ∃ m t, job.Merges urls s m ∧
        (Access.requireWritable job.out : ExceptT AccessError (StateM σ) Unit).run.run s =
          (.ok (), s) ∧
        (FileSystem.writeText job.out ((job.named urls s m).text true) : StateM σ _).run s =
          (.ok (), t) ∧
        (Access.requireWritable job.mapPath : ExceptT AccessError (StateM σ) Unit).run.run t =
          (.ok (), t) ∧
        (FileSystem.writeText job.mapPath ((job.named urls s m).filledAt t).mapText :
          StateM σ _).run t = (.ok (), s') ∧
        out = job.summary m := by
  have hsummary (m : Bundle) (s t : σ) :
      job.summary ((job.named urls s m).filledAt t) = job.summary m := by
    obtain ⟨contents, hfilled⟩ := (job.named urls s m).exists_filledAt t
    rw [hfilled]
    rfl
  unfold mergeFiles
  rw [run_bind_eq_ok]
  constructor
  · rintro ⟨m, t, happend, hrest⟩
    obtain ⟨rfl, hm⟩ := appendFiles_eq_ok_iff.1 happend
    dsimp only at hrest
    rw [run_lift_bind, ← MergeJob.mapPath, run_mapUrlOf_eq] at hrest
    obtain ⟨saved, t', hedited, hout⟩ := run_bind_eq_ok.1 hrest
    obtain ⟨_, c, t'', hsave, hsave'⟩ := Edit.outcome_bind_eq_ok.1 (run_edited_eq_ok.1 hedited)
    obtain ⟨hwritable, htext, rfl⟩ := Bundle.saveText_eq_ok_iff.1 hsave
    obtain ⟨hwritable', hmap, rfl⟩ := Bundle.saveMap_eq_ok_iff.1 hsave'
    cases hout
    exact ⟨m, t'', hm, hwritable, htext, hwritable', hmap, hsummary m t t''⟩
  · rintro ⟨m, t, hm, hwritable, htext, hwritable', hmap, rfl⟩
    refine ⟨m, s, appendFiles_eq_ok_iff.2 ⟨rfl, hm⟩, ?_⟩
    dsimp only
    rw [run_lift_bind, ← MergeJob.mapPath, run_mapUrlOf_eq]
    refine run_bind_eq_ok.2 ⟨(job.named urls s m).filledAt t, s', run_edited_eq_ok.2 ?_, ?_⟩
    · refine Edit.outcome_bind_eq_ok.2 ⟨(), job.named urls s m, t, ?_, ?_⟩
      · exact Bundle.saveText_eq_ok_iff.2 ⟨hwritable, htext, rfl⟩
      · exact Bundle.saveMap_eq_ok_iff.2 ⟨hwritable', hmap, rfl⟩
    · exact congrArg (fun out => (Except.ok out, s')) (hsummary m s t)

/-- What has been loaded and written by a merge that succeeds. -/
theorem mergeFiles_eq_ok {urls : UrlTable} {job : MergeJob} {out : String} {s s' : σ}
    (h : (mergeFiles urls job : ExceptT Failure (StateM σ) String).run.run s = (.ok out, s')) :
    ∃ ds m url file contents t, List.Forall₂ (Loads urls s) job.inputs ds ∧ (∀ d ∈ ds, d.Loaded) ∧
      ({ Bundle.empty urls with embedsContents := job.embedContents } : Bundle).appendAll ds =
        .ok m ∧
      (mapUrlOf urls job.url job.mapPath : StateM σ _).run s = (url, s) ∧
      (FileSystem.writeText job.out (({ m with mapUrl := url } : Bundle).text true) :
        StateM σ _).run s = (.ok (), t) ∧
      (FileSystem.writeText job.mapPath
        ({ m with mapUrl := url, file, contents } : Bundle).mapText : StateM σ _).run t =
          (.ok (), s') := by
  obtain ⟨m, t, ⟨ds, hds, hall⟩, -, htext, -, hmap, -⟩ := mergeFiles_eq_ok_iff.1 h
  obtain ⟨contents, hfilled⟩ := (job.named urls s m).exists_filledAt t
  rw [hfilled] at hmap
  exact ⟨ds, m, _, _, contents, t, hds, loaded_of_loads hds, hall, run_mapUrlOf_eq urls job s,
    htext, hmap⟩

end Command

/-! ## The files -/

namespace Invocation

open Text (bytes)

variable {σ : Type} [FileSystem (StateM σ)] [FileStore σ]

omit [FileStore σ] in
/-- The URLs are read first. -/
theorem run_merge_eq {urlMaps : List (Path × String)} {urls : UrlTable} {s : σ}
    (h : (UrlTable.ofPairs urlMaps .empty : StateM σ _).run s = (urls, s)) (job : MergeJob) :
    (run ⟨urlMaps, .merge job⟩ : StateM σ Report).run s =
      let x := (Command.mergeFiles urls job : ExceptT Command.Failure (StateM σ) String).run.run s
      (Command.report x.1, x.2) := by
  unfold run
  rw [StateT.run_bind, h]
  rfl

/-- A merge that succeeds. -/
theorem run_eq_ok {urlMaps : List (Path × String)} {job : MergeJob} {r : Report} {s s' : σ}
    (h : (run ⟨urlMaps, .merge job⟩ : StateM σ Report).run s = (r, s')) (hr : r.status = 0) :
    ∃ urls out, (UrlTable.ofPairs urlMaps .empty : StateM σ _).run s = (urls, s) ∧
      (Command.mergeFiles urls job : ExceptT Command.Failure (StateM σ) String).run.run s =
        (.ok out, s') := by
  obtain ⟨urls, hurls⟩ := (UrlTable.keepsFiles_ofPairs urlMaps .empty).exists_run_eq s
  rw [run_merge_eq hurls] at h
  rcases hm : (Command.mergeFiles urls job : ExceptT Command.Failure (StateM σ) String).run.run s
    with ⟨_ | out, t⟩ <;> rw [hm] at h <;> cases h
  · cases hr
  · exact ⟨urls, out, hurls, hm⟩

/-- After a merge that succeeds, the file holds the bodies one after another and then the comment,
and the map, when it is read back, the lines. That is, unless the map was written over the file. -/
theorem run_merge {urlMaps : List (Path × String)} {job : MergeJob} {r : Report} {s s' : σ}
    (hrun : (run ⟨urlMaps, .merge job⟩ : StateM σ Report).run s = (r, s')) (hok : r.status = 0)
    (hfiles : FileStore.file? s job.out ≠ FileStore.file? s job.mapPath) :
    ∃ urls ds lines url map c,
      (UrlTable.ofPairs urlMaps .empty : StateM σ _).run s = (urls, s) ∧
      List.Forall₂ (Command.Loads urls s) job.inputs ds ∧
      List.Forall₂ (fun d ls => d.namedLines = .ok ls) ds lines ∧
      (Command.mapUrlOf urls job.url job.mapPath : StateM σ _).run s = (some url, s) ∧
      (FileSystem.readText job.out : StateM σ _).run s' =
        (.ok (String.join (ds.map Bundle.fullBody) ++ Body.commentLine url), s') ∧
      (FileSystem.readText job.mapPath : StateM σ _).run s' = (.ok map, s') ∧
      (Bundle.empty .empty).readMap map = .ok c ∧
      (c.Addressable → c.namedLines = .ok (Text.dropEndWhile List.isEmpty
        (List.zipWith (fun d ls => ls.rightpad d.height []) ds lines).flatten)) ∧
      ∀ f, some f ≠ FileStore.file? s job.out → some f ≠ FileStore.file? s job.mapPath →
        FileStore.content? s' f = FileStore.content? s f := by
  obtain ⟨urls, out, hurls, hmerge⟩ := run_eq_ok hrun hok
  obtain ⟨ds, m, url, file, contents, t, hds, hloaded, hall, hurl, htext, hmap⟩ :=
    Command.mergeFiles_eq_ok hmerge
  obtain ⟨hconsistent, hbody, lines, hlines, hnamed⟩ := Bundle.appendAll_of_loaded hloaded hall
  obtain ⟨f, hf, hft, hcontent, hothers⟩ := FileStore.writeText_eq_ok htext
  obtain ⟨g, hg, hgs, hcontent', hothers'⟩ := FileStore.writeText_eq_ok hmap
  rw [hft] at hg hgs
  rw [hf, hg] at hfiles
  have hfg : f ≠ g := fun h => hfiles (congrArg some h)
  have hname : job.mapPath.fileName?.isSome :=
    FileStore.isSome_fileName? (Option.isSome_iff_exists.2 ⟨g, hg⟩)
  obtain ⟨u, hu⟩ := Command.run_mapUrlOf urls job.url (s := s) hname
  obtain rfl : url = some u := congrArg Prod.fst (hurl.symm.trans hu)
  let saved : Bundle := { m with mapUrl := some u, file, contents }
  refine ⟨urls, ds, lines, u, saved.mapText, saved.reloaded, hurls, hds, hlines, hu, ?_, ?_,
    Bundle.readMap_mapText_eq saved, fun ha => ?_, fun k hk hk' => ?_⟩
  · rw [← hbody]
    refine FileStore.readText_of_content? (by rw [hgs, hf]) ?_
    rw [hothers' f hfg, hcontent]
    rfl
  · exact FileStore.readText_of_content? (by rw [hgs, hg]) hcontent'
  · have hsaved : saved.Addressable := ha.of_extends saved.extends_reloaded
    have hm : m.Addressable := hsaved
    exact Bundle.namedLines_reloaded hconsistent (b := saved)
      (Bundle.namedLines_of_extends ⟨List.prefix_rfl, List.prefix_rfl⟩ rfl (hnamed hm))
  · rw [hf] at hk
    rw [hg] at hk'
    rw [hothers' k fun h => hk' (congrArg some h), hothers k fun h => hk (congrArg some h)]

/-! ### Two inputs -/

namespace Sample

/-- One line of a map, with one segment. -/
def mapOver (source : String) : Envelope where
  file := none
  sourceRoot := none
  sources := [some source]
  names := ["f"]
  mappings := some "IACEA"
  sourcesContent := none

/-- Two generated files of two lines, beside their maps. -/
def twoInputs : Disk :=
  ⟨[], [(["a.js"], .file (bytes "one\ntwo\n//# sourceMappingURL=a.js.map\n")),
    (["a.js.map"], .file (bytes (mapOver "src/a.ts").write)),
    (["b.js"], .file (bytes "three\nfour")),
    (["b.js.map"], .file (bytes (mapOver "src/b.ts").write))]⟩

def mergeTwo : MergeJob := ⟨[⟨"a.js"⟩, ⟨"b.js"⟩], ⟨"out.js"⟩, none, none, false⟩

def mergedMap : Envelope where
  file := none
  sourceRoot := some "src/"
  sources := [some "a.ts", some "b.ts"]
  names := ["f"]
  mappings := some "IACEA;;ICAAA;"
  sourcesContent := none

def merged : Disk :=
  (twoInputs.put ["out.js"]
    (.file (bytes "one\ntwo\nthree\nfour\n//# sourceMappingURL=out.js.map\n"))).put
      ["out.js.map"] (.file (bytes mergedMap.write))

/-- What is loaded for one of the two. -/
def loaded (source text : String) (mapUrl : Option String) : Bundle :=
  { ((Bundle.empty .empty).load (mapOver source)).setBody text with mapUrl }

def loadedTwo : List Bundle :=
  [loaded "src/a.ts" "one\ntwo" (some "a.js.map"), loaded "src/b.ts" "three\nfour" none]

end Sample

open Sample

theorem run_mergeTwo : (run ⟨[], .merge mergeTwo⟩ : StateM Disk Report).run twoInputs =
    (⟨Command.paintBold .green "merged" ++ " 2 inputs into " ++ Command.paint .cyan "out.js" ++
      " (4 lines, 2 sources)\n", "", 0⟩, merged) := by
  change @Eq (Report × Disk) _ _
  decide +kernel

theorem loads_loadedTwo :
    List.Forall₂ (Command.Loads .empty twoInputs) mergeTwo.inputs loadedTwo := by
  refine .cons ?_ (.cons ?_ .nil)
  · change @Eq (Except Command.Failure Bundle × Disk) _ _
    decide +kernel
  · change @Eq (Except Command.Failure Bundle × Disk) _ _
    decide +kernel

theorem namedLines_loadedTwo : List.Forall₂ (fun (d : Bundle) ls => d.namedLines = .ok ls) loadedTwo
    [[[⟨4, some ⟨"src/a.ts", 1, 2, some "f"⟩⟩]], [[⟨4, some ⟨"src/b.ts", 1, 2, some "f"⟩⟩]]] := by
  refine .cons ?_ (.cons ?_ .nil) <;> decide +kernel

/-- The second map starts behind the two lines of the first file, and the last line of the second
file has nothing in the map. -/
theorem run_merge_twoInputs : ∃ map c,
    merged.readText ⟨"out.js"⟩ =
      .ok "one\ntwo\nthree\nfour\n//# sourceMappingURL=out.js.map\n" ∧
    merged.readText ⟨"out.js.map"⟩ = .ok map ∧ (Bundle.empty .empty).readMap map = .ok c ∧
    c.namedLines = .ok [[⟨4, some ⟨"src/a.ts", 1, 2, some "f"⟩⟩], [],
      [⟨4, some ⟨"src/b.ts", 1, 2, some "f"⟩⟩]] := by
  have hfiles : (twoInputs.target mergeTwo.out).toOption ≠
      (twoInputs.target mergeTwo.mapPath).toOption := by decide +kernel
  obtain ⟨urls, ds, lines, url, map, c, hurls, hds, hlines, hurl, htext, hmap, hc, hnamed, -⟩ :=
    run_merge run_mergeTwo rfl hfiles
  obtain rfl : urls = .empty := by
    cases hurls
    rfl
  have hds' := (Command.rightUnique_loads .empty twoInputs).forall₂ hds loads_loadedTwo
  subst hds'
  have hlines' := Bundle.rightUnique_namedLines.forall₂ hlines namedLines_loadedTwo
  subst hlines'
  have hname : (Command.mapUrlOf .empty mergeTwo.url mergeTwo.mapPath :
      StateM Disk _).run twoInputs = (some "out.js.map", twoInputs) := by
    change @Eq (Option String × Disk) _ _
    decide +kernel
  cases hurl.symm.trans hname
  have hread : merged.readText mergeTwo.mapPath = .ok mergedMap.write := by decide +kernel
  rw [Disk.run_readText, hread] at hmap
  cases hmap
  have hload := Bundle.readMap_of_ok (b := .empty .empty) (Envelope.read_write mergedMap)
  cases hload.symm.trans hc
  refine ⟨_, _, (congrArg Prod.fst htext).trans ?_, hread, hload, (hnamed ?_).trans ?_⟩
  · decide +kernel
  · decide +kernel
  · decide +kernel

end Invocation

end SourceMap
