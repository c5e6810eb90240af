import SourceMap.Proofs.Merge.Lasting
import SourceMap.Proofs.Merge.Run

/-!
# Merging again

A merge that is run again finds the files that it wrote itself. It reads none of them, unless one
of the paths at which it looks leads there, so it makes up the same bundle. The outputs can only
differ in the URLs under which they go themselves, for a path is looked up in another way once
there is something at it.

## Main definitions

* `LeadsTo` : the file at a path, or at the path to which it is resolved.
* `MergeJob.Asks` : the paths at which a merge looks for what it reads.
* `MergeJob.SameUrls` : the outputs go under the same URLs as before.
* `Edit.Lasts` : a change of a bundle that comes to the same with other files.
* `Written` : what a merge has left in the files when it succeeds.

## Main statements

* `MergeJob.Merges.again` : the inputs make up the same bundle again.
* `Invocation.run_merge_again` : when the second run leaves everything as the first one wrote it.
-/

namespace SourceMap

open FileSystem
open Text (bytes bytes_inj)

variable {σ : Type} [FileSystem (StateM σ)]

/-! ## Looking at files -/

section

variable [FileStore σ]

theorem run_resolve (s : σ) (p : Path) :
    (FileSystem.resolve p : StateM σ _).run s = (resolved s p, s) :=
  Prod.ext rfl (FileStore.resolve_keeps p s)

theorem run_kind? (s : σ) (p : Path) : (kind? p : StateM σ _).run s = (kindAt s p, s) :=
  Prod.ext rfl (FileStore.kind?_keeps p s)

theorem run_isFile (s : σ) (p : Path) :
    (isFile p : StateM σ Bool).run s = (decide (kindAt s p = some .file), s) := by
  unfold isFile
  rw [StateT.run_bind, run_kind?]
  rfl

namespace Access

theorem readablePath_eq_ok_iff {p q : Path} {s t : σ} :
    (readablePath p : ExceptT AccessError (StateM σ) Path).run.run s = (.ok q, t) ↔
      t = s ∧ resolved s p = .ok q ∧ kindAt s q = some .file := by
  unfold readablePath
  rw [run_lift_bind, run_resolve]
  cases resolved s p with
  | error e => exact iff_of_false nofun nofun
  | ok r =>
    dsimp only
    rw [run_lift_bind, run_isFile]
    by_cases hr : kindAt s r = some .file
    · simp only [hr, decide_true]
      constructor
      · rintro ⟨⟩
        exact ⟨rfl, rfl, hr⟩
      · rintro ⟨rfl, ⟨⟩, -⟩
        rfl
    · simp only [hr, decide_false]
      refine iff_of_false nofun ?_
      rintro ⟨-, ⟨⟩, hq⟩
      exact hr hq

theorem read_eq_ok_iff {p : Path} {text : String} {s t : σ} :
    (read p : ExceptT AccessError (StateM σ) String).run.run s = (.ok text, t) ↔
      t = s ∧ textAt? s p = some text := by
  have hread : (readText p : StateM σ _).run s = (((readText p : StateM σ _).run s).1, s) :=
    Prod.ext rfl (FileStore.readText_keeps p s)
  unfold read textAt?
  rw [run_lift_bind, hread]
  rcases ((readText p : StateM σ _).run s).1 with _ | text'
  · exact iff_of_false nofun nofun
  · constructor
    · rintro ⟨⟩
      exact ⟨rfl, rfl⟩
    · rintro ⟨rfl, ⟨⟩⟩
      rfl

/-- A file can be written again. -/
theorem requireWritable_of_file {p : Path} {s : σ} (h : kindAt s p = some .file) :
    (requireWritable p : ExceptT AccessError (StateM σ) Unit).run.run s = (.ok (), s) := by
  unfold requireWritable
  rw [run_lift_bind, run_kind?, h]
  rfl

end Access

end

/-! ## Changes that come to the same -/

namespace Edit

/-- Where the change succeeds with the files `s`, it does the same with the files `s'`, and leaves
both as they are. -/
def Lasts (x : Edit (StateM σ) α) (b : Bundle) (s s' : σ) : Prop :=
  ∀ a c t, x.outcome b s = ((.ok a, c), t) → t = s ∧ x.outcome b s' = ((.ok a, c), s')

variable {b : Bundle} {s s' : σ}

omit [FileSystem (StateM σ)] in
theorem lasts_of_eq {x : Edit (StateM σ) α} {r : Except BundleError α × Bundle}
    (h : x.outcome b s = (r, s)) (h' : x.outcome b s' = (r, s')) : Lasts x b s s' := by
  intro a c t hx
  rw [h] at hx
  cases hx
  exact ⟨rfl, h'⟩

omit [FileSystem (StateM σ)] in
theorem lasts_get_bind {f : Bundle → Edit (StateM σ) α} (h : Lasts (f b) b s s') :
    Lasts (get >>= f) b s s' :=
  h

omit [FileSystem (StateM σ)] in
theorem Lasts.bind {x : Edit (StateM σ) α} {f : α → Edit (StateM σ) β} (hx : Lasts x b s s')
    (hf : ∀ a c, x.outcome b s = ((.ok a, c), s) → Lasts (f a) c s s') :
    Lasts (x >>= f) b s s' := by
  intro r d u h
  obtain ⟨a, c, t, hxs, hfs⟩ := outcome_bind_eq_ok.1 h
  obtain ⟨rfl, hxs'⟩ := hx a c t hxs
  obtain ⟨rfl, hfs'⟩ := hf a c hxs r d u hfs
  exact ⟨rfl, outcome_bind_eq_ok.2 ⟨a, c, s', hxs', hfs'⟩⟩

omit [FileSystem (StateM σ)] in
theorem lasts_access {x : ExceptT AccessError (StateM σ) α}
    (h : ∀ a t, x.run.run s = (.ok a, t) → t = s ∧ x.run.run s' = (.ok a, s')) :
    Lasts (Bundle.access x) b s s' := by
  intro a c t hx
  obtain ⟨hrun, rfl⟩ := outcome_access_eq_ok_iff.1 hx
  obtain ⟨rfl, hrun'⟩ := h a t hrun
  exact ⟨rfl, outcome_access_eq_ok_iff.2 ⟨hrun', rfl⟩⟩

end Edit

/-! ## Loading again -/

variable [LastingStore σ]

/-- The file at a path, or at the path to which it is resolved. -/
def LeadsTo (s : σ) (p : Path) (f : FileStore.File σ) : Prop :=
  LastingStore.found? s p = some f ∨
    ∃ q, resolved s p = .ok q ∧ LastingStore.found? s q = some f

/-- The path leads to none of the files `out`. -/
def Avoids (out : FileStore.File σ → Prop) (s : σ) (p : Path) : Prop :=
  ∀ f, LeadsTo s p f → ¬ out f

section

variable {out : FileStore.File σ → Prop} {s s' : σ}
  (hs : Spares LastingStore.found? out s s') {p : Path}

include hs

theorem Spares.kindAt_eq (hp : Avoids out s' p) : kindAt s' p = kindAt s p := by
  rcases hs.kind p with h | ⟨-, f, hf, hfound⟩
  · exact h
  · exact absurd hf (hp f (.inl hfound))

/-- The path that `p` is resolved to holds the text that it held. -/
theorem Spares.textAt?_resolved (hp : Avoids out s' p) {q : Path} (hq : resolved s p = .ok q) :
    textAt? s' q = textAt? s q := by
  rcases hs.text q with h | ⟨f, hf, hfound⟩
  · exact h
  · exact absurd hf (hp f (.inr ⟨q, hs.resolved_ok hq, hfound⟩))

omit hs in
theorem UrlTable.urlAt_congr (t : UrlTable) (h : resolved s' p = resolved s p) :
    t.urlAt p s' = t.urlAt p s := by
  unfold urlAt urlOf? settle
  simp only [StateT.run_bind, run_resolve, h]
  cases resolved s p <;> rfl

namespace Bundle

theorem lasts_readablePath (b : Bundle) :
    Edit.Lasts (access (Access.readablePath p)) b s s' := by
  refine Edit.lasts_access fun q t h => ?_
  obtain ⟨rfl, hq, hkind⟩ := Access.readablePath_eq_ok_iff.1 h
  exact ⟨rfl, Access.readablePath_eq_ok_iff.2 ⟨rfl, hs.resolved_ok hq, hs.kindAt_of_some hkind⟩⟩

omit hs in
theorem lasts_read (h : textAt? s' p = textAt? s p) (b : Bundle) :
    Edit.Lasts (access (Access.read p)) b s s' := by
  refine Edit.lasts_access fun text t hread => ?_
  obtain ⟨rfl, htext⟩ := Access.read_eq_ok_iff.1 hread
  exact ⟨rfl, Access.read_eq_ok_iff.2 ⟨rfl, h.trans htext⟩⟩

omit hs [FileSystem (StateM σ)] [LastingStore σ] in
theorem lasts_setMap (text : String) (b : Bundle) :
    Edit.Lasts (setMap text : Edit (StateM σ) Unit) b s s' := by
  unfold setMap
  refine Edit.Lasts.bind (Edit.lasts_of_eq rfl rfl) fun c d _ => ?_
  cases c.readMap text <;> exact Edit.lasts_of_eq rfl rfl

theorem lasts_loadMap (hp : Avoids out s' p) (b : Bundle) :
    Edit.Lasts (loadMap p : Edit (StateM σ) Unit) b s s' := by
  refine (lasts_readablePath hs b).bind fun q c hq => ?_
  obtain ⟨-, hq, -⟩ := Access.readablePath_eq_ok_iff.1 (Edit.outcome_access_eq_ok_iff.1 hq).1
  refine (lasts_read (hs.textAt?_resolved hp hq) c).bind fun text d _ => ?_
  exact lasts_setMap text d

/-- What the text refers to may not be one of the files that have been written. -/
theorem lasts_setText {b : Bundle} {text : String}
    (href : ∀ url r, Body.mapUrl? (Body.endLine text) = some url → b.urls.path? url = some r →
      Avoids out s' r) (autoload : Bool) :
    Edit.Lasts (setText text autoload : Edit (StateM σ) Unit) b s s' := by
  unfold setText
  change Edit.Lasts (if autoload && !b.hasMap then _ else _) b s s'
  split_ifs
  · cases hurl : Body.mapUrl? (Body.endLine text) with
    | none => exact Edit.lasts_of_eq rfl rfl
    | some url =>
      refine Edit.lasts_get_bind ?_
      cases hr : b.urls.path? url with
      | none => exact Edit.lasts_of_eq rfl rfl
      | some r =>
        refine (lasts_loadMap hs (href url r hurl hr) b).bind fun _ c _ => ?_
        exact Edit.lasts_of_eq rfl rfl
  · exact Edit.lasts_of_eq rfl rfl

theorem lasts_nameAfter (h : (kindAt s p).isSome) (b : Bundle) :
    Edit.Lasts (nameAfter p : Edit (StateM σ) Unit) b s s' := by
  refine Edit.lasts_of_eq (outcome_nameAfter p b s) ?_
  rw [outcome_nameAfter, b.urls.urlAt_congr (hs.resolved_there h)]

/-- Neither the text nor what it refers to may be one of the files that have been written. -/
theorem lasts_loadText {b : Bundle} (hp : Avoids out s' p)
    (href : ∀ q text url r, resolved s p = .ok q → textAt? s q = some text →
      Body.mapUrl? (Body.endLine text) = some url → b.urls.path? url = some r →
        Avoids out s' r) :
    Edit.Lasts (loadText p : Edit (StateM σ) Unit) b s s' := by
  refine (lasts_readablePath hs b).bind fun q c hpath => ?_
  obtain ⟨hrun, rfl⟩ := Edit.outcome_access_eq_ok_iff.1 hpath
  obtain ⟨-, hq, hkind⟩ := Access.readablePath_eq_ok_iff.1 hrun
  refine (lasts_read (hs.textAt?_resolved hp hq) c).bind fun text d hread => ?_
  obtain ⟨hrun', rfl⟩ := Edit.outcome_access_eq_ok_iff.1 hread
  obtain ⟨-, htext⟩ := Access.read_eq_ok_iff.1 hrun'
  have hthere : (kindAt s q).isSome := by
    rw [hkind]
    rfl
  refine (lasts_nameAfter hs hthere d).bind fun _ e hname => ?_
  rw [outcome_nameAfter] at hname
  cases hname
  have href' := fun url r => href q text url r hq htext
  exact lasts_setText (b := { d with file := d.urls.urlAt q s }) hs href' true

end Bundle

theorem lasts_isFile (hp : Avoids out s' p) (b : Bundle) :
    Edit.Lasts (liftM (isFile p : StateM σ Bool) : Edit (StateM σ) Bool) b s s' := by
  have houtcome (u : σ) : Edit.outcome (liftM (isFile p : StateM σ Bool)) b u =
      ((.ok (decide (kindAt u p = some .file)), b), u) :=
    congrArg (fun r : Bool × σ => ((Except.ok r.1, b), r.2)) (run_isFile u p)
  refine Edit.lasts_of_eq (houtcome s) ?_
  rw [houtcome, hs.kindAt_eq hp]

/-- The input is loaded as before, if neither the files that it refers to nor the one beside it
have been written. -/
theorem Command.Loads.again {urls : UrlTable} {d : Bundle} (h : Loads urls s p d)
    (hp : Avoids out s' p) (hbeside : Avoids out s' (mapBeside p))
    (href : ∀ q text url r, resolved s p = .ok q → textAt? s q = some text →
      Body.mapUrl? (Body.endLine text) = some url → urls.path? url = some r →
        Avoids out s' r) : Loads urls s' p d := by
  unfold Loads loadInput at h ⊢
  rw [run_edited_eq_ok] at h ⊢
  refine (Edit.Lasts.bind (Bundle.lasts_loadText hs hp href) fun _ b _ => ?_) _ _ _ h |>.2
  refine Edit.Lasts.bind (Edit.lasts_of_eq rfl rfl) fun c d _ => ?_
  split_ifs
  · exact Edit.lasts_of_eq rfl rfl
  · refine (lasts_isFile hs hbeside d).bind fun there e _ => ?_
    split_ifs
    · exact Bundle.lasts_loadMap hs hbeside e
    · exact Edit.lasts_of_eq rfl rfl

end

/-! ## Filling in contents again -/

namespace Bundle

omit [LastingStore σ] in
theorem run_fetch? [FileStore σ] (b : Bundle) (url : String) (s : σ) :
    (b.fetch? url : StateM σ _).run s = ((b.urls.path? url).bind (textAt? s), s) := by
  refine Prod.ext ?_ (keepsFiles_fetch? b url s)
  unfold fetch?
  cases b.urls.path? url <;> rfl

omit [LastingStore σ] in
theorem fetchAll_again [FileStore σ] {b : Bundle} {es : List (Nat × String)} {s s' : σ}
    (h : ∀ e ∈ es, ∀ r, b.urls.path? e.2 = some r → textAt? s' r = textAt? s r) :
    ((b.fetchAll es : StateM σ Bundle).run s').1 = ((b.fetchAll es : StateM σ Bundle).run s).1 := by
  induction es generalizing b with
  | nil => rfl
  | cons e es ih =>
    obtain ⟨i, url⟩ := e
    obtain ⟨hurl, hes⟩ := List.forall_mem_cons.1 h
    have hsame : (b.urls.path? url).bind (textAt? s') = (b.urls.path? url).bind (textAt? s) := by
      cases hr : b.urls.path? url with
      | none => rfl
      | some r => exact hurl r hr
    unfold fetchAll
    rw [StateT.run_bind, StateT.run_bind, run_fetch?, run_fetch?, hsame]
    cases (b.urls.path? url).bind (textAt? s) with
    | none => exact ih hes
    | some text => exact ih (b := { b with contents := b.contents.insert i text }) hes

/-- The same contents are found where the same texts are read. -/
theorem filledAt_again {b : Bundle} {s s' : σ}
    (h : b.embedsContents → ∀ e ∈ b.missing, ∀ r, b.urls.path? e.2 = some r →
      textAt? s' r = textAt? s r) : b.filledAt s' = b.filledAt s := by
  unfold filledAt
  split
  · rename_i hembeds
    rw [run_fillContents, run_fillContents]
    exact fetchAll_again (h hembeds)
  · rfl

end Bundle

/-! ## Merging again -/

omit [FileSystem (StateM σ)] [LastingStore σ] in
theorem Bundle.urls_appendAll {b m : Bundle} {ds : List Bundle} (h : b.appendAll ds = .ok m) :
    m.urls = b.urls := by
  induction ds generalizing b with
  | nil =>
    cases h
    rfl
  | cons d ds ih =>
    have hurls : (b.append d).2.urls = b.urls := by
      obtain ⟨_, _, _, _, _, _, _, hframe⟩ := b.append_frame d
      rw [hframe]
    rw [appendAll] at h
    rcases hb : b.append d with ⟨_ | _, c⟩ <;> rw [hb] at h hurls
    · cases h
    · exact (ih h).trans hurls

namespace MergeJob

/-- The paths at which a merge looks for what it reads: inputs, maps that are beside them or that
they refer to, and originals to be embedded. -/
inductive Asks (job : MergeJob) (urls : UrlTable) (s : σ) : Path → Prop where
  | input {p : Path} (hp : p ∈ job.inputs) : Asks job urls s p
  | beside {p : Path} (hp : p ∈ job.inputs) : Asks job urls s (Command.mapBeside p)
  | referenced {p q r : Path} {text url : String} (hp : p ∈ job.inputs)
      (hq : resolved s p = .ok q) (htext : textAt? s q = some text)
      (hurl : Body.mapUrl? (Body.endLine text) = some url) (hr : urls.path? url = some r) :
      Asks job urls s r
  | original {m : Bundle} {i : Nat} {source : String} {r : Path} (hm : job.Merges urls s m)
      (hembeds : m.embedsContents) (hi : (i, source) ∈ m.missing)
      (hr : urls.path? source = some r) : Asks job urls s r

variable {job : MergeJob} {urls : UrlTable} {m : Bundle} {s s' : σ}

omit [LastingStore σ] in
theorem Merges.urls_eq (h : job.Merges urls s m) : m.urls = urls := by
  obtain ⟨ds, -, hall⟩ := h
  exact Bundle.urls_appendAll hall

/-- The inputs make up the same bundle again. -/
theorem Merges.again {out : FileStore.File σ → Prop} (h : job.Merges urls s m)
    (hs : Spares LastingStore.found? out s s')
    (hasks : ∀ p, job.Asks urls s p → Avoids out s' p) : job.Merges urls s' m := by
  obtain ⟨ds, hds, hall⟩ := h
  refine ⟨ds, ?_, hall⟩
  have hmem := (List.forall₂_and_left job.inputs ds).2 ⟨fun p hp => hp, hds⟩
  refine hmem.imp fun p d ⟨hp, hload⟩ => ?_
  refine hload.again hs (hasks p (.input hp)) (hasks _ (.beside hp)) ?_
  intro q text url r hq htext hurl hr
  exact hasks r (.referenced hp hq htext hurl hr)

/-- The outputs have the same URLs in `s` and `s'`, as far as these get into what is written. -/
def SameUrls (job : MergeJob) (urls : UrlTable) (s s' : σ) : Prop :=
  urls.urlAt job.out s' = urls.urlAt job.out s ∧ job.mapUrlAt urls s' = job.mapUrlAt urls s

end MergeJob

omit [FileSystem (StateM σ)] [LastingStore σ] in
theorem Bundle.mapUrl_eq_of_text_eq {b c : Bundle} (hbody : b.body = c.body) {u v : String}
    (hb : b.mapUrl = some u) (hc : c.mapUrl = some v) (h : b.text true = c.text true) : u = v := by
  unfold text Body.commentLine at h
  rw [hb, hc, hbody, ← String.toList_inj] at h
  simp only [if_true, String.toList_append, List.append_right_inj, List.append_left_inj] at h
  exact String.toList_inj.1 h

omit [FileSystem (StateM σ)] [LastingStore σ] in
theorem Bundle.file_eq_of_mapText_eq {b c : Bundle} (h : b.mapText = c.mapText) :
    b.file = c.file := by
  have hread := Envelope.read_write b.toEnvelope
  rw [← mapText, h, mapText, Envelope.read_write] at hread
  exact congrArg Envelope.file (Except.ok.inj hread).symm

/-! ## The second run -/

/-- What two writes, first of a text and then of a map, leave in the files. -/
structure Written (s s' : σ) (out map : Path) (text mapText : String) (f g : FileStore.File σ) :
    Prop where
  outFile : FileStore.file? s out = some f
  mapFile : FileStore.file? s map = some g
  file? : FileStore.file? s' = FileStore.file? s
  mapContent : FileStore.content? s' g = some (bytes mapText)
  outContent : f ≠ g → FileStore.content? s' f = some (bytes text)
  others : ∀ k, k ≠ f → k ≠ g → FileStore.content? s' k = FileStore.content? s k
  found_out : LastingStore.found? s' out = some f
  found_map : LastingStore.found? s' map = some g
  spares : Spares LastingStore.found? (fun k => k = f ∨ k = g) s s'

theorem exists_written {out map : Path} {text mapText : String} {s t s' : σ}
    (htext : (writeText out text : StateM σ _).run s = (.ok (), t))
    (hmap : (writeText map mapText : StateM σ _).run t = (.ok (), s')) :
    ∃ f g, Written s s' out map text mapText f g := by
  obtain ⟨f, hf, hft, hcontent, hothers⟩ := FileStore.writeText_eq_ok htext
  obtain ⟨g, hg, hgt, hcontent', hothers'⟩ := FileStore.writeText_eq_ok hmap
  have hs := LastingStore.spares_of_writeText htext hf
  have ht := LastingStore.spares_of_writeText hmap hg
  refine ⟨f, g, hf, by rw [← hft, hg], hgt.trans hft, hcontent', ?_, ?_, ?_, ?_, ?_⟩
  · intro hne
    rw [hothers' f hne, hcontent]
  · intro k hkf hkg
    rw [hothers' k hkg, hothers k hkf]
  · exact ht.found (LastingStore.found?_of_writeText htext hf)
  · exact LastingStore.found?_of_writeText hmap hg
  · exact (hs.mono fun _ => .inl).trans (ht.mono fun _ => .inr)

theorem Written.isSome_content?_out {out map : Path} {text mapText : String} {s s' : σ}
    {f g : FileStore.File σ} (h : Written s s' out map text mapText f g) :
    (FileStore.content? s' f).isSome := by
  by_cases hfg : f = g
  · rw [hfg, h.mapContent]
    rfl
  · rw [h.outContent hfg]
    rfl

/-- The same two files hold something else only where something else has been written. -/
theorem Written.content?_eq {out map : Path} {text mapText : String} {s s' s'' : σ}
    {f g : FileStore.File σ} (h : Written s s' out map text mapText f g)
    (h' : Written s' s'' out map text mapText f g) (k : FileStore.File σ) :
    FileStore.content? s'' k = FileStore.content? s' k := by
  by_cases hkg : k = g
  · rw [hkg, h'.mapContent, h.mapContent]
  · by_cases hkf : k = f
    · subst hkf
      rw [h'.outContent hkg, h.outContent hkg]
    · exact h'.others k hkf hkg

namespace Command

variable {urls : UrlTable} {job : MergeJob} {out : String} {s s' : σ}

/-- A merge whose outputs are none of the files that it reads succeeds again. It writes the same two
files, with what it finds for the same sources. -/
theorem mergeFiles_again
    (h : (mergeFiles urls job : ExceptT Failure (StateM σ) String).run.run s = (.ok out, s'))
    (hasks : ∀ p f, job.Asks urls s p → LeadsTo s' p f →
      some f ≠ FileStore.file? s job.out ∧ some f ≠ FileStore.file? s job.mapPath) :
    ∃ (m : Bundle) (t t' s'' : σ) (f g : FileStore.File σ), job.Merges urls s m ∧
      Written s s' job.out job.mapPath ((job.named urls s m).text true)
        ((job.named urls s m).filledAt t).mapText f g ∧
      (mergeFiles urls job : ExceptT Failure (StateM σ) String).run.run s' = (.ok out, s'') ∧
      Written s' s'' job.out job.mapPath ((job.named urls s' m).text true)
        ((job.named urls s' m).filledAt t').mapText f g ∧
      (job.named urls s' m).filledAt t' = (job.named urls s' m).filledAt t := by
  obtain ⟨m, t, hm, -, htext, -, hmap, rfl⟩ := mergeFiles_eq_ok_iff.1 h
  obtain ⟨f, g, hw⟩ := exists_written htext hmap
  have havoids (p : Path) (hp : job.Asks urls s p) : Avoids (fun k => k = f ∨ k = g) s' p := by
    intro k hk
    obtain ⟨hne, hne'⟩ := hasks p k hp hk
    rw [hw.outFile] at hne
    rw [hw.mapFile] at hne'
    rintro (rfl | rfl)
    · exact hne rfl
    · exact hne' rfl
  have hm' := hm.again hw.spares havoids
  -- both outputs are there by now, so both can be written
  have hout : FileStore.file? s' job.out = some f := by rw [hw.file?, hw.outFile]
  have hmapFile : FileStore.file? s' job.mapPath = some g := by rw [hw.file?, hw.mapFile]
  have houtKind : kindAt s' job.out = some .file :=
    LastingStore.kindAt_eq_file_iff.2 (by rw [hw.found_out]; rfl)
  have hmapKind : kindAt s' job.mapPath = some .file :=
    LastingStore.kindAt_eq_file_iff.2 (by rw [hw.found_map]; rfl)
  obtain ⟨t', htext'⟩ := LastingStore.exists_writeText (by rw [hout]; rfl)
    ((job.named urls s' m).text true)
  obtain ⟨-, -, hfile, -, -⟩ := FileStore.writeText_eq_ok htext'
  have hs' := LastingStore.spares_of_writeText htext' hout
  obtain ⟨s'', hmap'⟩ := LastingStore.exists_writeText (by rw [hfile, hmapFile]; rfl)
    ((job.named urls s' m).filledAt t').mapText
  obtain ⟨f', g', hw'⟩ := exists_written htext' hmap'
  obtain rfl : f = f' := Option.some.inj (hout.symm.trans hw'.outFile)
  obtain rfl : g = g' := Option.some.inj (hmapFile.symm.trans hw'.mapFile)
  refine ⟨m, t, t', s'', f, g, hm, hw, mergeFiles_eq_ok_iff.2 ⟨m, t', hm', ?_, htext', ?_, hmap',
    rfl⟩, hw', ?_⟩
  · exact Access.requireWritable_of_file houtKind
  · exact Access.requireWritable_of_file (hs'.kindAt_of_some hmapKind)
  · -- an original is read as in the first run, for what has been written since is not looked at
    refine Bundle.filledAt_again fun hembeds e he r hr => ?_
    have hr' : urls.path? e.2 = some r := by
      rw [← hm.urls_eq]
      exact hr
    obtain ⟨-, -, hft, -, -⟩ := FileStore.writeText_eq_ok htext
    have ht := LastingStore.spares_of_writeText hmap (by rw [hft, hw.mapFile])
    have hfound := LastingStore.found?_of_rewrite htext' hout hw.isSome_content?_out
    have hspares : Spares LastingStore.found? (fun k => k = f ∨ k = g) t t' :=
      (ht.mono fun _ => .inr).trans (hs'.mono fun _ => .inl)
    rcases hspares.text r with hsame | ⟨k, hk, hkr⟩
    · exact hsame
    · rw [hfound] at hkr
      exact absurd hk (havoids r (.original hm hembeds he hr') k (.inl hkr))

end Command

namespace Invocation

variable {urlMaps : List (Path × String)} {job : MergeJob} {urls : UrlTable} {r : Report} {s s' : σ}

/-- A merge is run again after it has succeeded. If it reads none of the files that it has written,
and the local paths have the same URLs as before, then it succeeds again and reports the same. It
leaves every file as it is if the outputs themselves go under the same URLs as before they were
written, and, unless both outputs are one file, only then. -/
theorem run_merge_again
    (hrun : (run ⟨urlMaps, .merge job⟩ : StateM σ Report).run s = (r, s')) (hok : r.status = 0)
    (hurls : (UrlTable.ofPairs urlMaps .empty : StateM σ _).run s = (urls, s))
    (hurls' : (UrlTable.ofPairs urlMaps .empty : StateM σ _).run s' = (urls, s'))
    (hasks : ∀ p f, job.Asks urls s p → LeadsTo s' p f →
      some f ≠ FileStore.file? s job.out ∧ some f ≠ FileStore.file? s job.mapPath) :
    ∃ s'', (run ⟨urlMaps, .merge job⟩ : StateM σ Report).run s' = (r, s'') ∧
      (job.SameUrls urls s s' → ∀ f, FileStore.content? s'' f = FileStore.content? s' f) ∧
      (FileStore.file? s job.out ≠ FileStore.file? s job.mapPath →
        (∀ f, FileStore.content? s'' f = FileStore.content? s' f) → job.SameUrls urls s s') := by
  rw [run_merge_eq hurls] at hrun
  obtain ⟨hreport, hfiles⟩ := Prod.mk.inj hrun
  rcases hmerge : (Command.mergeFiles urls job :
    ExceptT Command.Failure (StateM σ) String).run.run s with ⟨_ | out, _⟩ <;>
    rw [hmerge] at hreport hfiles <;> dsimp only at hreport hfiles <;> subst hreport
  · cases hok
  rw [hfiles] at hmerge
  obtain ⟨m, t, t', s'', f, g, hm, hw, hagain, hw', hfilled⟩ :=
    Command.mergeFiles_again hmerge hasks
  refine ⟨s'', by rw [run_merge_eq hurls', hagain], ?_, ?_⟩
  · rintro ⟨hout, hmapUrl⟩
    have hnamed : job.named urls s' m = job.named urls s m := by
      unfold MergeJob.named
      rw [hm.urls_eq, hout, hmapUrl]
    rw [hfilled, hnamed] at hw'
    exact hw.content?_eq hw'
  · intro hne hsame
    have hfg : f ≠ g := by
      rintro rfl
      exact hne (hw.outFile.trans hw.mapFile.symm)
    have htext : (job.named urls s' m).text true = (job.named urls s m).text true := by
      have := hsame f
      rw [hw'.outContent hfg, hw.outContent hfg] at this
      exact bytes_inj.1 (Option.some.inj this)
    have hmap : ((job.named urls s' m).filledAt t').mapText =
        ((job.named urls s m).filledAt t).mapText := by
      have := hsame g
      rw [hw'.mapContent, hw.mapContent] at this
      exact bytes_inj.1 (Option.some.inj this)
    have hname : job.mapPath.fileName?.isSome :=
      FileStore.isSome_fileName? (Option.isSome_iff_exists.2 ⟨g, hw.mapFile⟩)
    constructor
    · have hfile := Bundle.file_eq_of_mapText_eq hmap
      obtain ⟨_, hb⟩ := (job.named urls s' m).exists_filledAt t'
      obtain ⟨_, hc⟩ := (job.named urls s m).exists_filledAt t
      rw [hb, hc] at hfile
      change m.urls.urlAt job.out s' = m.urls.urlAt job.out s at hfile
      rwa [hm.urls_eq] at hfile
    · obtain ⟨u, hu⟩ := Command.run_mapUrlOf urls job.url (s := s') hname
      obtain ⟨v, hv⟩ := Command.run_mapUrlOf urls job.url (s := s) hname
      have hu' : job.mapUrlAt urls s' = some u := congrArg Prod.fst hu
      have hv' : job.mapUrlAt urls s = some v := congrArg Prod.fst hv
      have huv := Bundle.mapUrl_eq_of_text_eq (b := job.named urls s' m) (c := job.named urls s m)
        rfl hu' hv' htext
      rw [hu', hv', huv]

/-- The URLs of local paths may be other ones the second time. Here two paths are one place, which
shows once there is something at it. The URL that is given to it then takes the place of another,
and the original is found and embedded. -/
example :
    let files : Disk :=
      ⟨[], [(["src"], .directory), (["src", "b"], .directory),
        (["src", "b", "y.ts"], .file (bytes "y")), (["a.js"], .file (bytes "one\n")),
        (["a.js.map"], .file (bytes (Sample.mapOver "http://a/b/y.ts").write))]⟩
    let job : MergeJob :=
      ⟨[⟨"a.js"⟩], ⟨"/out.js"⟩, some ⟨"/out.js.map"⟩, some "out.js.map", true⟩
    let pairs : List (Path × String) :=
      [(⟨"/src"⟩, "http://a"), (⟨"out.js.map"⟩, "http://a/b"), (⟨"/out.js.map"⟩, "http://c")]
    let x := (run ⟨pairs, .merge job⟩ : StateM Disk Report).run files
    let y := (run ⟨pairs, .merge job⟩ : StateM Disk Report).run x.2
    let urls := ((UrlTable.ofPairs pairs .empty : StateM Disk UrlTable).run files).1
    x.1.status = 0 ∧ y.1.status = 0 ∧ job.SameUrls urls files x.2 ∧
      y.2.readText job.mapPath ≠ x.2.readText job.mapPath := by
  refine ⟨?_, ?_, ⟨?_, ?_⟩, ?_⟩ <;> decide +kernel

/-! ### One input under a URL -/

namespace Sample

/-- One generated file, without a map. -/
def oneInput : Disk := ⟨[], [(["a.js"], .file (bytes "one\n"))]⟩

def mergeOne : MergeJob := ⟨[⟨"a.js"⟩], ⟨"out.js"⟩, none, none, false⟩

/-- The working directory has a URL. -/
def underUrl : List (Path × String) := [(⟨"."⟩, "http://x")]

def rootUrls : UrlTable := ⟨[(⟨"/"⟩, "http://x")]⟩

/-- The file, and what is written when it is merged. -/
def mergedOne (file : Option String) (url : String) : Disk :=
  (oneInput.put ["out.js"] (.file (bytes ("one\n" ++ Body.commentLine url)))).put ["out.js.map"]
    (.file (bytes (Envelope.write ⟨file, none, [], [], some "", none⟩)))

/-- What is written where nothing is at the paths of the outputs yet. -/
def mergedFirst : Disk := mergedOne none "out.js.map"

/-- What is written where the outputs are there. -/
def mergedAgain : Disk := mergedOne (some "http://x/out.js") "http://x/out.js.map"

def reportOne : Report :=
  ⟨Command.paintBold .green "merged" ++ " 1 inputs into " ++ Command.paint .cyan "out.js" ++
    " (1 lines, 0 sources)\n", "", 0⟩

/-- What is loaded for the input. -/
def loadedOne : Bundle :=
  { (Bundle.empty rootUrls).setBody "one" with file := some "http://x/a.js" }

end Sample

open Sample

theorem run_mergeOne_oneInput :
    (run ⟨underUrl, .merge mergeOne⟩ : StateM Disk Report).run oneInput =
      (reportOne, mergedFirst) := by
  change @Eq (Report × Disk) _ _
  decide +kernel

theorem run_mergeOne_mergedFirst :
    (run ⟨underUrl, .merge mergeOne⟩ : StateM Disk Report).run mergedFirst =
      (reportOne, mergedAgain) := by
  change @Eq (Report × Disk) _ _
  decide +kernel

/-- The input is there, and nothing is at the path of its map. -/
def HasInput (d : Disk) : Prop :=
  d.resolve ⟨"a.js"⟩ = .ok ⟨"/a.js"⟩ ∧ d.readText ⟨"/a.js"⟩ = .ok "one\n" ∧
    d.fileAt? ⟨"a.js"⟩ = some (["a.js"] : Location) ∧
      d.fileAt? ⟨"/a.js"⟩ = some (["a.js"] : Location) ∧
      d.resolve ⟨"a.js.map"⟩ = .error .notFound ∧ d.fileAt? ⟨"a.js.map"⟩ = none

/-- A merge looks for the input and for the map beside it only. -/
theorem eq_of_asks_mergeOne {d : Disk} (hd : HasInput d)
    (hload : Command.Loads rootUrls d ⟨"a.js"⟩ loadedOne) {p : Path}
    (hp : mergeOne.Asks rootUrls d p) : p = ⟨"a.js"⟩ ∨ p = ⟨"a.js.map"⟩ := by
  obtain ⟨hresolve, hread, -⟩ := hd
  cases hp with
  | input hp => exact .inl (List.mem_singleton.1 hp)
  | beside hp =>
    rw [List.mem_singleton.1 hp]
    exact .inr (by decide)
  | @referenced p q r text url hp hq htext hurl hr =>
    obtain rfl := List.mem_singleton.1 hp
    obtain rfl : q = ⟨"/a.js"⟩ := Except.ok.inj (hq.symm.trans hresolve)
    obtain rfl : text = "one\n" := by
      change (d.readText ⟨"/a.js"⟩).toOption = some text at htext
      rw [hread] at htext
      exact (Option.some.inj htext).symm
    have hnone : Body.mapUrl? (Body.endLine "one\n") = none := rfl
    rw [hnone] at hurl
    cases hurl
  | original hm hembeds hi hr =>
    obtain ⟨ds, hds, hall⟩ := hm
    have hds' := (Command.rightUnique_loads rootUrls d).forall₂ hds (.cons hload .nil)
    subst hds'
    have hno : (({ Bundle.empty rootUrls with embedsContents := mergeOne.embedContents } :
        Bundle).appendAll [loadedOne]).toOption.map Bundle.embedsContents = some false := rfl
    rw [hall] at hno
    cases hembeds.symm.trans (Option.some.inj hno)

/-- Whatever is looked for leads to the input. -/
theorem eq_of_leadsTo_of_asks {d d' : Disk} (hd : HasInput d) (hd' : HasInput d')
    (hload : Command.Loads rootUrls d ⟨"a.js"⟩ loadedOne) {p : Path} {l : Location}
    (hp : mergeOne.Asks rootUrls d p) (hl : LeadsTo d' p l) : l = ["a.js"] := by
  obtain ⟨hresolve, -, hfile, hfile', hmap, hnone⟩ := hd'
  rcases eq_of_asks_mergeOne hd hload hp with rfl | rfl
  · rcases hl with hl | ⟨q, hq, hl⟩
    · exact Option.some.inj (hl.symm.trans hfile)
    · obtain rfl : q = ⟨"/a.js"⟩ := Except.ok.inj (hq.symm.trans hresolve)
      exact Option.some.inj (hl.symm.trans hfile')
  · rcases hl with hl | ⟨q, hq, -⟩
    · cases hl.symm.trans hnone
    · cases hq.symm.trans hmap

theorem hasInput_oneInput : HasInput oneInput :=
  ⟨rfl, rfl, rfl, rfl, rfl, rfl⟩

theorem hasInput_mergedOne (file : Option String) (url : String) : HasInput (mergedOne file url) :=
  ⟨rfl, rfl, rfl, rfl, rfl, rfl⟩

theorem loads_oneInput : Command.Loads rootUrls oneInput ⟨"a.js"⟩ loadedOne := by
  change @Eq (Except Command.Failure Bundle × Disk) _ _
  rfl

theorem loads_mergedFirst : Command.Loads rootUrls mergedFirst ⟨"a.js"⟩ loadedOne := by
  change @Eq (Except Command.Failure Bundle × Disk) _ _
  rfl

/-- Once the outputs are there, nothing changes any more. -/
theorem run_merge_again_mergedFirst : ∃ d : Disk,
    (run ⟨underUrl, .merge mergeOne⟩ : StateM Disk Report).run mergedAgain = (reportOne, d) ∧
      ∀ l, FileStore.content? d l = FileStore.content? mergedAgain l := by
  have hurls : (UrlTable.ofPairs underUrl .empty : StateM Disk UrlTable).run mergedFirst =
      (rootUrls, mergedFirst) := rfl
  have hurls' : (UrlTable.ofPairs underUrl .empty : StateM Disk UrlTable).run mergedAgain =
      (rootUrls, mergedAgain) := rfl
  have hout : (mergedFirst.target mergeOne.out).toOption = some (["out.js"] : Location) := rfl
  have hmap : (mergedFirst.target mergeOne.mapPath).toOption =
      some (["out.js.map"] : Location) := rfl
  have hasks : ∀ p (l : Location), mergeOne.Asks rootUrls mergedFirst p → LeadsTo mergedAgain p l →
      some l ≠ (mergedFirst.target mergeOne.out).toOption ∧
        some l ≠ (mergedFirst.target mergeOne.mapPath).toOption := by
    intro p l hp hl
    have hinput := hasInput_mergedOne
    rw [hout, hmap, eq_of_leadsTo_of_asks (hinput _ _) (hinput _ _) loads_mergedFirst hp hl]
    decide
  have hsame : mergeOne.SameUrls rootUrls mergedFirst mergedAgain := ⟨rfl, rfl⟩
  obtain ⟨d, hrun, hkept, -⟩ := run_merge_again run_mergeOne_mergedFirst rfl hurls hurls' hasks
  exact ⟨d, hrun, hkept hsame⟩

/-- Before the outputs are there, they are looked up by the relative paths by which they are asked
for, and these have no URL. So the second run writes something else, although the merge reads
neither of the outputs. -/
theorem run_merge_again_oneInput :
    (∀ p (l : Location), mergeOne.Asks rootUrls oneInput p → LeadsTo mergedFirst p l →
      l ≠ ["out.js"] ∧ l ≠ ["out.js.map"]) ∧
    (run ⟨underUrl, .merge mergeOne⟩ : StateM Disk Report).run oneInput =
      (reportOne, mergedFirst) ∧
    (run ⟨underUrl, .merge mergeOne⟩ : StateM Disk Report).run mergedFirst =
      (reportOne, mergedAgain) ∧
    mergedFirst.readText ⟨"out.js"⟩ = .ok "one\n//# sourceMappingURL=out.js.map\n" ∧
    mergedAgain.readText ⟨"out.js"⟩ = .ok "one\n//# sourceMappingURL=http://x/out.js.map\n" ∧
    mergedFirst.readText ⟨"out.js.map"⟩ ≠ mergedAgain.readText ⟨"out.js.map"⟩ := by
  refine ⟨fun p l hp hl => ?_, run_mergeOne_oneInput, run_mergeOne_mergedFirst, rfl, rfl,
    ?_⟩
  · rw [eq_of_leadsTo_of_asks hasInput_oneInput (hasInput_mergedOne _ _) loads_oneInput hp hl]
    decide
  · decide

end Invocation

end SourceMap
