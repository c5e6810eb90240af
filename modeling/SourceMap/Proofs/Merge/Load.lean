import SourceMap.Command.Run
import SourceMap.Proofs.Merge.Store
import SourceMap.Proofs.Reach.Operation

/-!
# Loading the inputs

Loading only looks at files. What is loaded for a generated file has a body, and a map whose text
agrees with what is kept beside it.

## Main definitions

* `KeepsFiles` : a computation that only looks at files.
* `Edit.Looks` : a change of a bundle that only looks at files, with what it ensures.

## Main statements

* `Bundle.looks_loadMap`, `Bundle.looks_loadText` : what loading ensures.
* `Command.loadInput_eq_ok`, `Command.appendFiles_eq_ok_iff` : what is loaded for inputs.
-/

namespace SourceMap

variable {σ : Type}

/-- Afterwards the files are as they were. -/
def KeepsFiles (x : StateM σ α) : Prop := ∀ s, (x.run s).2 = s

theorem KeepsFiles.exists_run_eq {x : StateM σ α} (h : KeepsFiles x) (s : σ) :
    ∃ a, x.run s = (a, s) :=
  ⟨(x.run s).1, Prod.ext rfl (h s)⟩

theorem KeepsFiles.pure (a : α) : KeepsFiles (pure a : StateM σ α) := fun _ => rfl

theorem KeepsFiles.bind {x : StateM σ α} {f : α → StateM σ β} (hx : KeepsFiles x)
    (hf : ∀ a, KeepsFiles (f a)) : KeepsFiles (x >>= f) := by
  intro s
  change ((f (x.run s).1).run (x.run s).2).2 = s
  rw [hf, hx]

/-- A computation that may fail, followed by another. -/
theorem KeepsFiles.exceptBind {x : ExceptT ε (StateM σ) α} {f : α → ExceptT ε (StateM σ) β}
    (hx : KeepsFiles x.run) (hf : ∀ a, KeepsFiles (f a).run) : KeepsFiles (x >>= f).run := by
  rw [ExceptT.run_bind]
  refine hx.bind fun r => ?_
  cases r with
  | error e => exact .pure _
  | ok a => exact hf a

theorem KeepsFiles.exceptLift {x : StateM σ α} (h : KeepsFiles x) :
    KeepsFiles (liftM x : ExceptT ε (StateM σ) α).run :=
  h

theorem run_bind_eq_ok {x : ExceptT ε (StateM σ) α} {f : α → ExceptT ε (StateM σ) β} {s s' : σ}
    {b : β} : (x >>= f).run.run s = (.ok b, s') ↔
      ∃ a t, x.run.run s = (.ok a, t) ∧ (f a).run.run t = (.ok b, s') := by
  rw [ExceptT.run_bind, StateT.run_bind]
  rcases x.run.run s with ⟨_ | a, t⟩
  · constructor
    · intro h
      cases h
    · rintro ⟨_, _, h, -⟩
      cases h
  · constructor
    · intro h
      exact ⟨a, t, rfl, h⟩
    · rintro ⟨_, _, ⟨⟩, h⟩
      exact h

theorem run_lift_bind (x : StateM σ α) (f : α → ExceptT ε (StateM σ) β) (s : σ) :
    ((liftM x : ExceptT ε (StateM σ) α) >>= f).run.run s = (f (x.run s).1).run.run (x.run s).2 :=
  rfl

namespace Edit

/-- The change only looks at files, and leaves a bundle with `post` if it succeeds. -/
def Looks (x : Edit (StateM σ) α) (b : Bundle) (post : Bundle → Prop) : Prop :=
  ∀ files, (x.outcome b files).2 = files ∧
    ∀ a, (x.outcome b files).1.1 = .ok a → post (x.outcome b files).1.2

variable {b : Bundle} {post : Bundle → Prop}

theorem Looks.bind {x : Edit (StateM σ) α} {f : α → Edit (StateM σ) β} {mid : Bundle → Prop}
    (hx : Looks x b mid) (hf : ∀ a c, mid c → Looks (f a) c post) : Looks (x >>= f) b post := by
  intro files
  have h := hx files
  rw [outcome_bind]
  rcases hr : x.outcome b files with ⟨⟨_ | a, c⟩, files'⟩ <;> rw [hr] at h <;>
    obtain ⟨rfl, hmid⟩ := h
  · exact ⟨rfl, nofun⟩
  · exact hf a c (hmid a rfl) files'

theorem outcome_bind_eq_ok {x : Edit (StateM σ) α} {f : α → Edit (StateM σ) β} {r : β} {c : Bundle}
    {files files' : σ} : (x >>= f).outcome b files = ((.ok r, c), files') ↔
      ∃ a d t, x.outcome b files = ((.ok a, d), t) ∧
        (f a).outcome d t = ((.ok r, c), files') := by
  rw [outcome_bind]
  rcases x.outcome b files with ⟨⟨_ | a, d⟩, t⟩
  · constructor
    · rintro ⟨⟩
    · rintro ⟨_, _, _, ⟨⟩, -⟩
  · constructor
    · intro h
      exact ⟨a, d, t, rfl, h⟩
    · rintro ⟨_, _, _, ⟨⟩, h⟩
      exact h

theorem Looks.of_outcome {x : Edit (StateM σ) α} (h : Looks x b post) {a : α} {c : Bundle}
    {files files' : σ} (hx : x.outcome b files = ((.ok a, c), files')) :
    files' = files ∧ post c := by
  obtain ⟨hfiles, hpost⟩ := h files
  rw [hx] at hfiles hpost
  exact ⟨hfiles, hpost a rfl⟩

theorem looks_modify {f : Bundle → Bundle} (h : post (f b)) :
    Looks (modify f : Edit (StateM σ) PUnit) b post :=
  fun _ => ⟨rfl, fun _ _ => h⟩

theorem looks_get_bind {f : Bundle → Edit (StateM σ) α} (h : Looks (f b) b post) :
    Looks (get >>= f) b post :=
  h

theorem looks_lift {x : StateM σ α} (h : KeepsFiles x) :
    Looks (liftM x : Edit (StateM σ) α) b (· = b) :=
  fun files => ⟨h files, fun _ _ => rfl⟩

theorem looks_access {x : ExceptT AccessError (StateM σ) α} (h : KeepsFiles x.run) :
    Looks (Bundle.access x) b (· = b) := by
  intro files
  rw [outcome_access]
  exact ⟨h files, fun _ _ => rfl⟩

theorem looks_access_bind {x : ExceptT AccessError (StateM σ) α} {f : α → Edit (StateM σ) β}
    (hx : KeepsFiles x.run) (hf : ∀ a, Looks (f a) b post) : Looks (Bundle.access x >>= f) b post :=
  (looks_access hx).bind fun a _ hc => hc ▸ hf a

end Edit

theorem Bundle.looks_setMap (text : String) (b : Bundle) :
    Edit.Looks (Bundle.setMap text : Edit (StateM σ) Unit) b fun c => ∃ e, c = b.load e := by
  intro files
  rw [Bundle.outcome_setMap]
  cases Envelope.read text with
  | error fault => exact ⟨rfl, nofun⟩
  | ok e => exact ⟨rfl, fun _ _ => ⟨e, rfl⟩⟩

/-- What a change makes of a bundle and of the files, where it succeeds. -/
theorem Command.run_edited_eq_ok {b c : Bundle} {change : Edit (StateM σ) Unit} {s s' : σ} :
    (Command.edited b change).run.run s = (.ok c, s') ↔ change.outcome b s = ((.ok (), c), s') := by
  have hout : (change.runOn b : StateM σ _).run s = change.outcome b s := rfl
  unfold Command.edited
  rw [run_lift_bind, hout]
  rcases change.outcome b s with ⟨⟨_ | _, d⟩, s''⟩
  · exact iff_of_false nofun nofun
  · constructor <;> rintro ⟨⟩ <;> rfl

variable [FileSystem (StateM σ)] [FileStore σ]

/-! ## Looking at files -/

theorem keepsFiles_settle (p : Path) : KeepsFiles (FileSystem.settle p : StateM σ Path) := by
  refine KeepsFiles.bind (FileStore.resolve_keeps p) fun r => ?_
  cases r <;> exact .pure _

theorem keepsFiles_isFile (p : Path) : KeepsFiles (FileSystem.isFile p : StateM σ Bool) :=
  .bind (FileStore.kind?_keeps p) fun _ => .pure _

theorem keepsFiles_isDirectory (p : Path) : KeepsFiles (FileSystem.isDirectory p : StateM σ Bool) :=
  .bind (FileStore.kind?_keeps p) fun _ => .pure _

theorem UrlTable.keepsFiles_urlOf? (t : UrlTable) (p : Path) :
    KeepsFiles (t.urlOf? p : StateM σ _) :=
  (keepsFiles_settle p).bind fun _ => .pure _

theorem UrlTable.keepsFiles_ofPairs (pairs : List (Path × String)) (t : UrlTable) :
    KeepsFiles (UrlTable.ofPairs pairs t : StateM σ _) := by
  induction pairs generalizing t with
  | nil => exact .pure t
  | cons pair pairs ih =>
    exact .bind ((keepsFiles_settle pair.1).bind fun _ => .pure _) fun t => ih t

namespace Access

theorem keepsFiles_readablePath (p : Path) :
    KeepsFiles (readablePath p : ExceptT AccessError (StateM σ) Path).run := by
  refine KeepsFiles.exceptBind (KeepsFiles.exceptLift (FileStore.resolve_keeps p)) fun r => ?_
  cases r with
  | error e => exact .pure _
  | ok q =>
    refine KeepsFiles.exceptBind (KeepsFiles.exceptLift (keepsFiles_isFile q)) fun there => ?_
    cases there <;> exact .pure _

theorem keepsFiles_read (p : Path) :
    KeepsFiles (read p : ExceptT AccessError (StateM σ) String).run := by
  refine KeepsFiles.exceptBind (KeepsFiles.exceptLift (FileStore.readText_keeps p)) fun r => ?_
  cases r <;> exact .pure _

theorem keepsFiles_requireWritable (p : Path) :
    KeepsFiles (requireWritable p : ExceptT AccessError (StateM σ) Unit).run := by
  refine KeepsFiles.exceptBind (KeepsFiles.exceptLift (FileStore.kind?_keeps p)) fun kind => ?_
  rcases kind with _ | ⟨_ | _ | _⟩
  · refine KeepsFiles.exceptBind (KeepsFiles.exceptLift (keepsFiles_isDirectory _)) fun there => ?_
    cases there <;> exact .pure _
  all_goals exact .pure _

end Access

/-! ## Loading -/

namespace Bundle

theorem looks_loadMap (p : Path) (b : Bundle) :
    Edit.Looks (loadMap p : Edit (StateM σ) Unit) b fun c => ∃ e, c = b.load e :=
  Edit.looks_access_bind (Access.keepsFiles_readablePath p) fun q =>
    Edit.looks_access_bind (Access.keepsFiles_read q) fun text => looks_setMap text b

/-- What has been loaded for a generated file. -/
structure Loaded (b : Bundle) : Prop where
  consistent : b.mappings.Consistent
  body : b.body.isSome

theorem loaded_setBody {b : Bundle} (h : b.mappings.Consistent) (text : String) :
    (b.setBody text).Loaded :=
  ⟨h, rfl⟩

theorem looks_setText {b : Bundle} (h : b.mappings.Consistent) (text : String) (autoload : Bool) :
    Edit.Looks (setText text autoload : Edit (StateM σ) Unit) b Loaded := by
  unfold setText
  change Edit.Looks (if autoload && !b.hasMap then _ else _) b Loaded
  split_ifs
  · cases Body.mapUrl? (Body.endLine text) with
    | none => exact Edit.looks_modify (loaded_setBody h text)
    | some url =>
      refine Edit.looks_get_bind ?_
      cases b.urls.path? url with
      | none => exact fun files => ⟨rfl, fun _ _ => ⟨h, rfl⟩⟩
      | some p =>
        refine (looks_loadMap p b).bind fun _ c hc => ?_
        have hc' : c.mappings.Consistent := by
          obtain ⟨e, rfl⟩ := hc
          exact consistent_load b e
        exact fun files => ⟨rfl, fun _ _ => ⟨hc', rfl⟩⟩
  · exact Edit.looks_modify (loaded_setBody h text)

theorem looks_nameAfter (p : Path) (b : Bundle) :
    Edit.Looks (nameAfter p : Edit (StateM σ) Unit) b fun c => ∃ file, c = { b with file } := by
  have hurl : KeepsFiles (b.urls.urlOf? p : StateM σ _) := b.urls.keepsFiles_urlOf? p
  intro files
  exact ⟨hurl files, fun _ _ => ⟨_, rfl⟩⟩

theorem looks_loadText {b : Bundle} (h : b.mappings.Consistent) (p : Path) :
    Edit.Looks (loadText p : Edit (StateM σ) Unit) b Loaded := by
  refine Edit.looks_access_bind (Access.keepsFiles_readablePath p) fun q => ?_
  refine Edit.looks_access_bind (Access.keepsFiles_read q) fun text => ?_
  refine Edit.Looks.bind (looks_nameAfter q b) fun _ c hc => ?_
  obtain ⟨file, rfl⟩ := hc
  exact looks_setText (b := { b with file }) h text true

end Bundle

namespace Command

/-- What the loading of an input comes to, with the files `s`. -/
def Loads (urls : UrlTable) (s : σ) (p : Path) (d : Bundle) : Prop :=
  (loadInput urls p : ExceptT Failure (StateM σ) Bundle).run.run s = (.ok d, s)

theorem loadInput_eq_ok {urls : UrlTable} {p : Path} {d : Bundle} {s s' : σ}
    (h : (loadInput urls p : ExceptT Failure (StateM σ) Bundle).run.run s = (.ok d, s')) :
    s' = s ∧ d.Loaded := by
  obtain ⟨_, b, t, htext, hmap⟩ := Edit.outcome_bind_eq_ok.1 (run_edited_eq_ok.1 h)
  obtain ⟨rfl, hb⟩ := (Bundle.looks_loadText Mappings.consistent_empty p).of_outcome htext
  rw [Edit.outcome_bind, Edit.outcome_get] at hmap
  dsimp only at hmap
  by_cases hhas : b.hasMap
  · rw [hhas] at hmap
    cases hmap
    exact ⟨rfl, hb⟩
  · rw [Bool.not_eq_true] at hhas
    rw [hhas] at hmap
    obtain ⟨there, c, t', hfile, hload⟩ := Edit.outcome_bind_eq_ok.1 hmap
    obtain ⟨rfl, rfl⟩ := (Edit.looks_lift (keepsFiles_isFile (mapBeside p))).of_outcome hfile
    cases there with
    | false =>
      cases hload
      exact ⟨rfl, hb⟩
    | true =>
      obtain ⟨rfl, e, rfl⟩ := (Bundle.looks_loadMap (mapBeside p) c).of_outcome hload
      exact ⟨rfl, Bundle.consistent_load c e, hb.body⟩

theorem loaded_of_loads {urls : UrlTable} {inputs : List Path} {ds : List Bundle} {s : σ}
    (h : List.Forall₂ (Loads urls s) inputs ds) : ∀ d ∈ ds, d.Loaded := by
  induction h with
  | nil => simp
  | cons hd _ ih => exact List.forall_mem_cons.2 ⟨(loadInput_eq_ok hd).2, ih⟩

/-- What is loaded for each of the inputs is appended. -/
theorem appendFiles_eq_ok_iff {urls : UrlTable} {b m : Bundle} {inputs : List Path} {s s' : σ} :
    (appendFiles urls b inputs : ExceptT Failure (StateM σ) Bundle).run.run s = (.ok m, s') ↔
      s' = s ∧ ∃ ds, List.Forall₂ (Loads urls s) inputs ds ∧ b.appendAll ds = .ok m := by
  induction inputs generalizing b with
  | nil =>
    constructor
    · rintro ⟨⟩
      exact ⟨rfl, [], .nil, rfl⟩
    · rintro ⟨rfl, _, ⟨⟩, ⟨⟩⟩
      rfl
  | cons p inputs ih =>
    rw [appendFiles, run_bind_eq_ok]
    constructor
    · rintro ⟨d, t, hload, happend⟩
      obtain ⟨rfl, -⟩ := loadInput_eq_ok hload
      rcases hb : b.append d with ⟨_ | _, c⟩ <;> rw [hb] at happend
      · cases happend
      · obtain ⟨rfl, ds, hds, hall⟩ := ih.1 happend
        refine ⟨rfl, d :: ds, .cons hload hds, ?_⟩
        rw [Bundle.appendAll, hb]
        exact hall
    · rintro ⟨rfl, _, hloads, hall⟩
      obtain ⟨d, ds, hload, hds, rfl⟩ := List.forall₂_cons_left_iff.1 hloads
      refine ⟨d, _, hload, ?_⟩
      rw [Bundle.appendAll] at hall
      rcases hb : b.append d with ⟨_ | _, c⟩ <;> rw [hb] at hall
      · cases hall
      · exact ih.2 ⟨rfl, ds, hds, hall⟩

end Command

end SourceMap
