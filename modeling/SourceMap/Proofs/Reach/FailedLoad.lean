import SourceMap.Files.Disk
import SourceMap.Proofs.Reach.Operation

/-!
# Loading that fails

Maps are checked before anything changes, and a text that refers to a map is taken over when that
map has been. Only the name of a generated file is taken over before such a map is.

## Main definitions

* `Edit.AllOrNothing` : a change that leaves the bundle as it was where it fails.
* `Operation.loads` : operations that load a map or a generated text.
* `Bundle.NamesAs` : a generated file can be read, and the URL that its path has, if any.

## Main statements

* `allOrNothing_setMap`, `allOrNothing_loadMap`, `allOrNothing_setText` : what changes nothing.
* `loadText_failed` : what loading a generated file leaves behind.
* `failedLoad_unchanged_iff` : when loading that fails changes nothing.
-/

namespace SourceMap

variable {σ : Type}

namespace Edit

/-- Where the change fails, the bundle is as it was. -/
def AllOrNothing (x : Edit (StateM σ) α) : Prop :=
  ∀ b files e c files', x.outcome b files = ((.error e, c), files') → c = b

/-- The change succeeds whatever the bundle and the files are. -/
def Total (x : Edit (StateM σ) α) : Prop := ∀ b files, ∃ a, (x.outcome b files).1.1 = .ok a

theorem outcome_bind_eq_error {x : Edit (StateM σ) α} {f : α → Edit (StateM σ) β} {b c : Bundle}
    {e : BundleError} {files files' : σ}
    (h : (x >>= f).outcome b files = ((.error e, c), files')) :
    x.outcome b files = ((.error e, c), files') ∨
      ∃ a d t, x.outcome b files = ((.ok a, d), t) ∧
        (f a).outcome d t = ((.error e, c), files') := by
  rw [outcome_bind] at h
  rcases hx : x.outcome b files with ⟨⟨_ | a, d⟩, t⟩ <;> rw [hx] at h
  · cases h
    exact .inl rfl
  · exact .inr ⟨a, d, t, rfl, h⟩

theorem total_modify (f : Bundle → Bundle) : Total (modify f : Edit (StateM σ) PUnit) :=
  fun _ _ => ⟨_, rfl⟩

theorem Total.bind {x : Edit (StateM σ) α} {f : α → Edit (StateM σ) β} (hx : Total x)
    (hf : ∀ a, Total (f a)) : Total (x >>= f) := by
  intro b files
  obtain ⟨a, ha⟩ := hx b files
  rw [outcome_bind]
  rcases hr : x.outcome b files with ⟨⟨_ | a', c⟩, files'⟩ <;> rw [hr] at ha
  · cases ha
  · exact hf a' c files'

theorem Total.allOrNothing {x : Edit (StateM σ) α} (h : Total x) : AllOrNothing x := by
  intro b files e c files' hx
  obtain ⟨a, ha⟩ := h b files
  rw [hx] at ha
  cases ha

/-- What comes behind the last step that can fail is free to change the bundle. -/
theorem AllOrNothing.bind {x : Edit (StateM σ) α} {f : α → Edit (StateM σ) β}
    (hx : AllOrNothing x) (hf : ∀ a, Total (f a)) : AllOrNothing (x >>= f) := by
  intro b files e c files' h
  rcases outcome_bind_eq_error h with h | ⟨a, d, t, -, h⟩
  · exact hx b files e c files' h
  · obtain ⟨r, hr⟩ := hf a d t
    rw [h] at hr
    cases hr

theorem allOrNothing_get_bind {f : Bundle → Edit (StateM σ) α} (h : ∀ b, AllOrNothing (f b)) :
    AllOrNothing (get >>= f) :=
  fun b => h b b

/-- Looking at files leaves the bundle alone, whether it fails or what comes behind it does. -/
theorem outcome_access_bind_eq_error {x : ExceptT AccessError (StateM σ) α}
    {f : α → Edit (StateM σ) β} {b c : Bundle} {e : BundleError} {files files' : σ}
    (h : (Bundle.access x >>= f).outcome b files = ((.error e, c), files')) :
    (c = b ∧ ∃ fault, x.run.run files = (.error fault, files')) ∨
      ∃ a t, x.run.run files = (.ok a, t) ∧ (f a).outcome b t = ((.error e, c), files') := by
  rw [outcome_bind, outcome_access] at h
  rcases hx : x.run.run files with ⟨fault | a, t⟩ <;> rw [hx] at h
  · cases h
    exact .inl ⟨rfl, fault, rfl⟩
  · exact .inr ⟨a, t, rfl, h⟩

theorem allOrNothing_access_bind {x : ExceptT AccessError (StateM σ) α}
    {f : α → Edit (StateM σ) β} (h : ∀ a, AllOrNothing (f a)) :
    AllOrNothing (Bundle.access x >>= f) := by
  intro b files e c files' hf
  rcases outcome_access_bind_eq_error hf with ⟨hc, -⟩ | ⟨a, t, -, hf⟩
  · exact hc
  · exact h a b t e c files' hf

end Edit

/-! ## Maps -/

namespace Bundle

theorem allOrNothing_setMap (text : String) :
    Edit.AllOrNothing (setMap text : Edit (StateM σ) Unit) := by
  intro b files e c files' h
  rw [outcome_setMap] at h
  cases hread : Envelope.read text <;> rw [hread] at h <;> cases h
  rfl

variable [FileSystem (StateM σ)]

theorem allOrNothing_loadMap (p : Path) :
    Edit.AllOrNothing (loadMap p : Edit (StateM σ) Unit) :=
  Edit.allOrNothing_access_bind fun _ => Edit.allOrNothing_access_bind allOrNothing_setMap

/-! ## Generated texts -/

/-- The URL and the body are taken over once the map is there. -/
theorem allOrNothing_setText (text : String) (autoload : Bool) :
    Edit.AllOrNothing (setText text autoload : Edit (StateM σ) Unit) := by
  have hbody : Edit.Total (modify fun b => b.setBody text : Edit (StateM σ) Unit) :=
    Edit.total_modify _
  refine Edit.allOrNothing_get_bind fun b => ?_
  split_ifs
  · cases Body.mapUrl? (Body.endLine text) with
    | none => exact hbody.allOrNothing
    | some url =>
      have htaken : Edit.Total ((modify fun b => { b with mapUrl := some url }) >>= fun _ =>
          modify fun b => b.setBody text : Edit (StateM σ) Unit) :=
        (Edit.total_modify _).bind fun _ => hbody
      refine Edit.allOrNothing_get_bind fun b => ?_
      cases b.urls.path? url with
      | none => exact htaken.allOrNothing
      | some p => exact (allOrNothing_loadMap p).bind fun _ => htaken
  · exact hbody.allOrNothing

/-- A generated file can be read from `p`, and `url` is the URL of its path, if it has one. -/
def NamesAs (b : Bundle) (files : σ) (p : Path) (url : Option String) : Prop :=
  ∃ q text s t,
    (Access.readablePath p : ExceptT AccessError (StateM σ) Path).run.run files = (.ok q, s) ∧
    (Access.read q : ExceptT AccessError (StateM σ) String).run.run s = (.ok text, t) ∧
    ((b.urls.urlOf? q : StateM σ _).run t).1 = url

/-- A file that cannot be read changes nothing. Once it has been read, its name is taken over, and
nothing else if the map that its text refers to cannot be loaded. -/
theorem loadText_failed {p : Path} {b c : Bundle} {e : BundleError} {files files' : σ}
    (h : (loadText p : Edit (StateM σ) Unit).outcome b files = ((.error e, c), files')) :
    (c = b ∧ ∀ url, ¬ b.NamesAs files p url) ∨
      ∃ url, b.NamesAs files p url ∧ c = { b with file := url } := by
  rcases Edit.outcome_access_bind_eq_error h with ⟨rfl, fault, hpath⟩ | ⟨q, s, hpath, h⟩
  · refine .inl ⟨rfl, ?_⟩
    rintro url ⟨q, text, s, t, hq, -, -⟩
    cases hpath.symm.trans hq
  rcases Edit.outcome_access_bind_eq_error h with ⟨rfl, fault, hread⟩ | ⟨text, t, hread, h⟩
  · refine .inl ⟨rfl, ?_⟩
    rintro url ⟨q', text, s', t, hq, htext, -⟩
    cases hpath.symm.trans hq
    cases hread.symm.trans htext
  · refine .inr ⟨_, ⟨q, text, s, t, hpath, hread, rfl⟩, ?_⟩
    obtain ⟨t', hname⟩ : ∃ t', (nameAfter q : Edit (StateM σ) Unit).outcome b t =
        ((.ok (), { b with file := ((b.urls.urlOf? q : StateM σ _).run t).1 }), t') := ⟨_, rfl⟩
    rw [Edit.outcome_bind, hname] at h
    exact allOrNothing_setText text true _ _ _ _ _ h

theorem NamesAs.unique {b : Bundle} {files : σ} {p : Path} {url url' : Option String}
    (h : b.NamesAs files p url) (h' : b.NamesAs files p url') : url = url' := by
  obtain ⟨q, text, s, t, hq, htext, rfl⟩ := h
  obtain ⟨q', text', s', t', hq', htext', rfl⟩ := h'
  cases hq.symm.trans hq'
  cases htext.symm.trans htext'
  rfl

theorem file_eq_self_iff {b : Bundle} {url : Option String} :
    { b with file := url } = b ↔ url = b.file := by
  constructor
  · intro h
    exact congrArg Bundle.file h
  · rintro rfl
    rfl

end Bundle

/-! ## Operations that load -/

/-- The operation loads a map or a generated text. -/
def Operation.loads : Operation → Bool
  | setMap _ | loadMap _ | setText _ _ | loadText _ => true
  | _ => false

namespace Bundle

variable [FileSystem (StateM σ)]

/-- An operation that fails to load something changes no more than the name of the generated file.
It changes nothing unless it is a generated file that was loaded, which could be read and whose path
has another URL, or none, than the bundle has as its file. -/
theorem failedLoad_unchanged_iff {op : Operation} (hop : op.loads) {b c : Bundle} {e : BundleError}
    {files files' : σ}
    (h : (op.run : Edit (StateM σ) Unit).outcome b files = ((.error e, c), files')) :
    (c = b ↔ ∀ p url, op = .loadText p → b.NamesAs files p url → url = b.file) ∧
      ∃ file, c = { b with file } := by
  cases op with
  | setMap text =>
    obtain rfl := allOrNothing_setMap text _ _ _ _ _ h
    exact ⟨iff_of_true rfl nofun, c.file, rfl⟩
  | loadMap p =>
    obtain rfl := allOrNothing_loadMap p _ _ _ _ _ h
    exact ⟨iff_of_true rfl nofun, c.file, rfl⟩
  | setText text autoload =>
    obtain rfl := allOrNothing_setText text autoload _ _ _ _ _ h
    exact ⟨iff_of_true rfl nofun, c.file, rfl⟩
  | loadText p =>
    rcases loadText_failed h with ⟨rfl, hnone⟩ | ⟨url, hurl, rfl⟩
    · refine ⟨iff_of_true rfl ?_, c.file, rfl⟩
      rintro _ url ⟨⟩ hurl
      exact absurd hurl (hnone url)
    · refine ⟨?_, url, rfl⟩
      rw [file_eq_self_iff]
      constructor
      · rintro rfl _ url ⟨⟩ hurl'
        exact hurl'.unique hurl
      · intro hfile
        exact hfile p url rfl hurl
  | _ => cases hop

namespace Sample

/-- A directory with a generated text, and without the map that the text refers to. -/
def mapless : Disk :=
  ⟨["web"], [(["web"], .directory),
    (["web", "a.js"], .file (Text.bytes "a();\n//# sourceMappingURL=http://x/a.js.map\n"))]⟩

/-- A bundle that knows the URL of that directory. -/
def served : Bundle := empty ⟨[(⟨"/web"⟩, "http://x")]⟩

end Sample

open Sample

/-- The map is not there, and the text has the name that the bundle has already. A directory is no
map. -/
theorem failedLoad_unchanged_sameName :
    let b : Bundle := { served with file := some "http://x/a.js" }
    (∃ e c, ((Operation.loadText ⟨"a.js"⟩).run : Edit (StateM Disk) Unit).outcome b mapless =
        ((.error e, c), mapless) ∧ b.NamesAs mapless ⟨"a.js"⟩ (some "http://x/a.js") ∧ c = b) ∧
      ∃ e c, ((Operation.loadMap ⟨"."⟩).run : Edit (StateM Disk) Unit).outcome b mapless =
        ((.error e, c), mapless) ∧ c = b := by
  intro b
  have htext : ((Operation.loadText ⟨"a.js"⟩).run : Edit (StateM Disk) Unit).outcome b mapless =
      ((.error (.access (.inaccessible ⟨"/web/a.js.map"⟩ .notFound)), b), mapless) := by
    decide +kernel
  have hmap : ((Operation.loadMap ⟨"."⟩).run : Edit (StateM Disk) Unit).outcome b mapless =
      ((.error (.access (.notAFile ⟨"/web"⟩)), b), mapless) := by
    decide +kernel
  have hnames : b.NamesAs mapless ⟨"a.js"⟩ (some "http://x/a.js") := by
    refine ⟨⟨"/web/a.js"⟩, "a();\n//# sourceMappingURL=http://x/a.js.map\n", mapless, mapless,
      Prod.ext ?_ ?_, Prod.ext ?_ ?_, ?_⟩ <;> decide +kernel
  refine ⟨⟨_, _, htext, hnames, (failedLoad_unchanged_iff rfl htext).1.2 ?_⟩, _, _, hmap,
    (failedLoad_unchanged_iff rfl hmap).1.2 nofun⟩
  rintro _ url ⟨⟩ hurl
  exact hurl.unique hnames

/-- The name is taken over although the map cannot be loaded. -/
theorem failedLoad_renamed : served.Reachable ∧ served.file = none ∧
    ((Operation.loadText ⟨"a.js"⟩).run : Edit (StateM Disk) Unit).outcome served mapless =
      ((.error (.access (.inaccessible ⟨"/web/a.js.map"⟩ .notFound)),
        { served with file := some "http://x/a.js" }), mapless) := by
  refine ⟨.empty _, rfl, ?_⟩
  decide +kernel

end Bundle

end SourceMap
