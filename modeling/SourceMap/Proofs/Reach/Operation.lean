import SourceMap.Proofs.Reach.Edit

/-!
# What operations come down to

Every operation either takes over a map or makes small changes. Which it is depends on the files and
on the text that is set, so the map that is taken over is found the way the operation finds it.

## Main definitions

* `Operation.taken?` : the map that an operation takes over, and the bundle that takes it over.
* `Operation.keepsMap` : operations that take over no map, whatever the files are.

## Main statements

* `Operation.apply_cases` : the two kinds of outcome of an operation.
* `Operation.apply_cases_of_keepsMap` : what an operation that takes over no map comes down to.
* `Reachable.consistent` : the mappings of a bundle always agree with their text.
-/

namespace SourceMap

variable {σ : Type}

/-! ## Taking over a map -/

section

variable {m : Type → Type} [Monad m]

/-- The map that a text holds, and the bundle that would take it over. -/
def Bundle.mapIn (text : String) : Edit m (Option (Bundle × Envelope)) := do
  let b ← get
  return (Envelope.read text).toOption.map (b, ·)

variable [FileSystem m]

def Bundle.mapAt (p : Path) : Edit m (Option (Bundle × Envelope)) := do
  let p ← access (Access.readablePath p)
  mapIn (← access (Access.read p))

/-- The map that setting a text would load by itself. -/
def Bundle.mapBehind (text : String) (autoload : Bool) : Edit m (Option (Bundle × Envelope)) := do
  let b ← get
  let url := if autoload && !b.hasMap then Body.mapUrl? (Body.endLine text) else none
  match url.bind b.urls.path? with
  | none => return none
  | some p => mapAt p

def Operation.taken : Operation → Edit m (Option (Bundle × Envelope))
  | setMap text => Bundle.mapIn text
  | loadMap p => Bundle.mapAt p
  | setText text autoload => Bundle.mapBehind text autoload
  | loadText p => do
    let p ← Bundle.access (Access.readablePath p)
    let text ← Bundle.access (Access.read p)
    Bundle.nameAfter p
    Bundle.mapBehind text true
  | _ => return none

end

/-- The map that an operation takes over, and the bundle that takes it over. -/
def Operation.taken? [FileSystem (StateM σ)] (op : Operation) (b : Bundle) (files : σ) :
    Option (Bundle × Envelope) :=
  match (op.taken.outcome b files).1.1 with
  | .ok found => found
  | .error _ => none

/-- The map that `y` finds is the one that `x` takes over. -/
def Edit.Takes (x : Edit (StateM σ) Unit) (y : Edit (StateM σ) (Option (Bundle × Envelope)))
    (b : Bundle) : Prop :=
  ∀ files,
    (∃ file e mapUrl body, (y.outcome b files).1.1 = .ok (some ({ b with file }, e)) ∧
      (x.outcome b files).1.2 = { ({ b with file } : Bundle).load e with mapUrl, body }) ∨
    ((∀ found, (y.outcome b files).1.1 ≠ .ok (some found)) ∧ b.Grows (x.outcome b files).1.2)

namespace Edit

theorem Grows.takes {x : Edit (StateM σ) Unit} {b : Bundle} (h : Grows x b) :
    Takes x (pure none) b :=
  fun files => .inr ⟨fun _ => nofun, h files⟩

theorem takes_access_bind {z : ExceptT AccessError (StateM σ) α} {f : α → Edit (StateM σ) Unit}
    {g : α → Edit (StateM σ) (Option (Bundle × Envelope))} {b : Bundle}
    (h : ∀ a, Takes (f a) (g a) b) : Takes (Bundle.access z >>= f) (Bundle.access z >>= g) b := by
  intro files
  rw [outcome_bind, outcome_bind, outcome_access]
  rcases z.run.run files with ⟨_ | a, files⟩
  · exact .inr ⟨fun _ => nofun, .refl b⟩
  · exact h a files

/-- Afterwards the body and the URL of the map may be set. -/
theorem Takes.bind_modify {x : Edit (StateM σ) Unit}
    {y : Edit (StateM σ) (Option (Bundle × Envelope))} {b : Bundle} (h : Takes x y b)
    {f : Bundle → Bundle}
    (hf : ∀ c, ∃ mapUrl body, f c = { c with mapUrl, body }) :
    Takes (x >>= fun _ => modify f) y b := by
  intro files
  have hx : ((x >>= fun _ => modify f).outcome b files).1.2 = (x.outcome b files).1.2 ∨
      ((x >>= fun _ => modify f).outcome b files).1.2 = f (x.outcome b files).1.2 := by
    rw [outcome_bind]
    rcases x.outcome b files with ⟨⟨_ | a, c⟩, files⟩
    · exact .inl rfl
    · exact .inr rfl
  obtain ⟨mapUrl, body, hc⟩ := hf (x.outcome b files).1.2
  rcases h files with ⟨file, e, mapUrl', body', hy, h⟩ | ⟨hy, h⟩
  · refine .inl ⟨file, e, ?_⟩
    rcases hx with hx | hx
    · exact ⟨mapUrl', body', hy, hx.trans h⟩
    · exact ⟨mapUrl, body, hy, by rw [hx, hc, h]⟩
  · refine .inr ⟨hy, ?_⟩
    rcases hx with hx | hx
    · rw [hx]
      exact h
    · rw [hx, hc]
      exact h.trans (Bundle.grows_describe ..)

end Edit

namespace Bundle

theorem readMap_of_ok {b : Bundle} {text : String} {e : Envelope} (h : Envelope.read text = .ok e) :
    b.readMap text = .ok (b.load e) := by
  rw [readMap, h]
  rfl

theorem readMap_of_error {b : Bundle} {text : String} {fault : Envelope.Fault}
    (h : Envelope.read text = .error fault) : b.readMap text = .error fault := by
  rw [readMap, h]
  rfl

/-- Only a text that holds a map changes the bundle. -/
theorem outcome_setMap (text : String) (b : Bundle) (files : σ) :
    (setMap text : Edit (StateM σ) Unit).outcome b files =
      match Envelope.read text with
      | .error fault => ((.error (.envelope fault), b), files)
      | .ok e => ((.ok (), b.load e), files) := by
  unfold setMap
  rw [Edit.outcome_bind, Edit.outcome_get]
  cases he : Envelope.read text with
  | error fault =>
    simp only [readMap_of_error he]
    rfl
  | ok e =>
    simp only [readMap_of_ok he]
    rfl

theorem takes_setMap (text : String) (b : Bundle) :
    Edit.Takes (setMap text : Edit (StateM σ) Unit) (mapIn text) b := by
  intro files
  have hy : ((mapIn text : Edit (StateM σ) _).outcome b files).1.1 =
      .ok ((Envelope.read text).toOption.map (b, ·)) := rfl
  rw [hy, outcome_setMap]
  cases Envelope.read text with
  | error fault => exact .inr ⟨fun _ => nofun, .refl b⟩
  | ok e => exact .inl ⟨b.file, e, (b.load e).mapUrl, (b.load e).body, rfl, rfl⟩

variable [FileSystem (StateM σ)]

theorem takes_loadMap (p : Path) (b : Bundle) :
    Edit.Takes (loadMap p : Edit (StateM σ) Unit) (mapAt p) b :=
  Edit.takes_access_bind fun _ => Edit.takes_access_bind fun text => takes_setMap text b

theorem takes_setText (text : String) (autoload : Bool) (b : Bundle) :
    Edit.Takes (setText text autoload : Edit (StateM σ) Unit) (mapBehind text autoload) b := by
  unfold setText mapBehind
  change Edit.Takes (if autoload && !b.hasMap then _ else _) (match Option.bind _ _ with
    | none => pure none
    | some p => mapAt p) b
  by_cases ha : autoload && !b.hasMap
  · rw [if_pos ha, if_pos ha]
    cases Body.mapUrl? (Body.endLine text) with
    | none => exact (grows_setBody b text).takes
    | some url =>
      change Edit.Takes (match b.urls.path? url with
        | none => _
        | some p => _) (match b.urls.path? url with
        | none => pure none
        | some p => mapAt p) b
      cases b.urls.path? url with
      | none =>
        refine Edit.Grows.takes fun files => ?_
        exact grows_describe b _ _ _ (some url) (some (Body.stripComments (Body.endLine text))) _ _
      | some p =>
        -- the URL and the body are set only where the map could be loaded
        refine (takes_loadMap p b).bind_modify
          (f := fun c => setBody { c with mapUrl := some url } text) fun c => ?_
        exact ⟨_, _, rfl⟩
  · rw [if_neg ha, if_neg ha]
    exact (grows_setBody b text).takes

theorem takes_loadText (p : Path) (b : Bundle) :
    Edit.Takes (loadText p : Edit (StateM σ) Unit) (Operation.loadText p).taken b := by
  refine Edit.takes_access_bind fun p => Edit.takes_access_bind fun text => ?_
  intro files
  obtain ⟨url, files', hurl⟩ : ∃ url files', (nameAfter p : Edit (StateM σ) Unit).outcome b files =
      ((.ok (), { b with file := url }), files') := ⟨_, _, rfl⟩
  rw [Edit.outcome_bind, Edit.outcome_bind, hurl]
  rcases takes_setText text true { b with file := url } files' with
    ⟨file, e, mapUrl, body, hy, h⟩ | ⟨hy, h⟩
  · exact .inl ⟨file, e, mapUrl, body, hy, h⟩
  · exact .inr ⟨hy, (grows_describe b url _ _ _ _ _ _).trans h⟩

end Bundle

/-! ## All operations -/

variable [FileSystem (StateM σ)]

theorem Operation.takes (op : Operation) (b : Bundle) :
    Edit.Takes (op.run : Edit (StateM σ) Unit) op.taken b := by
  unfold run taken
  cases op with
  | setMap text => exact Bundle.takes_setMap text b
  | loadMap p => exact Bundle.takes_loadMap p b
  | setText text autoload => exact Bundle.takes_setText text autoload b
  | loadText p => exact Bundle.takes_loadText p b
  | setFile | setSourceRoot | setMapUrl | setEmbedsContents | setUrls =>
    exact (Edit.grows_modify (Bundle.grows_describe ..)).takes
  | internSource source => exact (Edit.grows_modify (Bundle.Change.source b source).grows).takes
  | internName name => exact (Edit.grows_modify (Bundle.Change.name b name).grows).takes
  | addLine line =>
    refine (Edit.grows_changeTo ?_).takes
    cases h : b.addLine line with
    | error e => exact .refl b
    | ok c => exact Bundle.grows_addLine h
  | addNamedLine line => exact (Edit.grows_changeTo (Bundle.grows_addNamedLine b line)).takes
  | storeContents source contents =>
    exact (Edit.grows_modify (Bundle.grows_storeContents b source contents)).takes
  | append donor => exact (Edit.grows_changeTo (Bundle.grows_append b donor)).takes
  | saveMap p => exact (Bundle.fills_saveMap b p).grows.takes
  | contentsOf source => exact (Bundle.fills_contentsOf b source).discard.grows.takes
  | loadSource p url => exact (Bundle.fills_loadSource b p url).discard.grows.takes
  | fillContents => exact (Bundle.fills_fillContents b).grows.takes
  | saveText p withComment => exact (Bundle.fills_saveText b p withComment).grows.takes

/-- An operation either takes over a map, or makes small changes only. -/
theorem Operation.apply_cases (op : Operation) (b : Bundle) (files : σ) :
    (∃ file e mapUrl body, op.taken? b files = some ({ b with file }, e) ∧
      op.apply b files = { ({ b with file } : Bundle).load e with mapUrl, body }) ∨
    (op.taken? b files = none ∧ b.Grows (op.apply b files)) := by
  rcases op.takes b files with ⟨file, e, mapUrl, body, hy, h⟩ | ⟨hy, h⟩
  · exact .inl ⟨file, e, mapUrl, body, by rw [taken?, hy], h⟩
  · refine .inr ⟨?_, h⟩
    unfold taken?
    split
    · rename_i found hfound
      cases found with
      | none => rfl
      | some found => exact absurd hfound (hy found)
    · rfl

/-- The operation takes over no map, whatever the files are. -/
def Operation.keepsMap : Operation → Bool
  | setMap _ | loadMap _ | loadText _ => false
  | setText _ autoload => !autoload
  | _ => true

/-- Either the mappings stay as they are, or lines are added. -/
theorem Operation.apply_cases_of_keepsMap {op : Operation} (hop : op.keepsMap) (b : Bundle)
    (files : σ) :
    (b.Grows (op.apply b files) ∧ (op.apply b files).mappings = b.mappings) ∨
    (∃ line, op = .addLine line ∧ b.addLine line = .ok (op.apply b files)) ∨
    (∃ line, op = .addNamedLine line ∧ op.apply b files = (b.addNamedLine line).2) ∨
    ∃ donor, op = .append donor ∧ op.apply b files = (b.append donor).2 := by
  cases op with
  | setMap | loadMap | loadText => cases hop
  | setText text autoload =>
    obtain rfl : autoload = false := by simpa [keepsMap] using hop
    exact .inl ⟨Bundle.grows_describe .., rfl⟩
  | setFile | setSourceRoot | setMapUrl | setEmbedsContents | setUrls =>
    exact .inl ⟨Bundle.grows_describe .., rfl⟩
  | internSource source => exact .inl ⟨(Bundle.Change.source b source).grows, rfl⟩
  | internName name => exact .inl ⟨(Bundle.Change.name b name).grows, rfl⟩
  | storeContents source text => exact .inl ⟨Bundle.grows_storeContents b source text, rfl⟩
  | saveMap p => exact .inl (Bundle.fills_saveMap b p files)
  | contentsOf source => exact .inl ((Bundle.fills_contentsOf b source).discard files)
  | loadSource p url => exact .inl ((Bundle.fills_loadSource b p url).discard files)
  | fillContents => exact .inl (Bundle.fills_fillContents b files)
  | saveText p withComment => exact .inl (Bundle.fills_saveText b p withComment files)
  | addLine line =>
    have happ : (Operation.addLine line).apply b files = _ := Edit.outcome_changeTo _ b files
    cases hc : b.addLine line with
    | error e =>
      simp only [hc] at happ
      rw [happ]
      exact .inl ⟨.refl b, rfl⟩
    | ok c =>
      simp only [hc] at happ
      exact .inr (.inl ⟨line, rfl, by rw [happ, hc]⟩)
  | addNamedLine line =>
    exact .inr (.inr (.inl ⟨line, rfl, Edit.outcome_changeTo (·.addNamedLine line) b files⟩))
  | append donor =>
    exact .inr (.inr (.inr ⟨donor, rfl, Edit.outcome_changeTo (·.append donor) b files⟩))

theorem Bundle.consistent_load (b : Bundle) (e : Envelope) : (b.load e).mappings.Consistent := by
  unfold load
  dsimp only
  exact Mappings.consistent_ofText (e.mappings.getD "")

theorem Operation.consistent_apply {b : Bundle} (h : b.mappings.Consistent) (op : Operation)
    (files : σ) : (op.apply b files).mappings.Consistent := by
  rcases op.apply_cases b files with ⟨file, e, mapUrl, body, -, happ⟩ | ⟨-, hg⟩
  · rw [happ]
    dsimp only
    exact Bundle.consistent_load { b with file } e
  · exact hg.consistent h

theorem Bundle.Reachable.consistent {b : Bundle} (h : b.Reachable) : b.mappings.Consistent := by
  induction h with
  | empty urls => exact Mappings.consistent_empty
  | step hb op _ files ih _ => exact op.consistent_apply ih files

end SourceMap
