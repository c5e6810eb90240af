import SourceMap.Proofs.Merge.Load

/-!
# Saving

Saving looks at files, changes nothing of the map but the name of the file and the contents that are
embedded, and then writes one file.

## Main definitions

* `UrlTable.urlAt` : the URL of a path, with the files as they are.
* `Bundle.filledAt` : the bundle with the contents that saving its map embeds.

## Main statements

* `Bundle.saveText_eq_ok_iff`, `Bundle.saveMap_eq_ok_iff` : when saving succeeds, and what has been
  written then.
-/

namespace SourceMap

variable {σ : Type}

theorem Edit.outcome_access_eq_ok_iff {x : ExceptT AccessError (StateM σ) α} {a : α}
    {b c : Bundle} {s s' : σ} : Edit.outcome (Bundle.access x) b s = ((.ok a, c), s') ↔
      x.run.run s = (.ok a, s') ∧ c = b := by
  rw [outcome_access]
  rcases x.run.run s with ⟨_ | a', t⟩
  · exact iff_of_false nofun nofun
  · constructor
    · rintro ⟨⟩
      exact ⟨rfl, rfl⟩
    · rintro ⟨⟨⟩, rfl⟩
      rfl

variable [FileSystem (StateM σ)]

theorem Access.write_eq_ok_iff {p : Path} {text : String} {s s' : σ} :
    (write p text : ExceptT AccessError (StateM σ) Unit).run.run s = (.ok (), s') ↔
      (FileSystem.writeText p text : StateM σ _).run s = (.ok (), s') := by
  unfold write
  rw [run_lift_bind]
  rcases (FileSystem.writeText p text : StateM σ _).run s with ⟨_ | _, t⟩
  · exact iff_of_false nofun nofun
  · constructor <;> rintro ⟨⟩ <;> rfl

/-- The URL of `p` where the files are `s`. -/
def UrlTable.urlAt (t : UrlTable) (p : Path) (s : σ) : Option String :=
  ((t.urlOf? p : StateM σ _).run s).1

namespace Bundle

/-- The contents that there are in `s` for sources without any, if contents are to be saved. -/
def filledAt (b : Bundle) (s : σ) : Bundle :=
  if b.embedsContents then ((fillContents.run b : StateM σ _).run s).1.2 else b

variable [FileStore σ]

theorem outcome_nameAfter (p : Path) (b : Bundle) (s : σ) :
    (nameAfter p : Edit (StateM σ) Unit).outcome b s =
      ((.ok (), { b with file := b.urls.urlAt p s }), s) :=
  congrArg (fun t : σ => ((Except.ok (), { b with file := b.urls.urlAt p s }), t))
    (b.urls.keepsFiles_urlOf? p s)

theorem keepsFiles_fetch? (b : Bundle) (url : String) : KeepsFiles (b.fetch? url : StateM σ _) := by
  unfold fetch?
  cases b.urls.path? url with
  | none => exact .pure none
  | some p => exact .bind (FileStore.readText_keeps p) fun _ => .pure _

/-- Fetching looks at files, and changes contents only. -/
theorem fetchAll_spec (b : Bundle) (es : List (Nat × String)) (s : σ) :
    ∃ contents, (b.fetchAll es : StateM σ Bundle).run s = ({ b with contents }, s) := by
  induction es generalizing b with
  | nil => exact ⟨b.contents, rfl⟩
  | cons e es ih =>
    obtain ⟨i, url⟩ := e
    obtain ⟨found, hf⟩ := (keepsFiles_fetch? b url).exists_run_eq s
    unfold fetchAll
    rw [StateT.run_bind, hf]
    cases found with
    | none => exact ih b
    | some text =>
      obtain ⟨contents, h⟩ := ih { b with contents := b.contents.insert i text }
      exact ⟨contents, h⟩

/-- The sources that have no contents. -/
def missing (b : Bundle) : List (Nat × String) :=
  b.sources.entries.filter fun e => (b.contents.get? e.1).isNone

theorem run_fillContents (b : Bundle) (s : σ) :
    (fillContents.run b : StateM σ _).run s =
      (((), ((b.fetchAll b.missing : StateM σ Bundle).run s).1), s) := by
  obtain ⟨contents, h⟩ := fetchAll_spec b b.missing s
  rw [h]
  exact congrArg (fun r : Bundle × σ => (((), r.1), r.2)) h

theorem outcome_fillContents (b : Bundle) (s : σ) :
    Edit.outcome (ExceptT.lift fillContents : Edit (StateM σ) Unit) b s =
      ((.ok (), ((b.fetchAll b.missing : StateM σ Bundle).run s).1), s) :=
  congrArg (fun r : (Unit × Bundle) × σ => ((Except.ok r.1.1, r.1.2), r.2)) (run_fillContents b s)

theorem exists_filledAt (b : Bundle) (s : σ) : ∃ contents, b.filledAt s = { b with contents } := by
  unfold filledAt
  rw [run_fillContents]
  split
  · obtain ⟨contents, h⟩ := fetchAll_spec b b.missing s
    exact ⟨contents, by rw [h]⟩
  · exact ⟨b.contents, rfl⟩

/-- The text is written, with the comment if there is to be one, and the file is named. -/
theorem saveText_eq_ok_iff {p : Path} {withComment : Bool} {b c : Bundle} {s s' : σ} :
    Edit.outcome (saveText p withComment : Edit (StateM σ) Unit) b s = ((.ok (), c), s') ↔
      (Access.requireWritable p : ExceptT AccessError (StateM σ) Unit).run.run s = (.ok (), s) ∧
      (FileSystem.writeText p (b.text withComment) : StateM σ _).run s = (.ok (), s') ∧
        c = { b with file := b.urls.urlAt p s } := by
  constructor
  · intro h
    obtain ⟨_, d, t, haccess, hsave⟩ := Edit.outcome_bind_eq_ok.1 h
    obtain ⟨rfl, rfl⟩ :=
      (Edit.looks_access (Access.keepsFiles_requireWritable p)).of_outcome haccess
    rw [Edit.outcome_bind, outcome_nameAfter] at hsave
    obtain ⟨hwrite, rfl⟩ := Edit.outcome_access_eq_ok_iff.1 hsave
    exact ⟨(Edit.outcome_access_eq_ok_iff.1 haccess).1, Access.write_eq_ok_iff.1 hwrite, rfl⟩
  · rintro ⟨haccess, hwrite, rfl⟩
    unfold saveText
    rw [Edit.outcome_bind, Edit.outcome_access_eq_ok_iff.2 ⟨haccess, rfl⟩]
    dsimp only
    rw [Edit.outcome_bind, outcome_nameAfter]
    exact Edit.outcome_access_eq_ok_iff.2 ⟨Access.write_eq_ok_iff.2 hwrite, rfl⟩

/-- The map is written, with the contents that are found for it. -/
theorem saveMap_eq_ok_iff {p : Path} {b c : Bundle} {s s' : σ} :
    Edit.outcome (saveMap p : Edit (StateM σ) Unit) b s = ((.ok (), c), s') ↔
      (Access.requireWritable p : ExceptT AccessError (StateM σ) Unit).run.run s = (.ok (), s) ∧
      (FileSystem.writeText p (b.filledAt s).mapText : StateM σ _).run s = (.ok (), s') ∧
        c = b.filledAt s := by
  have hfilled (c : Bundle) (t : σ) : c.filledAt t =
      if c.embedsContents then ((c.fetchAll c.missing : StateM σ Bundle).run t).1 else c := by
    rw [filledAt, run_fillContents]
  unfold saveMap
  constructor
  · intro h
    obtain ⟨_, d, t, haccess, hsave⟩ := Edit.outcome_bind_eq_ok.1 h
    obtain ⟨rfl, rfl⟩ :=
      (Edit.looks_access (Access.keepsFiles_requireWritable p)).of_outcome haccess
    refine ⟨(Edit.outcome_access_eq_ok_iff.1 haccess).1, ?_⟩
    rw [Edit.outcome_bind, Edit.outcome_get] at hsave
    dsimp only at hsave
    rw [hfilled]
    split_ifs at hsave ⊢
    · rw [Edit.outcome_bind, outcome_fillContents] at hsave
      obtain ⟨hwrite, rfl⟩ := Edit.outcome_access_eq_ok_iff.1 hsave
      exact ⟨Access.write_eq_ok_iff.1 hwrite, rfl⟩
    · obtain ⟨hwrite, rfl⟩ := Edit.outcome_access_eq_ok_iff.1 hsave
      exact ⟨Access.write_eq_ok_iff.1 hwrite, rfl⟩
  · rintro ⟨haccess, hwrite, rfl⟩
    rw [Edit.outcome_bind, Edit.outcome_access_eq_ok_iff.2 ⟨haccess, rfl⟩]
    dsimp only
    rw [Edit.outcome_bind, Edit.outcome_get]
    dsimp only
    rw [hfilled] at hwrite ⊢
    split_ifs at hwrite ⊢
    · rw [Edit.outcome_bind, outcome_fillContents]
      exact Edit.outcome_access_eq_ok_iff.2 ⟨Access.write_eq_ok_iff.2 hwrite, rfl⟩
    · exact Edit.outcome_access_eq_ok_iff.2 ⟨Access.write_eq_ok_iff.2 hwrite, rfl⟩

end Bundle

end SourceMap
