import SourceMap.Bundle.Operation
import SourceMap.Proofs.Growth.Append

/-!
# What changes with files come down to

Whatever the files are, a change that loads no map makes small changes of the bundle only, also
where it fails. Reading contents and saving leave the mappings alone as well.

## Main definitions

* `Edit.outcome` : what a change makes of a bundle and of the files.
* `Edit.Grows` : however the change ends, the bundle has grown.
* `Edit.Fills` : however the change ends, the bundle has grown and its mappings are as they were.

## Main statements

* `fills_contentsOf`, `fills_fillContents`, `fills_loadSource` : contents that are read.
* `fills_saveMap`, `fills_saveText` : saving.
-/

namespace SourceMap

variable {σ : Type}

/-- What a change makes of `b` and of the files. -/
def Edit.outcome (x : Edit (StateM σ) α) (b : Bundle) (files : σ) :
    (Except BundleError α × Bundle) × σ :=
  (x.runOn b : StateM σ _).run files

namespace Edit

theorem outcome_bind (x : Edit (StateM σ) α) (f : α → Edit (StateM σ) β) (b : Bundle) (files : σ) :
    (x >>= f).outcome b files =
      match x.outcome b files with
      | ((.ok a, c), files) => (f a).outcome c files
      | ((.error e, c), files) => ((.error e, c), files) := by
  unfold outcome runOn
  rw [ExceptT.run_bind, StateT.run_bind, StateT.run_bind]
  rcases (x.run.run b).run files with ⟨⟨_ | a, c⟩, files⟩ <;> rfl

theorem outcome_get (b : Bundle) (files : σ) :
    (get : Edit (StateM σ) Bundle).outcome b files = ((.ok b, b), files) := rfl

/-- An access to files leaves the bundle alone. -/
theorem outcome_access (x : ExceptT AccessError (StateM σ) α) (b : Bundle) (files : σ) :
    Edit.outcome (Bundle.access x) b files =
      (((x.run.run files).1.mapError .access, b), (x.run.run files).2) := by
  have hlift : (liftM x.run : Edit (StateM σ) (Except AccessError α)).outcome b files =
      ((.ok (x.run.run files).1, b), (x.run.run files).2) := rfl
  unfold Bundle.access
  rw [outcome_bind, hlift]
  rcases x.run.run files with ⟨_ | a, files⟩ <;> rfl

/-- However the change ends, the bundle has grown. -/
def Grows (x : Edit (StateM σ) α) (b : Bundle) : Prop := ∀ files, b.Grows (x.outcome b files).1.2

theorem grows_modify {f : Bundle → Bundle} {b : Bundle} (h : b.Grows (f b)) :
    Grows (modify f : Edit (StateM σ) PUnit) b :=
  fun _ => h

/-- However the change ends, the bundle has grown and its mappings are as they were. -/
def Fills (x : Edit (StateM σ) α) (b : Bundle) : Prop :=
  ∀ files, b.Grows (x.outcome b files).1.2 ∧ (x.outcome b files).1.2.mappings = b.mappings

theorem Fills.grows {x : Edit (StateM σ) α} {b : Bundle} (h : Fills x b) : Grows x b :=
  fun files => (h files).1

theorem Fills.bind {x : Edit (StateM σ) α} {f : α → Edit (StateM σ) β} {b : Bundle}
    (hx : Fills x b) (hf : ∀ a c, b.Grows c → Fills (f a) c) : Fills (x >>= f) b := by
  intro files
  obtain ⟨hgrows, hmappings⟩ := hx files
  rw [outcome_bind]
  rcases hr : x.outcome b files with ⟨⟨_ | a, c⟩, files'⟩ <;> rw [hr] at hgrows hmappings
  · exact ⟨hgrows, hmappings⟩
  · obtain ⟨hgrows', hmappings'⟩ := hf a c hgrows files'
    exact ⟨hgrows.trans hgrows', hmappings'.trans hmappings⟩

theorem fills_access (x : ExceptT AccessError (StateM σ) α) (b : Bundle) :
    Fills (Bundle.access x) b := by
  intro files
  rw [outcome_access]
  exact ⟨.refl b, rfl⟩

theorem fills_access_bind {x : ExceptT AccessError (StateM σ) α} {f : α → Edit (StateM σ) β}
    {b : Bundle} (h : ∀ a, Fills (f a) b) : Fills (Bundle.access x >>= f) b := by
  intro files
  rw [outcome_bind, outcome_access]
  rcases x.run.run files with ⟨_ | a, files⟩
  · exact ⟨.refl b, rfl⟩
  · exact h a files

theorem discard_eq_bind (x : Edit (StateM σ) α) :
    Functor.discard x = x >>= fun _ => pure PUnit.unit := by
  rw [bind_pure_comp]
  rfl

theorem Fills.discard {x : Edit (StateM σ) α} {b : Bundle} (h : Fills x b) :
    Fills (discard x) b := by
  rw [discard_eq_bind]
  exact h.bind fun _ c _ _ => ⟨.refl c, rfl⟩

theorem outcome_changeTo_eq (change : Bundle → Except MappingError Unit × Bundle) (b : Bundle)
    (files : σ) : Edit.outcome (Operation.changeTo change) b files =
      (((change b).1.mapError .mapping, (change b).2), files) := by
  unfold Operation.changeTo
  rw [outcome_bind, outcome_get]
  rcases hc : change b with ⟨_ | _, c⟩ <;> simp only [hc] <;> rfl

/-- A change that fails still leaves the bundle that it reached. -/
theorem outcome_changeTo (change : Bundle → Except MappingError Unit × Bundle) (b : Bundle)
    (files : σ) : (Edit.outcome (Operation.changeTo change) b files).1.2 = (change b).2 := by
  rw [outcome_changeTo_eq]

theorem grows_changeTo {change : Bundle → Except MappingError Unit × Bundle} {b : Bundle}
    (h : b.Grows (change b).2) : Grows (Operation.changeTo change : Edit (StateM σ) Unit) b := by
  intro files
  rw [outcome_changeTo]
  exact h

end Edit

namespace Bundle

theorem grows_addLine {b c : Bundle} {line : Line} (h : b.addLine line = .ok c) : b.Grows c := by
  unfold addLine at h
  cases hn : line.forM fun s => discard (b.nameSegment s) with
  | error e =>
    rw [hn] at h
    cases h
  | ok u =>
    rw [hn] at h
    cases hm : b.mappings.append line with
    | error e => simp [hm, bind, Except.bind] at h
    | ok m =>
      obtain rfl : { b with mappings := m } = c := by
        simpa [hm, bind, Except.bind, pure, Except.pure] using h
      exact (Change.line hm).grows

theorem grows_describe (b : Bundle) (file sourceRoot : Option String) (embedsContents : Bool)
    (mapUrl body : Option String) (hasMap : Bool) (urls : UrlTable) :
    b.Grows { b with file, sourceRoot, embedsContents, mapUrl, body, hasMap, urls } :=
  (Change.describe b file sourceRoot embedsContents mapUrl body hasMap urls).grows

theorem grows_setBody (b : Bundle) (text : String) :
    Edit.Grows (modify fun c => c.setBody text : Edit (StateM σ) Unit) b :=
  fun _ => grows_describe b _ _ _ _ _ _ _

variable [FileSystem (StateM σ)]

/-- Nothing changes but that the contents of a source may have been stored. -/
theorem contentsOf_cases (b : Bundle) (url : String) (files : σ) :
    (((contentsOf? url).run b : StateM σ _).run files).1.2 = b ∨
      ∃ i text, i < b.sources.size ∧ (((contentsOf? url).run b : StateM σ _).run files).1.2 =
        { b with contents := b.contents.insert i text } := by
  unfold contentsOf?
  cases hi : b.sources.index? url with
  | none =>
    simp only [StateT.run_bind, StateT.run_get, pure_bind, hi]
    exact .inl rfl
  | some i =>
    cases ht : b.contents.get? i with
    | some text =>
      simp only [StateT.run_bind, StateT.run_get, pure_bind, hi, ht]
      exact .inl rfl
    | none =>
      simp only [StateT.run_bind, StateT.run_get, StateT.run_monadLift, pure_bind, bind_assoc, hi,
        ht]
      rcases (b.fetch? url : StateM σ _).run files with ⟨_ | text, files'⟩
      · exact .inl rfl
      · exact .inr ⟨i, text, StringTable.lt_size_of_index? hi, rfl⟩

theorem fills_contentsOf (b : Bundle) (url : String) :
    Edit.Fills (ExceptT.lift (contentsOf? url) : Edit (StateM σ) _) b := by
  intro files
  let c := (((contentsOf? url).run b : StateM σ _).run files).1.2
  change b.Grows c ∧ c.mappings = b.mappings
  rcases b.contentsOf_cases url files with h | ⟨i, text, hi, h⟩ <;> dsimp only [c] <;> rw [h]
  · exact ⟨.refl b, rfl⟩
  · exact ⟨(Change.contents hi text).grows, rfl⟩

/-- What holds before, and after contents of one source have been stored, holds at the end. -/
theorem fetchAll_keeps {P : Bundle → Prop} {es : List (Nat × String)}
    (hstep : ∀ c, ∀ e ∈ es, ∀ text, P c → P { c with contents := c.contents.insert e.1 text })
    {b : Bundle} (hb : P b) (files : σ) : P ((b.fetchAll es : StateM σ Bundle).run files).1 := by
  induction es generalizing b files with
  | nil => exact hb
  | cons e es ih =>
    obtain ⟨i, url⟩ := e
    have hrest := fun c e he => hstep c e (List.mem_cons_of_mem _ he)
    unfold fetchAll
    rw [StateT.run_bind]
    rcases (b.fetch? url : StateM σ _).run files with ⟨_ | text, files'⟩
    · exact ih hrest hb files'
    · exact ih hrest (hstep b _ List.mem_cons_self text hb) files'

theorem fills_fetchAll {b : Bundle} {es : List (Nat × String)}
    (h : ∀ e ∈ es, e.1 < b.sources.size) (files : σ) :
    b.Grows ((b.fetchAll es : StateM σ Bundle).run files).1 ∧
      ((b.fetchAll es : StateM σ Bundle).run files).1.mappings = b.mappings := by
  refine fetchAll_keeps (P := fun c => b.Grows c ∧ c.mappings = b.mappings) ?_ ⟨.refl b, rfl⟩ files
  rintro c e he text ⟨hgrows, hmappings⟩
  have hi : e.1 < c.sources.size := Nat.lt_of_lt_of_le (h e he) hgrows.tables.sources.length_le
  exact ⟨hgrows.trans (Change.contents hi text).grows, hmappings⟩

theorem fills_fillContents (b : Bundle) :
    Edit.Fills (ExceptT.lift fillContents : Edit (StateM σ) Unit) b := by
  intro files
  have hmissing : ∀ e ∈ b.sources.entries.filter fun e => (b.contents.get? e.1).isNone,
      e.1 < b.sources.size :=
    fun _ he => StringTable.lt_size_of_mem_entries (List.mem_filter.1 he).1
  exact fills_fetchAll hmissing files

theorem fills_loadSource (b : Bundle) (p : Path) (url : Option String) :
    Edit.Fills (loadSource p url : Edit (StateM σ) Nat) b := by
  refine Edit.fills_access_bind fun text => ?_
  intro files
  cases url with
  | some url => exact ⟨grows_storeContents b url text, rfl⟩
  | none => exact ⟨grows_storeContents b _ text, rfl⟩

theorem fills_saveMap (b : Bundle) (p : Path) :
    Edit.Fills (saveMap p : Edit (StateM σ) Unit) b := by
  refine Edit.fills_access_bind fun _ => ?_
  have hwrite : ∀ c : Bundle, Edit.Fills (get >>= fun d => access (Access.write p d.mapText) :
      Edit (StateM σ) Unit) c := fun c => Edit.fills_access _ c
  change Edit.Fills (if b.embedsContents then _ else _) b
  split_ifs
  · exact (fills_fillContents b).bind fun _ c _ => hwrite c
  · exact hwrite b

theorem fills_nameAfter (b : Bundle) (p : Path) :
    Edit.Fills (nameAfter p : Edit (StateM σ) Unit) b :=
  fun _ => ⟨grows_describe b _ _ _ _ _ _ _, rfl⟩

theorem fills_saveText (b : Bundle) (p : Path) (withComment : Bool) :
    Edit.Fills (saveText p withComment : Edit (StateM σ) Unit) b := by
  refine Edit.fills_access_bind fun _ => ?_
  refine (fills_nameAfter b p).bind fun _ c _ => ?_
  exact Edit.fills_access _ c

end Bundle

end SourceMap
