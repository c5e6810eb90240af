import SourceMap.Proofs.Comments.Survivors
import SourceMap.Proofs.Growth.Readable
import SourceMap.Proofs.RoundTrip.Text

/-!
# Bodies that are read back

Whatever operations lead to a bundle, its body is empty or ends in a line feed. So the comment that
is written behind it stands on a line of its own, keeps the empty lines in front of it from being
taken off, and is taken out again when the text is read.

## Main definitions

* `Edit.Keeps` : however the change ends, a property of bundles is kept.
* `Bundle.Whole` : a line starts behind the body.

## Main statements

* `Operation.keeps_whole` : every operation keeps bodies whole.
* `setText_text_of_reachable` : a text that is written with its comment is read as the same body.
-/

namespace SourceMap

variable {σ : Type}

namespace Body

theorem Complete.dropComments {cs : List Char} (h : Complete cs) :
    Complete (dropComments true cs) := by
  induction cs using lines_induction with
  | last body hbody =>
    obtain rfl | ⟨front, rfl⟩ := h
    · rw [dropComments_nil]
      exact complete_nil
    · simp at hbody
  | line body rest hbody ih =>
    have hline : Complete (leftover (body ++ ['\n'])) :=
      Complete.of_suffix (.inr ⟨body, rfl⟩) (leftover_suffix _)
    have hrest : rest <:+ body ++ '\n' :: rest := ⟨body ++ ['\n'], by simp⟩
    rw [dropComments_line hbody]
    exact hline.append (ih (h.of_suffix hrest))

theorem complete_endLine (text : String) : Complete (endLine text).toList :=
  .inr ⟨_, by rw [endLine, String.toList_append]; rfl⟩

theorem complete_emptyLines (n : Nat) : Complete (emptyLines n).toList := by
  rw [emptyLines, String.toList_ofList]
  cases n with
  | zero => exact complete_nil
  | succ n => exact .inr ⟨_, List.replicate_succ'⟩

end Body

/-! ## Properties that a change keeps -/

namespace Edit

/-- However the change ends, the bundle has the property if it had it before. -/
def Keeps (P : Bundle → Prop) (x : Edit (StateM σ) α) : Prop :=
  ∀ b files, P b → P (x.outcome b files).1.2

variable {P : Bundle → Prop}

theorem Keeps.bind {x : Edit (StateM σ) α} {f : α → Edit (StateM σ) β} (hx : Keeps P x)
    (hf : ∀ a, Keeps P (f a)) : Keeps P (x >>= f) := by
  intro b files hb
  have hc := hx b files hb
  rw [outcome_bind]
  rcases hr : x.outcome b files with ⟨⟨_ | a, c⟩, files'⟩ <;> rw [hr] at hc
  · exact hc
  · exact hf a c files' hc

theorem keeps_pure (a : α) : Keeps P (pure a : Edit (StateM σ) α) := fun _ _ hb => hb

theorem Keeps.discard {x : Edit (StateM σ) α} (h : Keeps P x) : Keeps P (discard x) := by
  rw [discard_eq_bind]
  exact h.bind fun _ => keeps_pure _

theorem keeps_modify {f : Bundle → Bundle} (h : ∀ b, P b → P (f b)) :
    Keeps P (modify f : Edit (StateM σ) PUnit) :=
  fun b _ hb => h b hb

/-- What is read from the bundle may decide what is done. -/
theorem keeps_get_bind {f : Bundle → Edit (StateM σ) α} (h : ∀ b, Keeps P (f b)) :
    Keeps P (get >>= f) :=
  fun b files hb => h b b files hb

theorem keeps_access (x : ExceptT AccessError (StateM σ) α) : Keeps P (Bundle.access x) := by
  intro b files hb
  rwa [outcome_access]

theorem keeps_changeTo {change : Bundle → Except MappingError Unit × Bundle}
    (h : ∀ b, P b → P (change b).2) :
    Keeps P (Operation.changeTo change : Edit (StateM σ) Unit) := by
  intro b files hb
  rw [outcome_changeTo]
  exact h b hb

end Edit

/-! ## Whole bodies -/

namespace Bundle

/-- A line starts behind the body, if there is one. -/
def Whole (b : Bundle) : Prop := ∀ body ∈ b.body, Body.Complete body.toList

theorem whole_empty (urls : UrlTable) : (empty urls).Whole := nofun

theorem whole_setBody (b : Bundle) (text : String) : (b.setBody text).Whole := by
  rintro body ⟨⟩
  rw [Body.stripComments, String.toList_ofList]
  exact (Body.complete_endLine text).dropComments

theorem Whole.fullBody {b : Bundle} (h : b.Whole) : Body.Complete b.fullBody.toList := by
  rw [Bundle.fullBody, String.toList_append]
  refine Body.Complete.append ?_ (Body.complete_emptyLines _)
  cases hbody : b.body with
  | none => exact Body.complete_nil
  | some body => exact h body hbody

theorem Whole.append {b donor : Bundle} (hb : b.Whole) (hd : donor.Whole)
    (hm : donor.mappings.Consistent) : (b.append donor).2.Whole := by
  rcases append_cases b donor with ⟨e, happ⟩ | ⟨lines, m, hlines, hr⟩
  · rwa [happ]
  · obtain ⟨embeds, happ⟩ := append_of_ok hlines hr
    obtain ⟨sources, contents, hstored⟩ := storeAll_frame
      ({ b with mappings := m }.joined donor lines) donor.sources donor.contents.entries
    have hbody := body_joined (b := { b with mappings := m }) (Mappings.isSome_last_of_resume hr)
      (length_of_namedLines hm hlines)
    have hfull : Whole { b with mappings := m } := hb
    rw [happ, hstored]
    intro body h
    replace h : (joined { b with mappings := m } donor lines).body = some body := h
    rw [hbody] at h
    split_ifs at h
    cases h
    rw [String.toList_append]
    exact hfull.fullBody.append hd.fullBody

/-! ## Operations -/

theorem keeps_setMap (text : String) : Edit.Keeps Whole (setMap text : Edit (StateM σ) Unit) := by
  intro b files hb
  rw [outcome_setMap]
  cases Envelope.read text <;> exact hb

variable [FileSystem (StateM σ)]

theorem keeps_loadMap (p : Path) : Edit.Keeps Whole (loadMap p : Edit (StateM σ) Unit) :=
  (Edit.keeps_access _).bind fun _ => (Edit.keeps_access _).bind keeps_setMap

theorem keeps_setText (text : String) (autoload : Bool) :
    Edit.Keeps Whole (setText text autoload : Edit (StateM σ) Unit) := by
  have hset : Edit.Keeps Whole (modify fun b => b.setBody text : Edit (StateM σ) Unit) :=
    Edit.keeps_modify fun b _ => whole_setBody b text
  refine Edit.keeps_get_bind fun b => ?_
  split_ifs
  · cases Body.mapUrl? (Body.endLine text) with
    | none => exact hset
    | some url =>
      have hurl : Edit.Keeps Whole (modify fun b => { b with mapUrl := some url } :
          Edit (StateM σ) Unit) := Edit.keeps_modify fun _ hb => hb
      refine Edit.keeps_get_bind fun b => ?_
      cases b.urls.path? url with
      | none => exact hurl.bind fun _ => hset
      | some p => exact (keeps_loadMap p).bind fun _ => hurl.bind fun _ => hset
  · exact hset

theorem keeps_nameAfter (p : Path) : Edit.Keeps Whole (nameAfter p : Edit (StateM σ) Unit) :=
  fun _ _ hb => hb

theorem keeps_loadText (p : Path) : Edit.Keeps Whole (loadText p : Edit (StateM σ) Unit) :=
  (Edit.keeps_access _).bind fun q => (Edit.keeps_access _).bind fun text =>
    (keeps_nameAfter q).bind fun _ => keeps_setText text true

theorem keeps_saveText (p : Path) (withComment : Bool) :
    Edit.Keeps Whole (saveText p withComment : Edit (StateM σ) Unit) :=
  (Edit.keeps_access _).bind fun _ => (keeps_nameAfter p).bind fun _ =>
    Edit.keeps_get_bind fun _ => Edit.keeps_access _

theorem keeps_loadSource (p : Path) (url : Option String) :
    Edit.Keeps Whole (loadSource p url : Edit (StateM σ) Nat) := by
  refine (Edit.keeps_access _).bind fun text => ?_
  cases url <;> exact fun _ _ hb => hb

theorem keeps_contentsOf (source : String) :
    Edit.Keeps Whole (ExceptT.lift (contentsOf? source) : Edit (StateM σ) _) := by
  intro b files hb
  change Whole (((contentsOf? source).run b : StateM σ _).run files).1.2
  rcases b.contentsOf_cases source files with h | ⟨i, text, -, h⟩ <;> rw [h] <;> exact hb

theorem keeps_fillContents :
    Edit.Keeps Whole (ExceptT.lift fillContents : Edit (StateM σ) Unit) :=
  fun _ files hb => fetchAll_keeps (P := Whole) (fun _ _ _ _ hc => hc) hb files

theorem keeps_saveMap (p : Path) : Edit.Keeps Whole (saveMap p : Edit (StateM σ) Unit) := by
  refine (Edit.keeps_access _).bind fun _ => Edit.keeps_get_bind fun b => ?_
  have hwrite : Edit.Keeps Whole (get >>= fun d => access (Access.write p d.mapText) :
      Edit (StateM σ) Unit) := Edit.keeps_get_bind fun _ => Edit.keeps_access _
  split_ifs
  · exact keeps_fillContents.bind fun _ => hwrite
  · exact hwrite

end Bundle

variable [FileSystem (StateM σ)]

/-- Every operation keeps bodies whole, if that of a bundle that is appended is whole. -/
theorem Operation.keeps_whole {op : Operation}
    (hdonor : ∀ donor, op = .append donor → donor.Whole ∧ donor.mappings.Consistent) :
    Edit.Keeps Bundle.Whole (op.run : Edit (StateM σ) Unit) := by
  cases op with
  | setMap text => exact Bundle.keeps_setMap text
  | loadMap p => exact Bundle.keeps_loadMap p
  | setText text autoload => exact Bundle.keeps_setText text autoload
  | loadText p => exact Bundle.keeps_loadText p
  | setFile | setSourceRoot | setMapUrl | setEmbedsContents | setUrls | internSource | internName
  | storeContents => exact Edit.keeps_modify fun _ hb => hb
  | addLine line =>
    refine Edit.keeps_changeTo fun b hb => ?_
    cases hc : b.addLine line with
    | error e => exact hb
    | ok c =>
      obtain ⟨-, _, -, rfl⟩ := Bundle.addLine_eq_ok_iff.1 hc
      exact hb
  | addNamedLine line =>
    refine Edit.keeps_changeTo fun b hb => ?_
    change (b.addNamedLine line).2.Whole
    obtain ⟨sources, names, mappings, h⟩ := Bundle.addNamedLine_frame b line
    rwa [h]
  | append donor =>
    obtain ⟨hd, hm⟩ := hdonor donor rfl
    exact Edit.keeps_changeTo fun b hb => hb.append hd hm
  | saveMap p => exact Bundle.keeps_saveMap p
  | contentsOf source => exact (Bundle.keeps_contentsOf source).discard
  | loadSource p url => exact (Bundle.keeps_loadSource p url).discard
  | fillContents => exact Bundle.keeps_fillContents
  | saveText p withComment => exact Bundle.keeps_saveText p withComment

theorem Bundle.Reachable.whole {b : Bundle} (h : b.Reachable) : b.Whole := by
  induction h with
  | empty urls => exact Bundle.whole_empty urls
  | @step b hb op hdonor _ _ files ih ihdonor =>
    refine Operation.keeps_whole (fun donor hop => ?_) b files ih
    exact ⟨ihdonor donor hop, (hdonor donor hop).consistent⟩

/-! ## Writing and reading a body -/

namespace Body

/-- A comment line is what opens a comment, the URL and a line feed. -/
theorem exists_opening_commentLine : ∃ head, Opening head ∧
    ∀ url, (commentLine url).toList = head ++ url.toList ++ ['\n'] := by
  have hword : List.Forall₂ (fun letter c => isLetter letter c) keyword
      "sourceMappingURL".toList := by
    decide +kernel
  have hblank : ∀ c ∈ [' '], c = ' ' ∨ c = '\t' := by simp
  have hhead : "//# sourceMappingURL=".toList =
      '/' :: '/' :: '#' :: ([' '] ++ "sourceMappingURL".toList ++ [] ++ ['=']) := by
    decide +kernel
  have hend : "\n".toList = ['\n'] := by decide
  refine ⟨_, .intro '#' [' '] _ [] (.inl rfl) hblank hword nofun, fun url => ?_⟩
  unfold commentLine
  rw [String.toList_append, String.toList_append, hhead, hend]

theorem comment?_commentLine {url : String} (h : ∀ c ∈ url.toList, isBreak c = false) :
    comment? (commentLine url).toList = some (url.toList, ['\n']) := by
  obtain ⟨head, hhead, hline⟩ := exists_opening_commentLine
  rw [hline, List.append_assoc]
  exact comment?_eq_some_iff.2 ⟨⟨head, hhead, rfl⟩, h, by simp [isBreak]⟩

theorem firstValue?_of_comment {cs value rest : List Char} (h : comment? cs = some (value, rest)) :
    firstValue? true cs = some value := by
  cases cs with
  | nil => cases h
  | cons c cs => simp [firstValue?, commentAt?, h]

variable {body url : String}

/-- The line feed of the comment is the only line break at the end. -/
theorem endLine_append_commentLine (h : ∀ c ∈ url.toList, isBreak c = false) (body : String) :
    endLine (body ++ commentLine url) = body ++ commentLine url := by
  obtain ⟨head, hhead, hline⟩ := exists_opening_commentLine
  have hne : head ++ url.toList ≠ [] := by
    obtain ⟨⟩ := hhead
    exact List.cons_ne_nil _ _
  have hbreak : ∀ c ∈ head ++ url.toList, isBreak c = false := by
    intro c hc
    exact (List.mem_append.1 hc).elim (hhead.isBreak_eq_false c) (h c)
  have htext :
      (body ++ commentLine url).toList = body.toList ++ (head ++ url.toList) ++ ['\n'] := by
    rw [String.toList_append, hline, List.append_assoc body.toList]
  rw [endLine, htext, Text.dropEndWhile_append_singleton, if_pos (by decide),
    Text.dropEndWhile_append_of_getLast hne (hbreak _ (List.getLast_mem hne)),
    ← String.toList_inj, htext, String.toList_append, String.toList_ofList]
  rfl

theorem mapUrl?_append_commentLine (hbody : Complete body.toList) (hnone : mapUrl? body = none)
    (h : ∀ c ∈ url.toList, isBreak c = false) :
    mapUrl? (body ++ commentLine url) = some (String.ofList (Text.trim url.toList)) := by
  rw [mapUrl?, Option.map_eq_none_iff] at hnone
  rw [mapUrl?, String.toList_append, firstValue?_append hbody, hnone,
    firstValue?_of_comment (comment?_commentLine h)]
  rfl

theorem stripComments_append_commentLine (hbody : Complete body.toList)
    (hnone : mapUrl? body = none) (h : ∀ c ∈ url.toList, isBreak c = false) :
    stripComments (body ++ commentLine url) = body := by
  rw [mapUrl?, Option.map_eq_none_iff] at hnone
  rw [stripComments, String.toList_append, dropComments_append hbody,
    dropComments_eq_self_iff.2 hnone, dropComments_of_comment (comment?_commentLine h)]
  simp [dropBreak]

end Body

namespace Bundle

/-- Where the URL leads to no local path, it is kept and no map is loaded. -/
theorem outcome_setText_of_path?_eq_none {b : Bundle} (hb : b.hasMap = false) {text url : String}
    (hurl : Body.mapUrl? (Body.endLine text) = some url) (hpath : b.urls.path? url = none)
    (files : σ) : (setText text true : Edit (StateM σ) Unit).outcome b files =
      ((.ok (), ({ b with mapUrl := some url } : Bundle).setBody text), files) := by
  have hcond : (true && !b.hasMap) = true := by rw [hb]; rfl
  unfold setText
  rw [Edit.outcome_bind, Edit.outcome_get]
  dsimp only
  rw [if_pos hcond, hurl]
  dsimp only
  rw [Edit.outcome_bind, Edit.outcome_get]
  dsimp only
  rw [hpath]
  rfl

/-- The body is empty or ends in a line feed. If it has no comment, it is read back as it is, with
the URL that was written behind it. -/
theorem setText_text_of_reachable {b : Bundle} (hb : b.Reachable) :
    (∀ body, b.body = some body → Body.Complete body.toList) ∧
      ∀ body url, b.body = some body → Body.mapUrl? body = none →
        '\r' ∉ url.toList → '\n' ∉ url.toList →
        String.ofList (Text.trim url.toList) = url → ∀ files : σ,
          (setText (({ b with mapUrl := some url } : Bundle).text true) true :
              Edit (StateM σ) Unit).outcome (empty .empty) files =
            ((.ok (), { empty .empty with body := some body, mapUrl := some url }), files) := by
  refine ⟨hb.whole, ?_⟩
  intro body url hbody hnone hcr hlf htrim files
  have hbreak : ∀ c ∈ url.toList, Body.isBreak c = false := by grind [Body.isBreak]
  have hcomplete : Body.Complete body.toList := hb.whole body hbody
  have htext : ({ b with mapUrl := some url } : Bundle).text true =
      body ++ Body.commentLine url := by
    simp [text, hbody]
  have hend := Body.endLine_append_commentLine hbreak body
  have hurl := Body.mapUrl?_append_commentLine hcomplete hnone hbreak
  rw [htrim, ← hend] at hurl
  rw [htext, outcome_setText_of_path?_eq_none rfl hurl rfl, setBody, hend,
    Body.stripComments_append_commentLine hcomplete hnone hbreak]

namespace Sample

/-- Two lines of a map without a generated file. -/
def twoLines : Bundle :=
  Operation.apply (.addLine []) (Operation.apply (.addLine []) (empty .empty) (⟨[], []⟩ : Disk))
    (⟨[], []⟩ : Disk)

/-- A body behind which there are empty lines for those of a map. -/
def paddedBody : Bundle :=
  Operation.apply (.append twoLines)
    (Operation.apply (.setText "a();" true) (empty .empty) (⟨[], []⟩ : Disk)) (⟨[], []⟩ : Disk)

end Sample

open Sample

theorem reachable_twoLines : twoLines.Reachable :=
  .step (.step (.empty .empty) (.addLine []) nofun _) (.addLine []) nofun _

theorem reachable_paddedBody : paddedBody.Reachable := by
  refine .step (.step (.empty .empty) (.setText "a();" true) nofun _) (.append twoLines) ?_ _
  rintro _ ⟨⟩
  exact reachable_twoLines

/-- The empty lines at the end are read back, for the comment stands behind them. -/
theorem setText_text_paddedBody : paddedBody.body = some "a();\n\n\n" ∧
    Body.Complete "a();\n\n\n".toList ∧
      (setText (({ paddedBody with mapUrl := some "a.js.map" } : Bundle).text true) true :
          Edit (StateM Disk) Unit).outcome (empty .empty) ⟨[], []⟩ =
        ((.ok (), { empty .empty with body := some "a();\n\n\n", mapUrl := some "a.js.map" }),
          ⟨[], []⟩) := by
  have hbody : paddedBody.body = some "a();\n\n\n" := by decide +kernel
  have hnone : Body.mapUrl? "a();\n\n\n" = none := by decide +kernel
  have hcr : '\r' ∉ "a.js.map".toList := by decide +kernel
  have hlf : '\n' ∉ "a.js.map".toList := by decide +kernel
  have htrim : String.ofList (Text.trim "a.js.map".toList) = "a.js.map" := by decide +kernel
  obtain ⟨hcomplete, hread⟩ := setText_text_of_reachable (σ := Disk) reachable_paddedBody
  exact ⟨hbody, hcomplete _ hbody, hread _ _ hbody hnone hcr hlf htrim ⟨[], []⟩⟩

end Bundle

end SourceMap
