import SourceMap.Envelope.Read
import SourceMap.Proofs.RoundTrip.Json

/-!
# Envelopes read as they were written

## Main definitions

* `fieldText?` : the text of a field.
* `Draft.fill` : a draft with a field as it is in an envelope.

## Main statements

* `reads_memberText` : a member is read back if the value of its field is.
* `folds_memberTexts` : members are read back in any order.
* `read_write` : every envelope is read back from its text.
-/

namespace SourceMap.Envelope

open Json

/-! ## Members -/

theorem readScalar_version {rest : List Char} (h : Delimited rest) :
    readScalar ((toString version).toList ++ rest) = .ok (.number (.integer version), rest) := by
  obtain ⟨c, tail, rfl, hc⟩ := h
  have hc' : c = ',' ∨ c = ']' ∨ c = '\x7d' := by simpa [closes] using hc
  rcases hc' with rfl | rfl | rfl <;> rfl

theorem reads_version (depth : Nat) :
    Reads (readValue depth) (toString version) (.number (.integer version)) where
  starts := ⟨'3', [], rfl, rfl⟩
  takes rest hrest := by
    rw [← readScalar_version hrest]
    cases depth <;> rfl

/-- A member is read back if its value is, unless the field has been read before. -/
theorem reads_memberText {key : Key} {value : String} {d d' : Draft} (hkey : d.has key = false)
    (h : Reads (d.readField key) value d') : Reads d.readMember (memberText key value) d' where
  starts := ⟨'"', _, by simp [memberText, toList_quote]; rfl, rfl⟩
  takes rest hrest := by
    have hquote : readKey ((quote key.text).toList ++ (':' :: value.toList ++ rest)) =
        .ok (key.text, ':' :: value.toList ++ rest) := by
      rw [toList_quote, List.append_assoc]
      exact readChars_escape key.text _
    have htext : (memberText key value).toList ++ rest =
        (quote key.text).toList ++ (':' :: value.toList ++ rest) := by
      simp [memberText]
    rw [htext]
    unfold Draft.readMember
    rw [hquote]
    dsimp only [bind, Except.bind]
    rw [Key.ofText?_text]
    dsimp only
    rw [hkey]
    exact h.takes rest hrest

/-! ## Fields -/

/-- The text of a field, unless it is left out. -/
def fieldText? (e : Envelope) : Key → Option String
  | .version => some (toString version)
  | .file => e.file.map quote
  | .sourceRoot => e.sourceRoot.map quote
  | .sources => some (arrayText (e.sources.map optionText))
  | .sourcesContent => e.sourcesContent.map fun contents => arrayText (contents.map optionText)
  | .names => some (arrayText (e.names.map quote))
  | .mappings => e.mappings.map quote

/-- `d` with a field as it is in `e`. -/
def Draft.fill (d : Draft) (e : Envelope) : Key → Draft
  | .version => { d with version := some (some (.number (.integer Envelope.version))) }
  | .file => { d with file := e.file.map some }
  | .sourceRoot => { d with sourceRoot := e.sourceRoot.map some }
  | .sources => { d with sources := some e.sources }
  | .sourcesContent => { d with sourcesContent := e.sourcesContent }
  | .names => { d with names := some e.names }
  | .mappings => { d with mappings := e.mappings.map some }

variable {d : Draft} {e : Envelope} {key : Key} {keys : List Key}

theorem Draft.has_fill_of_ne {other : Key} (h : other ≠ key) :
    (d.fill e key).has other = d.has other := by
  cases key <;> cases other <;> first | rfl | exact absurd rfl h

theorem Draft.fill_of_none (hd : d.has key = false) (h : e.fieldText? key = none) :
    d.fill e key = d := by
  cases d
  cases key <;> simp_all [fieldText?, Draft.has, Draft.fill]

theorem reads_texts (texts : List (Option String)) :
    Reads (readArray (readOptional readString)) (arrayText (texts.map optionText)) texts :=
  reads_arrayText reads_optionText texts

/-- The text of each field is read as the value of that field. -/
theorem reads_fieldText {text : String} (h : e.fieldText? key = some text) :
    Reads (d.readField key) text (d.fill e key) := by
  cases key with
  | version =>
    obtain rfl := Option.some_inj.1 h
    exact ((reads_version Draft.maxDepth).optional (by decide)).map
      (fun v => { d with version := some v }) fun _ => rfl
  | file =>
    obtain ⟨s, hs, rfl⟩ := Option.map_eq_some_iff.1 h
    rw [Draft.fill, hs]
    exact (reads_optionText (some s)).map (fun v => { d with file := some v }) fun _ => rfl
  | sourceRoot =>
    obtain ⟨s, hs, rfl⟩ := Option.map_eq_some_iff.1 h
    rw [Draft.fill, hs]
    exact (reads_optionText (some s)).map (fun v => { d with sourceRoot := some v }) fun _ => rfl
  | sources =>
    obtain rfl := Option.some_inj.1 h
    exact (reads_texts e.sources).map (fun v => { d with sources := some v }) fun _ => rfl
  | sourcesContent =>
    obtain ⟨contents, hc, rfl⟩ := Option.map_eq_some_iff.1 h
    rw [Draft.fill, hc]
    exact (reads_texts contents).map (fun v => { d with sourcesContent := some v }) fun _ => rfl
  | names =>
    obtain rfl := Option.some_inj.1 h
    have hnames := reads_arrayText reads_quote e.names
    exact hnames.map (fun v => { d with names := some v }) fun _ => rfl
  | mappings =>
    obtain ⟨s, hs, rfl⟩ := Option.map_eq_some_iff.1 h
    rw [Draft.fill, hs]
    exact (reads_optionText (some s)).map (fun v => { d with mappings := some v }) fun _ => rfl

/-! ## Envelopes -/

/-- The text of a member, unless it is left out. -/
def memberText? (e : Envelope) (key : Key) : Option String :=
  (e.fieldText? key).map (memberText key)

/-- Members are read in any order, if none comes twice. -/
theorem folds_memberTexts (hkeys : keys.Nodup) (hd : ∀ key ∈ keys, d.has key = false) :
    Folds Draft.readMember (keys.filterMap e.memberText?) d (keys.foldl (·.fill e) d) := by
  induction keys generalizing d with
  | nil => exact .nil d
  | cons key keys ih =>
    obtain ⟨hnew, hkeys⟩ := List.nodup_cons.1 hkeys
    obtain ⟨hkey, hd⟩ := List.forall_mem_cons.1 hd
    have hrest : ∀ other ∈ keys, (d.fill e key).has other = false := by
      intro other ho
      rw [Draft.has_fill_of_ne (ne_of_mem_of_not_mem ho hnew)]
      exact hd other ho
    cases htext : e.fieldText? key with
    | none =>
      have hfill := Draft.fill_of_none hkey htext
      have hnone : e.memberText? key = none := by simp [memberText?, htext]
      rw [List.filterMap_cons_none hnone, List.foldl_cons, hfill]
      exact ih hkeys hd
    | some text =>
      have hsome : e.memberText? key = some (memberText key text) := by simp [memberText?, htext]
      rw [List.filterMap_cons_some hsome, List.foldl_cons]
      exact .cons (reads_memberText hkey (reads_fieldText htext)) (ih hkeys hrest)

/-- The keys in the order in which they are written. -/
def writeOrder : List Key :=
  [.version, .file, .sourceRoot, .sources, .names, .mappings, .sourcesContent]

/-- What has been read when all members of `e` have. -/
def Draft.complete (e : Envelope) : Draft := writeOrder.foldl (fun d key => d.fill e key) empty

theorem members_eq (e : Envelope) : e.members = writeOrder.filterMap e.memberText? := by
  obtain ⟨file, sourceRoot, sources, names, mappings, sourcesContent⟩ := e
  cases file <;> cases sourceRoot <;> cases mappings <;> cases sourcesContent <;> rfl

theorem finish_complete (e : Envelope) : (Draft.complete e).finish = .ok e := by
  obtain ⟨file, sourceRoot, sources, names, mappings, sourcesContent⟩ := e
  cases file <;> cases sourceRoot <;> cases mappings <;> rfl

theorem draftRead_write (e : Envelope) :
    Draft.read e.write.toList = .ok (.complete e, []) := by
  have hfolds : Folds Draft.readMember e.members .empty (.complete e) := by
    rw [members_eq]
    exact folds_memberTexts (by decide) (by decide)
  have htext : e.write.toList = '\x7b' :: ((",".intercalate e.members).toList ++ ['\x7d']) := by
    simp [write]
  rw [htext]
  exact hfolds.foldItems (rfl : closes '\x7d') []

/-- Every envelope is read back from its text. -/
theorem read_write (e : Envelope) : read e.write = .ok e := by
  have hguard : stripGuard e.write.toList = e.write.toList := by
    simp [write, stripGuard, guardStart]
  unfold read
  rw [hguard, draftRead_write]
  exact finish_complete e

end SourceMap.Envelope
