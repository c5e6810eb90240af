import SourceMap.Proofs.Growth.Lines

/-!
# A bundle behind another

Appending lines up the body and the mappings of the receiver, adds the lines and the body of the
donor, and lines both up again. So each of the two takes as many lines as the longer of its parts.

## Main definitions

* `Bundle.height` : how many generated lines a bundle takes.
* `Bundle.fullBody` : the body with empty lines up to that height.
* `Bundle.joined` : the two bundles behind one another, before contents are taken over.

## Main statements

* `append_eq` : appending is joining and taking over contents.
* `joined_frame`, `append_frame` : what each of the two leaves alone.
* `append_of_contentsKnown` : when two bundles can be appended, and what comes of it.
* `namedLines_joined`, `body_joined`, `lineCount_joined` : what is in the joined bundle.
-/

namespace SourceMap

theorem rightpad_append {xs : List α} {m : Nat} (h : xs.length = m) (ys : List α) (n : Nat)
    (a : α) : (xs ++ ys).rightpad (m + n) a = xs ++ ys.rightpad n a := by
  rw [List.rightpad, List.rightpad, List.length_append, h, Nat.add_sub_add_left, List.append_assoc]

namespace Bundle

/-- The lines of the longer of body and mappings. -/
def height (b : Bundle) : Nat := max b.bodyLines b.mappings.lineCount

/-- The body with empty lines up to the height; only empty lines where there is no body. -/
def fullBody (b : Bundle) : String :=
  b.body.getD "" ++ Body.emptyLines (b.height - b.bodyLines)

theorem bodyLines_eq (b : Bundle) : b.bodyLines = Body.lineCount (b.body.getD "") := by
  unfold bodyLines
  cases b.body <;> rfl

theorem bodyLines_of_none {b : Bundle} (h : b.body = none) : b.bodyLines = 0 := by
  simp [bodyLines, h]

theorem height_of_none {b : Bundle} (h : b.body = none) : b.height = b.mappings.lineCount := by
  rw [height, bodyLines_of_none h, Nat.zero_max]

theorem fullBody_of_none {b : Bundle} (h : b.body = none) :
    b.fullBody = Body.emptyLines b.height := by
  simp [fullBody, bodyLines_of_none h, h]

@[simp] theorem lineCount_fullBody (b : Bundle) : Body.lineCount b.fullBody = b.height := by
  rw [fullBody, Body.lineCount_append, Body.lineCount_emptyLines, ← bodyLines_eq]
  exact Nat.add_sub_cancel' (Nat.le_max_left ..)

/-- More lines of the map than of the body become empty lines of the body. -/
theorem fullBody_of_le {b c : Bundle} (hbody : c.body = b.body)
    (hb : b.bodyLines ≤ b.mappings.lineCount) {n : Nat}
    (hc : c.mappings.lineCount = b.mappings.lineCount + n) :
    c.height = b.height + n ∧ c.fullBody = b.fullBody ++ Body.emptyLines n := by
  have hlines : c.bodyLines = b.bodyLines := by rw [bodyLines, bodyLines, hbody]
  have hbh : b.height = b.mappings.lineCount := Nat.max_eq_right hb
  have hch : c.height = b.height + n := by
    rw [hbh, height, hlines, hc]
    omega
  have hpad : c.height - c.bodyLines = b.height - b.bodyLines + n := by omega
  exact ⟨hch, by rw [fullBody, hpad, hbody, Body.emptyLines_add, ← String.append_assoc, ← fullBody]⟩

/-! ## Lining up -/

theorem align_of_none {b : Bundle} (h : b.body = none) : b.align = b := by
  simp [align, h]

theorem align_of_some {b : Bundle} {text : String} (h : b.body = some text) :
    b.align = { b with body := some b.fullBody, mappings := b.mappings.extendTo b.height } := by
  simp [align, fullBody, height, bodyLines, h]

/-- Only the body and the mappings change. -/
theorem align_frame (b : Bundle) : ∃ body mappings, b.align = { b with body, mappings } := by
  cases h : b.body with
  | none => exact ⟨b.body, b.mappings, align_of_none h⟩
  | some text => exact ⟨_, _, align_of_some h⟩

theorem grows_align (b : Bundle) : b.Grows b.align := by
  cases h : b.body with
  | none =>
    rw [align_of_none h]
    exact .refl b
  | some text =>
    rw [align_of_some h]
    exact (Change.emptyLines b b.height).grows.trans
      (Change.describe _ b.file b.sourceRoot b.embedsContents b.mapUrl _ b.hasMap b.urls).grows

@[simp] theorem last_align (b : Bundle) : b.align.mappings.last = b.mappings.last := by
  cases h : b.body with
  | none => rw [align_of_none h]
  | some text => simp [align_of_some h]

@[simp] theorem lineCount_align (b : Bundle) : b.align.mappings.lineCount = b.height := by
  cases h : b.body with
  | none => rw [align_of_none h, height_of_none h]
  | some text =>
    rw [align_of_some h, Mappings.lineCount_extendTo]
    exact Nat.max_eq_right (Nat.le_max_right ..)

theorem body_align (b : Bundle) : b.align.body = b.body.map fun _ => b.fullBody := by
  cases h : b.body with
  | none => rw [align_of_none h, h, Option.map_none]
  | some text => rw [align_of_some h, Option.map_some]

/-- What has been lined up is as high as its map is long. -/
theorem bodyLines_align_le (b : Bundle) : b.align.bodyLines ≤ b.align.mappings.lineCount := by
  rw [lineCount_align, bodyLines, body_align]
  cases b.body <;> simp

@[simp] theorem height_align (b : Bundle) : b.align.height = b.height :=
  (Nat.max_eq_right (bodyLines_align_le b)).trans (lineCount_align b)

@[simp] theorem fullBody_align (b : Bundle) : b.align.fullBody = b.fullBody := by
  cases h : b.body with
  | none => rw [align_of_none h]
  | some text =>
    have hbody : b.align.body = some b.fullBody := by rw [body_align, h, Option.map_some]
    have hlines : b.align.bodyLines = b.height := by simp [bodyLines, hbody]
    simp [fullBody.eq_1 b.align, hbody, hlines, Body.emptyLines]

/-- Lining up adds empty lines, and none where there is no body. -/
theorem namedLines_align {b : Bundle} (hm : b.mappings.Consistent) {named : List NamedLine}
    (h : b.namedLines = .ok named) : b.align.namedLines = .ok (named.rightpad b.height []) := by
  cases hb : b.body with
  | none =>
    have hlen := length_of_namedLines hm h
    rw [align_of_none hb, h, height_of_none hb, ← hlen]
    simp [List.rightpad]
  | some text =>
    have he := (grows_align b).tables
    rw [align_of_some hb] at he ⊢
    rw [List.rightpad, length_of_namedLines hm h]
    refine namedLines_append he ?_ (forall₂_replicate .nil _) h
    intro lines c hr
    exact hr.length hm ▸ Mappings.reads_extendTo hm hr b.height

/-! ## Joining -/

/-- The bundle with a text behind its body, if there is a text. -/
def takeBody (b : Bundle) (body : Option String) : Bundle :=
  { b with body := body.elim b.body fun text => some (b.body.getD "" ++ text) }

theorem isSome_body_takeBody (b : Bundle) (body : Option String) :
    (b.takeBody body).body.isSome = (b.body.isSome || body.isSome) := by
  cases body <;> simp [takeBody]

theorem grows_takeBody (b : Bundle) (body : Option String) : b.Grows (b.takeBody body) :=
  (Change.describe b b.file b.sourceRoot b.embedsContents b.mapUrl _ b.hasMap b.urls).grows

/-- An empty body changes nothing but that there is a body. -/
theorem height_takeBody_empty (b : Bundle) (body : Option String) :
    (b.takeBody (body.map fun _ => "")).height = b.height ∧
      (b.takeBody (body.map fun _ => "")).fullBody = b.fullBody := by
  have hbody : (b.takeBody (body.map fun _ => "")).body.getD "" = b.body.getD "" := by
    cases body <;> simp [takeBody]
  have hlines : (b.takeBody (body.map fun _ => "")).bodyLines = b.bodyLines := by
    rw [bodyLines_eq, hbody, ← bodyLines_eq]
  have hheight : (b.takeBody (body.map fun _ => "")).height = b.height := by
    rw [height, hlines]
    rfl
  exact ⟨hheight, by rw [fullBody, hheight, hlines, hbody, fullBody]⟩

/-- The first bundle lined up. A body comes to be where the second one has one. -/
def opened (b donor : Bundle) : Bundle := (b.takeBody (donor.body.map fun _ => "")).align

/-- The lines of the second bundle behind those of the first. -/
def stacked (b donor : Bundle) (lines : List NamedLine) : Bundle :=
  ((b.opened donor).addNamedLines lines).2

/-- The two bundles behind one another, before contents are taken over. -/
def joined (b donor : Bundle) (lines : List NamedLine) : Bundle :=
  { ((b.stacked donor lines).takeBody donor.body).align with mapUrl := none }

theorem height_opened (b donor : Bundle) : (b.opened donor).height = b.height :=
  (height_align _).trans (height_takeBody_empty b donor.body).1

theorem fullBody_opened (b donor : Bundle) : (b.opened donor).fullBody = b.fullBody :=
  (fullBody_align _).trans (height_takeBody_empty b donor.body).2

theorem lineCount_opened (b donor : Bundle) : (b.opened donor).mappings.lineCount = b.height :=
  (lineCount_align _).trans (height_takeBody_empty b donor.body).1

theorem body_opened (b donor : Bundle) : (b.opened donor).body =
    if b.body.isSome || donor.body.isSome then some b.fullBody else none := by
  have hsome : (b.takeBody (donor.body.map fun _ => "")).body.isSome =
      (b.body.isSome || donor.body.isSome) := by
    rw [isSome_body_takeBody, Option.isSome_map]
  rw [opened, body_align, (height_takeBody_empty b donor.body).2, ← hsome]
  cases (b.takeBody (donor.body.map fun _ => "")).body <;> rfl

theorem grows_opened (b donor : Bundle) : b.Grows (b.opened donor) :=
  (grows_takeBody b _).trans (grows_align _)

theorem last_opened (b donor : Bundle) :
    (b.opened donor).mappings.last = b.mappings.last :=
  last_align _

theorem namedLines_opened {b : Bundle} (donor : Bundle) (hm : b.mappings.Consistent)
    {named : List NamedLine} (h : b.namedLines = .ok named) :
    (b.opened donor).namedLines = .ok (named.rightpad b.height []) := by
  rw [← (height_takeBody_empty b donor.body).1]
  exact namedLines_align (b := b.takeBody _) hm h

theorem body_stacked (b donor : Bundle) (lines : List NamedLine) :
    (b.stacked donor lines).body = (b.opened donor).body := by
  obtain ⟨sources, names, mappings, h⟩ := addNamedLines_frame (b.opened donor) lines
  rw [stacked, h]

theorem addNamedLines_opened {b : Bundle} (donor : Bundle) (lines : List NamedLine)
    (hl : b.mappings.last.isSome) :
    ((b.opened donor).addNamedLines lines).1 = .ok () ∧
      (b.stacked donor lines).mappings.last.isSome ∧
        (b.stacked donor lines).mappings.lineCount = b.height + lines.length := by
  rw [← last_opened b donor] at hl
  rw [← lineCount_opened b donor]
  exact addNamedLines_of_last hl lines

theorem grows_stacked (b donor : Bundle) (lines : List NamedLine) :
    b.Grows (b.stacked donor lines) :=
  (grows_opened b donor).trans (grows_addNamedLines _ lines)

theorem grows_joined_of_stacked (b donor : Bundle) (lines : List NamedLine) :
    (b.stacked donor lines).Grows (b.joined donor lines) :=
  ((grows_takeBody _ donor.body).trans (grows_align _)).trans
    (Change.describe _ _ _ _ none _ _ _).grows

theorem grows_joined (b donor : Bundle) (lines : List NamedLine) :
    b.Grows (b.joined donor lines) :=
  (grows_stacked b donor lines).trans (grows_joined_of_stacked b donor lines)

/-- Contents are left alone until the bundles are behind one another. -/
theorem joined_frame (b donor : Bundle) (lines : List NamedLine) :
    ∃ sources names mappings body,
      b.joined donor lines = { b with sources, names, mappings, body, mapUrl := none } := by
  obtain ⟨_, _, hopened⟩ := align_frame (b.takeBody (donor.body.map fun _ => ""))
  obtain ⟨sources, names, _, hstacked⟩ := addNamedLines_frame (b.opened donor) lines
  obtain ⟨body, mappings, halign⟩ := align_frame ((b.stacked donor lines).takeBody donor.body)
  refine ⟨sources, names, mappings, body, ?_⟩
  rw [joined, halign, stacked, hstacked, opened, hopened]
  rfl

variable {b donor : Bundle} {lines : List NamedLine}

/-- The height of the one is added to that of the other, and so are the bodies. -/
theorem height_takeBody_stacked (hl : b.mappings.last.isSome)
    (hlen : lines.length = donor.mappings.lineCount) :
    ((b.stacked donor lines).takeBody donor.body).height = b.height + donor.height ∧
      ((b.stacked donor lines).takeBody donor.body).fullBody = b.fullBody ++ donor.fullBody := by
  obtain ⟨-, -, hcount⟩ := addNamedLines_opened donor lines hl
  rw [hlen] at hcount
  cases hd : donor.body with
  | none =>
    -- the body is not yet as long as the map, and lining up again makes up for that
    rw [← lineCount_opened b donor] at hcount
    rw [fullBody_of_none hd, height_of_none hd, ← height_opened b donor, ← fullBody_opened b donor]
    exact fullBody_of_le (body_stacked b donor lines) (bodyLines_align_le _) hcount
  | some text =>
    have hbody : ((b.stacked donor lines).takeBody (some text)).body =
        some (b.fullBody ++ text) := by
      simp [takeBody, body_stacked, body_opened, hd]
    have hlines : ((b.stacked donor lines).takeBody (some text)).bodyLines =
        b.height + donor.bodyLines := by
      simp [bodyLines, hbody, hd]
    have hh : ((b.stacked donor lines).takeBody (some text)).height = b.height + donor.height := by
      rw [height.eq_1 donor, ← Nat.add_max_add_left, height.eq_1 (takeBody ..), hlines]
      exact congrArg _ hcount
    have hpad : b.height + donor.height - (b.height + donor.bodyLines) =
        donor.height - donor.bodyLines := Nat.add_sub_add_left ..
    refine ⟨hh, ?_⟩
    rw [fullBody, hh, hlines, hpad, hbody, fullBody.eq_1 donor, hd, Option.getD_some,
      Option.getD_some, String.append_assoc]

/-! ## The joined bundle -/

theorem lineCount_joined (hl : b.mappings.last.isSome)
    (hlen : lines.length = donor.mappings.lineCount) :
    (b.joined donor lines).mappings.lineCount = b.height + donor.height :=
  (lineCount_align _).trans (height_takeBody_stacked hl hlen).1

/-- There is a body if either of the two has one, and then it is that of the one behind that of the
other. -/
theorem body_joined (hl : b.mappings.last.isSome)
    (hlen : lines.length = donor.mappings.lineCount) :
    (b.joined donor lines).body =
      if b.body.isSome || donor.body.isSome then some (b.fullBody ++ donor.fullBody) else none := by
  have hsome : ((b.stacked donor lines).takeBody donor.body).body.isSome =
      (b.body.isSome || donor.body.isSome) := by
    rw [isSome_body_takeBody, body_stacked, body_opened]
    cases b.body.isSome <;> cases donor.body.isSome <;> rfl
  rw [← (height_takeBody_stacked hl hlen).2, ← hsome]
  refine (body_align _).trans ?_
  cases ((b.stacked donor lines).takeBody donor.body).body <;> rfl

theorem last_joined (hl : b.mappings.last.isSome) :
    (b.joined donor lines).mappings.last.isSome := by
  obtain ⟨-, hlast, -⟩ := addNamedLines_opened donor lines hl
  exact (congrArg _ (last_align (takeBody ..))).trans hlast

theorem namedLines_joined (hm : b.mappings.Consistent) (hl : b.mappings.last.isSome)
    (hlen : lines.length = donor.mappings.lineCount) (ha : (b.joined donor lines).Addressable)
    {named : List NamedLine} (h : b.namedLines = .ok named) :
    (b.joined donor lines).namedLines =
      .ok (named.rightpad b.height [] ++ lines.rightpad donor.height []) := by
  have hstacked : (b.stacked donor lines).namedLines = .ok (named.rightpad b.height [] ++ lines) :=
    namedLines_addNamedLines ((grows_opened b donor).consistent hm)
      (addNamedLines_opened donor lines hl).1
      (ha.of_extends (grows_joined_of_stacked b donor lines).tables)
      (namedLines_opened donor hm h)
  have hnamed : (named.rightpad b.height []).length = b.height := by
    rw [List.length_rightpad, length_of_namedLines hm h]
    exact Nat.max_eq_left (Nat.le_max_right ..)
  rw [← rightpad_append hnamed, ← (height_takeBody_stacked hl hlen).1]
  exact namedLines_align (b := (b.stacked donor lines).takeBody donor.body)
    ((grows_stacked b donor lines).consistent hm) hstacked

/-! ## Appending -/

/-- Appending is joining and then taking over contents. -/
theorem append_eq {m : Mappings} (hd : donor.namedLines = .ok lines)
    (hm : b.mappings.resume b.limits = .ok m) :
    b.append donor =
      match ({ b with mappings := m }.joined donor lines).storeAll donor.sources
        donor.contents.entries with
      | (.error e, c) => (.error e, c)
      | (.ok (), c) => (.ok (), { c with embedsContents :=
          c.embedsContents || (donor.embedsContents || !donor.contents.isEmpty) }) := by
  -- the text has been read once, so no line can be refused
  have hadd : ({ b with mappings := m }.opened donor).addNamedLines lines =
      (.ok (), { b with mappings := m }.stacked donor lines) :=
    Prod.ext (addNamedLines_opened donor lines (Mappings.isSome_last_of_resume hm)).1 rfl
  unfold opened takeBody at hadd
  unfold append joined
  rw [hd, hm]
  cases hbody : donor.body with
  | none =>
    rw [hbody] at hadd
    dsimp only [Option.map, Option.elim] at hadd
    simp only [Option.isSome_none, Bool.false_eq_true, if_false]
    rw [hadd]
    rfl
  | some text =>
    rw [hbody] at hadd
    dsimp only [Option.map, Option.elim] at hadd
    simp only [Option.isSome_some, if_true, appendBody]
    rw [hadd]
    rfl

theorem append_of_ok {m : Mappings} (hd : donor.namedLines = .ok lines)
    (hm : b.mappings.resume b.limits = .ok m) :
    ∃ embedsContents, b.append donor =
      ((({ b with mappings := m }.joined donor lines).storeAll donor.sources
          donor.contents.entries).1,
        { (({ b with mappings := m }.joined donor lines).storeAll donor.sources
            donor.contents.entries).2 with embedsContents }) := by
  rw [append_eq hd hm]
  generalize ({ b with mappings := m }.joined donor lines).storeAll _ _ = r
  obtain ⟨_ | _, c⟩ := r
  · exact ⟨c.embedsContents, rfl⟩
  · exact ⟨_, rfl⟩

/-- A donor that cannot be read leaves everything as it was. -/
theorem append_of_donor_error {e : MappingError} (hd : donor.namedLines = .error e) :
    b.append donor = (.error e, b) := by
  simp [append, hd]

/-- A map that cannot be continued stays as it was. -/
theorem append_of_resume_error {e : MappingError} (hd : donor.namedLines = .ok lines)
    (hm : b.mappings.resume b.limits = .error e) : b.append donor = (.error e, b) := by
  simp [append, hd, hm]

/-- A donor that is refused changes nothing. Otherwise both of the maps can be read. -/
theorem append_cases (b donor : Bundle) : (∃ e, b.append donor = (.error e, b)) ∨
    ∃ lines m, donor.namedLines = .ok lines ∧ b.mappings.resume b.limits = .ok m := by
  cases hd : donor.namedLines with
  | error e => exact .inl ⟨e, append_of_donor_error hd⟩
  | ok lines =>
    cases hm : b.mappings.resume b.limits with
    | error e => exact .inl ⟨e, append_of_resume_error hd hm⟩
    | ok m => exact .inr ⟨lines, m, rfl, rfl⟩

/-- Also where appending fails halfway. -/
theorem grows_append (b donor : Bundle) : b.Grows (b.append donor).2 := by
  rcases append_cases b donor with ⟨e, h⟩ | ⟨lines, m, hd, hm⟩
  · rw [h]
    exact .refl b
  · obtain ⟨embeds, h⟩ := append_of_ok hd hm
    have hjoined := (Change.resume hm).grows.trans (grows_joined _ donor lines)
    have hstored := hjoined.trans (grows_storeAll _ donor.sources donor.contents.entries)
    rw [h]
    exact hstored.trans (Change.describe _ _ _ embeds _ _ _ _).grows

/-- The names of the file and of the root, and the URLs of local paths, are the receiver's. -/
theorem append_frame (b donor : Bundle) :
    ∃ sources names mappings contents embedsContents mapUrl body, (b.append donor).2 =
      { b with sources, names, mappings, contents, embedsContents, mapUrl, body } := by
  rcases append_cases b donor with ⟨e, h⟩ | ⟨lines, m, hd, hm⟩
  · rw [h]
    exact ⟨_, _, _, _, _, _, _, rfl⟩
  · obtain ⟨embedsContents, happ⟩ := append_of_ok hd hm
    obtain ⟨_, _, mappings, body, hjoined⟩ := joined_frame { b with mappings := m } donor lines
    obtain ⟨sources, contents, hstored⟩ :=
      storeAll_frame ({ b with mappings := m }.joined donor lines) donor.sources
        donor.contents.entries
    rw [happ, hstored, hjoined]
    exact ⟨_, _, _, _, _, _, _, rfl⟩

/-- What appending `donor` makes of `b`. -/
structure Behind (b donor c : Bundle) : Prop where
  grows : b.Grows c
  last : c.mappings.last.isSome
  lineCount : c.mappings.lineCount = b.height + donor.height
  body : c.body =
    if b.body.isSome || donor.body.isSome then some (b.fullBody ++ donor.fullBody) else none
  namedLines : c.Addressable → ∀ {named lines}, b.namedLines = .ok named →
    donor.namedLines = .ok lines →
      c.namedLines = .ok (named.rightpad b.height [] ++ lines.rightpad donor.height [])

theorem behind_joined (hm : b.mappings.Consistent) (hl : b.mappings.last.isSome)
    (hd : donor.mappings.Consistent) (hlines : donor.namedLines = .ok lines) :
    b.Behind donor (b.joined donor lines) := by
  have hlen := length_of_namedLines hd hlines
  refine ⟨grows_joined b donor lines, last_joined hl, lineCount_joined hl hlen,
    body_joined hl hlen, ?_⟩
  intro ha named lines' hnamed hlines'
  obtain rfl : lines = lines' := by simpa [hlines] using hlines'
  exact namedLines_joined hm hl hlen ha hnamed

/-- What is behind another bundle stays there when contents are taken over. -/
theorem Behind.storeAll {c : Bundle} (h : b.Behind donor c) (t : StringTable)
    (es : List (Nat × String)) (embedsContents : Bool) :
    b.Behind donor { (c.storeAll t es).2 with embedsContents } := by
  have hc : c.Grows { (c.storeAll t es).2 with embedsContents } :=
    (grows_storeAll c t es).trans (Change.describe _ _ _ embedsContents _ _ _ _).grows
  obtain ⟨sources, contents, hf⟩ := storeAll_frame c t es
  rw [hf] at hc ⊢
  refine ⟨h.grows.trans hc, h.last, h.lineCount, h.body, ?_⟩
  intro ha named lines hnamed hlines
  have hold := h.namedLines (ha.of_extends hc.tables) hnamed hlines
  rw [← List.append_nil (_ ++ _)]
  refine namedLines_append hc.tables ?_ .nil hold
  intro lines d hr
  exact ⟨d, by rwa [List.append_nil]⟩

/-- A bundle that can be read can be appended to any other that can be read, if its contents have
sources. -/
theorem append_of_contentsKnown {m : Mappings} (hb : b.mappings.Consistent)
    (hm : b.mappings.resume b.limits = .ok m) (hd : donor.mappings.Consistent)
    (hlines : donor.namedLines = .ok lines) (hk : donor.ContentsKnown) :
    (b.append donor).1 = .ok () ∧ b.Behind donor (b.append donor).2 := by
  obtain ⟨embeds, happ⟩ := append_of_ok hlines hm
  have hresume := (Change.resume hm).grows
  obtain ⟨-, -, c, -, rfl, -⟩ := Mappings.resume_eq_ok hb hm
  have hj : Behind { b with mappings := { b.mappings with last := some c } } donor _ :=
    behind_joined (hb.resume hm) rfl hd hlines
  have hs := hj.storeAll donor.sources donor.contents.entries embeds
  rw [happ]
  exact ⟨storeAll_eq_ok_iff.2 hk, hresume.trans hs.grows, hs.last, hs.lineCount, hs.body,
    hs.namedLines⟩

end Bundle

end SourceMap
