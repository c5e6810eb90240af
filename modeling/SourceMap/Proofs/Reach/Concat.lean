import SourceMap.Files.Disk
import SourceMap.Proofs.Reach.Operation

/-!
# Concatenation keeps lines and bodies together

Each bundle takes as many lines as the longer of its body and its map, so no line of a later one is
read as a line of an earlier one. The baseline at the seam does not matter, for lines mean strings.

## Main definitions

* `Bundle.seam` : the line at which an appended bundle starts.
* `Bundle.Lined` : what appending leaves, and what is enough to go on.

## Main statements

* `namedLines_append_of_reachable` : the lines of two bundles behind one another.
* `concat_of_reachable` : lines and bodies of any number of bundles.
-/

namespace SourceMap.Bundle

/-- The line at which `donor` starts when it is appended to `b`. -/
def seam (b donor : Bundle) : Nat :=
  if b.body.isSome || donor.body.isSome then max b.mappings.lineCount b.bodyLines
  else b.mappings.lineCount

theorem seam_eq_height (b donor : Bundle) : b.seam donor = b.height := by
  unfold seam height
  split_ifs with h
  · exact Nat.max_comm ..
  · have hb : b.body = none := by
      cases hbody : b.body <;> simp_all
    rw [bodyLines_of_none hb, Nat.zero_max]

theorem resume_of_namedLines {b : Bundle} {named : List NamedLine} (h : b.namedLines = .ok named) :
    ∃ m, b.mappings.resume b.limits = .ok m := by
  obtain ⟨lines, c, hr, hn⟩ := namedLines_eq_ok_iff.1 h
  have hw := forall_mem_of_forall₂ (fun _ _ hl => within_of_names hl) hn
  exact Mappings.resume_of_decode (Mappings.decode_eq_ok_iff.2 ⟨⟨c, hr⟩, hw⟩)

/-- The lines of both are kept, each with empty lines up to where its body ends, unless the tables
become longer than indices reach. -/
theorem namedLines_append_of_reachable {a b : Bundle} {la lb : List NamedLine} (ha : a.Reachable)
    (hb : b.Reachable) (hla : a.namedLines = .ok la) (hlb : b.namedLines = .ok lb)
    (hk : b.ContentsKnown) :
    (a.append b).1 = .ok () ∧
      ((a.append b).2.Addressable → (a.append b).2.namedLines =
        .ok (la.rightpad (a.seam b) [] ++ lb.rightpad b.height [])) := by
  obtain ⟨m, hm⟩ := resume_of_namedLines hla
  obtain ⟨hok, hbehind⟩ := append_of_contentsKnown ha.consistent hm hb.consistent hlb hk
  refine ⟨hok, fun haddr => ?_⟩
  rw [seam_eq_height]
  exact hbehind.namedLines haddr hla hlb

namespace Sample

/-- One line of a map, without a body. -/
def onlyMap : Bundle :=
  Operation.apply (.addNamedLine [⟨4, some ⟨"a.js", 1, 2, some "f"⟩⟩]) (empty .empty)
    (⟨[], []⟩ : Disk)

/-- The same map with contents, beside a body of three lines. -/
def longBody : Bundle :=
  Operation.apply (.setText "one\ntwo\nthree" false)
    (Operation.apply (.storeContents "a.js" "f()") onlyMap (⟨[], []⟩ : Disk)) (⟨[], []⟩ : Disk)

end Sample

open Sample

theorem reachable_onlyMap : onlyMap.Reachable :=
  .step (.empty .empty) (.addNamedLine _) nofun _

theorem reachable_longBody : longBody.Reachable :=
  .step (.step reachable_onlyMap (.storeContents _ _) nofun _) (.setText _ _) nofun _

theorem namedLines_onlyMap :
    onlyMap.namedLines = .ok [[⟨4, some ⟨"a.js", 1, 2, some "f"⟩⟩]] := by
  decide +kernel

theorem namedLines_longBody :
    longBody.namedLines = .ok [[⟨4, some ⟨"a.js", 1, 2, some "f"⟩⟩]] := by
  decide +kernel

/-- The body of the second one is longer than its map. -/
theorem namedLines_append_longBody :
    (onlyMap.append longBody).1 = .ok () ∧ (onlyMap.append longBody).2.namedLines =
      .ok [[⟨4, some ⟨"a.js", 1, 2, some "f"⟩⟩], [⟨4, some ⟨"a.js", 1, 2, some "f"⟩⟩], [], []] := by
  obtain ⟨hok, hlines⟩ := namedLines_append_of_reachable reachable_onlyMap reachable_longBody
    namedLines_onlyMap namedLines_longBody (by decide +kernel)
  exact ⟨hok, (hlines (by decide +kernel)).trans (by decide +kernel)⟩

/-! ## Any number of bundles -/

/-- The map can be continued, and the body is as long as the map, if there is one. -/
structure Lined (b : Bundle) : Prop where
  consistent : b.mappings.Consistent
  last : b.mappings.last.isSome
  height : b.height = b.mappings.lineCount
  body : b.body = if b.body.isSome then some b.fullBody else none

theorem lined_empty (urls : UrlTable) : (empty urls).Lined :=
  ⟨Mappings.consistent_empty, rfl, rfl, rfl⟩

section

variable {b donor c : Bundle}

theorem Behind.isSome_body (h : b.Behind donor c) :
    c.body.isSome = (b.body.isSome || donor.body.isSome) := by
  rw [h.body]
  cases b.body.isSome || donor.body.isSome <;> rfl

theorem Behind.height (h : b.Behind donor c) : c.height = b.height + donor.height := by
  rw [Bundle.height, h.lineCount, bodyLines, h.body]
  split_ifs
  · simp
  · simp

theorem Behind.fullBody (h : b.Behind donor c) : c.fullBody = b.fullBody ++ donor.fullBody := by
  by_cases hs : b.body.isSome || donor.body.isSome
  · have hbody : c.body = some (b.fullBody ++ donor.fullBody) := by rw [h.body, if_pos hs]
    have hlines : c.bodyLines = c.height := by
      rw [h.height, bodyLines, hbody]
      simp
    rw [Bundle.fullBody, hlines, Nat.sub_self, hbody]
    simp [Body.emptyLines]
  · have hbody : b.body = none ∧ donor.body = none := by
      cases hb : b.body <;> cases hd : donor.body <;> simp_all
    have hc : c.body = none := by rw [h.body, if_neg hs]
    rw [fullBody_of_none hc, fullBody_of_none hbody.1, fullBody_of_none hbody.2, h.height,
      Body.emptyLines_add]

theorem Behind.lined (h : b.Behind donor c) (hb : b.mappings.Consistent) : c.Lined := by
  refine ⟨h.grows.consistent hb, h.last, h.height.trans h.lineCount.symm, ?_⟩
  rw [h.fullBody, h.isSome_body]
  exact h.body

end

/-- The invariant of appending one bundle after another. -/
theorem appendAll_of_lined {ds : List Bundle} {lines : List (List NamedLine)}
    (hl : List.Forall₂ (fun d ls => d.namedLines = .ok ls) ds lines)
    (hc : ∀ d ∈ ds, d.mappings.Consistent) (hk : ∀ d ∈ ds, d.ContentsKnown) {acc : Bundle}
    (hacc : acc.Lined) :
    ∃ m, acc.appendAll ds = .ok m ∧ acc.Grows m ∧ m.Lined ∧
      m.height = acc.height + (ds.map height).sum ∧
      m.body.isSome = (acc.body.isSome || ds.any (·.body.isSome)) ∧
      m.fullBody = acc.fullBody ++ String.join (ds.map fullBody) ∧
      (m.Addressable → ∀ named, acc.namedLines = .ok named → m.namedLines =
        .ok (named ++ (List.zipWith (fun d ls => ls.rightpad d.height []) ds lines).flatten)) := by
  induction hl generalizing acc with
  | nil =>
    refine ⟨acc, rfl, .refl acc, hacc, ?_, ?_, ?_, ?_⟩ <;> simp
  | @cons d ls ds lines hd hl ih =>
    obtain ⟨hcd, hcds⟩ := List.forall_mem_cons.1 hc
    obtain ⟨hkd, hkds⟩ := List.forall_mem_cons.1 hk
    have hresume := Mappings.resume_of_last hacc.last acc.limits
    obtain ⟨hok, hb⟩ := append_of_contentsKnown hacc.consistent hresume hcd hd hkd
    obtain ⟨m, hm, hg, hlined, hh, hs, hf, hn⟩ := ih hcds hkds (hb.lined hacc.consistent)
    have happ : acc.appendAll (d :: ds) = (acc.append d).2.appendAll ds := by
      rw [appendAll]
      split <;> simp_all
    refine ⟨m, happ.trans hm, hb.grows.trans hg, hlined, ?_, ?_, ?_, ?_⟩
    · rw [hh, hb.height, List.map_cons, List.sum_cons, Nat.add_assoc]
    · rw [hs, hb.isSome_body, List.any_cons, Bool.or_assoc]
    · rw [hf, hb.fullBody, List.map_cons, String.join_cons, String.append_assoc]
    · intro ha named hnamed
      have hlen : named.length = acc.height := by
        rw [length_of_namedLines hacc.consistent hnamed, hacc.height]
      have hfirst := hb.namedLines (ha.of_extends hg.tables) hnamed hd
      -- what is there is lined up, so the next lines follow at once
      have hpad : named.rightpad acc.height [] = named := by
        simp [List.rightpad, hlen]
      rw [hn ha _ hfirst, hpad, List.zipWith_cons_cons, List.flatten_cons, List.append_assoc]

/-- Every bundle takes as many lines as the longer of its body and its map, in both of the result.
There is a body if any of them has one. -/
theorem concat_of_reachable {ds : List Bundle} {lines : List (List NamedLine)}
    (hr : ∀ d ∈ ds, d.Reachable) (hl : ds.mapM namedLines = .ok lines)
    (hk : ∀ d ∈ ds, d.ContentsKnown) :
    ∃ m, concat ds = .ok m ∧
      (m.Addressable → m.namedLines =
        .ok (List.zipWith (fun d ls => ls.rightpad d.height []) ds lines).flatten) ∧
      m.mappings.lineCount = (ds.map height).sum ∧
      (if ds.any (·.body.isSome) then
        m.body = some (String.join (ds.map fullBody)) ∧ m.bodyLines = (ds.map height).sum
      else m.body = none) := by
  obtain ⟨m, hm, -, hlined, hh, hs, hf, hn⟩ := appendAll_of_lined (mapM_eq_ok_iff.1 hl)
    (fun d hd => (hr d hd).consistent) hk (lined_empty .empty)
  have hheight : m.height = (ds.map height).sum := by
    rw [hh]
    exact Nat.zero_add _
  have hfull : m.fullBody = String.join (ds.map fullBody) := by
    rw [hf]
    exact String.empty_append
  refine ⟨m, hm, fun ha => hn ha [] rfl, hlined.height.symm.trans hheight, ?_⟩
  have hbody := hlined.body
  rw [hs, hfull] at hbody
  split_ifs with hany
  · rw [hany, Bool.or_true, if_pos rfl] at hbody
    refine ⟨hbody, ?_⟩
    rw [bodyLines, hbody, ← hfull, ← hheight]
    exact lineCount_fullBody m
  · rw [Bool.not_eq_true] at hany
    rw [hany] at hbody
    exact hbody

/-- A body comes to be at the second of three bundles. -/
theorem concat_longBody : ∃ m, concat [onlyMap, longBody, onlyMap] = .ok m ∧
    m.body = some "\none\ntwo\nthree\n\n" ∧ m.bodyLines = 5 ∧ m.mappings.lineCount = 5 := by
  have hr : ∀ d ∈ [onlyMap, longBody, onlyMap], d.Reachable := by
    simp [reachable_onlyMap, reachable_longBody]
  have hl : [onlyMap, longBody, onlyMap].mapM namedLines =
      .ok [[[⟨4, some ⟨"a.js", 1, 2, some "f"⟩⟩]], [[⟨4, some ⟨"a.js", 1, 2, some "f"⟩⟩]],
        [[⟨4, some ⟨"a.js", 1, 2, some "f"⟩⟩]]] :=
    mapM_eq_ok_iff.2 (.cons namedLines_onlyMap (.cons namedLines_longBody
      (.cons namedLines_onlyMap .nil)))
  obtain ⟨m, hm, -, hcount, hbody⟩ := concat_of_reachable hr hl (by decide +kernel)
  rw [if_pos (by decide +kernel)] at hbody
  refine ⟨m, hm, hbody.1.trans ?_, hbody.2.trans ?_, hcount.trans ?_⟩ <;> decide +kernel

end SourceMap.Bundle
