import SourceMap.IndexedTable
import SourceMap.Proofs.Growth.Tables

/-!
# Strings that are interned one after another

An indexed table keeps each string twice, in the order of indices and in its look-up. Whatever
strings it was read with and whatever strings it is asked for afterwards, the look-up finds what a
search from the front would find.

## Main definitions

* `StringTable.internAll`, `IndexedTable.internAll` : the table after strings are interned in turn.
* `IndexedTable.Faithful` : the look-up has the first index of each string, cut to 32 bits.
* `IndexedTable.Coherent` : the same, where no index is cut.
* `IndexedTable.Answered` : an answer of `intern`, and what has become of it later.

## Main statements

* `values_internAll` : new strings come behind the others, in the order in which they are first
  seen.
* `Faithful.intern`, `Faithful.internAll` : the look-up stays faithful, and the strings are those of
  a table without it.
* `coherent_internAll_ofValues` : all that a table and its earlier answers keep to.
-/

namespace SourceMap

namespace StringTable

theorem index?_eq_some_iff {t : StringTable} {s : String} {i : Nat} :
    t.index? s = some i ↔ t.values[i]? = some s ∧ ∀ j < i, t.values[j]? ≠ some s := by
  unfold index?
  rw [List.idxOf?_eq_some_iff]
  constructor
  · rintro ⟨hi, hs, hfirst⟩
    refine ⟨List.getElem?_eq_some_iff.2 ⟨hi, hs⟩, fun j hj h => ?_⟩
    exact hfirst j hj (List.getElem?_eq_some_iff.1 h).2
  · rintro ⟨hs, hfirst⟩
    obtain ⟨hi, hs⟩ := List.getElem?_eq_some_iff.1 hs
    exact ⟨hi, hs, fun j hj h => hfirst j hj (List.getElem?_eq_some_iff.2 ⟨hj.trans hi, h⟩)⟩

theorem index?_eq_none_iff {t : StringTable} {s : String} :
    t.index? s = none ↔ s ∉ t.values :=
  List.idxOf?_eq_none_iff

theorem intern_of_notMem {t : StringTable} {s : String} (h : s ∉ t.values) :
    t.intern s = (t.size, ⟨t.values ++ [s]⟩) := by
  rw [intern, index?_eq_none_iff.2 h]

/-- The table after `ss` are interned in turn. -/
def internAll (t : StringTable) (ss : List String) : StringTable :=
  ss.foldl (fun t s => (t.intern s).2) t

theorem values_prefix_internAll (t : StringTable) (ss : List String) :
    t.values <+: (t.internAll ss).values := by
  induction ss generalizing t with
  | nil => exact List.prefix_rfl
  | cons s ss ih => exact (values_prefix_intern t s).trans (ih _)

theorem nodup_internAll {t : StringTable} (h : t.values.Nodup) (ss : List String) :
    (t.internAll ss).values.Nodup := by
  induction ss generalizing t with
  | nil => exact h
  | cons s ss ih =>
    have hstep : (t.intern s).2.values.Nodup := by
      by_cases hs : s ∈ t.values
      · rw [intern_snd_eq_self_iff.2 hs]
        exact h
      · rw [intern_of_notMem hs]
        exact List.nodup_append.2 ⟨h, List.nodup_singleton s, by grind⟩
    exact ih hstep

/-- New strings come behind the others, in the order in which they are first seen. -/
theorem values_internAll (t : StringTable) (ss : List String) :
    (t.internAll ss).values = t.values ++ (ss.filter (· ∉ t.values)).eraseDups := by
  induction ss generalizing t with
  | nil => simp [internAll]
  | cons s ss ih =>
    change ((t.intern s).2.internAll ss).values = _
    rw [ih]
    by_cases hs : s ∈ t.values
    · rw [intern_snd_eq_self_iff.2 hs, List.filter_cons_of_neg (by simpa using hs)]
    · have hrest : ss.filter (· ∉ t.values ++ [s]) =
          (ss.filter (· ∉ t.values)).filter (fun x => !x == s) := by
        rw [List.filter_filter]
        exact List.filter_congr fun x _ => by grind
      rw [intern_of_notMem hs, List.filter_cons_of_pos (by simpa using hs), List.eraseDups_cons]
      dsimp only
      rw [hrest, List.append_assoc, List.singleton_append]

end StringTable

namespace IndexedTable

/-- The table after `ss` are interned in turn. -/
def internAll (t : IndexedTable) (ss : List String) : IndexedTable :=
  ss.foldl (fun t s => (t.intern s).2) t

theorem internAll_append (t : IndexedTable) (ss us : List String) :
    t.internAll (ss ++ us) = (t.internAll ss).internAll us :=
  List.foldl_append

/-! ## The look-up -/

/-- Strings that were read have the index of their first place, those before `start` included. -/
theorem getElem?_indexValues (values : List String) (start : Nat)
    (lookup : Std.HashMap String UInt32) (s : String) :
    (indexValues values start lookup)[s]? =
      lookup[s]?.or ((values.idxOf? s).map fun i => UInt32.ofNat (i + start)) := by
  induction values generalizing start lookup with
  | nil => simp [indexValues]
  | cons v values ih =>
    change (indexValues values (start + 1) (lookup.insertIfNew v (UInt32.ofNat start)))[s]? = _
    rw [ih, Std.HashMap.getElem?_insertIfNew, List.idxOf?_cons]
    by_cases hv : v = s
    · subst hv
      cases hs : lookup[v]? with
      | some i => simp [Std.HashMap.mem_iff_isSome_getElem?, hs]
      | none => simp [Std.HashMap.mem_iff_isSome_getElem?, hs]
    · rw [if_neg (by simp [hv]), if_neg (by simpa using hv), Option.map_map]
      congr 2
      funext i
      exact congrArg UInt32.ofNat (by dsimp only; omega)

theorem index?_intern (t : IndexedTable) (s u : String) :
    (t.intern s).2.index? u = if u = s then some (t.intern s).1 else t.index? u := by
  unfold intern
  split
  · rename_i i hi
    split_ifs with hu
    · rw [hu, hi]
    · rfl
  · change (t.lookup.insert s _)[u]? = _
    rw [Std.HashMap.getElem?_insert]
    by_cases hu : u = s
    · rw [if_pos (beq_iff_eq.2 hu.symm), if_pos hu]
    · rw [if_neg (by simpa using Ne.symm hu), if_neg hu]
      rfl

theorem intern_of_index? {t : IndexedTable} {s : String} {i : UInt32} (h : t.index? s = some i) :
    t.intern s = (i, t) := by
  rw [intern, h]

/-- The look-up has the first index of each string, cut to 32 bits. -/
def Faithful (t : IndexedTable) : Prop :=
  ∀ s, t.index? s = (t.toStringTable.index? s).map UInt32.ofNat

theorem faithful_ofValues (values : List String) : (ofValues values).Faithful := by
  intro s
  change (indexValues values 0 ∅)[s]? = _
  rw [getElem?_indexValues]
  simp [StringTable.index?, ofValues]

/-- An indexed table answers and grows as a table without look-up does. -/
theorem Faithful.intern_eq {t : IndexedTable} (h : t.Faithful) (s : String) :
    (t.intern s).1 = UInt32.ofNat (t.toStringTable.intern s).1 ∧
      (t.intern s).2.toStringTable = (t.toStringTable.intern s).2 := by
  unfold intern StringTable.intern
  rw [h s]
  cases t.toStringTable.index? s <;> exact ⟨rfl, rfl⟩

theorem Faithful.intern {t : IndexedTable} (h : t.Faithful) (s : String) :
    (t.intern s).2.Faithful := by
  obtain ⟨hanswer, htable⟩ := h.intern_eq s
  intro u
  rw [index?_intern, htable, StringTable.index?_intern, hanswer, h u]
  split_ifs <;> rfl

theorem Faithful.internAll {t : IndexedTable} (h : t.Faithful) (ss : List String) :
    (t.internAll ss).Faithful ∧
      (t.internAll ss).toStringTable = t.toStringTable.internAll ss := by
  induction ss generalizing t with
  | nil => exact ⟨h, rfl⟩
  | cons s ss ih =>
    obtain ⟨hfaithful, htable⟩ := ih (h.intern s)
    refine ⟨hfaithful, htable.trans ?_⟩
    rw [(h.intern_eq s).2]
    rfl

/-! ## Tables with indices of 32 bits -/

/-- The look-up finds the first place of every string, and no string that has none. -/
structure Coherent (t : IndexedTable) : Prop where
  index?_eq_some_iff : ∀ s i, t.index? s = some i ↔
    t.values[i.toNat]? = some s ∧ ∀ j < i.toNat, t.values[j]? ≠ some s
  index?_eq_none_iff : ∀ s, t.index? s = none ↔ ∀ i : Nat, t.values[i]? ≠ some s
  /-- A table without look-up finds the same. -/
  map_index? : ∀ s, (t.index? s).map UInt32.toNat = t.toStringTable.index? s

theorem Faithful.index?_eq_some_iff {t : IndexedTable} (h : t.Faithful) (hsize : t.size < 2 ^ 32)
    {s : String} {i : UInt32} :
    t.index? s = some i ↔ t.toStringTable.index? s = some i.toNat := by
  rw [h s, Option.map_eq_some_iff]
  constructor
  · rintro ⟨k, hk, rfl⟩
    rw [UInt32.toNat_ofNat_of_lt' (Nat.lt_trans (StringTable.lt_size_of_index? hk) hsize)]
    exact hk
  · exact fun hi => ⟨i.toNat, hi, UInt32.ofNat_toNat⟩

theorem Faithful.coherent {t : IndexedTable} (h : t.Faithful) (hsize : t.size < 2 ^ 32) :
    t.Coherent where
  index?_eq_some_iff s i := by
    rw [h.index?_eq_some_iff hsize, StringTable.index?_eq_some_iff]
  index?_eq_none_iff s := by
    rw [h s, Option.map_eq_none_iff, StringTable.index?_eq_none_iff, List.mem_iff_getElem?]
    exact not_exists
  map_index? s := by
    cases hs : t.index? s with
    | some i => exact ((h.index?_eq_some_iff hsize).1 hs).symm
    | none =>
      rw [h s, Option.map_eq_none_iff] at hs
      exact hs.symm

/-- What `intern` answers for `s` on `t`, and what has become of it on a later table `u`. -/
structure Answered (t : IndexedTable) (s : String) (u : IndexedTable) : Prop where
  get : (t.intern s).2.get (t.intern s).1 = .ok s
  known : s ∈ t.values → (t.intern s).2 = t
  added : s ∉ t.values →
    (t.intern s).1.toNat = t.size ∧ (t.intern s).2.values = t.values ++ [s]
  /-- Every place keeps its string. -/
  get_later : ∀ i x, (t.intern s).2.get i = .ok x → u.get i = .ok x
  /-- Every string keeps its first place. -/
  index?_later : ∀ x i, (t.intern s).2.index? x = some i → u.index? x = some i
  intern_later : u.intern s = ((t.intern s).1, u)
  /-- A table without look-up gives the same answer. -/
  same : t.toStringTable.intern s = ((t.intern s).1.toNat, (t.intern s).2.toStringTable)

theorem Faithful.answered {t : IndexedTable} (h : t.Faithful) (s : String) (ss : List String)
    (hsize : ((t.intern s).2.internAll ss).size < 2 ^ 32) :
    Answered t s ((t.intern s).2.internAll ss) := by
  obtain ⟨hanswer, htable⟩ := h.intern_eq s
  obtain ⟨hfaithful, hlater⟩ := (h.intern s).internAll ss
  have hgrown : (t.intern s).2.values <+: ((t.intern s).2.internAll ss).values := by
    rw [hlater]
    exact StringTable.values_prefix_internAll _ ss
  have hsize' : (t.intern s).2.size < 2 ^ 32 := Nat.lt_of_le_of_lt hgrown.length_le hsize
  have hword : (t.intern s).1.toNat = (t.toStringTable.intern s).1 := by
    have hlt := StringTable.intern_fst_lt t.toStringTable s
    rw [← htable] at hlt
    rw [hanswer, UInt32.toNat_ofNat_of_lt' (Nat.lt_trans hlt hsize')]
  have hkept : ∀ x i, (t.intern s).2.index? x = some i →
      ((t.intern s).2.internAll ss).index? x = some i := by
    intro x i hi
    rw [(h.intern s).index?_eq_some_iff hsize'] at hi
    rw [hfaithful.index?_eq_some_iff hsize, ← hi]
    rcases StringTable.index?_of_prefix hgrown x with hsame | ⟨hnone, -⟩
    · exact hsame
    · rw [hnone] at hi
      cases hi
  constructor
  case get =>
    rw [IndexedTable.get, hword, htable]
    exact StringTable.get_intern t.toStringTable s
  case known =>
    intro hs
    cases hi : t.index? s with
    | some i => rw [intern_of_index? hi]
    | none =>
      rw [h s, Option.map_eq_none_iff] at hi
      exact absurd hs (StringTable.index?_eq_none_iff.1 hi)
  case added =>
    intro hs
    have hadded := StringTable.intern_of_notMem hs
    rw [hword, htable, hadded]
    exact ⟨rfl, rfl⟩
  case get_later => exact fun i x hx => StringTable.get_of_prefix hgrown hx
  case index?_later => exact hkept
  case intern_later =>
    exact intern_of_index? (hkept s _ (by rw [index?_intern, if_pos rfl]))
  case same => rw [hword, htable]

/-- For strings that were read, in which some may repeat, and strings that are interned after them:
the look-up finds first places, and each answer is right when it is given and stays so. A table that
starts without strings holds each of them once, in the order in which they are first seen. -/
theorem coherent_internAll_ofValues {values ss : List String}
    (hsize : ((ofValues values).internAll ss).size < 2 ^ 32) :
    ((ofValues values).internAll ss).Coherent ∧
      (∀ before s after, ss = before ++ s :: after →
        Answered ((ofValues values).internAll before) s ((ofValues values).internAll ss)) ∧
      (empty.internAll ss).values = ss.eraseDups ∧ (empty.internAll ss).values.Nodup := by
  have hstart := faithful_ofValues values
  refine ⟨(hstart.internAll ss).1.coherent hsize, ?_, ?_⟩
  · rintro before s after rfl
    have hsplit : (ofValues values).internAll (before ++ s :: after) =
        (((ofValues values).internAll before).intern s).2.internAll after :=
      internAll_append _ before (s :: after)
    rw [hsplit] at hsize ⊢
    exact (hstart.internAll before).1.answered s after hsize
  · have hempty : (empty.internAll ss).toStringTable = StringTable.empty.internAll ss :=
      ((faithful_ofValues []).internAll ss).2
    rw [hempty]
    refine ⟨?_, StringTable.nodup_internAll List.nodup_nil ss⟩
    rw [StringTable.values_internAll]
    simp [StringTable.empty]

/-- The string `a.js` is read twice, and its later place is not the one that is found. -/
theorem coherent_internAll_repeated :
    let t := (ofValues ["a.js", "b.js", "a.js"]).internAll ["c.js"]
    let u := (ofValues ["a.js", "b.js", "a.js"]).internAll ["c.js", "a.js", "d.js", "c.js"]
    u.values = ["a.js", "b.js", "a.js", "c.js", "d.js"] ∧ u.size < 2 ^ 32 ∧
      u.index? "a.js" = some 0 ∧ u.index? "e.js" = none ∧ (t.intern "a.js").2 = t ∧
      u.intern "a.js" = ((t.intern "a.js").1, u) := by
  intro t u
  have hvalues : u.values = ["a.js", "b.js", "a.js", "c.js", "d.js"] := by
    rw [((faithful_ofValues _).internAll _).2]
    decide
  have hsize : u.size < 2 ^ 32 := by
    rw [StringTable.size, hvalues]
    decide
  obtain ⟨hcoherent, hcalls, -⟩ := coherent_internAll_ofValues hsize
  have hcall := hcalls ["c.js"] "a.js" ["d.js", "c.js"] rfl
  refine ⟨hvalues, hsize, ?_, ?_, hcall.known ?_, hcall.intern_later⟩
  · rw [hcoherent.index?_eq_some_iff, hvalues]
    decide
  · rw [hcoherent.index?_eq_none_iff, hvalues]
    exact fun i hi => absurd (List.mem_of_getElem? hi) (by decide)
  · have htvalues : t.values = ["a.js", "b.js", "a.js", "c.js"] := by
      rw [((faithful_ofValues _).internAll _).2]
      decide
    rw [htvalues]
    decide

end IndexedTable

end SourceMap
