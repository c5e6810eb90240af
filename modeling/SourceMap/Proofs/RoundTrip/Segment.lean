import SourceMap.Proofs.RoundTrip.Vlq
import SourceMap.Segment.Token

/-!
# Tokens and the segments they spell

Whether a token is read as a segment depends on three things apart: its values are the differences
that lead to the segment, the baseline behind it is that of the segment, and the indices are within
the limits. Reading what was written and reading with other limits both follow.

## Main definitions

* `Limits.Admits`, `Segment.Within` : an index, and all indices of a segment, are within limits.
* `Baseline.steps` : fields with the differences that lead to their values.

## Main statements

* `Segment.decode_eq_ok_iff` : when a token is read as a segment.
* `Segment.decode_encode` : a token is read as the segment it was written for.
* `Segment.decode_encode_frame` : reading and writing leave alone what the segment does not have.
-/

namespace SourceMap

open Text (Span bytes comma semicolon)

/-- The limits let `v` be a value of `f`. -/
def Limits.Admits (l : Limits) (f : Field) (v : UInt32) : Prop :=
  match f with
  | .source => v.toNat < l.sources
  | .name => v.toNat < l.names
  | .generatedColumn | .line | .column => True

/-- All indices of `s` are within the limits. -/
def Segment.Within (s : Segment) (l : Limits) : Prop := ∀ p ∈ s.values, l.Admits p.1 p.2

instance (l : Limits) (f : Field) (v : UInt32) : Decidable (l.Admits f v) :=
  match f with
  | .source => inferInstanceAs (Decidable (v.toNat < l.sources))
  | .name => inferInstanceAs (Decidable (v.toNat < l.names))
  | .generatedColumn | .line | .column => .isTrue trivial

instance (s : Segment) (l : Limits) : Decidable (s.Within l) :=
  inferInstanceAs (Decidable (∀ p ∈ s.values, l.Admits p.1 p.2))

theorem Limits.admits_unbounded (f : Field) (v : UInt32) : Limits.unbounded.Admits f v := by
  have hv := v.toNat_lt
  cases f <;> simp only [Admits, unbounded] <;> omega

/-! ## One field -/

theorem Field.fault?_eq_none_iff {f : Field} {l : Limits} {span : Span} {v : UInt32} :
    f.fault? l span v.toNat = none ↔ l.Admits f v := by
  cases f <;> simp [fault?, Limits.Admits]

theorem Field.nonneg_of_fault?_eq_none {f : Field} {l : Limits} {span : Span} {v : Int}
    (h : f.fault? l span v = none) : 0 ≤ v := by
  refine Int.not_lt.1 fun hv => ?_
  cases f <;> simp [fault?, hv] at h

/-- No sum of 32 bits is cut off at the largest number of 64 bits. -/
theorem Field.advance_eq_iff {previous v : UInt32} {delta : Int} :
    advance previous delta = v.toNat ↔ delta = v.toNat - previous.toNat := by
  have hv := v.toNat_lt
  unfold advance
  omega

/-- A field is read as `v` by the one difference that leads to `v`. -/
theorem Field.decode_eq_ok_iff {f : Field} {l : Limits} {span : Span} {previous v : UInt32}
    {delta : Int} :
    f.decode l span previous delta = .ok v ↔
      delta = v.toNat - previous.toNat ∧ l.Admits f v := by
  rw [← advance_eq_iff]
  unfold decode
  constructor
  · intro h
    dsimp only at h
    split at h
    · cases h
    · rename_i hf
      have h0 := nonneg_of_fault?_eq_none hf
      split at h
      · rename_i hle
        cases h
        have hv : advance previous delta = (UInt32.ofNat (advance previous delta).toNat).toNat := by
          rw [UInt32.toNat_ofNat_of_lt' (by simp [UInt32.size]; omega)]
          omega
        refine ⟨hv, ?_⟩
        rw [hv] at hf
        exact fault?_eq_none_iff.1 hf
      · cases h
  · rintro ⟨h, ha⟩
    have hv := v.toNat_lt
    simp only [h, fault?_eq_none_iff.2 ha]
    rw [if_pos (by omega), Int.toNat_natCast, UInt32.ofNat_toNat]

/-! ## Fields one after another -/

/-- The fields of `fvs`, each with the difference that leads to its value. -/
def Baseline.steps (b : Baseline) (fvs : List (Field × UInt32)) : List (Field × Int) :=
  (fvs.map Prod.fst).zip (Segment.deltas fvs b)

@[simp] theorem Baseline.steps_nil (b : Baseline) : b.steps [] = [] := rfl

@[simp] theorem Baseline.steps_cons (b : Baseline) (f : Field) (v : UInt32)
    (fvs : List (Field × UInt32)) :
    b.steps ((f, v) :: fvs) = (f, (v.toNat : Int) - (b.get f).toNat) :: (b.set f v).steps fvs := rfl

theorem Baseline.advance_eq_ok_iff {l : Limits} {span : Span} {fds : List (Field × Int)}
    {b b' : Baseline} :
    Baseline.advance l span fds b = (.ok (), b') ↔
      ∃ fvs, fds = b.steps fvs ∧ b' = b.setAll fvs ∧ ∀ p ∈ fvs, l.Admits p.1 p.2 := by
  induction fds generalizing b with
  | nil =>
    constructor
    · rintro ⟨⟩
      exact ⟨[], rfl, rfl, by simp⟩
    · rintro ⟨_ | ⟨⟨_, _⟩, _⟩, h, rfl, -⟩
      · rfl
      · simp at h
  | cons fd fds ih =>
    obtain ⟨f, d⟩ := fd
    constructor
    · intro h
      rw [advance] at h
      split at h
      · cases h
      · rename_i v hv
        obtain ⟨fvs, rfl, rfl, ha⟩ := ih.1 h
        obtain ⟨rfl, hf⟩ := Field.decode_eq_ok_iff.1 hv
        exact ⟨(f, v) :: fvs, rfl, rfl, by simpa using ⟨hf, fun _ _ => ha _⟩⟩
    · rintro ⟨_ | ⟨⟨g, v⟩, fvs⟩, h, rfl, ha⟩
      · simp at h
      · rw [steps_cons] at h
        obtain ⟨⟨rfl, rfl⟩, rfl⟩ : (f = g ∧ _ = _) ∧ fds = _ := by simpa using h
        rw [List.forall_mem_cons] at ha
        rw [advance, Field.decode_eq_ok_iff.2 ⟨rfl, ha.1⟩]
        exact ih.2 ⟨fvs, rfl, rfl, ha.2⟩

theorem Baseline.get_setAll_of_notMem {fvs : List (Field × UInt32)} {f : Field}
    (h : f ∉ fvs.map Prod.fst) (b : Baseline) : (b.setAll fvs).get f = b.get f := by
  induction fvs generalizing b with
  | nil => rfl
  | cons p fvs ih =>
    obtain ⟨hne, hrest⟩ := not_or.1 (List.mem_cons.not.1 h)
    rw [setAll, ih hrest, get_set, if_neg hne]

/-- Of fields set one after another, one that is set once has the value it was set to. -/
theorem Baseline.get_setAll_of_mem {fvs : List (Field × UInt32)} {f : Field} {v : UInt32}
    (hn : (fvs.map Prod.fst).Nodup) (h : (f, v) ∈ fvs) (b : Baseline) :
    (b.setAll fvs).get f = v := by
  induction fvs generalizing b with
  | nil => cases h
  | cons p fvs ih =>
    obtain ⟨hp, hn⟩ := List.nodup_cons.1 hn
    rcases List.mem_cons.1 h with rfl | h
    · rw [setAll, get_setAll_of_notMem hp, get_set, if_pos rfl]
    · exact ih hn h _

theorem Segment.length_deltas (fvs : List (Field × UInt32)) (b : Baseline) :
    (deltas fvs b).length = fvs.length := by
  induction fvs generalizing b with
  | nil => rfl
  | cons p fvs ih => simp [deltas, ih]

@[simp] theorem Baseline.map_fst_steps (b : Baseline) (fvs : List (Field × UInt32)) :
    (b.steps fvs).map Prod.fst = fvs.map Prod.fst :=
  List.map_fst_zip (by simp [Segment.length_deltas])

@[simp] theorem Baseline.map_snd_steps (b : Baseline) (fvs : List (Field × UInt32)) :
    (b.steps fvs).map Prod.snd = Segment.deltas fvs b :=
  List.map_snd_zip (by simp [Segment.length_deltas])

theorem Field.zip_all {ds : List Int} (h : ds.length ≤ Field.all.length) :
    Field.all.zip ds = (Field.all.take ds.length).zip ds := by
  rw [List.zip_eq_zip_take_min, Nat.min_eq_right h, List.take_length]

/-- No token has more values than there are fields. -/
theorem Field.le_length_all {n : Nat} (h : n = 1 ∨ n = 4 ∨ n = 5) : n ≤ Field.all.length := by
  simp only [Field.all, List.length_cons]
  omega

theorem Field.map_fst_zip_all {ds : List Int} (h : ds.length ≤ Field.all.length) :
    (Field.all.zip ds).map Prod.fst = Field.all.take ds.length := by
  rw [zip_all h, List.map_fst_zip (by simp [h])]

theorem Segment.map_fst_values (s : Segment) :
    s.values.map Prod.fst = Field.all.take s.valueCount := by
  obtain ⟨_, _ | ⟨_, _, _, _ | _⟩⟩ := s <;> rfl

theorem Segment.nodup_fields (s : Segment) : (s.values.map Prod.fst).Nodup := by
  rw [map_fst_values]
  exact List.Nodup.sublist (List.take_sublist _ _) (by decide)

/-- Values of the first fields are those of a segment, if there are as many as a token may hold. -/
theorem Baseline.values_segment_setAll {b : Baseline} {fvs : List (Field × UInt32)} {n : Nat}
    (hf : fvs.map Prod.fst = Field.all.take n) (hn : n = 1 ∨ n = 4 ∨ n = 5) :
    ((b.setAll fvs).segment n).values = fvs := by
  rcases hn with rfl | rfl | rfl <;> simp [Field.all, List.map_eq_cons_iff] at hf <;>
    grind [setAll, segment, Segment.values, set]

namespace Segment

theorem valueCount_eq (s : Segment) : s.valueCount = 1 ∨ s.valueCount = 4 ∨ s.valueCount = 5 := by
  obtain ⟨_, _ | ⟨_, _, _, _ | _⟩⟩ := s <;> simp [valueCount]

theorem length_deltas_values (s : Segment) (b : Baseline) :
    (deltas s.values b).length = s.valueCount := by
  rw [length_deltas, length_values]

/-- The differences of a segment belong to the fields that it has. -/
theorem zip_deltas_values (s : Segment) (b : Baseline) :
    Field.all.zip (deltas s.values b) = b.steps s.values := by
  have hle : (deltas s.values b).length ≤ Field.all.length := by
    rw [length_deltas_values]
    exact Field.le_length_all s.valueCount_eq
  rw [Field.zip_all hle, length_deltas_values, Baseline.steps, map_fst_values]

/-- A token is read as `s` exactly where its values are the differences that lead to `s`. -/
theorem decode_eq_ok_iff {l : Limits} {offset : Nat} {token : List UInt8} {b b' : Baseline}
    {s : Segment} :
    decode l offset token b = (.ok s, b') ↔
      Vlq.decodeList offset token = .ok (deltas s.values b) ∧ b' = b.setAll s.values ∧
        s.Within l := by
  constructor
  · intro h
    unfold decode at h
    split at h
    · cases h
    · rename_i ds hds
      dsimp only at h
      split at h
      · rename_i hn
        split at h
        · cases h
        · rename_i c hc
          obtain ⟨fvs, hz, rfl, ha⟩ := Baseline.advance_eq_ok_iff.1 hc
          cases h
          have hle := Field.le_length_all hn
          have hfst : fvs.map Prod.fst = Field.all.take ds.length := by
            rw [← Baseline.map_fst_steps, ← hz, Field.map_fst_zip_all hle]
          have hsnd : deltas fvs b = ds := by
            rw [← Baseline.map_snd_steps, ← hz, List.map_snd_zip hle]
          have hs := Baseline.values_segment_setAll (b := b) hfst hn
          rw [Within, hs, hsnd]
          exact ⟨hds, rfl, ha⟩
      · cases h
  · rintro ⟨hd, rfl, hw⟩
    unfold decode
    rw [hd]
    dsimp only
    rw [length_deltas_values, if_pos s.valueCount_eq, zip_deltas_values,
      Baseline.advance_eq_ok_iff.2 ⟨_, rfl, rfl, hw⟩]
    simp only [Baseline.segment_setAll]

theorem fits64_of_mem_deltas {fvs : List (Field × UInt32)} {b : Baseline} :
    ∀ d ∈ deltas fvs b, Vlq.Fits64 d := by
  induction fvs generalizing b with
  | nil => simp [deltas]
  | cons p fvs ih =>
    intro d hd
    rcases List.mem_cons.1 hd with rfl | hd
    · have hv := p.2.toNat_lt
      have hb := (b.get p.1).toNat_lt
      unfold Vlq.Fits64
      omega
    · exact ih d hd

theorem decode_encode {s : Segment} {l : Limits} (h : s.Within l) (offset : Nat) (b : Baseline) :
    decode l offset (bytes (s.encode b).1) b = (.ok s, (s.encode b).2) :=
  decode_eq_ok_iff.2 ⟨Vlq.decodeList_encodeList fits64_of_mem_deltas offset, rfl, h⟩

/-- A token is read as the segment it was written for, from any baseline and within any limits that
have room for its indices. Reading and writing leave one baseline: the fields of the segment have
its values there, and the others are as they were. -/
theorem decode_encode_frame {s : Segment} {l : Limits} (h : s.Within l) (offset : Nat)
    (b : Baseline) :
    decode l offset (bytes (s.encode b).1) b = (.ok s, (s.encode b).2) ∧
      (∀ p ∈ s.values, (s.encode b).2.get p.1 = p.2) ∧
        ∀ f, f ∉ s.values.map Prod.fst →
          (s.encode b).2.get f = b.get f ∧
            (decode l offset (bytes (s.encode b).1) b).2.get f = b.get f := by
  have hd := decode_encode h offset b
  have hkept (f : Field) (hf : f ∉ s.values.map Prod.fst) : (s.encode b).2.get f = b.get f :=
    Baseline.get_setAll_of_notMem hf b
  refine ⟨hd, ?_, fun f hf => ⟨hkept f hf, ?_⟩⟩
  · rintro ⟨f, v⟩ hp
    exact Baseline.get_setAll_of_mem s.nodup_fields hp b
  · rw [hd]
    exact hkept f hf

/-- Differences of full width in both directions, to the last source within limits that have no
name at all. -/
theorem decode_encode_frame_farthest :
    let s : Segment := ⟨0, some ⟨4294967295, 0, 4294967295, none⟩⟩
    let b : Baseline := ⟨4294967295, 0, 4294967295, 0, 4294967295⟩
    let b' : Baseline := ⟨0, 4294967295, 0, 4294967295, 4294967295⟩
    s.Within ⟨4294967296, 0⟩ ∧ s.encode b = ("//////H+/////H//////H+/////H", b') ∧
      decode ⟨4294967296, 0⟩ 7 (bytes "//////H+/////H//////H+/////H") b = (.ok s, b') := by
  intro s b b'
  have hw : s.Within ⟨4294967296, 0⟩ := by decide
  have he : s.encode b = ("//////H+/////H//////H+/////H", b') := by decide +kernel
  have hd := (decode_encode_frame hw 7 b).1
  rw [he] at hd
  exact ⟨hw, he, hd⟩

/-- Limits only refuse segments. They change none, and not what is left behind it. -/
theorem decode_eq_ok_iff_unbounded {l : Limits} {offset : Nat} {token : List UInt8}
    {b b' : Baseline} {s : Segment} :
    decode l offset token b = (.ok s, b') ↔
      decode .unbounded offset token b = (.ok s, b') ∧ s.Within l := by
  have hs : s.Within .unbounded := fun p _ => Limits.admits_unbounded p.1 p.2
  simp only [decode_eq_ok_iff, hs, and_true, and_assoc]

theorem bytes_encode_ne_nil (s : Segment) (b : Baseline) : bytes (s.encode b).1 ≠ [] := by
  simp [encode, values, deltas, Vlq.bytes_encode_ne_nil]

theorem comma_notMem_bytes_encode (s : Segment) (b : Baseline) : comma ∉ bytes (s.encode b).1 :=
  Vlq.comma_notMem_bytes_encodeList _

theorem semicolon_notMem_bytes_encode (s : Segment) (b : Baseline) :
    semicolon ∉ bytes (s.encode b).1 :=
  Vlq.semicolon_notMem_bytes_encodeList _

end Segment

end SourceMap
