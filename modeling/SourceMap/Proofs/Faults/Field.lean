import SourceMap.Proofs.RoundTrip.Segment

/-!
# The field at fault

A token is read in whole numbers: each value is added to the last value of its field. The first sum
that its field does not accept decides the error, and the fields before it have been taken over by
then.

## Main definitions

* `Field.Accepts`, `Field.refusal` : the numbers that a field can have, and the error at any other.
* `Baseline.sums`, `Field.numbers` : the numbers that a token stands for, and those of a segment.
* `Baseline.Takes` : some fields have new values, and the others are as they were.
* `Segment.Decodes` : what a token is read as, and what that leaves.

## Main statements

* `Field.eq_refusal_of_decode` : what a field answers to a number that it does not accept.
* `Segment.Decodes.unique` : a token is read in one way only.
* `Segment.decode_iff_decodes` : tokens are read in whole numbers.
-/

namespace SourceMap

open Text (Span bytes)

/-! ## One field -/

/-- The number of entries that a field refers to, where it is an index. -/
def Limits.count? (l : Limits) : Field → Option Nat
  | .source => some l.sources
  | .name => some l.names
  | .generatedColumn | .line | .column => none

/-- `n` is neither negative, nor too large for 32 bits, nor behind the last entry of its table. -/
def Field.Accepts (f : Field) (l : Limits) (n : Int) : Prop :=
  0 ≤ n ∧ n < 4294967296 ∧ ∀ count ∈ l.count? f, n < count

instance (f : Field) (l : Limits) (n : Int) : Decidable (f.Accepts l n) :=
  inferInstanceAs (Decidable (_ ∧ _ ∧ _))

/-- The error at a number that `f` does not accept. No index is reported beyond the largest signed
number of 64 bits. -/
def Field.refusal (f : Field) (l : Limits) (span : Span) (n : Int) : MappingError :=
  if n < 0 ∨ ∃ count ∈ l.count? f, count ≤ n then
    match f with
    | .generatedColumn | .column => .negativeColumn n span
    | .line => .negativeLine n span
    | .source => .sourceOutOfRange (min n 9223372036854775807) l.sources span
    | .name => .nameOutOfRange (min n 9223372036854775807) l.names span
  else .malformed .beyond32Bits span

theorem Field.accepts_iff {f : Field} {l : Limits} {n : Int} :
    f.Accepts l n ↔ ∃ v : UInt32, (v.toNat : Int) = n ∧ l.Admits f v := by
  constructor
  · rintro ⟨h0, hlt, hcount⟩
    have hn : ((UInt32.ofNat n.toNat).toNat : Int) = n := by
      rw [UInt32.toNat_ofNat_of_lt' (by simp [UInt32.size]; omega)]
      omega
    refine ⟨_, hn, ?_⟩
    cases f <;> simp [Limits.count?, Limits.Admits] at hcount ⊢ <;> omega
  · rintro ⟨v, rfl, hv⟩
    have hlt := v.toNat_lt
    refine ⟨by omega, by omega, ?_⟩
    cases f <;> simp [Limits.count?, Limits.Admits] at hv ⊢ <;> omega

theorem Field.accepts_iff_decode {f : Field} {l : Limits} (span : Span) {previous : UInt32}
    {delta : Int} :
    f.Accepts l (previous.toNat + delta) ↔ ∃ v, f.decode l span previous delta = .ok v := by
  simp only [accepts_iff, decode_eq_ok_iff]
  refine exists_congr fun v => and_congr_left fun _ => ?_
  omega

/-- A number that is refused after it has been cut off is refused as it was. -/
theorem Field.refusal_of_fault? {f : Field} {l : Limits} {span : Span} {n : Int} {e : MappingError}
    (h : f.fault? l span (min n 9223372036854775807) = some e) : f.refusal l span n = e := by
  cases f with
  | generatedColumn | line | column =>
    obtain ⟨hneg, ⟨⟩⟩ := Option.ite_none_right_eq_some.1 h
    have hn : n < 0 := by omega
    have hcut : min n 9223372036854775807 = n := by omega
    rw [refusal, if_pos (.inl hn), hcut]
  | source | name =>
    obtain ⟨hout, ⟨⟩⟩ := Option.ite_none_right_eq_some.1 h
    rw [refusal, if_pos]
    simp only [Limits.count?, Option.mem_some_iff, exists_eq_left']
    omega

/-- A count above the number where sums are cut off is above all sums, so a sum that passes its
table when it has been cut off is in the table. -/
theorem Field.refusal_of_fault?_eq_none {f : Field} {l : Limits} {span : Span} {n : Int}
    (hl : ∀ count ∈ l.count? f, count < 2 ^ 63 ∨ count = 2 ^ 64 - 1) (hn : n < 2 ^ 64 - 1)
    (h : f.fault? l span (min n 9223372036854775807) = none) (hlarge : 4294967296 ≤ n) :
    f.refusal l span n = .malformed .beyond32Bits span := by
  unfold refusal
  rw [if_neg]
  rintro (hneg | ⟨count, hcount, hle⟩)
  · omega
  · have hsize := hl count hcount
    cases f <;> cases hcount <;>
      simp only [fault?, ite_eq_right_iff, reduceCtorEq, imp_false] at h <;> omega

/-- The error is that of the whole sum. -/
theorem Field.eq_refusal_of_decode {f : Field} {l : Limits} {span : Span} {previous : UInt32}
    {delta : Int} {e : MappingError}
    (hl : ∀ count ∈ l.count? f, count < 2 ^ 63 ∨ count = 2 ^ 64 - 1) (hd : Vlq.Fits64 delta)
    (h : f.decode l span previous delta = .error e) :
    e = f.refusal l span (previous.toNat + delta) := by
  have hsum : (previous.toNat : Int) + delta < 2 ^ 64 - 1 := by
    have hp := previous.toNat_lt
    have hd := hd.2
    omega
  unfold decode advance at h
  dsimp only at h
  split at h
  · rename_i hf
    cases h
    exact (refusal_of_fault? hf).symm
  · rename_i hf
    split at h
    · cases h
    · cases h
      exact (refusal_of_fault?_eq_none hl hsum hf (by omega)).symm

/-! ## Fields one after another -/

/-- Fields with the numbers that they have. -/
def Field.numbers (fvs : List (Field × UInt32)) : List (Field × Int) :=
  fvs.map fun p => (p.1, (p.2.toNat : Int))

@[simp] theorem Field.map_fst_numbers (fvs : List (Field × UInt32)) :
    (numbers fvs).map Prod.fst = fvs.map Prod.fst := by
  simp [numbers, Function.comp_def]

theorem Field.accepts_of_mem_numbers {l : Limits} {fvs : List (Field × UInt32)}
    (h : ∀ p ∈ fvs, l.Admits p.1 p.2) : ∀ p ∈ numbers fvs, p.1.Accepts l p.2 := by
  intro p hp
  obtain ⟨q, hq, rfl⟩ := List.mem_map.1 hp
  exact accepts_iff.2 ⟨q.2, rfl, h q hq⟩

namespace Baseline

/-- The numbers that differences lead to. -/
def sums (b : Baseline) (fds : List (Field × Int)) : List (Field × Int) :=
  fds.map fun p => (p.1, (b.get p.1).toNat + p.2)

/-- The fields of `fns` have the numbers there in `b'`, and all others what they have in `b`. -/
structure Takes (b : Baseline) (fns : List (Field × Int)) (b' : Baseline) : Prop where
  taken : ∀ p ∈ fns, ((b'.get p.1).toNat : Int) = p.2
  kept : ∀ f, f ∉ fns.map Prod.fst → b'.get f = b.get f

theorem eq_of_get_eq {b c : Baseline} (h : ∀ f, b.get f = c.get f) : b = c := by
  have h1 := h .generatedColumn
  have h2 := h .source
  have h3 := h .line
  have h4 := h .column
  have h5 := h .name
  cases b
  cases c
  simp_all [get]

theorem Takes.unique {b c d : Baseline} {fns : List (Field × Int)} (h : b.Takes fns c)
    (h' : b.Takes fns d) : c = d := by
  refine eq_of_get_eq fun f => ?_
  by_cases hf : f ∈ fns.map Prod.fst
  · obtain ⟨p, hp, rfl⟩ := List.mem_map.1 hf
    have := (h.taken p hp).trans (h'.taken p hp).symm
    exact UInt32.toNat_inj.1 (by omega)
  · rw [h.kept f hf, h'.kept f hf]

theorem takes_setAll {fvs : List (Field × UInt32)} (hn : (fvs.map Prod.fst).Nodup)
    (b : Baseline) : b.Takes (Field.numbers fvs) (b.setAll fvs) where
  taken := by
    intro p hp
    obtain ⟨q, hq, rfl⟩ := List.mem_map.1 hp
    exact congrArg (fun v : UInt32 => (v.toNat : Int)) (get_setAll_of_mem hn hq b)
  kept := by
    intro f hf
    rw [Field.map_fst_numbers] at hf
    exact get_setAll_of_notMem hf b

/-- A field that is set before plays no part in the sums of the others. -/
theorem sums_set {b : Baseline} {f : Field} {fds : List (Field × Int)}
    (h : f ∉ fds.map Prod.fst) (v : UInt32) : (b.set f v).sums fds = b.sums fds := by
  refine List.map_congr_left fun p hp => ?_
  have hne : p.1 ≠ f := by
    rintro rfl
    exact h (List.mem_map_of_mem hp)
  rw [get_set, if_neg hne]

theorem sums_steps {fvs : List (Field × UInt32)} (hn : (fvs.map Prod.fst).Nodup) (b : Baseline) :
    b.sums (b.steps fvs) = Field.numbers fvs := by
  induction fvs generalizing b with
  | nil => rfl
  | cons p fvs ih =>
    obtain ⟨f, v⟩ := p
    obtain ⟨hf, hn⟩ := List.nodup_cons.1 hn
    have hrest : b.sums ((b.set f v).steps fvs) = Field.numbers fvs := by
      rw [← ih hn (b.set f v), sums_set (by rwa [map_fst_steps])]
    have hfirst : ((b.get f).toNat : Int) + (v.toNat - (b.get f).toNat) = v.toNat := by omega
    rw [steps_cons, sums, List.map_cons, hfirst]
    exact congrArg _ hrest

theorem advance_eq_error_iff {l : Limits} {span : Span} {fds : List (Field × Int)}
    {b b' : Baseline} {e : MappingError} :
    Baseline.advance l span fds b = (.error e, b') ↔
      ∃ before f delta after, fds = before ++ (f, delta) :: after ∧
        Baseline.advance l span before b = (.ok (), b') ∧
        f.decode l span (b'.get f) delta = .error e := by
  induction fds generalizing b with
  | nil => simp [advance]
  | cons fd fds ih =>
    obtain ⟨f, d⟩ := fd
    constructor
    · intro h
      rw [advance] at h
      split at h
      · rename_i hf
        cases h
        exact ⟨[], f, d, fds, rfl, rfl, hf⟩
      · rename_i v hv
        obtain ⟨before, g, delta, after, rfl, hbefore, hg⟩ := ih.1 h
        refine ⟨(f, d) :: before, g, delta, after, rfl, ?_, hg⟩
        simp only [advance, hv, hbefore]
    · rintro ⟨_ | ⟨fd, before⟩, g, delta, after, h, hbefore, hg⟩
      · obtain ⟨⟨rfl, rfl⟩, rfl⟩ : (f = g ∧ d = delta) ∧ fds = after := by simpa using h
        obtain rfl : b = b' := congrArg Prod.snd hbefore
        rw [advance, hg]
      · obtain ⟨rfl, rfl⟩ : (f, d) = fd ∧ fds = before ++ (g, delta) :: after := by simpa using h
        rw [advance] at hbefore
        split at hbefore
        · cases hbefore
        · rename_i v hv
          simp only [advance, hv]
          exact ih.2 ⟨before, g, delta, after, rfl, hbefore, hg⟩

/-- The first field that does not accept its sum decides the error. The fields before it are taken
over. -/
theorem exists_refusal_of_advance {l : Limits} {span : Span} {fds : List (Field × Int)}
    {b b' : Baseline} {e : MappingError}
    (hl : ∀ f, ∀ count ∈ l.count? f, count < 2 ^ 63 ∨ count = 2 ^ 64 - 1)
    (hfits : ∀ p ∈ fds, Vlq.Fits64 p.2) (hn : (fds.map Prod.fst).Nodup)
    (h : Baseline.advance l span fds b = (.error e, b')) :
    ∃ before f n after, b.sums fds = before ++ (f, n) :: after ∧
      (∀ p ∈ before, p.1.Accepts l p.2) ∧ ¬ f.Accepts l n ∧ b.Takes before b' ∧
      e = f.refusal l span n := by
  obtain ⟨_, f, delta, after, rfl, hbefore, hf⟩ := advance_eq_error_iff.1 h
  obtain ⟨fvs, rfl, rfl, hadmits⟩ := advance_eq_ok_iff.1 hbefore
  rw [List.map_append, map_fst_steps, List.map_cons] at hn
  obtain ⟨hfvs, -, hdisjoint⟩ := List.nodup_append.1 hn
  have hget : (b.setAll fvs).get f = b.get f :=
    get_setAll_of_notMem (fun hmem => hdisjoint f hmem f List.mem_cons_self rfl) b
  rw [hget] at hf
  refine ⟨Field.numbers fvs, f, (b.get f).toNat + delta, b.sums after, ?_,
    Field.accepts_of_mem_numbers hadmits, ?_, takes_setAll hfvs b, ?_⟩
  · rw [sums, List.map_append]
    exact congrArg (· ++ _) (sums_steps hfvs b)
  · intro haccepts
    obtain ⟨v, hv⟩ := (Field.accepts_iff_decode span).1 haccepts
    cases hf.symm.trans hv
  · exact Field.eq_refusal_of_decode (hl f) (hfits (f, delta) (by simp)) hf

end Baseline

/-! ## Tokens -/

namespace Segment

/-- What a token of a text is read as, and the baseline behind it. -/
inductive Decodes (l : Limits) (offset : Nat) (token : List UInt8) (b : Baseline) :
    Except MappingError Segment → Baseline → Prop
  | malformed {e} : Vlq.decodeList offset token = .error e → Decodes l offset token b (.error e) b
  | valueCount {deltas} : Vlq.decodeList offset token = .ok deltas →
      deltas.length ∉ [1, 4, 5] →
      Decodes l offset token b (.error (.valueCount deltas.length ⟨offset, token.length⟩)) b
  | refused {deltas before f n after b'} : Vlq.decodeList offset token = .ok deltas →
      deltas.length ∈ [1, 4, 5] →
      b.sums (Field.all.zip deltas) = before ++ (f, n) :: after →
      (∀ p ∈ before, p.1.Accepts l p.2) → ¬ f.Accepts l n → b.Takes before b' →
      Decodes l offset token b (.error (f.refusal l ⟨offset, token.length⟩ n)) b'
  | read {deltas s b'} : Vlq.decodeList offset token = .ok deltas →
      deltas.length ∈ [1, 4, 5] →
      (∀ p ∈ b.sums (Field.all.zip deltas), p.1.Accepts l p.2) →
      b.sums (Field.all.zip deltas) = Field.numbers s.values →
      b.Takes (b.sums (Field.all.zip deltas)) b' →
      Decodes l offset token b (.ok s) b'

variable {l : Limits} {offset : Nat} {token : List UInt8} {b b' : Baseline}

/-- Where elements are told apart by the first without a property, it is the same element and comes
behind the same ones. -/
theorem eq_of_append_cons_eq {p : α → Prop} {xs ys xs' ys' : List α} {x y : α}
    (h : xs ++ x :: xs' = ys ++ y :: ys') (hxs : ∀ a ∈ xs, p a) (hys : ∀ a ∈ ys, p a)
    (hx : ¬ p x) (hy : ¬ p y) : xs = ys ∧ x = y := by
  induction xs generalizing ys with
  | nil =>
    cases ys with
    | nil => exact ⟨rfl, (List.cons.inj h).1⟩
    | cons a ys => exact absurd (hys x (by simp [(List.cons.inj h).1])) hx
  | cons a xs ih =>
    cases ys with
    | nil => exact absurd (hxs y (by simp [(List.cons.inj h).1])) hy
    | cons c ys =>
      obtain ⟨rfl, hrest⟩ := List.cons.inj h
      obtain ⟨rfl, rfl⟩ := ih hrest (fun d hd => hxs d (List.mem_cons_of_mem _ hd))
        (fun d hd => hys d (List.mem_cons_of_mem _ hd))
      exact ⟨rfl, rfl⟩

/-- A segment is known by the numbers in its fields. -/
theorem eq_of_numbers_values {s t : Segment}
    (h : Field.numbers s.values = Field.numbers t.values) : s = t := by
  have hinj : Function.Injective fun p : Field × UInt32 => (p.1, (p.2.toNat : Int)) := by
    rintro ⟨f, v⟩ ⟨g, w⟩ h
    simpa [UInt32.toNat_inj] using h
  have hvalues : s.values = t.values := hinj.list_map h
  have hcount : s.valueCount = t.valueCount := by
    rw [← length_values, ← length_values, hvalues]
  rw [← Baseline.segment_setAll .zero s, ← Baseline.segment_setAll .zero t, hvalues, hcount]

theorem Decodes.unique {r r' : Except MappingError Segment} {c : Baseline}
    (h : Decodes l offset token b r b') (h' : Decodes l offset token b r' c) :
    r = r' ∧ b' = c := by
  cases h with
  | malformed he => cases h' <;> simp_all
  | valueCount hds hlen => cases h' <;> simp_all
  | refused hds hlen hsums hbefore hf htakes =>
    cases h' with
    | malformed he => simp_all
    | valueCount hds' hlen' => simp_all
    | refused hds' _ hsums' hbefore' hf' htakes' =>
      cases hds.symm.trans hds'
      obtain ⟨rfl, hfn⟩ := eq_of_append_cons_eq (hsums.symm.trans hsums') hbefore hbefore' hf hf'
      cases hfn
      exact ⟨rfl, htakes.unique htakes'⟩
    | read hds' _ haccepts _ _ =>
      cases hds.symm.trans hds'
      rw [hsums] at haccepts
      exact absurd (haccepts _ (List.mem_append_right _ List.mem_cons_self)) hf
  | read hds hlen haccepts hs htakes =>
    cases h' with
    | malformed he => simp_all
    | valueCount hds' hlen' => simp_all
    | refused hds' _ hsums' _ hf' _ =>
      cases hds.symm.trans hds'
      rw [hsums'] at haccepts
      exact absurd (haccepts _ (List.mem_append_right _ List.mem_cons_self)) hf'
    | read hds' _ _ hs' htakes' =>
      cases hds.symm.trans hds'
      rw [eq_of_numbers_values (hs.symm.trans hs')]
      exact ⟨rfl, htakes.unique htakes'⟩

theorem decodes_of_decode_eq_ok {s : Segment} (h : decode l offset token b = (.ok s, b')) :
    Decodes l offset token b (.ok s) b' := by
  obtain ⟨hds, rfl, hwithin⟩ := decode_eq_ok_iff.1 h
  have hsums : b.sums (Field.all.zip (deltas s.values b)) = Field.numbers s.values := by
    rw [zip_deltas_values, Baseline.sums_steps s.nodup_fields]
  refine .read hds ?_ ?_ hsums ?_
  · simpa [length_deltas_values] using s.valueCount_eq
  · rw [hsums]
    exact Field.accepts_of_mem_numbers hwithin
  · rw [hsums]
    exact Baseline.takes_setAll s.nodup_fields b

theorem decodes_of_decode_eq_error
    (hl : ∀ f, ∀ count ∈ l.count? f, count < 2 ^ 63 ∨ count = 2 ^ 64 - 1) {e : MappingError}
    (h : decode l offset token b = (.error e, b')) :
    Decodes l offset token b (.error e) b' := by
  unfold decode at h
  split at h
  · rename_i hds
    cases h
    exact .malformed hds
  · rename_i ds hds
    dsimp only at h
    split at h
    · rename_i hlen
      have hlen' : ds.length ∈ [1, 4, 5] := by simpa using hlen
      split at h
      · rename_i hadvance
        cases h
        have hfits : ∀ p ∈ Field.all.zip ds, Vlq.Fits64 p.2 := fun p hp =>
          Vlq.fits64_of_decodeList hds _ (List.of_mem_zip hp).2
        have hfields : ((Field.all.zip ds).map Prod.fst).Nodup := by
          rw [Field.map_fst_zip_all (Field.le_length_all hlen)]
          exact List.Nodup.sublist (List.take_sublist _ _) (by decide)
        obtain ⟨before, f, n, after, hsums, hbefore, hf, htakes, rfl⟩ :=
          Baseline.exists_refusal_of_advance hl hfits hfields hadvance
        exact .refused hds hlen' hsums hbefore hf htakes
      · cases h
    · rename_i hlen
      cases h
      exact .valueCount hds (by simpa using hlen)

/-- A token is read in whole numbers: what comes out, what is reported and what is left behind are
those of the exact sums, as long as each table has a number of entries below `2 ^ 63` or no limit is
set. -/
theorem decode_iff_decodes
    (hsources : l.sources < 2 ^ 63 ∨ l.sources = Limits.unbounded.sources)
    (hnames : l.names < 2 ^ 63 ∨ l.names = Limits.unbounded.names)
    (offset : Nat) (token : List UInt8) (b : Baseline) (r : Except MappingError Segment)
    (b' : Baseline) :
    decode l offset token b = (r, b') ↔ Decodes l offset token b r b' := by
  have hl : ∀ f, ∀ count ∈ l.count? f, count < 2 ^ 63 ∨ count = 2 ^ 64 - 1 := by
    intro f count hcount
    cases f <;> cases hcount
    · exact hsources
    · exact hnames
  have hdecodes {r b'} (h : decode l offset token b = (r, b')) : Decodes l offset token b r b' := by
    cases r with
    | error e => exact decodes_of_decode_eq_error hl h
    | ok s => exact decodes_of_decode_eq_ok h
  refine ⟨hdecodes, fun h => ?_⟩
  obtain ⟨hr, hb⟩ := (hdecodes rfl).unique h
  exact Prod.ext hr hb

/-- A sum that is cut off is behind the last of `2 ^ 63 - 1` sources, and where no limit is set it
is only too large. The generated column before it is taken over. -/
theorem decode_iff_decodes_cutOff :
    let l : Limits := ⟨9223372036854775807, 18446744073709551615⟩
    let b : Baseline := ⟨3, 1, 0, 0, 4294967295⟩
    let b' : Baseline := ⟨5, 1, 0, 0, 4294967295⟩
    decode l 7 (bytes "E+///////////PAA") b =
        (.error (.sourceOutOfRange 9223372036854775807 9223372036854775807 ⟨7, 16⟩), b') ∧
      decode l 0 (bytes "EAAA+///////////P") b =
        (.error (.malformed .beyond32Bits ⟨0, 17⟩), b') := by
  intro l b b'
  have hsource : Vlq.decodeList 7 (bytes "E+///////////PAA") =
      .ok [2, 9223372036854775807, 0, 0] := by
    decide +kernel
  have hname : Vlq.decodeList 0 (bytes "EAAA+///////////P") =
      .ok [2, 0, 0, 0, 9223372036854775807] := by
    decide +kernel
  have hsums : b.sums (Field.all.zip [2, 9223372036854775807, 0, 0]) =
      [(.generatedColumn, 5)] ++ (.source, 9223372036854775808) :: [(.line, 0), (.column, 0)] := by
    decide
  have hsums' : b.sums (Field.all.zip [2, 0, 0, 0, 9223372036854775807]) =
      [(.generatedColumn, 5), (.source, 1), (.line, 0), (.column, 0)] ++
        (.name, 9223372041149743102) :: [] := by
    decide
  have htakes : b.Takes [(.generatedColumn, 5)] b' :=
    ⟨by decide, fun f => by cases f <;> simp [Baseline.get, b, b']⟩
  have htakes' : b.Takes [(.generatedColumn, 5), (.source, 1), (.line, 0), (.column, 0)] b' :=
    ⟨by decide, fun f => by cases f <;> simp [Baseline.get, b, b']⟩
  constructor
  · exact (decode_iff_decodes (by decide) (by decide) _ _ _ _ _).2
      (.refused hsource (by decide) hsums (by decide) (by decide) htakes)
  · exact (decode_iff_decodes (by decide) (by decide) _ _ _ _ _).2
      (.refused hname (by decide) hsums' (by decide) (by decide) htakes')

end Segment

end SourceMap
