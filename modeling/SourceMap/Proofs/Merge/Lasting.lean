import SourceMap.Proofs.Merge.Store

/-!
# What writing spares

A file that is written can be there for the first time, and then paths lead to it that led nowhere
before. All else is found as it was. So what has been read from other files will be read again.

## Main definitions

* `FileSystem.resolved`, `FileSystem.kindAt`, `FileSystem.textAt?` : what is found in given files.
* `Spares` : nothing but some of the files has been written.
* `LastingStore` : a store in which writing spares all other files.
* The instance for `Disk`.

## Main statements

* `Disk.locate_put` : what a path stands for when a file has been written.
-/

namespace SourceMap

open Text (bytes dot)

variable {σ : Type}

namespace FileSystem

variable [FileSystem (StateM σ)]

def resolved (s : σ) (p : Path) : Except FileError Path := ((resolve p : StateM σ _).run s).1

def kindAt (s : σ) (p : Path) : Option FileKind := ((kind? p : StateM σ _).run s).1

/-- The text at a path, if it can be read. -/
def textAt? (s : σ) (p : Path) : Option String := ((readText p : StateM σ _).run s).1.toOption

end FileSystem

open FileSystem

/-- Nothing but files of `out` has been written between `s` and `s'`, where `found?` is the file
that stands at a path. -/
structure Spares [FileSystem (StateM σ)] {File : Type} (found? : σ → Path → Option File)
    (out : File → Prop) (s s' : σ) : Prop where
  resolved_ok : ∀ {p q}, resolved s p = .ok q → resolved s' p = .ok q
  resolved_there : ∀ {p}, (kindAt s p).isSome → resolved s' p = resolved s p
  kind : ∀ p, kindAt s' p = kindAt s p ∨
    kindAt s p = none ∧ ∃ f, out f ∧ found? s' p = some f
  text : ∀ p, textAt? s' p = textAt? s p ∨ ∃ f, out f ∧ found? s' p = some f
  found : ∀ {p f}, found? s p = some f → found? s' p = some f

/-- Files that paths lead to. Writing leaves all others as they are found. -/
class LastingStore (σ : Type) [FileSystem (StateM σ)] extends FileStore σ where
  /-- The file that stands at a path. -/
  found? : σ → Path → Option File
  kindAt_eq_file_iff : ∀ {s : σ} {p : Path}, kindAt s p = some .file ↔ (found? s p).isSome
  exists_writeText : ∀ {s : σ} {p : Path}, (file? s p).isSome → ∀ text,
    ∃ s', (writeText p text : StateM σ _).run s = (.ok (), s')
  found?_of_writeText : ∀ {s s' : σ} {p : Path} {text : String} {f : File},
    (writeText p text : StateM σ _).run s = (.ok (), s') → file? s p = some f →
      found? s' p = some f
  spares_of_writeText : ∀ {s s' : σ} {p : Path} {text : String} {f : File},
    (writeText p text : StateM σ _).run s = (.ok (), s') → file? s p = some f →
      Spares found? (· = f) s s'
  /-- A file that is there already is not found anywhere else when it is written again. -/
  found?_of_rewrite : ∀ {s s' : σ} {p : Path} {text : String} {f : File},
    (writeText p text : StateM σ _).run s = (.ok (), s') → file? s p = some f →
      (content? s f).isSome → found? s' = found? s

namespace Spares

variable [FileSystem (StateM σ)] {File : Type} {found? : σ → Path → Option File}
  {out out' : File → Prop} {s t u : σ}

theorem mono (h : Spares found? out s t) (hout : ∀ f, out f → out' f) : Spares found? out' s t where
  resolved_ok := h.resolved_ok
  resolved_there := h.resolved_there
  kind p := (h.kind p).imp_right fun ⟨hnone, f, hf, hp⟩ => ⟨hnone, f, hout f hf, hp⟩
  text p := (h.text p).imp_right fun ⟨f, hf, hp⟩ => ⟨f, hout f hf, hp⟩
  found := h.found

theorem kindAt_of_some (h : Spares found? out s t) {p : Path} {k : FileKind}
    (hk : kindAt s p = some k) : kindAt t p = some k := by
  rcases h.kind p with heq | ⟨hnone, -⟩
  · rw [heq, hk]
  · rw [hk] at hnone
    cases hnone

theorem trans (h : Spares found? out s t) (g : Spares found? out t u) :
    Spares found? out s u where
  resolved_ok hp := g.resolved_ok (h.resolved_ok hp)
  resolved_there {p} hp := by
    obtain ⟨k, hk⟩ := Option.isSome_iff_exists.1 hp
    have hkt : (kindAt t p).isSome := by
      rw [h.kindAt_of_some hk]
      rfl
    rw [g.resolved_there hkt, h.resolved_there hp]
  kind p := by
    rcases g.kind p with hg | ⟨hg, hf⟩
    · rcases h.kind p with hh | ⟨hh, f, hf, hp⟩
      · exact .inl (hg.trans hh)
      · exact .inr ⟨hh, f, hf, g.found hp⟩
    · rcases h.kind p with hh | ⟨hh, -⟩
      · exact .inr ⟨hh.symm.trans hg, hf⟩
      · exact .inr ⟨hh, hf⟩
  text p := by
    rcases g.text p with hg | hg
    · rcases h.text p with hh | ⟨f, hf, hp⟩
      · exact .inl (hg.trans hh)
      · exact .inr ⟨f, hf, g.found hp⟩
    · exact .inr hg
  found hp := g.found (h.found hp)

end Spares

/-! ## The disk -/

theorem foldlM_cons_eq_ok_iff {f : β → α → Except ε β} {a : α} {as : List α} {b c : β} :
    (a :: as).foldlM f b = .ok c ↔ ∃ i, f b a = .ok i ∧ as.foldlM f i = .ok c := by
  rw [List.foldlM_cons]
  cases f b a with
  | error e => exact iff_of_false nofun nofun
  | ok i =>
    constructor
    · intro h
      exact ⟨i, rfl, h⟩
    · rintro ⟨_, ⟨⟩, h⟩
      exact h

namespace Disk

theorem step_eq_ok_iff {d : Disk} {j k : Location} {piece : List UInt8} :
    d.step j piece = .ok k ↔ d.node? j = some .directory ∧
      if Path.isIdle piece then k = j
      else if piece = [dot, dot] then k = j.dropLast
      else piece.length ≤ maxNameLength ∧
        d.node? (j ++ [piece]) ≠ none ∧ k = j ++ [piece] := by
  unfold step
  simp only [Option.isNone_iff_eq_none]
  grind

section

variable {d : Disk} {l : Location} (hl : l ≠ []) (hd : d.node? l ≠ some .directory)

include hl

theorem node?_put_ne_none_iff (bs : List UInt8) (k : Location) :
    (d.put l (.file bs)).node? k ≠ none ↔ k = l ∨ d.node? k ≠ none := by
  by_cases hk : k = l
  · subst hk
    simp [node?_put_self d _ hl]
  · simp [node?_put_of_ne hk, hk]

include hd

theorem step_put_of_ok (bs : List UInt8) {j k : Location} {piece : List UInt8}
    (h : d.step j piece = .ok k) : (d.put l (.file bs)).step j piece = .ok k := by
  rw [step_eq_ok_iff] at h ⊢
  rw [node?_put_eq_directory_iff hl hd, node?_put_ne_none_iff hl]
  grind

/-- Where a step leads further than before, it leads to the file that has been written. -/
theorem step_put_eq_ok {bs : List UInt8} {j k : Location} {piece : List UInt8}
    (h : (d.put l (.file bs)).step j piece = .ok k) :
    d.step j piece = .ok k ∨ k = l ∧ d.node? l = none := by
  rw [step_eq_ok_iff, node?_put_eq_directory_iff hl hd, node?_put_ne_none_iff hl] at h
  rw [step_eq_ok_iff]
  grind

theorem foldlM_step_put_of_ok (bs : List UInt8) {pieces : List (List UInt8)} {j k : Location}
    (h : pieces.foldlM d.step j = .ok k) :
    pieces.foldlM (d.put l (.file bs)).step j = .ok k := by
  induction pieces generalizing j with
  | nil => exact h
  | cons piece pieces ih =>
    obtain ⟨i, hs, hrest⟩ := foldlM_cons_eq_ok_iff.1 h
    exact foldlM_cons_eq_ok_iff.2 ⟨i, step_put_of_ok hl hd bs hs, ih hrest⟩

/-- No path leads through a file, so one that leads further than before ends there. -/
theorem foldlM_step_put_eq_ok {bs : List UInt8} {pieces : List (List UInt8)} {j k : Location}
    (h : pieces.foldlM (d.put l (.file bs)).step j = .ok k) :
    pieces.foldlM d.step j = .ok k ∨ k = l ∧ d.node? l = none := by
  induction pieces generalizing j with
  | nil => exact .inl h
  | cons piece pieces ih =>
    obtain ⟨i, hs, hrest⟩ := foldlM_cons_eq_ok_iff.1 h
    rcases step_put_eq_ok hl hd hs with hs | ⟨rfl, hnone⟩
    · exact (ih hrest).imp_left fun h => foldlM_cons_eq_ok_iff.2 ⟨i, hs, h⟩
    · cases pieces with
      | nil =>
        cases hrest
        exact .inr ⟨rfl, hnone⟩
      | cons piece' pieces =>
        obtain ⟨_, hs', -⟩ := foldlM_cons_eq_ok_iff.1 hrest
        rw [step_eq_ok_iff, node?_put_self d _ hl] at hs'
        cases hs'.1

theorem foldlM_resolveStep_put_of_ok (bs : List UInt8) {pieces : List (List UInt8)}
    {j k : Location} (h : pieces.foldlM d.resolveStep j = .ok k) :
    pieces.foldlM (d.put l (.file bs)).resolveStep j = .ok k := by
  induction pieces generalizing j with
  | nil => exact h
  | cons piece pieces ih =>
    obtain ⟨i, hs, hrest⟩ := foldlM_cons_eq_ok_iff.1 h
    have hs' : (d.put l (.file bs)).resolveStep j piece = .ok i := by
      unfold resolveStep at hs ⊢
      split_ifs at hs ⊢ <;> exact step_put_of_ok hl hd bs hs
    exact foldlM_cons_eq_ok_iff.2 ⟨i, hs', ih hrest⟩

/-- Where there is something, only the length of names keeps it from being resolved. -/
theorem foldlM_resolveStep_put (bs : List UInt8) {pieces : List (List UInt8)} {j k : Location}
    (h : pieces.foldlM d.step j = .ok k) :
    pieces.foldlM (d.put l (.file bs)).resolveStep j = pieces.foldlM d.resolveStep j := by
  induction pieces generalizing j with
  | nil => rfl
  | cons piece pieces ih =>
    obtain ⟨i, hs, hrest⟩ := foldlM_cons_eq_ok_iff.1 h
    have hs' := step_put_of_ok hl hd bs hs
    rw [List.foldlM_cons, List.foldlM_cons]
    unfold resolveStep
    rw [hs, hs']
    split_ifs
    · exact ih hrest
    · rfl
    · exact ih hrest

end

/-- What a path stands for when a file has been written: what it stood for, unless it leads to that
file. -/
theorem locate_put {d : Disk} {l : Location} (hl : l ≠ []) (hd : d.node? l ≠ some .directory)
    (bs : List UInt8) (p : Path) :
    ((d.put l (.file bs)).locate p).toOption = (d.locate p).toOption ∨
      (d.put l (.file bs)).locate p = .ok (l, .file bs) ∧
        ((d.locate p).toOption = none ∧ d.node? l = none ∨
          ∃ old, d.locate p = .ok (l, .file old)) := by
  unfold locate
  cases openFault? p with
  | some e => exact .inl rfl
  | none =>
    have hstart : (d.put l (.file bs)).start p = d.start p := rfl
    dsimp only
    rw [hstart]
    cases hf : p.pieces.foldlM d.step (d.start p) with
    | ok k =>
      rw [foldlM_step_put_of_ok hl hd bs hf]
      by_cases hk : k = l
      · subst hk
        simp only [bind, Except.bind, node?_put_self d _ hl]
        refine .inr ⟨trivial, ?_⟩
        cases hn : d.node? k with
        | none => exact .inl ⟨rfl, rfl⟩
        | some n =>
          cases n with
          | directory => exact absurd hn hd
          | file old => exact .inr ⟨old, rfl⟩
      · simp only [bind, Except.bind, node?_put_of_ne hk]
        exact .inl trivial
    | error e =>
      cases hf' : p.pieces.foldlM (d.put l (.file bs)).step (d.start p) with
      | error e' => exact .inl rfl
      | ok k =>
        rcases foldlM_step_put_eq_ok hl hd hf' with h | ⟨rfl, hnone⟩
        · rw [hf] at h
          cases h
        · simp only [bind, Except.bind, node?_put_self d _ hl]
          exact .inr ⟨trivial, .inl ⟨rfl, hnone⟩⟩

/-- The file that a path leads to. -/
def fileAt? (d : Disk) (p : Path) : Option Location :=
  (d.locate p).toOption.bind fun
    | (l, .file _) => some l
    | (_, .directory) => none

theorem kind?_eq (d : Disk) (p : Path) : d.kind? p = (d.locate p).toOption.map fun
    | (_, .directory) => .directory
    | (_, .file _) => .file := by
  unfold kind?
  rcases d.locate p with _ | ⟨l, _ | _⟩ <;> rfl

theorem toOption_readText (d : Disk) (p : Path) :
    (d.readText p).toOption = (d.locate p).toOption.bind fun
      | (_, .directory) => none
      | (_, .file bs) => String.fromUTF8? ⟨bs.toArray⟩ := by
  unfold readText
  rcases d.locate p with _ | ⟨l, _ | bs⟩
  · rfl
  · rfl
  · simp only [bind, Except.bind, Except.toOption, Option.bind]
    cases String.fromUTF8? ⟨bs.toArray⟩ <;> rfl

theorem kind?_eq_file_iff {d : Disk} {p : Path} :
    d.kind? p = some .file ↔ (d.fileAt? p).isSome := by
  rw [kind?_eq, fileAt?]
  rcases d.locate p with _ | ⟨l, _ | _⟩ <;> simp [Except.toOption]

/-- A file that is written is found by the path under which it was written. -/
theorem fileAt?_put_self {d : Disk} {p : Path} {l : Location} (h : d.target p = .ok l)
    (bs : List UInt8) : (d.put l (.file bs)).fileAt? p = some l := by
  obtain ⟨hl, hd⟩ := ne_nil_of_target h
  have hlocate := locate_of_target ((target_put hl hd bs p l).2 h) (node?_put_self d (.file bs) hl)
  simp [fileAt?, hlocate, Except.toOption]

/-- A path leads to the file that it led to, or to one that is there for the first time. -/
theorem fileAt?_put {d : Disk} {l : Location} (hl : l ≠ []) (hd : d.node? l ≠ some .directory)
    (bs : List UInt8) (p : Path) :
    (d.put l (.file bs)).fileAt? p = d.fileAt? p ∨
      d.node? l = none ∧ d.fileAt? p = none ∧ (d.put l (.file bs)).fileAt? p = some l := by
  unfold fileAt?
  rcases locate_put hl hd bs p with h | ⟨h, ⟨hnone, hnode⟩ | ⟨old, hold⟩⟩
  · rw [h]
    exact .inl rfl
  · rw [h, hnone]
    exact .inr ⟨hnode, rfl, rfl⟩
  · rw [h, hold]
    exact .inl rfl

theorem resolve_put_of_ok {d : Disk} {l : Location} (hl : l ≠ [])
    (hd : d.node? l ≠ some .directory) (bs : List UInt8) {p q : Path} (h : d.resolve p = .ok q) :
    (d.put l (.file bs)).resolve p = .ok q := by
  unfold resolve at h ⊢
  cases hfault : pathFault? p with
  | some e =>
    rw [hfault] at h
    cases h
  | none =>
    rw [hfault] at h
    dsimp only at h ⊢
    cases hf : p.pieces.foldlM d.resolveStep (d.start p) with
    | error e =>
      rw [hf] at h
      cases h
    | ok k =>
      have hstart : (d.put l (.file bs)).start p = d.start p := rfl
      rw [hf] at h
      rw [hstart, foldlM_resolveStep_put_of_ok hl hd bs hf]
      exact h

theorem resolve_put_of_kind? {d : Disk} {l : Location} (hl : l ≠ [])
    (hd : d.node? l ≠ some .directory) (bs : List UInt8) {p : Path} (h : (d.kind? p).isSome) :
    (d.put l (.file bs)).resolve p = d.resolve p := by
  rw [kind?_eq, Option.isSome_map] at h
  unfold locate at h
  unfold resolve
  cases hopen : openFault? p with
  | some e =>
    rw [hopen] at h
    cases h
  | none =>
    rw [hopen] at h
    dsimp only at h
    cases hf : p.pieces.foldlM d.step (d.start p) with
    | error e =>
      rw [hf] at h
      cases h
    | ok k =>
      have hstart : (d.put l (.file bs)).start p = d.start p := rfl
      rw [hstart, foldlM_resolveStep_put hl hd bs hf]

theorem spares_put {d : Disk} {l : Location} (hl : l ≠ []) (hd : d.node? l ≠ some .directory)
    (bs : List UInt8) : Spares fileAt? (· = l) d (d.put l (.file bs)) where
  resolved_ok hp := resolve_put_of_ok hl hd bs hp
  resolved_there hp := resolve_put_of_kind? hl hd bs hp
  kind p := by
    change (d.put l (.file bs)).kind? p = d.kind? p ∨ d.kind? p = none ∧ ∃ f, f = l ∧ _
    rw [kind?_eq, kind?_eq]
    rcases locate_put hl hd bs p with h | ⟨h, ⟨hnone, -⟩ | ⟨old, hold⟩⟩
    · rw [h]
      exact .inl rfl
    · refine .inr ⟨by rw [hnone]; rfl, l, rfl, ?_⟩
      rw [fileAt?, h]
      rfl
    · rw [h, hold]
      exact .inl rfl
  text p := by
    change ((d.put l (.file bs)).readText p).toOption = (d.readText p).toOption ∨ ∃ f, f = l ∧ _
    rcases locate_put hl hd bs p with h | ⟨h, -⟩
    · rw [toOption_readText, toOption_readText, h]
      exact .inl rfl
    · refine .inr ⟨l, rfl, ?_⟩
      rw [fileAt?, h]
      rfl
  found {p f} hp := by
    rcases fileAt?_put hl hd bs p with hsame | ⟨-, hnone, -⟩
    · rw [hsame, hp]
    · rw [hp] at hnone
      cases hnone

end Disk

instance : LastingStore Disk where
  found? := Disk.fileAt?
  kindAt_eq_file_iff := Disk.kind?_eq_file_iff
  exists_writeText := by
    intro d p h text
    obtain ⟨l, hl⟩ := Option.isSome_iff_exists.1 h
    exact ⟨_, Disk.run_writeText_eq_ok_iff.2 ⟨l, toOption_eq_some_iff.1 hl, rfl⟩⟩
  found?_of_writeText := by
    intro d d' p text l h hl
    obtain ⟨k, hk, rfl⟩ := Disk.run_writeText_eq_ok_iff.1 h
    cases hk.symm.trans (toOption_eq_some_iff.1 hl)
    exact Disk.fileAt?_put_self hk _
  spares_of_writeText := by
    intro d d' p text l h hl
    obtain ⟨k, hk, rfl⟩ := Disk.run_writeText_eq_ok_iff.1 h
    cases hk.symm.trans (toOption_eq_some_iff.1 hl)
    obtain ⟨hne, hdir⟩ := Disk.ne_nil_of_target hk
    exact Disk.spares_put hne hdir _
  found?_of_rewrite := by
    intro d d' p text l h hl hthere
    obtain ⟨k, hk, rfl⟩ := Disk.run_writeText_eq_ok_iff.1 h
    cases hk.symm.trans (toOption_eq_some_iff.1 hl)
    obtain ⟨hne, hdir⟩ := Disk.ne_nil_of_target hk
    funext q
    rcases Disk.fileAt?_put hne hdir (bytes text) q with hsame | ⟨hnone, -, -⟩
    · exact hsame
    · change (match d.node? l with
        | some (.file bs) => some bs
        | _ => none : Option (List UInt8)).isSome at hthere
      rw [hnone] at hthere
      cases hthere

end SourceMap
