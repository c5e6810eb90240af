import Mathlib
import SourceMap.Files.Disk

/-!
# Files as a store

Paths name files, whether these are there or not. Looking at files changes nothing, and writing
replaces what is in one of them. The disk in memory behaves that way.

## Main definitions

* `FileStore` : the laws of such a store.
* The instance for `Disk`, where a file is where it is created.

## Main statements

* `Disk.target_eq_ok_iff` : where a file is created.
* `Disk.target_put` : a file that is written stays the only one to change.
-/

namespace SourceMap

open Text (bytes slash dot)

/-- The files that paths name, and what is in them. -/
class FileStore (σ : Type) [FileSystem (StateM σ)] where
  File : Type
  /-- The file that a path names. It need not be there. -/
  file? : σ → Path → Option File
  content? : σ → File → Option (List UInt8)
  resolve_keeps : ∀ (p : Path) (s : σ), ((FileSystem.resolve p : StateM σ _).run s).2 = s
  kind?_keeps : ∀ (p : Path) (s : σ), ((FileSystem.kind? p : StateM σ _).run s).2 = s
  readText_keeps : ∀ (p : Path) (s : σ), ((FileSystem.readText p : StateM σ _).run s).2 = s
  readText_of_content? : ∀ {s : σ} {p : Path} {f : File} {text : String}, file? s p = some f →
    content? s f = some (bytes text) → (FileSystem.readText p : StateM σ _).run s = (.ok text, s)
  isSome_fileName? : ∀ {s : σ} {p : Path}, (file? s p).isSome → p.fileName?.isSome
  /-- Writing changes what is in the file that the path names, and nothing else. -/
  writeText_eq_ok : ∀ {s s' : σ} {p : Path} {text : String},
    (FileSystem.writeText p text : StateM σ _).run s = (.ok (), s') →
      ∃ f, file? s p = some f ∧ file? s' = file? s ∧ content? s' f = some (bytes text) ∧
        ∀ g, g ≠ f → content? s' g = content? s g

namespace Disk

/-! ## Nodes -/

theorem node?_put_of_ne {d : Disk} {l k : Location} (h : k ≠ l) (n : Node) :
    (d.put l n).node? k = d.node? k := by
  have hlookup : (d.nodes.filter (·.1 ≠ l)).lookup k = d.nodes.lookup k := by
    induction d.nodes with
    | nil => rfl
    | cons e es ih => grind
  have hne : (k == l) = false := by simpa using h
  unfold node? put
  dsimp only
  rw [List.lookup_cons, hne, hlookup]

/-- Writing a file makes no directory, and takes none away. -/
theorem node?_put_eq_directory_iff {d : Disk} {l : Location} (hl : l ≠ [])
    (hd : d.node? l ≠ some .directory) (bs : List UInt8) (k : Location) :
    (d.put l (.file bs)).node? k = some .directory ↔ d.node? k = some .directory := by
  by_cases hk : k = l
  · subst hk
    rw [node?_put_self d _ hl]
    exact iff_of_false nofun hd
  · rw [node?_put_of_ne hk]

/-! ## Following pieces -/

/-- Only which locations are directories decides over a step to a directory. -/
theorem step_to_directory_iff {d : Disk} {l k : Location} {piece : List UInt8} :
    (d.step l piece = .ok k ∧ d.node? k = some .directory) ↔
      d.node? l = some .directory ∧ d.node? k = some .directory ∧
        if Path.isIdle piece then k = l
        else if piece = [dot, dot] then k = l.dropLast
        else piece.length ≤ maxNameLength ∧ k = l ++ [piece] := by
  unfold step
  grind

theorem node?_of_foldlM_step {d : Disk} {pieces : List (List UInt8)} {l k : Location}
    (h : pieces.foldlM d.step l = .ok k) (hk : d.node? k = some .directory) :
    d.node? l = some .directory := by
  cases pieces with
  | nil =>
    cases h
    exact hk
  | cons piece pieces =>
    rw [List.foldlM_cons] at h
    unfold step at h
    split at h
    · cases h
    · cases h
    · assumption

theorem foldlM_cons_to_directory_iff {d : Disk} {piece : List UInt8} {pieces : List (List UInt8)}
    {l k : Location} :
    ((piece :: pieces).foldlM d.step l = .ok k ∧ d.node? k = some .directory) ↔
      ∃ i, (d.step l piece = .ok i ∧ d.node? i = some .directory) ∧
        pieces.foldlM d.step i = .ok k ∧ d.node? k = some .directory := by
  rw [List.foldlM_cons]
  cases hs : d.step l piece with
  | error e => simp [bind, Except.bind]
  | ok i =>
    constructor
    · rintro ⟨h, hk⟩
      exact ⟨i, ⟨rfl, node?_of_foldlM_step h hk⟩, h, hk⟩
    · rintro ⟨_, ⟨⟨⟩, -⟩, h⟩
      exact h

/-- Paths lead to the same directories when a file has been written. -/
theorem foldlM_step_put {d : Disk} {l : Location} (hl : l ≠ []) (hd : d.node? l ≠ some .directory)
    (bs : List UInt8) (pieces : List (List UInt8)) (j k : Location) :
    (pieces.foldlM (d.put l (.file bs)).step j = .ok k ∧
        (d.put l (.file bs)).node? k = some .directory) ↔
      (pieces.foldlM d.step j = .ok k ∧ d.node? k = some .directory) := by
  induction pieces generalizing j with
  | nil => simp only [List.foldlM_nil, node?_put_eq_directory_iff hl hd]
  | cons piece pieces ih =>
    rw [foldlM_cons_to_directory_iff, foldlM_cons_to_directory_iff]
    simp only [step_to_directory_iff, ih]
    simp only [node?_put_eq_directory_iff hl hd]

/-! ## Where files are -/

/-- A path that ends in a slash names no file. -/
theorem target_of_empty_end {d : Disk} {p : Path} {init : List (List UInt8)}
    (h : p.pieces = init ++ [[]]) : ∃ e, d.target p = .error e := by
  have hshort : (Text.dropEndWhile List.isEmpty p.pieces).length < p.pieces.length := by
    rw [h, Text.dropEndWhile_append_singleton, List.length_append, List.length_singleton]
    exact Nat.lt_succ_of_le (Text.dropEndWhile_prefix _ init).length_le
  unfold target
  cases openFault? p with
  | some e => exact ⟨e, rfl⟩
  | none =>
    dsimp only
    cases (Text.dropEndWhile List.isEmpty p.pieces).getLast? with
    | none => exact ⟨_, rfl⟩
    | some piece =>
      cases (Text.dropEndWhile List.isEmpty p.pieces).dropLast.foldlM d.step (d.start p) with
      | error e => exact ⟨e, rfl⟩
      | ok dir =>
        simp only [bind, Except.bind, hshort, decide_true, Bool.or_true, if_true]
        cases d.node? dir with
        | none => exact ⟨_, rfl⟩
        | some n => cases n <;> exact ⟨_, rfl⟩

theorem exists_pieces_eq (p : Path) : ∃ init piece, p.pieces = init ++ [piece] :=
  (List.eq_nil_or_concat' p.pieces).resolve_left (List.splitOn_ne_nil slash p.bytes)

/-- A file is created in a directory, under the last name of its path. -/
theorem target_eq_ok_iff {d : Disk} {p : Path} {l : Location} {init : List (List UInt8)}
    {piece : List UInt8} (hp : p.pieces = init ++ [piece]) :
    d.target p = .ok l ↔ openFault? p = none ∧ Path.isIdle piece = false ∧ piece ≠ [dot, dot] ∧
      piece.length ≤ maxNameLength ∧
      ∃ dir, (init.foldlM d.step (d.start p) = .ok dir ∧ d.node? dir = some .directory) ∧
        l = dir ++ [piece] ∧ d.node? l ≠ some .directory := by
  by_cases hempty : piece = []
  · subst hempty
    obtain ⟨e, he⟩ := target_of_empty_end (d := d) hp
    simp [he, Path.isIdle]
  · have hnamed : Text.dropEndWhile List.isEmpty p.pieces = init ++ [piece] := by
      rw [hp, Text.dropEndWhile_append_singleton, if_neg (by simpa using hempty)]
    have hidle : Path.isIdle piece = false ↔ piece ≠ [dot] := by simp [Path.isIdle, hempty]
    unfold target
    cases openFault? p with
    | some e => simp
    | none =>
      simp only [hnamed, List.getLast?_concat, List.dropLast_concat, hidle]
      cases init.foldlM d.step (d.start p) with
      | error e => simp [bind, Except.bind]
      | ok dir =>
        simp only [bind, Except.bind, hp]
        grind

/-- Paths name the same files when one has been written. -/
theorem target_put {d : Disk} {l : Location} (hl : l ≠ []) (hd : d.node? l ≠ some .directory)
    (bs : List UInt8) (p : Path) (k : Location) :
    (d.put l (.file bs)).target p = .ok k ↔ d.target p = .ok k := by
  obtain ⟨init, piece, hp⟩ := exists_pieces_eq p
  have hstart : (d.put l (.file bs)).start p = d.start p := rfl
  simp only [target_eq_ok_iff hp, hstart, foldlM_step_put hl hd]
  simp only [ne_eq, node?_put_eq_directory_iff hl hd]

theorem ne_nil_of_target {d : Disk} {p : Path} {l : Location} (h : d.target p = .ok l) :
    l ≠ [] ∧ d.node? l ≠ some .directory := by
  obtain ⟨init, piece, hp⟩ := exists_pieces_eq p
  obtain ⟨-, -, -, -, dir, -, rfl, hnode⟩ := (target_eq_ok_iff hp).1 h
  exact ⟨by simp, hnode⟩

/-- A file that is where it would be created is found there. -/
theorem locate_of_target {d : Disk} {p : Path} {l : Location} {bs : List UInt8}
    (h : d.target p = .ok l) (hl : d.node? l = some (.file bs)) :
    d.locate p = .ok (l, .file bs) := by
  obtain ⟨init, piece, hp⟩ := exists_pieces_eq p
  obtain ⟨hopen, hidle, hup, hlen, dir, ⟨hfold, hdir⟩, rfl, -⟩ := (target_eq_ok_iff hp).1 h
  have hstep : d.step dir piece = .ok (dir ++ [piece]) := by
    simp [step, hdir, hidle, hup, Nat.not_lt.2 hlen, hl]
  unfold locate
  simp only [hopen, hp, List.foldlM_append, hfold, List.foldlM_cons, List.foldlM_nil, hstep, hl,
    bind, Except.bind, pure, Except.pure]

theorem run_readText (d : Disk) (p : Path) :
    (FileSystem.readText p : StateM Disk _).run d = (d.readText p, d) := rfl

theorem run_writeText_eq_ok_iff {d d' : Disk} {p : Path} {text : String} :
    (FileSystem.writeText p text : StateM Disk _).run d = (.ok (), d') ↔
      ∃ l, d.target p = .ok l ∧ d.put l (.file (bytes text)) = d' := by
  simp only [FileSystem.writeText, StateT.run_bind, StateT.run_get, pure_bind, writeText]
  cases d.target p with
  | error e => exact iff_of_false nofun nofun
  | ok l =>
    constructor
    · rintro ⟨⟩
      exact ⟨l, rfl, rfl⟩
    · rintro ⟨_, ⟨⟩, rfl⟩
      rfl

theorem readText_of_target {d : Disk} {p : Path} {l : Location} {text : String}
    (h : d.target p = .ok l) (hl : d.node? l = some (.file (bytes text))) :
    d.readText p = .ok text := by
  have htext : String.fromUTF8? ⟨(bytes text).toArray⟩ = some text := by
    have hbytes : (⟨(bytes text).toArray⟩ : ByteArray) = text.toByteArray := by
      simp [bytes]
    rw [hbytes, String.fromUTF8?, dif_pos text.isValidUTF8]
    rfl
  unfold readText
  simp only [locate_of_target h hl, bind, Except.bind, htext]

theorem isSome_fileName?_of_target {d : Disk} {p : Path} {l : Location} (h : d.target p = .ok l) :
    p.fileName?.isSome := by
  obtain ⟨init, piece, hp⟩ := exists_pieces_eq p
  obtain ⟨hopen, hidle, hup, -⟩ := (target_eq_ok_iff hp).1 h
  have htext : p.bytes.isEmpty = false := by
    unfold openFault? pathFault? at hopen
    grind
  have hbody : Path.bodyComponent piece = .name piece := if_neg hup
  have hlast : p.components.getLast? = some (.name piece) := by
    unfold Path.components
    rw [if_neg (by simp [htext]), hp]
    cases init with
    | nil =>
      have hfirst : Path.firstComponent piece = .name piece := by
        simp only [Path.isIdle, Bool.or_eq_false_iff, decide_eq_false_iff_not] at hidle
        simp [Path.firstComponent, hidle.1, hidle.2, hbody]
      simp [hfirst]
    | cons first init => simp [hidle, hbody, List.getLast?_cons]
  simp [Path.fileName?, hlast]

end Disk

theorem toOption_eq_some_iff {x : Except ε α} {a : α} : x.toOption = some a ↔ x = .ok a := by
  cases x <;> simp [Except.toOption]

instance : FileStore Disk where
  File := Location
  file? d p := (d.target p).toOption
  content? d l :=
    match d.node? l with
    | some (.file bs) => some bs
    | _ => none
  resolve_keeps _ _ := rfl
  kind?_keeps _ _ := rfl
  readText_keeps _ _ := rfl
  readText_of_content? := by
    intro d p l text hfile hcontent
    have hnode : d.node? l = some (.file (bytes text)) := by
      split at hcontent <;> simp_all
    rw [Disk.run_readText, Disk.readText_of_target (toOption_eq_some_iff.1 hfile) hnode]
  isSome_fileName? := by
    intro d p h
    obtain ⟨l, hl⟩ := Option.isSome_iff_exists.1 h
    exact Disk.isSome_fileName?_of_target (toOption_eq_some_iff.1 hl)
  writeText_eq_ok := by
    intro d d' p text h
    obtain ⟨l, hl, rfl⟩ := Disk.run_writeText_eq_ok_iff.1 h
    obtain ⟨hne, hdir⟩ := Disk.ne_nil_of_target hl
    refine ⟨l, toOption_eq_some_iff.2 hl, ?_, ?_, ?_⟩
    · funext q
      refine Option.ext fun k => ?_
      simp only [toOption_eq_some_iff, Disk.target_put hne hdir]
    · simp only [Disk.node?_put_self _ _ hne]
    · intro k hk
      simp only [Disk.node?_put_of_ne hk]

end SourceMap
