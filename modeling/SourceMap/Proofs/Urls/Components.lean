import Mathlib.Data.List.Basic
import SourceMap.Files.Path

/-!
# Components of a path that is stepped down

## Main statements

* `Path.components_join` : a step down adds one component.
* `Path.components_foldl_join` : steps down by parts of a URL add one component each.
* `Path.Component.text_bodyComponent` : a component is shown as the piece that it comes from.
-/

namespace SourceMap

open Text (slash dot)

namespace Path

theorem Component.text_bodyComponent (piece : List UInt8) :
    (bodyComponent piece).text = Text.ofBytes piece := by
  unfold bodyComponent
  split
  · next h => rw [h]; rfl
  · rfl

theorem bodyComponent_inj {piece piece' : List UInt8} :
    bodyComponent piece = bodyComponent piece' ↔ piece = piece' := by
  refine ⟨fun h => ?_, congrArg bodyComponent⟩
  unfold bodyComponent at h
  split at h <;> split at h
  · next hup hup' => exact hup.trans hup'.symm
  · cases h
  · cases h
  · exact Component.name.inj h

theorem firstComponent_of_not_isIdle {piece : List UInt8} (h : isIdle piece = false) :
    firstComponent piece = bodyComponent piece := by
  obtain ⟨hempty, hdot⟩ : piece.isEmpty = false ∧ piece ≠ [dot] := by simpa [isIdle] using h
  rw [firstComponent, hempty, if_neg Bool.false_ne_true, if_neg hdot]

theorem components_of_pieces {p : Path} {first : List UInt8} {rest : List (List UInt8)}
    (hne : p.bytes ≠ []) (h : p.pieces = first :: rest) :
    p.components = firstComponent first :: (rest.filter (!isIdle ·)).map bodyComponent := by
  have hempty : p.bytes.isEmpty = false := by simpa using hne
  simp only [components, h, hempty]
  rfl

theorem components_ne_nil {p : Path} (h : p.bytes ≠ []) : p.components ≠ [] := by
  obtain ⟨first, rest, hpieces⟩ := List.exists_cons_of_ne_nil (List.splitOn_ne_nil slash p.bytes)
  rw [components_of_pieces h hpieces]
  exact List.cons_ne_nil _ _

/-- A piece that is a component comes behind all others. A slash at the end of the path has left
room for it already. -/
theorem components_of_pieces_append {p q : Path} {init : List (List UInt8)} {piece : List UInt8}
    (hp : p.bytes ≠ []) (hq : q.bytes ≠ []) (hpieces : p.pieces = init ∨ p.pieces = init ++ [[]])
    (hqpieces : q.pieces = init ++ [piece]) (hinit : init ≠ []) (hidle : isIdle piece = false) :
    q.components = p.components ++ [bodyComponent piece] := by
  obtain ⟨first, rest, rfl⟩ := List.exists_cons_of_ne_nil hinit
  rw [components_of_pieces hq hqpieces]
  have hslash : isIdle [] = true := rfl
  rcases hpieces with h | h <;> rw [components_of_pieces hp h] <;> simp [hidle, hslash]

/-- A step down adds one component. -/
theorem components_join {piece : List UInt8} (hidle : isIdle piece = false)
    (hslash : slash ∉ piece) (p : Path) :
    (p.join piece).components = p.components ++ [bodyComponent piece] := by
  have hsplit : piece.splitOn slash = [piece] := List.splitOn_eq_singleton hslash
  have hpiece : piece ≠ [] := by
    rintro rfl
    cases hidle
  by_cases hempty : p.bytes = []
  · have hjoin : p.join piece = ⟨piece⟩ := by simp [join, hempty]
    have hnil : p.components = [] := by simp [components, hempty]
    have hcomponents := components_of_pieces (p := ⟨piece⟩) hpiece hsplit
    rw [hjoin, hcomponents, firstComponent_of_not_isIdle hidle, hnil]
    rfl
  · by_cases hend : p.bytes.getLast? = some slash
    · obtain ⟨init, hinit⟩ := List.getLast?_eq_some_iff.1 hend
      have hjoin : p.join piece = ⟨p.bytes ++ piece⟩ := by simp [join, hend]
      rw [hjoin]
      have hpieces : p.pieces = init.splitOn slash ++ [[]] := by
        rw [pieces, hinit, List.splitOn_append_cons_self, List.splitOn_nil]
      refine components_of_pieces_append hempty (by simp [hempty]) (.inr hpieces) ?_
        (List.splitOn_ne_nil _ _) hidle
      rw [pieces, hinit, List.append_assoc, List.singleton_append,
        List.splitOn_append_cons_self, hsplit]
    · have hjoin : p.join piece = ⟨p.bytes ++ slash :: piece⟩ := by simp [join, hempty, hend]
      rw [hjoin]
      refine components_of_pieces_append hempty (by simp [hempty]) (.inl rfl) ?_
        (List.splitOn_ne_nil _ _) hidle
      rw [pieces, pieces, List.splitOn_append_cons_self, hsplit]

/-! ## Steps down by parts of a URL -/

/-- The component for a part of a URL. -/
def partComponent (part : List Char) : Component := bodyComponent (Text.bytes (String.ofList part))

theorem text_partComponent (part : List Char) : (partComponent part).text = String.ofList part := by
  rw [partComponent, Component.text_bodyComponent, Text.ofBytes_bytes]

theorem slash_mem_bytes_iff {s : String} : slash ∈ Text.bytes s ↔ '/' ∈ s.toList :=
  Text.mem_bytes_iff (by decide) (by decide)

theorem isIdle_bytes_iff {cs : List Char} :
    isIdle (Text.bytes (String.ofList cs)) = true ↔ cs = [] ∨ cs = ['.'] := by
  have hnil : Text.bytes (String.ofList cs) = [] ↔ cs = [] := by
    rw [← Text.bytes_empty, Text.bytes_inj, ← String.toList_inj, String.toList_ofList]
    rfl
  have hdot : Text.bytes (String.ofList cs) = [dot] ↔ cs = ['.'] := by
    change _ = Text.bytes "." ↔ _
    rw [Text.bytes_inj, ← String.toList_inj, String.toList_ofList]
    rfl
  simp [isIdle, hnil, hdot]

/-- Steps down add one component each. -/
theorem components_foldl_join {parts : List (List Char)}
    (h : ∀ part ∈ parts, part ≠ [] ∧ part ≠ ['.'] ∧ '/' ∉ part) (p : Path) :
    (parts.foldl (fun p part => p.join (String.ofList part)) p).components =
      p.components ++ parts.map partComponent := by
  induction parts generalizing p with
  | nil => simp
  | cons part parts ih =>
    obtain ⟨⟨hempty, hdot, hslash⟩, hparts⟩ := List.forall_mem_cons.1 h
    have hidle : isIdle (Text.bytes (String.ofList part)) = false := by
      rw [← Bool.not_eq_true, isIdle_bytes_iff]
      exact not_or.2 ⟨hempty, hdot⟩
    have hslash' : slash ∉ Text.bytes (String.ofList part) := by
      rwa [slash_mem_bytes_iff, String.toList_ofList]
    rw [List.foldl_cons, ih hparts, components_join hidle hslash', List.map_cons,
      List.append_assoc, List.singleton_append]
    rfl

end Path

end SourceMap
