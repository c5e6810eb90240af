import SourceMap.Proofs.RoundTrip.Map
import SourceMap.Proofs.RoundTrip.Text
import SourceMap.Proofs.Growth.Readable
import SourceMap.Proofs.Reach.Operation

/-!
# Lines of a saved map

The map of a bundle is read back with tables that start with those of the bundle, so its lines mean
what they meant. Only the empty lines at the end are gone.

## Main statements

* `Bundle.extends_reloaded` : the tables of a map that is read back.
* `Bundle.namedLines_reloaded` : its lines.
-/

namespace SourceMap

theorem forall₂_dropEndWhile {R : α → β → Prop} {p : α → Bool} {q : β → Bool} {xs : List α}
    {ys : List β} (hpq : ∀ x y, R x y → p x = q y) (h : List.Forall₂ R xs ys) :
    List.Forall₂ R (Text.dropEndWhile p xs) (Text.dropEndWhile q ys) := by
  have hdrop : ∀ {xs : List α} {ys : List β}, List.Forall₂ R xs ys →
      List.Forall₂ R (xs.dropWhile p) (ys.dropWhile q) := by
    intro xs ys h
    induction h with
    | nil => exact .nil
    | @cons x y xs ys hxy hrest ih =>
      rw [List.dropWhile_cons, List.dropWhile_cons, hpq x y hxy]
      split
      · exact ih
      · exact .cons hxy hrest
  exact List.rel_reverse (hdrop (List.rel_reverse h))

namespace Bundle

/-- What is read back from the map of `b` when it is saved. -/
def reloaded (b : Bundle) : Bundle := (empty .empty).load b.toEnvelope

theorem readMap_mapText_eq (b : Bundle) : (empty .empty).readMap b.mapText = .ok b.reloaded := by
  rw [mapText]
  exact readMap_of_ok (Envelope.read_write b.toEnvelope)

theorem mappings_reloaded (b : Bundle) : b.reloaded.mappings = .ofText b.mappings.text := by
  simp only [reloaded, load, toEnvelope, Option.getD_some]

/-- The generated file becomes a source where there is none. -/
theorem extends_reloaded (b : Bundle) : b.Extends b.reloaded where
  sources := by
    unfold reloaded load
    dsimp only
    rw [sources_toEnvelope]
    split
    · split
      · exact StringTable.values_prefix_intern _ _
      · exact List.prefix_rfl
    · exact List.prefix_rfl
  names := List.prefix_rfl

theorem namedLines_reloaded {b : Bundle} (hm : b.mappings.Consistent) {named : List NamedLine}
    (h : b.namedLines = .ok named) :
    b.reloaded.namedLines = .ok (Text.dropEndWhile List.isEmpty named) := by
  obtain ⟨lines, c, hr, hn⟩ := namedLines_eq_ok_iff.1 h
  obtain ⟨d, hd⟩ := Mappings.reads_ofText_text hm hr
  rw [← mappings_reloaded] at hd
  have hn' : List.Forall₂ (List.Forall₂ b.reloaded.Names) lines named :=
    hn.imp fun _ _ hl => hl.imp fun _ _ hs => hs.extend b.extends_reloaded
  refine namedLines_eq_ok_iff.2 ⟨_, d, hd, forall₂_dropEndWhile ?_ hn'⟩
  intro line names hl
  cases hl <;> rfl

end Bundle

end SourceMap
