import SourceMap.Envelope.Write
import SourceMap.Text.Bytes

/-!
# The longest directory that sources share

The root of sources is found directory by directory. As a text it is the longest one that ends in
`/` and with which all sources start.

## Main definitions

* `Envelope.rejoin` : the text of directories.
* `Envelope.SharedDirectory` : a text that ends in `/` and with which all sources start.

## Main statements

* `Envelope.prefix_iff_directories` : a text that ends in `/` starts another one just when its
  directories start those of the other one.
* `Envelope.sharedDirectory_of_sharedRoot?` : the root is a shared directory.
* `Envelope.SharedDirectory.exists_sharedRoot?` : no shared directory is longer than the root.
-/

namespace SourceMap.Envelope

/-! ## Directories of one text -/

/-- The text of directories, each with the `/` behind it. -/
def rejoin (dirs : List (List Char)) : List Char := dirs.flatMap (· ++ ['/'])

theorem rejoin_append (before after : List (List Char)) :
    rejoin (before ++ after) = rejoin before ++ rejoin after := List.flatMap_append

theorem rejoin_mono {before dirs : List (List Char)} (h : before <+: dirs) :
    rejoin before <+: rejoin dirs := by
  obtain ⟨after, rfl⟩ := h
  exact ⟨rejoin after, (rejoin_append before after).symm⟩

theorem intercalate_append_singleton {dirs : List (List Char)} (h : dirs ≠ []) :
    ['/'].intercalate dirs ++ ['/'] = rejoin dirs := by
  obtain ⟨init, last, rfl⟩ := dirs.eq_nil_or_concat.resolve_left h
  rw [List.concat_eq_append, Text.intercalate_append_cons, rejoin_append]
  simp [rejoin]

theorem prefix_of_directories (source : List Char) : rejoin (directories source) <+: source := by
  have hsplit := List.dropLast_concat_getLast (List.splitOn_ne_nil '/' source)
  have hsource := @List.intercalate_splitOn _ source _ _ '/'
  -- What is behind the last `/` is a piece of its own, and it is what the source goes on with.
  rw [← hsplit, Text.intercalate_append_cons] at hsource
  exact ⟨_, by simpa [rejoin, directories] using hsource⟩

/-- The directories of a text that ends in `/` come first, whatever follows it. -/
theorem directories_append {p : List Char} (hp : ['/'] <:+ p) (rest : List Char) :
    directories (p ++ rest) = directories p ++ directories rest := by
  obtain ⟨init, rfl⟩ := hp
  unfold directories
  rw [List.append_assoc, List.singleton_append, List.splitOn_append_cons_self,
    List.splitOn_append_cons_self, List.dropLast_append_of_ne_nil (List.splitOn_ne_nil _ _),
    List.splitOn_nil, List.dropLast_concat]

theorem rejoin_directories {p : List Char} (hp : ['/'] <:+ p) : rejoin (directories p) = p := by
  obtain ⟨init, rfl⟩ := hp
  unfold directories
  rw [List.splitOn_append_cons_self, List.splitOn_nil, List.dropLast_concat,
    ← intercalate_append_singleton (List.splitOn_ne_nil _ _), List.intercalate_splitOn]

theorem prefix_iff_directories {p source : List Char} (hp : ['/'] <:+ p) :
    p <+: source ↔ directories p <+: directories source := by
  constructor
  · rintro ⟨rest, rfl⟩
    exact ⟨directories rest, (directories_append hp rest).symm⟩
  · intro h
    rw [← rejoin_directories hp]
    exact (rejoin_mono h).trans (prefix_of_directories source)

/-! ## Directories that all sources share -/

theorem prefix_sharedDirectories_iff {dirs : List (List Char)} {first : String}
    {rest : List String} :
    dirs <+: sharedDirectories first rest ↔
      ∀ s ∈ first :: rest, dirs <+: directories s.toList := by
  unfold sharedDirectories
  rw [List.forall_mem_cons]
  generalize directories first.toList = common
  induction rest generalizing common with
  | nil => simp
  | cons s rest ih =>
    rw [List.foldl_cons, ih, prefix_sharedStart_iff, List.forall_mem_cons, and_assoc]

/-- A text that ends in `/` and with which all of `sources` start. -/
structure SharedDirectory (sources : List String) (root : String) : Prop where
  ends : ['/'] <:+ root.toList
  starts : ∀ s ∈ sources, root.toList <+: s.toList

theorem SharedDirectory.prefix_sharedDirectories {first p : String} {rest : List String}
    (h : SharedDirectory (first :: rest) p) :
    directories p.toList <+: sharedDirectories first rest :=
  prefix_sharedDirectories_iff.2 fun s hs => (prefix_iff_directories h.ends).1 (h.starts s hs)

theorem SharedDirectory.directories_ne_nil {sources : List String} {p : String}
    (h : SharedDirectory sources p) : directories p.toList ≠ [] := by
  intro hnil
  have hp := rejoin_directories h.ends
  rw [hnil] at hp
  simpa [← hp, rejoin] using h.ends

theorem sharedRoot?_cons_cons (first second : String) (rest : List String) :
    sharedRoot? (first :: second :: rest) =
      if sharedDirectories first (second :: rest) = [] then none
      else some (String.ofList (rejoin (sharedDirectories first (second :: rest)))) := by
  simp only [sharedRoot?, List.isEmpty_iff]
  split
  · rfl
  · next h => rw [intercalate_append_singleton h]

theorem sharedDirectory_of_sharedRoot? {sources : List String} {root : String}
    (h : sharedRoot? sources = some root) : SharedDirectory sources root := by
  match sources with
  | [] | [_] => cases h
  | first :: second :: rest =>
    rw [sharedRoot?_cons_cons] at h
    split at h
    · cases h
    · next hne =>
      obtain rfl := Option.some_inj.1 h
      constructor
      · rw [String.toList_ofList, ← intercalate_append_singleton hne]
        exact List.suffix_append _ _
      · intro s hs
        rw [String.toList_ofList]
        exact (rejoin_mono (prefix_sharedDirectories_iff.1 List.prefix_rfl s hs)).trans
          (prefix_of_directories s.toList)

theorem SharedDirectory.exists_sharedRoot? {sources : List String} {p : String}
    (hsize : 2 ≤ sources.length) (h : SharedDirectory sources p) :
    ∃ root, sharedRoot? sources = some root ∧ p.toList <+: root.toList := by
  match sources with
  | [] | [_] => simp at hsize
  | first :: second :: rest =>
    have hshared := h.prefix_sharedDirectories
    have hne : sharedDirectories first (second :: rest) ≠ [] := fun hnil =>
      h.directories_ne_nil (List.prefix_nil.1 (hnil ▸ hshared))
    refine ⟨_, by rw [sharedRoot?_cons_cons, if_neg hne], ?_⟩
    rw [String.toList_ofList, ← rejoin_directories h.ends]
    exact rejoin_mono hshared

end SourceMap.Envelope
