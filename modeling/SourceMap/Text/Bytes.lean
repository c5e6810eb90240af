/-!
# Text as bytes

Mapping text is measured in UTF-8 bytes: offsets, spans and columns all count them. `bytes` is the
view of a string that the decoders read, and appending strings appends their bytes. The other way,
bytes that come from outside need not be text, and `ofBytes` shows them as well as it can.

## Main definitions

* `bytes` : the UTF-8 bytes of a string.
* `ofBytes` : the text of bytes, with replacement characters for those that are none.
* `IsUtf8` : the bytes are those of a text.
* `Span` : a range of bytes.
* `comma`, `semicolon` : the two separators of mapping text.
* `dropEndWhile` : a list without the elements at its end that have a property.
-/

namespace SourceMap.Text

/-- The UTF-8 bytes of `s`. -/
def bytes (s : String) : List UInt8 := s.toByteArray.data.toList

/-- Where bytes are asked for, a text stands for its own. -/
instance instCoeBytes : Coe String (List UInt8) := ⟨bytes⟩

@[simp] theorem bytes_empty : bytes "" = [] := rfl

@[simp] theorem bytes_append (s t : String) : bytes (s ++ t) = bytes s ++ bytes t := by
  simp [bytes]

@[simp] theorem length_bytes (s : String) : (bytes s).length = s.utf8ByteSize := by
  simp [bytes]

theorem bytes_ofList (cs : List Char) :
    bytes (String.ofList cs) = cs.flatMap String.utf8EncodeChar := by
  simp [bytes, List.utf8Encode]

theorem bytes_eq_flatMap (s : String) : bytes s = s.toList.flatMap String.utf8EncodeChar := by
  rw [← bytes_ofList, String.ofList_toList]

theorem bytes_inj {s t : String} : bytes s = bytes t ↔ s = t := by
  refine ⟨fun h => ?_, congrArg bytes⟩
  exact String.toByteArray_inj.1 (ByteArray.ext (Array.toList_inj.1 h))

theorem bytes_intercalate (sep : String) (texts : List String) :
    bytes (sep.intercalate texts) = (bytes sep).intercalate (texts.map bytes) := by
  induction texts with
  | nil => rfl
  | cons t texts ih =>
    cases texts with
    | nil => simp
    | cons u texts =>
      rw [String.intercalate_cons_cons, List.map_cons, List.map_cons, List.intercalate_cons_cons,
        bytes_append, bytes_append, ih, List.map_cons]

/-- A byte of ASCII belongs to its own character only. -/
theorem mem_utf8EncodeChar_iff {b : UInt8} {c : Char} (hb : b.toNat < 128) :
    b ∈ String.utf8EncodeChar c ↔ c.toNat = b.toNat := by
  have hc : c.val.toNat = c.toNat := rfl
  unfold String.utf8EncodeChar
  dsimp only
  rw [hc]
  constructor
  · intro h
    have hbyte : ∀ n : Nat, b = UInt8.ofNat n → b.toNat = n % 256 := fun n hn => by
      simp [hn]
    split at h
    · have := hbyte _ (List.mem_singleton.1 h)
      omega
    split at h
    · simp only [List.mem_cons, List.not_mem_nil, or_false] at h
      rcases h with h | h <;> have := hbyte _ h <;> omega
    split at h <;> simp only [List.mem_cons, List.not_mem_nil, or_false] at h
    · rcases h with h | h | h <;> have := hbyte _ h <;> omega
    · rcases h with h | h | h | h <;> have := hbyte _ h <;> omega
  · intro h
    rw [h, if_pos (by omega), UInt8.ofNat_toNat]
    exact List.mem_singleton_self b

theorem mem_bytes_iff {b : UInt8} {c : Char} (hb : b.toNat < 128) (hc : c.toNat = b.toNat)
    {s : String} : b ∈ bytes s ↔ c ∈ s.toList := by
  rw [bytes_eq_flatMap, List.mem_flatMap]
  constructor
  · rintro ⟨d, hd, hmem⟩
    have hsame := ((mem_utf8EncodeChar_iff hb).1 hmem).trans hc.symm
    exact Char.toNat_inj.1 hsame ▸ hd
  · exact fun h => ⟨c, h, (mem_utf8EncodeChar_iff hb).2 hc⟩

/-! ## Bytes that need not be text -/

/-- `b` may stand behind `a` in a character of three or four bytes. -/
def continues (a b : UInt8) : Bool :=
  if a = 0xE0 then 0xA0 ≤ b && b ≤ 0xBF
  else if a = 0xED then 0x80 ≤ b && b ≤ 0x9F
  else if a = 0xF0 then 0x90 ≤ b && b ≤ 0xBF
  else if a = 0xF4 then 0x80 ≤ b && b ≤ 0x8F
  else 0xE1 ≤ a && a ≤ 0xF3 && 0x80 ≤ b && b ≤ 0xBF

/-- For bytes that start with no character, how many of them are passed over together: those with
which a character could have started. -/
def strayLength : List UInt8 → Nat
  | a :: b :: rest =>
    if continues a b then
      match rest with
      | c :: _ => if 0xF0 ≤ a && 0x80 ≤ c && c ≤ 0xBF then 3 else 2
      | [] => 2
    else 1
  | _ => 1

/-- The characters of bytes, of which the first `skip` have been read. A replacement character
stands for bytes that are no text. -/
def charsOf : Nat → List UInt8 → List Char
  | _, [] => []
  | skip + 1, _ :: bs => charsOf skip bs
  | 0, b :: bs =>
    match (b :: bs).toByteArray.utf8DecodeChar? 0 with
    | some c => c :: charsOf (c.utf8Size - 1) bs
    | none => '\uFFFD' :: charsOf (strayLength (b :: bs) - 1) bs

def ofBytes (bs : List UInt8) : String := String.ofList (charsOf 0 bs)

theorem charsOf_append (skipped bs : List UInt8) :
    charsOf skipped.length (skipped ++ bs) = charsOf 0 bs := by
  induction skipped with
  | nil => rfl
  | cons b skipped ih => exact ih

/-- The bytes of a character are read as that character. -/
theorem charsOf_utf8EncodeChar_append (c : Char) (bs : List UInt8) :
    charsOf 0 (String.utf8EncodeChar c ++ bs) = c :: charsOf 0 bs := by
  have hdecode : (String.utf8EncodeChar c ++ bs).toByteArray.utf8DecodeChar? 0 = some c := by
    rw [List.toByteArray_append]
    exact ByteArray.utf8DecodeChar?_utf8EncodeChar_append
  have hlength := String.length_utf8EncodeChar c
  cases hbytes : String.utf8EncodeChar c with
  | nil =>
    have := c.utf8Size_pos
    rw [hbytes, List.length_nil] at hlength
    omega
  | cons b rest =>
    rw [hbytes, List.cons_append] at hdecode
    rw [hbytes, List.length_cons] at hlength
    rw [List.cons_append, charsOf, hdecode]
    dsimp only
    rw [← hlength, Nat.add_sub_cancel, charsOf_append]

/-- A text is read from its bytes. -/
@[simp] theorem ofBytes_bytes (s : String) : ofBytes (bytes s) = s := by
  have hchars : ∀ cs : List Char, charsOf 0 (cs.flatMap String.utf8EncodeChar) = cs := by
    intro cs
    induction cs with
    | nil => rfl
    | cons c cs ih => rw [List.flatMap_cons, charsOf_utf8EncodeChar_append, ih]
  rw [ofBytes, bytes_eq_flatMap, hchars, String.ofList_toList]

/-- A character is read where its bytes stand. -/
theorem eq_append_of_utf8DecodeChar? {bs : List UInt8} {c : Char}
    (h : bs.toByteArray.utf8DecodeChar? 0 = some c) :
    bs = String.utf8EncodeChar c ++ bs.drop c.utf8Size := by
  have hsplit := congrArg (fun b : ByteArray => b.data.toList)
    (ByteArray.eq_of_utf8DecodeChar?_eq_some h)
  obtain ⟨rest, hrest⟩ : String.utf8EncodeChar c <+: bs := ⟨_, by simpa using hsplit.symm⟩
  rw [← hrest, ← String.length_utf8EncodeChar, List.drop_left]

theorem flatMap_charsOf {skip : Nat} {bs : List UInt8} (h : '\uFFFD' ∉ charsOf skip bs) :
    (charsOf skip bs).flatMap String.utf8EncodeChar = bs.drop skip := by
  fun_induction charsOf skip bs with
  | case1 skip => simp
  | case2 skip b bs ih => exact ih h
  | case3 b bs c hdecode ih =>
    have hsplit := eq_append_of_utf8DecodeChar? hdecode
    obtain ⟨n, hn⟩ := Nat.exists_eq_add_one.2 c.utf8Size_pos
    rw [hn, List.drop_succ_cons] at hsplit
    rw [List.mem_cons, not_or] at h
    rw [List.flatMap_cons, ih h.2, hn, Nat.add_sub_cancel, List.drop_zero, ← hsplit]
  | case4 b bs hdecode ih => simp at h

/-- Bytes that are shown without a replacement character are those of the text. -/
theorem bytes_ofBytes {bs : List UInt8} (h : '\uFFFD' ∉ (ofBytes bs).toList) :
    bytes (ofBytes bs) = bs := by
  rw [ofBytes, String.toList_ofList] at h
  rw [ofBytes, bytes_ofList, flatMap_charsOf h, List.drop_zero]

theorem eq_or_subset_of_mem_charsOf {skip : Nat} {bs : List UInt8} {c : Char}
    (h : c ∈ charsOf skip bs) : c = '\uFFFD' ∨ String.utf8EncodeChar c ⊆ bs := by
  have hcons : ∀ (b : UInt8) (bs : List UInt8), String.utf8EncodeChar c ⊆ bs →
      String.utf8EncodeChar c ⊆ b :: bs :=
    fun b bs h => List.Subset.trans h (List.subset_cons_self b bs)
  fun_induction charsOf skip bs with
  | case1 skip => cases h
  | case2 skip b bs ih => exact (ih h).imp_right (hcons b bs)
  | case3 b bs d hdecode ih =>
    rcases List.mem_cons.1 h with rfl | h
    · right
      rw [eq_append_of_utf8DecodeChar? hdecode]
      exact List.subset_append_left ..
    · exact (ih h).imp_right (hcons b bs)
  | case4 b bs hdecode ih =>
    rcases List.mem_cons.1 h with rfl | h
    · exact .inl rfl
    · exact (ih h).imp_right (hcons b bs)

/-- A character of ASCII is shown only where its byte stands. -/
theorem mem_of_mem_ofBytes {b : UInt8} {c : Char} (hb : b.toNat < 128) (hc : c.toNat = b.toNat)
    {bs : List UInt8} (h : c ∈ (ofBytes bs).toList) : b ∈ bs := by
  rw [ofBytes, String.toList_ofList] at h
  rcases eq_or_subset_of_mem_charsOf h with rfl | hsubset
  · have hreplacement : '\uFFFD'.toNat = 0xFFFD := rfl
    omega
  · exact hsubset ((mem_utf8EncodeChar_iff hb).2 hc)

/-- The bytes are those of a text. -/
def IsUtf8 (bs : List UInt8) : Prop := ∃ s, bytes s = bs

theorem isUtf8_iff {bs : List UInt8} : IsUtf8 bs ↔ bytes (ofBytes bs) = bs := by
  refine ⟨?_, fun h => ⟨_, h⟩⟩
  rintro ⟨s, rfl⟩
  rw [ofBytes_bytes]

instance (bs : List UInt8) : Decidable (IsUtf8 bs) := decidable_of_iff' _ isUtf8_iff

/-! ## Separators -/

theorem mem_intercalate {sep : List α} {xss : List (List α)} {x : α}
    (h : x ∈ sep.intercalate xss) : x ∈ sep ∨ ∃ xs ∈ xss, x ∈ xs := by
  induction xss with
  | nil => simp at h
  | cons xs xss ih =>
    cases xss with
    | nil => exact .inr ⟨xs, List.mem_cons_self, by simpa using h⟩
    | cons ys xss =>
      rw [List.intercalate_cons_cons] at h
      grind

/-- Pieces with separators between them, taken apart around one piece. -/
theorem intercalate_append_cons (sep : α) (before : List (List α)) (xs : List α)
    (after : List (List α)) :
    [sep].intercalate (before ++ xs :: after) =
      before.flatMap (· ++ [sep]) ++ xs ++ after.flatMap (sep :: ·) := by
  induction before with
  | nil =>
    induction after generalizing xs with
    | nil => simp
    | cons ys after ih =>
      have h := ih ys
      simp_all [List.intercalate_cons_cons]
  | cons ys before ih =>
    rw [List.cons_append, List.flatMap_cons, List.append_assoc, List.append_assoc,
      ← List.append_assoc (before.flatMap _), ← ih]
    cases before <;> simp [List.intercalate_cons_cons]

/-- The byte of `,`, which stands between the segments of a line. -/
def comma : UInt8 := 0x2C

/-- The byte of `;`, which stands between lines. -/
def semicolon : UInt8 := 0x3B

/-- The byte of `/`, which stands between the parts of a path. -/
def slash : UInt8 := 0x2F

/-- The byte of `.`. -/
def dot : UInt8 := 0x2E

@[simp] theorem bytes_comma : bytes "," = [comma] := rfl

@[simp] theorem bytes_semicolon : bytes ";" = [semicolon] := rfl

/-- `length` bytes from `offset` on. -/
structure Span where
  offset : Nat
  length : Nat
  deriving DecidableEq, Repr

/-! ## The end of a list -/

def dropEndWhile (p : α → Bool) (xs : List α) : List α := (xs.reverse.dropWhile p).reverse

theorem dropEndWhile_prefix (p : α → Bool) (xs : List α) : dropEndWhile p xs <+: xs := by
  have h := List.dropWhile_suffix p (l := xs.reverse)
  rwa [← List.reverse_prefix, List.reverse_reverse] at h

@[simp] theorem dropEndWhile_append_singleton (p : α → Bool) (xs : List α) (x : α) :
    dropEndWhile p (xs ++ [x]) = if p x then dropEndWhile p xs else xs ++ [x] := by
  unfold dropEndWhile
  rw [List.reverse_append, List.reverse_singleton, List.singleton_append, List.dropWhile_cons]
  split <;> simp

end SourceMap.Text
