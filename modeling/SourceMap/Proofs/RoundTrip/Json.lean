import SourceMap.Envelope.Write
import SourceMap.Json.Read

/-!
# JSON values read as they were written

A reader stops where the value ends. For a number this takes a delimiter behind it, which is there
inside an array or object.

## Main definitions

* `Json.Delimited` : a text that starts with what can follow a value.
* `Json.Reads` : a reader takes a value off its text.
* `Json.Folds` : an item reader goes from one state to another over the texts of items.

## Main statements

* `readChars_escape` : a string is read back up to its closing quotation mark.
* `Folds.foldItems` : items are read up to the closing bracket.
* `reads_arrayText` : an array is read back if its items are.
-/

namespace SourceMap.Json

open Envelope (arrayText optionText)

/-! ## Strings -/

theorem hexDigit?_digitChar : ∀ n < 16, hexDigit? (Nat.digitChar n) = some n := by decide

theorem readHex_hexByte {n : Nat} (h : n < 256) (rest : List Char) :
    readHex ('0' :: '0' :: hexByte n ++ rest) = .ok (n, rest) := by
  have hzero : hexDigit? '0' = some 0 := by decide
  have hhigh := hexDigit?_digitChar (n / 16) (by omega)
  have hlow := hexDigit?_digitChar (n % 16) (by omega)
  simp only [readHex, hexByte, List.cons_append, List.nil_append, List.take_succ_cons,
    List.take_zero, List.drop_succ_cons, List.drop_zero, List.mapM_cons, List.mapM_nil, hzero,
    hhigh, hlow, Option.pure_def, Option.bind_eq_bind, Option.bind_some]
  congr 2
  omega

theorem readUnicode_control {c : Char} (h : c.toNat < 0x20) (rest : List Char) :
    readUnicode ('0' :: '0' :: hexByte c.toNat ++ rest) = .ok (c, rest) := by
  have htrail : isTrail c.toNat = false := by simp [isTrail]; omega
  have hlead : isLead c.toNat = false := by simp [isLead]; omega
  unfold readUnicode
  rw [readHex_hexByte (by omega)]
  simp [bind, Except.bind, htrail, hlead, Char.ofNat_toNat]
  rfl

theorem readChar_escape (c : Char) (rest : List Char) :
    readChar readUnicode (escape c ++ rest) = .ok (some c, rest) := by
  unfold escape
  split
  case h_8 hquote hbackslash _ _ _ _ _ =>
    split
    · next h =>
      have hcontrol := readUnicode_control h rest
      simp only [List.cons_append, List.nil_append] at hcontrol ⊢
      simp only [readChar, hcontrol]
      rfl
    · next h =>
      rw [List.singleton_append]
      unfold readChar
      split <;> simp_all
  all_goals rfl

theorem escape_ne_nil (c : Char) : escape c ≠ [] := by
  unfold escape
  repeat' split
  all_goals simp

theorem length_le_length_flatMap {f : α → List β} (h : ∀ x, f x ≠ []) (xs : List α) :
    xs.length ≤ (xs.flatMap f).length := by
  induction xs with
  | nil => exact Nat.le_refl 0
  | cons x xs ih =>
    have hx := List.length_pos_iff.2 (h x)
    simp only [List.flatMap_cons, List.length_append, List.length_cons]
    omega

theorem readCharsWith_escape (cs rest : List Char) {bound : Nat} (h : cs.length < bound) :
    readCharsWith readUnicode bound (cs.flatMap escape ++ '"' :: rest) = .ok (cs, rest) := by
  induction cs generalizing bound with
  | nil =>
    obtain ⟨bound, rfl⟩ := Nat.exists_eq_succ_of_ne_zero (Nat.ne_of_gt h)
    rfl
  | cons c cs ih =>
    obtain ⟨bound, rfl⟩ := Nat.exists_eq_succ_of_ne_zero (Nat.ne_of_gt (Nat.zero_lt_of_lt h))
    rw [List.flatMap_cons, List.append_assoc, readCharsWith, readChar_escape]
    dsimp only [bind, Except.bind]
    rw [ih (Nat.lt_of_succ_lt_succ h)]
    rfl

/-- A string is read back up to the quotation mark behind it. -/
theorem readChars_escape (s : String) (rest : List Char) :
    readChars (s.toList.flatMap escape ++ '"' :: rest) = .ok (s, rest) := by
  have hbound : s.toList.length < (s.toList.flatMap escape ++ '"' :: rest).length + 1 := by
    have := length_le_length_flatMap escape_ne_nil s.toList
    simp only [List.length_append, List.length_cons]
    omega
  unfold readChars
  rw [readCharsWith_escape _ _ hbound]
  change Except.ok (String.ofList s.toList, rest) = _
  rw [String.ofList_toList]

/-! ## Readers -/

/-- `c` ends an array or object. -/
def closes (c : Char) : Bool := c = ']' || c = '\x7d'

/-- `c` is not passed over before a value, and does not end an array or object. -/
def startsValue (c : Char) : Bool := !isBlank c && !closes c

/-- `rest` starts with what can follow a value. -/
def Delimited (rest : List Char) : Prop := ∃ c tail, rest = c :: tail ∧ (c = ',' ∨ closes c)

/-- `read` takes `x` off any text that starts with `text` and goes on with a delimiter. -/
structure Reads (read : Reader α) (text : String) (x : α) : Prop where
  starts : ∃ c cs, text.toList = c :: cs ∧ startsValue c
  takes : ∀ rest, Delimited rest → read (text.toList ++ rest) = .ok (x, rest)

theorem dropBlanks_cons {c : Char} (h : isBlank c = false) (cs : List Char) :
    dropBlanks (c :: cs) = c :: cs := by
  simp [dropBlanks, h]

theorem isBlank_of_startsValue {c : Char} (h : startsValue c) : isBlank c = false := by
  simp_all [startsValue]

theorem ne_of_startsValue {c close : Char} (h : startsValue c) (hclose : closes close) :
    c ≠ close := by
  rintro rfl
  simp [startsValue, hclose] at h

theorem isBlank_of_closes {c : Char} (h : closes c) : isBlank c = false := by
  rcases (by simpa [closes] using h : c = ']' ∨ c = '\x7d') with rfl | rfl <;> rfl

theorem Reads.map {read : Reader α} {read' : Reader β} {text : String} {x : α}
    (h : Reads read text x) (f : α → β)
    (hread : ∀ cs, read' cs = do
      let (x, rest) ← read cs
      return (f x, rest)) : Reads read' text (f x) where
  starts := h.starts
  takes rest hrest := by
    rw [hread, h.takes rest hrest]
    rfl

theorem toList_quote (s : String) : (quote s).toList = '"' :: s.toList.flatMap escape ++ ['"'] := by
  simp [quote, quoted]

theorem readString_quote (s : String) (rest : List Char) :
    readString ((quote s).toList ++ rest) = .ok (s, rest) := by
  rw [toList_quote, List.append_assoc]
  exact readChars_escape s rest

theorem reads_quote (s : String) : Reads readString (quote s) s where
  starts := ⟨'"', _, toList_quote s, rfl⟩
  takes rest _ := readString_quote s rest

/-- What may be `null` is read like any other value if it does not start like `null`. -/
theorem Reads.optional {read : Reader α} {text : String} {x : α} (h : Reads read text x)
    (hn : text.toList.head? ≠ some 'n') : Reads (readOptional read) text (some x) where
  starts := h.starts
  takes rest hrest := by
    have htakes := h.takes rest hrest
    obtain ⟨c, cs, htext, hc⟩ := h.starts
    rw [htext] at hn htakes ⊢
    rw [List.cons_append] at htakes ⊢
    unfold readOptional
    rw [dropBlanks_cons (isBlank_of_startsValue hc)]
    split
    · next heq =>
      cases heq
      exact absurd rfl hn
    · rw [htakes]
      rfl

theorem reads_optionText (s : Option String) :
    Reads (readOptional readString) (optionText s) s := by
  cases s with
  | none => exact ⟨⟨'n', _, rfl, rfl⟩, fun rest _ => rfl⟩
  | some s => exact (reads_quote s).optional (by simp [toList_quote])

/-! ## Items -/

/-- `item` leads from `s` to `t` over items with these texts. -/
inductive Folds (item : σ → Reader σ) : List String → σ → σ → Prop
  | nil (s : σ) : Folds item [] s s
  | cons {text : String} {texts : List String} {s t u : σ} :
    Reads (item s) text t → Folds item texts t u → Folds item (text :: texts) s u

section

variable {item : σ → Reader σ} {texts : List String} {s t : σ}

/-- What stands behind the first item: a comma before each of the others. -/
def followers (texts : List String) : List Char := texts.flatMap fun t => ',' :: t.toList

theorem followers_cons (text : String) (texts : List String) :
    followers (text :: texts) = ',' :: text.toList ++ followers texts := by
  simp [followers]

theorem length_le_length_followers (texts : List String) :
    texts.length ≤ (followers texts).length :=
  length_le_length_flatMap (fun _ => List.cons_ne_nil _ _) texts

theorem toList_intercalate_cons (text : String) (texts : List String) :
    (",".intercalate (text :: texts)).toList = text.toList ++ followers texts := by
  induction texts generalizing text with
  | nil => simp [followers]
  | cons t texts ih =>
    rw [String.intercalate_cons_cons, String.toList_append, String.toList_append, ih,
      followers_cons]
    simp

variable {close : Char}

theorem foldRest_close (hclose : closes close) (bound : Nat) (s : σ) (rest : List Char) :
    foldRest close item (bound + 1) s (close :: rest) = .ok (s, rest) := by
  simp [foldRest, dropBlanks_cons (isBlank_of_closes hclose)]

theorem foldRest_comma (hclose : closes close) {c : Char} (hc : startsValue c) (bound : Nat) (s : σ)
    (cs : List Char) :
    foldRest close item (bound + 1) s (',' :: c :: cs) =
      (do
        let (s, rest) ← item s (c :: cs)
        foldRest close item bound s rest) := by
  have hcomma : ',' ≠ close := by
    rintro rfl
    exact absurd hclose (by decide)
  have hblank : isBlank ',' = false := rfl
  simp [foldRest, dropBlanks_cons hblank, dropBlanks_cons (isBlank_of_startsValue hc), hcomma,
    ne_of_startsValue hc hclose]

theorem delimited_followers (hclose : closes close) (texts : List String) (rest : List Char) :
    Delimited (followers texts ++ close :: rest) := by
  cases texts with
  | nil => exact ⟨close, rest, rfl, .inr hclose⟩
  | cons t texts => exact ⟨',', _, rfl, .inl rfl⟩

theorem Folds.foldRest (h : Folds item texts s t) (hclose : closes close) {bound : Nat}
    (hbound : texts.length < bound) (rest : List Char) :
    foldRest close item bound s (followers texts ++ close :: rest) = .ok (t, rest) := by
  induction h generalizing bound with
  | nil s =>
    obtain ⟨bound, rfl⟩ := Nat.exists_eq_succ_of_ne_zero (Nat.ne_of_gt hbound)
    exact foldRest_close hclose bound s rest
  | @cons text texts s t u hitem hitems ih =>
    obtain ⟨bound, rfl⟩ := Nat.exists_eq_succ_of_ne_zero (Nat.ne_of_gt (Nat.zero_lt_of_lt hbound))
    have htakes := hitem.takes _ (delimited_followers hclose texts rest)
    obtain ⟨c, cs, htext, hc⟩ := hitem.starts
    rw [htext] at htakes
    simp only [followers_cons, htext, List.cons_append, List.append_assoc] at htakes ⊢
    rw [foldRest_comma hclose hc, htakes]
    exact ih (Nat.lt_of_succ_lt_succ hbound)

/-- Items are read up to the bracket behind them. -/
theorem Folds.foldItems (h : Folds item texts s t) (hclose : closes close) (rest : List Char) :
    foldItems close item s ((",".intercalate texts).toList ++ close :: rest) = .ok (t, rest) := by
  cases h with
  | nil => simp [Json.foldItems, dropBlanks_cons (isBlank_of_closes hclose)]
  | @cons text texts s t u hitem hitems =>
    have htakes := hitem.takes _ (delimited_followers hclose texts rest)
    obtain ⟨c, cs, htext, hc⟩ := hitem.starts
    have hbound : texts.length < (followers texts ++ close :: rest).length + 1 := by
      have := length_le_length_followers texts
      simp only [List.length_append, List.length_cons]
      omega
    rw [htext] at htakes
    simp only [toList_intercalate_cons, htext, List.cons_append, List.append_assoc] at htakes ⊢
    unfold Json.foldItems
    rw [dropBlanks_cons (isBlank_of_startsValue hc)]
    simp only [ne_of_startsValue hc hclose, if_false]
    rw [htakes]
    exact hitems.foldRest hclose hbound rest

end

/-! ## Arrays -/

theorem folds_push {item : Reader α} {write : α → String} (h : ∀ x, Reads item (write x) x)
    (xs read : List α) :
    Folds (fun items cs => do
      let (x, rest) ← item cs
      return (x :: items, rest)) (xs.map write) read (xs.reverse ++ read) := by
  induction xs generalizing read with
  | nil => exact .nil read
  | cons x xs ih =>
    rw [List.map_cons, List.reverse_cons, List.append_assoc]
    exact .cons ((h x).map (· :: read) fun _ => rfl) (ih (x :: read))

theorem reads_arrayText {item : Reader α} {write : α → String} (h : ∀ x, Reads item (write x) x)
    (xs : List α) : Reads (readArray item) (arrayText (xs.map write)) xs where
  starts := ⟨'[', _, by simp [arrayText]; rfl, rfl⟩
  takes rest _ := by
    have hfold := (folds_push h xs []).foldItems (rfl : closes ']') rest
    have htext : (arrayText (xs.map write)).toList ++ rest =
        '[' :: ((",".intercalate (xs.map write)).toList ++ ']' :: rest) := by
      simp [arrayText]
    rw [htext]
    change readItems ']' item _ = _
    unfold readItems
    dsimp only
    rw [hfold, List.append_nil]
    change Except.ok (xs.reverse.reverse, rest) = _
    rw [List.reverse_reverse]

end SourceMap.Json
