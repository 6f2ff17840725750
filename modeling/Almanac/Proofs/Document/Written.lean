import Almanac.Document.Decode
import Almanac.Proofs.Except
import Almanac.Proofs.Text.Digits

/-!
# Written documents

A tree is plain when it says what a value can say: it has no leaf of a damaged text, and all its
numbers are integers of 64 bits with or without a sign. A string is read back from its quoted text
whatever its characters are, because each of them is read back from its escape. By induction on
the tree, a plain tree is read wherever its text stands in a document. The text of a plain tree
therefore decodes as the tree itself does.
-/

namespace Almanac.Json

open Text

variable {fuel : Nat} {read rest : List Char} {usable : Bool}

/-! ## Strings -/

theorem hexValue?_hexDigit {n : Nat} (h : n < 16) : hexValue? (hexDigit n) = some n := by
  interval_cases n <;> rfl

/-- A control character is read back from its escape. -/
theorem readEscape_control {c : Char} (h : c.toNat < 32) (rest : List Char) :
    readEscape ('u' :: '0' :: '0' :: hexDigit (c.toNat / 16) :: hexDigit (c.toNat % 16) :: rest) =
      .char c rest := by
  have hhigh : hexValue? (hexDigit (c.toNat / 16)) = some (c.toNat / 16) :=
    hexValue?_hexDigit (by omega)
  have hlow : hexValue? (hexDigit (c.toNat % 16)) = some (c.toNat % 16) :=
    hexValue?_hexDigit (by omega)
  have hzero : hexValue? '0' = some 0 := rfl
  have hunit : c.toNat / 16 * 16 + c.toNat % 16 = c.toNat := by omega
  have hsurrogate : ¬(0xD800 ≤ c.toNat ∧ c.toNat < 0xDC00) ∧
      ¬(0xDC00 ≤ c.toNat ∧ c.toNat < 0xE000) := by omega
  simp [readEscape, codeUnit?, hzero, hhigh, hlow, hunit, hsurrogate.1, hsurrogate.2,
    Char.ofNat_toNat]

theorem readString_escaped (c : Char) :
    readString (fuel + 1) read usable (escaped c ++ rest) =
      readString fuel (c :: read) usable rest := by
  unfold escaped
  split_ifs with hquote hslash hline hreturn htab hback hfeed hcontrol
  · simp [hquote, readString, readEscape, shortEscape?]
  · simp [hslash, readString, readEscape, shortEscape?]
  · simp [hline, readString, readEscape, shortEscape?]
  · simp [hreturn, readString, readEscape, shortEscape?]
  · simp [htab, readString, readEscape, shortEscape?]
  · obtain rfl : c = Char.ofNat 8 := by rw [← hback, Char.ofNat_toNat]
    simp [readString, readEscape, shortEscape?]
  · obtain rfl : c = Char.ofNat 12 := by rw [← hfeed, Char.ofNat_toNat]
    simp [readString, readEscape, shortEscape?]
  · simp [readString, readEscape_control hcontrol]
  · simp [readString, hcontrol]

theorem escaped_ne_nil (c : Char) : escaped c ≠ [] := by
  unfold escaped
  split_ifs <;> simp

/-- A quoted string is read up to the quote that closes it. -/
theorem readString_flatMap (cs : List Char) (hfuel : (cs.flatMap escaped).length < fuel) :
    readString fuel read usable (cs.flatMap escaped ++ '"' :: rest) =
      some (cs.reverse ++ read, usable, rest) := by
  induction cs generalizing fuel read with
  | nil =>
    obtain ⟨fuel, rfl⟩ := Nat.exists_eq_succ_of_ne_zero (Nat.ne_zero_of_lt hfuel)
    simp [readString]
  | cons c cs ih =>
    -- One step reads the whole escape of a character, and an escape is never empty.
    have hpos := List.length_pos_iff.mpr (escaped_ne_nil c)
    obtain ⟨fuel, rfl⟩ := Nat.exists_eq_succ_of_ne_zero (Nat.ne_zero_of_lt hfuel)
    rw [List.flatMap_cons, List.length_append] at hfuel
    rw [List.flatMap_cons, List.append_assoc, readString_escaped, ih (by omega)]
    simp

/-- A string is read back from its quoted text. -/
theorem stringAfterQuote?_quoted (s : String) (rest : List Char) :
    stringAfterQuote? (s.toList.flatMap escaped ++ '"' :: rest) = some (string s, rest) := by
  have hfuel : (s.toList.flatMap escaped).length <
      (s.toList.flatMap escaped ++ '"' :: rest).length + 1 := by
    rw [List.length_append]
    omega
  rw [stringAfterQuote?, readString_flatMap _ hfuel]
  simp

/-! ## Numbers -/

/-- A text goes on as it does after a value: it ends, or an item or its list does. -/
def Closes (rest : List Char) : Prop :=
  ∀ c, rest.head? = some c → c = ',' ∨ c = ']' ∨ c = '\x7d'

@[simp] theorem closes_nil : Closes [] := by
  simp [Closes]

@[simp] theorem closes_cons {c : Char} : Closes (c :: rest) ↔ c = ',' ∨ c = ']' ∨ c = '\x7d' := by
  simp [Closes]

theorem Closes.noDigitHead (h : Closes rest) : NoDigitHead rest := by
  intro c hc
  rcases h c hc with rfl | rfl | rfl <;> rfl

theorem Closes.readPlaces_eq (h : Closes rest) : readPlaces rest = some ([], rest) := by
  cases rest with
  | nil => rfl
  | cons c rest =>
    rcases closes_cons.mp h with rfl | rfl | rfl <;> rfl

theorem Closes.readExponent_eq (h : Closes rest) : readExponent rest = some (0, rest) := by
  cases rest with
  | nil => rfl
  | cons c rest =>
    rcases closes_cons.mp h with rfl | rfl | rfl <;> rfl

/-- An integer of 64 bits with or without a sign is read back from its text. -/
theorem readNumber?_signedDigits {i : Int} (hlow : -9223372036854775808 ≤ i)
    (hhigh : i < 18446744073709551616) (hrest : Closes rest) :
    readNumber? (signedDigits i ++ rest) = some (integer i, rest) := by
  have hrun := isRun_digits i.natAbs
  have hvalue := valueOf_digits i.natAbs
  have hzero : i.natAbs = 0 ∨ (digits i.natAbs).head? ≠ some '0' := by
    by_cases h : i.natAbs = 0
    · exact Or.inl h
    · exact Or.inr (head?_digits_ne_zero (by omega))
  obtain ⟨d, ds, hdigits⟩ := List.exists_cons_of_ne_nil hrun.ne_nil
  -- A leading zero stands alone, so the reader does not stop before the last digit.
  have hwhole : ds = [] ∨ ¬d = '0' := by
    rcases hzero with hzero | hhead
    · have hone : digits i.natAbs = ['0'] := congrArg digits hzero
      exact Or.inl (List.cons.inj (hdigits.symm.trans hone)).2
    · exact Or.inr (by simpa [hdigits] using hhead)
  rw [hdigits] at hrun hvalue
  have htaken : digitRun (ds.length + rest.length + 1) (d :: (ds ++ rest)) = (d :: ds, rest) :=
    digitRun_run_append hrun.isDigit (by simp) (Or.inr hrest.noDigitHead)
  unfold signedDigits readNumber?
  by_cases hneg : i < 0
  · have hwritten : ds.length + rest.length + 1 + 1 - rest.length = ds.length + 1 + 1 := by omega
    have hsize : i.natAbs ≤ 9223372036854775808 := by omega
    simp [hneg, hneg.ne, hdigits, htaken, hwhole, hrest.readPlaces_eq, hrest.readExponent_eq,
      hwritten, hsize, hvalue, abs_of_neg hneg]
  · have hwritten : ds.length + rest.length + 1 - rest.length = ds.length + 1 := by omega
    have hsize : i.natAbs < 18446744073709551616 := by omega
    have hminus : d ≠ '-' := by
      rintro rfl
      exact absurd (hrun.isDigit '-' (by simp)) (by decide)
    simp [hneg, hdigits, hminus, htaken, hwhole, hrest.readPlaces_eq, hrest.readExponent_eq,
      hwritten, hsize, hvalue, abs_of_nonneg (not_lt.mp hneg)]

/-! ## Trees -/

/-- A tree without decimals and without the leaves of a damaged text, whose integers have 64 bits
with or without a sign. -/
inductive Plain : Json → Prop
  | null : Plain null
  | bool (b : Bool) : Plain (bool b)
  | integer {i : Int} (hlow : -9223372036854775808 ≤ i) (hhigh : i < 18446744073709551616) :
    Plain (integer i)
  | string (s : String) : Plain (string s)
  | array {items : List Json} (h : ∀ item ∈ items, Plain item) : Plain (array items)
  | object {members : List (String × Json)} (h : ∀ entry ∈ members, Plain entry.2) :
    Plain (object members)

/-- A first character that is no blank and does not close an array. -/
structure Opens (c : Char) : Prop where
  not_space : isSpace c = false
  ne_bracket : c ≠ ']'

theorem opens_of_isDigit {c : Char} (h : c.isDigit = true) : Opens c := by
  constructor
  · by_contra hspace
    simp only [isSpace, Bool.not_eq_false, Bool.or_eq_true, beq_iff_eq] at hspace
    rcases hspace with ((rfl | rfl) | rfl) | rfl <;> exact absurd h (by decide)
  · rintro rfl
    exact absurd h (by decide)

theorem skipSpace_cons {c : Char} (h : isSpace c = false) (cs : List Char) :
    skipSpace (c :: cs) = c :: cs := by
  simp [skipSpace, h]

/-- A character that no array, object or word starts with. -/
theorem exists_signedDigits_eq (i : Int) :
    ∃ c cs, signedDigits i = c :: cs ∧ (c = '-' ∨ c.isDigit = true) := by
  obtain ⟨d, ds, hdigits⟩ := List.exists_cons_of_ne_nil (isRun_digits i.natAbs).ne_nil
  unfold signedDigits
  by_cases hneg : i < 0
  · exact ⟨'-', digits i.natAbs, by simp [hneg], Or.inl rfl⟩
  · refine ⟨d, ds, by simp [hneg, hdigits], Or.inr ?_⟩
    exact (isRun_digits i.natAbs).isDigit d (by simp [hdigits])

theorem Plain.exists_compact_eq {j : Json} (h : Plain j) :
    ∃ c cs, j.compact = c :: cs ∧ Opens c := by
  cases h with
  | null => exact ⟨_, _, rfl, by decide, by decide⟩
  | bool b => cases b <;> exact ⟨_, _, rfl, by decide, by decide⟩
  | @integer i _ _ =>
    obtain ⟨c, cs, heq, rfl | hdigit⟩ := exists_signedDigits_eq i
    · exact ⟨_, _, heq, by decide, by decide⟩
    · exact ⟨_, _, heq, opens_of_isDigit hdigit⟩
  | string s => exact ⟨_, _, rfl, by decide, by decide⟩
  | array _ => exact ⟨_, _, rfl, by decide, by decide⟩
  | object _ => exact ⟨_, _, rfl, by decide, by decide⟩

/-- Wherever the text of a tree stands in a document, the tree is read there. -/
def Reads (j : Json) : Prop :=
  ∀ ⦃fuel : Nat⦄ ⦃rest : List Char⦄, 2 * j.compact.length ≤ fuel → Closes rest →
    readValue fuel (j.compact ++ rest) = (j, some rest)

theorem readValue_of_readScalar? {c : Char} {cs : List Char} {j : Json}
    (hspace : isSpace c = false) (hbracket : c ≠ '[') (hbrace : c ≠ '\x7b')
    (h : readScalar? (c :: cs) = some (j, rest)) :
    readValue (fuel + 1) (c :: cs) = (j, some rest) := by
  simp [readValue, skipSpace_cons hspace, hbracket, hbrace, h]

theorem readScalar?_signedDigits {i : Int} (hlow : -9223372036854775808 ≤ i)
    (hhigh : i < 18446744073709551616) (hrest : Closes rest) :
    readScalar? (signedDigits i ++ rest) = some (integer i, rest) := by
  have hnumber := readNumber?_signedDigits hlow hhigh hrest
  obtain ⟨c, cs, heq, hc⟩ := exists_signedDigits_eq i
  rw [heq, List.cons_append] at hnumber ⊢
  have hne : ∀ word : Char, word.isDigit = false → word ≠ '-' → c ≠ word := by
    rintro word hdigit hminus rfl
    rcases hc with rfl | hc
    · exact hminus rfl
    · simp [hc] at hdigit
  rw [← hnumber]
  simp [readScalar?, hne]

/-- The items of an array are read up to its closing bracket. -/
theorem readItems_compactItems (rest : List Char) {items : List Json} (hne : items ≠ [])
    (h : ∀ item ∈ items, Reads item) (hfuel : 2 * (compactItems items).length ≤ fuel) :
    readItems fuel (compactItems items ++ rest) = (items, some rest) := by
  induction items generalizing fuel with
  | nil => exact (hne rfl).elim
  | cons item items ih =>
    obtain ⟨hitem, hitems⟩ := List.forall_mem_cons.mp h
    cases items with
    | nil =>
      simp only [compactItems, List.length_append, List.length_singleton] at hfuel
      obtain ⟨fuel, rfl⟩ := Nat.exists_eq_succ_of_ne_zero (show fuel ≠ 0 by omega)
      have hread := @hitem fuel (']' :: rest) (by omega) (by simp)
      simp [readItems, compactItems, hread, skipSpace, isSpace]
    | cons next items =>
      simp only [compactItems, List.length_append, List.length_cons] at hfuel
      obtain ⟨fuel, rfl⟩ := Nat.exists_eq_succ_of_ne_zero (show fuel ≠ 0 by omega)
      have hread := @hitem fuel (',' :: (compactItems (next :: items) ++ rest)) (by omega) (by simp)
      have hnext : readItems fuel (compactItems (next :: items) ++ rest) =
          (next :: items, some rest) := ih (by simp) hitems (by omega)
      simp [readItems, compactItems, hread, skipSpace, isSpace, hnext]

/-- The members of an object are read up to its closing brace. -/
theorem readMembers_compactMembers (rest : List Char) {members : List (String × Json)}
    (hne : members ≠ []) (h : ∀ entry ∈ members, Reads entry.2)
    (hfuel : 2 * (compactMembers members).length ≤ fuel) :
    readMembers fuel (compactMembers members ++ rest) = (members, some rest) := by
  induction members generalizing fuel with
  | nil => exact (hne rfl).elim
  | cons entry members ih =>
    obtain ⟨name, value⟩ := entry
    obtain ⟨hvalue, hmembers⟩ := List.forall_mem_cons.mp h
    cases members with
    | nil =>
      simp only [compactMembers, List.length_append, List.length_cons] at hfuel
      obtain ⟨fuel, rfl⟩ := Nat.exists_eq_succ_of_ne_zero (show fuel ≠ 0 by omega)
      have hread := @hvalue fuel ('\x7d' :: rest) (by dsimp only; omega) (by simp)
      simp only at hread
      simp [readMembers, compactMembers, quoted, stringAfterQuote?_quoted, hread, skipSpace,
        isSpace]
    | cons next members =>
      simp only [compactMembers, List.length_append, List.length_cons] at hfuel
      obtain ⟨fuel, rfl⟩ := Nat.exists_eq_succ_of_ne_zero (show fuel ≠ 0 by omega)
      have hread := @hvalue fuel (',' :: (compactMembers (next :: members) ++ rest))
        (by dsimp only; omega) (by simp)
      simp only at hread
      have hnext : readMembers fuel (compactMembers (next :: members) ++ rest) =
          (next :: members, some rest) := ih (by simp) hmembers (by omega)
      simp [readMembers, compactMembers, quoted, stringAfterQuote?_quoted, hread, hnext, skipSpace,
        isSpace]

theorem readWord?_append (word : String) (value : Json) (rest : List Char) :
    readWord? word value (word.toList ++ rest) = some (value, rest) := by
  simp [readWord?, List.isPrefixOf_iff_prefix]

/-- A scalar is read where its text stands if its first character says so. -/
theorem reads_of_readScalar? {j : Json} (hplain : Plain j)
    (hhead : ∀ c, j.compact.head? = some c → c ≠ '[' ∧ c ≠ '\x7b')
    (h : ∀ rest, Closes rest → readScalar? (j.compact ++ rest) = some (j, rest)) : Reads j := by
  intro fuel rest hfuel hrest
  obtain ⟨c, cs, heq, hopens⟩ := hplain.exists_compact_eq
  have hscalar := h rest hrest
  obtain ⟨hbracket, hbrace⟩ := hhead c (by simp [heq])
  rw [heq] at hfuel hscalar ⊢
  rw [List.length_cons] at hfuel
  obtain ⟨fuel, rfl⟩ := Nat.exists_eq_succ_of_ne_zero (show fuel ≠ 0 by omega)
  exact readValue_of_readScalar? hopens.not_space hbracket hbrace hscalar

theorem Plain.exists_compactItems_eq {item : Json} (h : Plain item) (items : List Json) :
    ∃ c cs, compactItems (item :: items) = c :: cs ∧ Opens c := by
  obtain ⟨c, cs, heq, hopens⟩ := h.exists_compact_eq
  cases items <;> simp [compactItems, heq, hopens]

theorem exists_compactMembers_eq (entry : String × Json) (members : List (String × Json)) :
    ∃ cs, compactMembers (entry :: members) = '"' :: cs := by
  cases members <;> simp [compactMembers, quoted]

/-- A plain tree is read wherever its text stands in a document. -/
theorem Plain.reads {j : Json} (h : Plain j) : Reads j := by
  induction h with
  | null =>
    exact reads_of_readScalar? .null (by simp [compact]) fun rest _ =>
      readWord?_append "null" .null rest
  | bool b =>
    cases b with
    | true =>
      exact reads_of_readScalar? (.bool true) (by simp [compact]) fun rest _ =>
        readWord?_append "true" (.bool true) rest
    | false =>
      exact reads_of_readScalar? (.bool false) (by simp [compact]) fun rest _ =>
        readWord?_append "false" (.bool false) rest
  | @integer i hlow hhigh =>
    refine reads_of_readScalar? (.integer hlow hhigh) ?_ fun rest hrest =>
      readScalar?_signedDigits hlow hhigh hrest
    obtain ⟨c, cs, heq, rfl | hdigit⟩ := exists_signedDigits_eq i
    · simp [compact, heq]
    · simp only [compact, heq, List.head?_cons, Option.some.injEq, forall_eq']
      constructor <;> (rintro rfl; exact absurd hdigit (by decide))
  | string s =>
    refine reads_of_readScalar? (.string s) (by simp [compact, quoted]) fun rest _ => ?_
    simp [compact, quoted, readScalar?, stringAfterQuote?_quoted]
  | @array items h ih =>
    intro fuel rest hfuel hrest
    simp only [compact, List.length_cons] at hfuel
    obtain ⟨fuel, rfl⟩ := Nat.exists_eq_succ_of_ne_zero (show fuel ≠ 0 by omega)
    cases items with
    | nil => simp [readValue, compact, compactItems, skipSpace, isSpace]
    | cons item items =>
      have hitems := readItems_compactItems rest (by simp) ih
        (show 2 * (compactItems (item :: items)).length ≤ fuel by omega)
      -- The reader looks for a closing bracket first, and no item starts with one.
      obtain ⟨c, cs, heq, hopens⟩ := (h item (by simp)).exists_compactItems_eq items
      rw [heq, List.cons_append] at hitems
      have hbracket : skipSpace ('[' :: c :: (cs ++ rest)) = '[' :: c :: (cs ++ rest) := rfl
      simp [readValue, compact, heq, hbracket, skipSpace_cons hopens.not_space, hopens.ne_bracket,
        hitems]
  | @object members h ih =>
    intro fuel rest hfuel hrest
    simp only [compact, List.length_cons] at hfuel
    obtain ⟨fuel, rfl⟩ := Nat.exists_eq_succ_of_ne_zero (show fuel ≠ 0 by omega)
    cases members with
    | nil => simp [readValue, compact, compactMembers, skipSpace, isSpace]
    | cons entry members =>
      have hmembers := readMembers_compactMembers rest (by simp) ih
        (show 2 * (compactMembers (entry :: members)).length ≤ fuel by omega)
      obtain ⟨cs, heq⟩ := exists_compactMembers_eq entry members
      rw [heq, List.cons_append] at hmembers
      simp [readValue, compact, heq, skipSpace, isSpace, hmembers]

/-- The text of a plain tree is read back into the tree, and nothing follows. -/
theorem Plain.read_text {j : Json} (h : Plain j) : Json.read j.text = (j, true) := by
  have hread : readValue (2 * j.compact.length + 2) (j.compact ++ []) = (j, some []) :=
    h.reads (by omega) closes_nil
  rw [List.append_nil] at hread
  simp [Json.read, text, hread, skipSpace]

end Almanac.Json

namespace Almanac

/-! ## Decoders -/

section Decoders

variable {α β : Type} {fault : DecodeFault}

@[simp] theorem ok_bind (a : α) (f : α → Except DecodeFault β) : (Except.ok a >>= f) = f a := rfl

@[simp] theorem error_bind (f : α → Except DecodeFault β) :
    (Except.error fault >>= f) = .error fault := rfl

@[simp] theorem pure_eq_ok (a : α) : (pure a : Except DecodeFault α) = .ok a := rfl

@[simp] theorem checked_ok (a : α) : checked (.ok a) = .ok a := rfl

@[simp] theorem checked_error (fault : Fault) :
    checked (.error fault : Except Fault α) = .error (.invalid fault) := rfl

/-- Checks made one after the other are made in a decoder in this order too. -/
theorem checked_bind (x : Except Fault α) (f : α → Except Fault β) :
    checked (x >>= f) = checked x >>= fun a => checked (f a) := by
  cases x <;> rfl

theorem checked_map (f : α → β) (x : Except Fault α) :
    checked (f <$> x) = checked x >>= fun a => .ok (f a) := by
  cases x <;> rfl

theorem checked_mapM (f : α → Except Fault β) (as : List α) :
    checked (as.mapM f) = as.mapM fun a => checked (f a) := by
  induction as with
  | nil => rfl
  | cons a as ih =>
    simp only [List.mapM_cons, checked_bind, ih]
    rfl

/-- A member that has not been met before is decoded. -/
@[simp] theorem member_none_bind (d : Decoder α) (j : Json) (f : Option α → Except DecodeFault β) :
    Decoder.member none d j >>= f = d j >>= fun a => f (some a) := by
  unfold Decoder.member
  cases d j <;> rfl

@[simp] theorem require_some (a : α) : Decoder.require (some a) = .ok a := rfl

/-- To decode the text of a plain tree is to decode the tree. -/
theorem decodeText_text {j : Json} (h : j.Plain) (d : Decoder α) : decodeText d j.text = d j := by
  unfold decodeText
  rw [h.read_text]
  cases hd : d j <;> simp [hd]

theorem exists_of_decodeText {text : String} {d : Decoder α} {a : α}
    (h : decodeText d text = .ok a) : ∃ j, d j = .ok a := by
  obtain ⟨⟨tree, ended⟩, hread⟩ : ∃ r, Json.read text = r := ⟨_, rfl⟩
  simp only [decodeText, hread] at h
  obtain ⟨value, hvalue, h⟩ := exists_of_bind_eq_ok h
  cases ended <;> cases h
  exact ⟨tree, hvalue⟩

end Decoders

end Almanac
