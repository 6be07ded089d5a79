import Mathlib.Data.List.Induction
import CryptSha512.CheckedExecution

namespace CryptSha512.Utf8Text

open CryptSha512.CheckedExecution

/-- The bytes are the UTF-8 encoding of some characters. -/
def IsUtf8 (bytes : List UInt8) : Prop :=
  ∃ text : List Char, text.flatMap String.utf8EncodeChar = bytes

/-- All bytes are single characters. -/
def IsAscii (bytes : List UInt8) : Prop := ∀ byte ∈ bytes, byte < 128

instance (bytes : List UInt8) : Decidable (IsAscii bytes) :=
  decidable_of_iff (bytes.all (decide <| · < 128) = true) (by simp [IsAscii])

/-- A borrowed string: its bytes are valid UTF-8 and obey the slice bound. -/
structure Str extends BoundedBytes where
  valid : IsUtf8 bytes

/-- `s.is_char_boundary(index)` -/
def isCharBoundary (bytes : List UInt8) (index : Nat) : Bool :=
  match bytes[index]? with
  | none => index == bytes.length
  | some byte => index == 0 || byte < 128 || 192 ≤ byte

/-- `&s[..index]` on a string. -/
def strSliceTo (bytes : List UInt8) (index : Nat) : Exec (List UInt8) :=
  if isCharBoundary bytes index then .ok (bytes.take index) else .error .charBoundary

theorem strSliceTo_append_cons (before after : List UInt8) {byte : UInt8}
    (hbyte : byte < 128) :
    strSliceTo (before ++ byte :: after) before.length = .ok before := by
  simp [strSliceTo, isCharBoundary, hbyte]

theorem utf8EncodeChar_ascii_or (c : Char) :
    (∃ byte, String.utf8EncodeChar c = [byte] ∧ byte < 128) ∨
      ∀ byte ∈ String.utf8EncodeChar c, ¬ byte < 128 := by
  have hhigh : ∀ (low mark : UInt8), 128 ≤ mark.toNat → ¬ (low ||| mark) < 128 := by
    intro low mark hmark hlt
    have hle : mark.toNat ≤ (low ||| mark).toNat := by
      rw [UInt8.toNat_or]
      exact Nat.right_le_or
    have hbound : (low ||| mark).toNat < 128 := UInt8.lt_iff_toNat_lt.mp hlt
    omega
  rcases Char.utf8Size_eq c with hsize | hsize | hsize | hsize
  · left
    refine ⟨c.val.toUInt8, String.utf8EncodeChar_eq_singleton hsize, ?_⟩
    have hval : c.val.toNat ≤ 127 :=
      UInt32.le_iff_toNat_le.mp (Char.utf8Size_eq_one_iff.mp hsize)
    rw [UInt8.lt_iff_toNat_lt, UInt32.toNat_toUInt8]
    exact Nat.lt_of_le_of_lt (Nat.mod_le _ _) (Nat.lt_succ_of_le hval)
  · right
    rw [String.utf8EncodeChar_eq_cons_cons hsize]
    simp only [List.mem_cons, List.not_mem_nil, or_false]
    rintro byte (rfl | rfl) <;> exact hhigh _ _ (by decide)
  · right
    rw [String.utf8EncodeChar_eq_cons_cons_cons hsize]
    simp only [List.mem_cons, List.not_mem_nil, or_false]
    rintro byte (rfl | rfl | rfl) <;> exact hhigh _ _ (by decide)
  · right
    rw [String.utf8EncodeChar_eq_cons_cons_cons_cons hsize]
    simp only [List.mem_cons, List.not_mem_nil, or_false]
    rintro byte (rfl | rfl | rfl | rfl) <;> exact hhigh _ _ (by decide)

theorem exists_char_of_ascii {byte : UInt8} (hbyte : byte < 128) :
    ∃ c : Char, String.utf8EncodeChar c = [byte] := by
  have hnat : byte.toNat < 128 := UInt8.lt_iff_toNat_lt.mp hbyte
  have hword : byte.toUInt32.toNat = byte.toNat := UInt8.toNat_toUInt32 byte
  have hvalid : byte.toUInt32.isValidChar := by
    left
    omega
  have hsize : (Char.mk byte.toUInt32 hvalid).utf8Size = 1 := by
    rw [Char.utf8Size_eq_one_iff, UInt32.le_iff_toNat_le, hword]
    exact Nat.le_of_lt_succ hnat
  refine ⟨⟨byte.toUInt32, hvalid⟩, ?_⟩
  rw [String.utf8EncodeChar_eq_singleton hsize]
  simp

theorem isUtf8_nil : IsUtf8 [] := ⟨[], rfl⟩

theorem IsUtf8.append {left right : List UInt8} (hleft : IsUtf8 left)
    (hright : IsUtf8 right) : IsUtf8 (left ++ right) := by
  obtain ⟨text, rfl⟩ := hleft
  obtain ⟨text', rfl⟩ := hright
  exact ⟨text ++ text', by simp⟩

theorem isUtf8_singleton {byte : UInt8} (hbyte : byte < 128) : IsUtf8 [byte] := by
  obtain ⟨c, hc⟩ := exists_char_of_ascii hbyte
  exact ⟨[c], by simp [hc]⟩

theorem isUtf8_singleton_iff {byte : UInt8} : IsUtf8 [byte] ↔ byte < 128 := by
  constructor
  · rintro ⟨text, htext⟩
    cases text with
    | nil => simp at htext
    | cons c text =>
        rw [List.flatMap_cons] at htext
        have hlength := congrArg List.length htext
        simp only [List.length_append, String.length_utf8EncodeChar,
          List.length_singleton] at hlength
        have hsize : c.utf8Size = 1 := by
          have := c.utf8Size_pos
          omega
        rcases utf8EncodeChar_ascii_or c with ⟨first, hfirst, hascii⟩ | hhigh
        · rw [hfirst] at htext
          rwa [← (List.cons.inj htext).1]
        · have hval : c.val.toNat ≤ 127 :=
            UInt32.le_iff_toNat_le.mp (Char.utf8Size_eq_one_iff.mp hsize)
          rw [String.utf8EncodeChar_eq_singleton hsize] at hhigh
          refine absurd ?_ (hhigh c.val.toUInt8 (by simp))
          rw [UInt8.lt_iff_toNat_lt, UInt32.toNat_toUInt8]
          exact Nat.lt_of_le_of_lt (Nat.mod_le _ _) (Nat.lt_succ_of_le hval)
  · exact isUtf8_singleton

theorem IsAscii.append {left right : List UInt8} (hleft : IsAscii left)
    (hright : IsAscii right) : IsAscii (left ++ right) := by
  intro byte hbyte
  rcases List.mem_append.mp hbyte with hbyte | hbyte
  · exact hleft byte hbyte
  · exact hright byte hbyte

theorem IsAscii.intercalate {separator : List UInt8} (hseparator : IsAscii separator)
    {pieces : List (List UInt8)} (hpieces : ∀ piece ∈ pieces, IsAscii piece) :
    IsAscii (separator.intercalate pieces) := by
  induction pieces with
  | nil => simp [IsAscii]
  | cons piece others ih =>
      have hothers := ih fun other hother => hpieces other (by simp [hother])
      cases others with
      | nil =>
          rw [List.intercalate_singleton]
          exact hpieces piece (by simp)
      | cons second others =>
          rw [List.intercalate_cons_cons]
          exact ((hpieces piece (by simp)).append hseparator).append hothers

theorem isAscii_append_iff {left right : List UInt8} :
    IsAscii (left ++ right) ↔ IsAscii left ∧ IsAscii right := by
  simp only [IsAscii, List.mem_append]
  constructor
  · intro h
    exact ⟨fun byte hbyte => h byte (.inl hbyte), fun byte hbyte => h byte (.inr hbyte)⟩
  · rintro ⟨hleft, hright⟩ byte (hbyte | hbyte)
    · exact hleft byte hbyte
    · exact hright byte hbyte

theorem IsAscii.isUtf8 {bytes : List UInt8} (h : IsAscii bytes) : IsUtf8 bytes := by
  induction bytes with
  | nil => exact isUtf8_nil
  | cons byte bytes ih =>
      have hhead : IsUtf8 [byte] := isUtf8_singleton (h byte (by simp))
      have htail : IsUtf8 bytes := ih fun other hother => h other (by simp [hother])
      exact hhead.append htail

theorem isUtf8_cons_iff {byte : UInt8} (hbyte : byte < 128) {bytes : List UInt8} :
    IsUtf8 (byte :: bytes) ↔ IsUtf8 bytes := by
  constructor
  · rintro ⟨text, htext⟩
    cases text with
    | nil => simp at htext
    | cons c text =>
        rw [List.flatMap_cons] at htext
        rcases utf8EncodeChar_ascii_or c with ⟨first, hfirst, _⟩ | hhigh
        · rw [hfirst] at htext
          exact ⟨text, by simpa using (List.cons.inj htext).2⟩
        · obtain ⟨first, rest, hrest⟩ := List.exists_cons_of_ne_nil
            (show String.utf8EncodeChar c ≠ [] from String.utf8EncodeChar_ne_nil)
          rw [hrest] at htext hhigh
          obtain ⟨rfl, _⟩ := List.cons.inj htext
          exact absurd hbyte (hhigh first (by simp))
  · exact (isUtf8_singleton hbyte).append

theorem isUtf8_append_singleton_iff {byte : UInt8} (hbyte : byte < 128)
    {bytes : List UInt8} : IsUtf8 (bytes ++ [byte]) ↔ IsUtf8 bytes := by
  constructor
  · rintro ⟨text, htext⟩
    rcases List.eq_nil_or_concat text with rfl | ⟨text, c, rfl⟩
    · simp at htext
    · rw [List.concat_eq_append, List.flatMap_append, List.flatMap_singleton] at htext
      rcases utf8EncodeChar_ascii_or c with ⟨last, hlast, _⟩ | hhigh
      · rw [hlast] at htext
        exact ⟨text, (List.append_inj' htext rfl).1⟩
      · rcases List.eq_nil_or_concat (String.utf8EncodeChar c) with hnil | ⟨rest, last, hrest⟩
        · exact absurd hnil String.utf8EncodeChar_ne_nil
        · rw [hrest, List.concat_eq_append, ← List.append_assoc] at htext
          have hlast : last = byte := by simpa using (List.append_inj' htext rfl).2
          exact absurd (hlast ▸ hbyte) (hhigh last (by simp [hrest]))
  · exact fun h => h.append (isUtf8_singleton hbyte)

theorem isUtf8_ascii_around_iff {before fragment after : List UInt8}
    (hbefore : IsAscii before) (hafter : IsAscii after) :
    IsUtf8 (before ++ fragment ++ after) ↔ IsUtf8 fragment := by
  have hright : IsUtf8 (before ++ fragment ++ after) ↔ IsUtf8 (before ++ fragment) := by
    induction after using List.reverseRecOn with
    | nil => simp
    | append_singleton after byte ih =>
        obtain ⟨hafter, hbyte⟩ := isAscii_append_iff.mp hafter
        rw [← List.append_assoc, isUtf8_append_singleton_iff (hbyte byte (by simp)),
          ih hafter]
  have hleft : IsUtf8 (before ++ fragment) ↔ IsUtf8 fragment := by
    clear hright
    induction before with
    | nil => simp
    | cons byte before ih =>
        rw [List.cons_append, isUtf8_cons_iff (hbefore byte (by simp))]
        exact ih fun other hother => hbefore other (by simp [hother])
  exact hright.trans hleft

end CryptSha512.Utf8Text
