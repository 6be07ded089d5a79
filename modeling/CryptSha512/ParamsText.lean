import CryptSha512.PasswordHashTraits
import CryptSha512.SaltSpecGrammar

namespace CryptSha512.ParamsText

open CryptSha512.AsciiNumbers
open CryptSha512.DecimalText
open CryptSha512.DelimitedText
open CryptSha512.PasswordHashTraits
open CryptSha512.SaltSpecGrammar
open CryptSha512.Utf8Text

/-- The digits, read without bound, are a permitted round count. -/
def IsRoundCount (digits : List UInt8) : Prop :=
  digits.all isDigit = true ∧ 1000 ≤ decimalValue digits ∧ decimalValue digits ≤ 999999999

/-- `Error::ParamInvalid { name: "rounds" }` -/
def roundsInvalid : Error := .paramInvalid (['r', 'o', 'u', 'n', 'd', 's'].map Char.toUInt8)

theorem roundsInvalid_ne_paramsInvalid : roundsInvalid ≠ .paramsInvalid := by decide

theorem params_ext {left right : Sha512CryptParams}
    (h : left.rounds.toNat = right.rounds.toNat) : left = right := by
  obtain ⟨rounds, hmem⟩ := left
  obtain rfl : rounds = right.rounds := UInt32.toNat_inj.mp h
  rfl

theorem isRoundCount_decimal (params : Sha512CryptParams) :
    IsRoundCount (decimal params.rounds.toNat) := by
  refine ⟨SaltSpec.isDigit_decimal _, ?_⟩
  rw [decimalValue_decimal]
  exact params.rounds_mem_toNat

theorem saturated_mem_iff (n : Nat) :
    (roundsMin ≤ UInt32.ofNat (min n u32Max) ∧ UInt32.ofNat (min n u32Max) ≤ roundsMax) ↔
      1000 ≤ n ∧ n ≤ 999999999 := by
  have hmin : roundsMin.toNat = 1000 := rfl
  have hmax : roundsMax.toNat = 999999999 := rfl
  rw [UInt32.le_iff_toNat_le, UInt32.le_iff_toNat_le, u32_ofNat_min_toNat, hmin, hmax, u32Max]
  -- what saturates is above the range before and after
  omega

theorem new_saturated {n : Nat} (h : 1000 ≤ n ∧ n ≤ 999999999) :
    ∃ params, Sha512CryptParams.new (UInt32.ofNat (min n u32Max)) = .ok params ∧
      params.rounds.toNat = n := by
  have hmem := (saturated_mem_iff n).mpr h
  refine ⟨⟨_, hmem⟩, by rw [Sha512CryptParams.new, dif_pos hmem], ?_⟩
  rw [u32_ofNat_min_toNat, u32Max]
  omega

theorem new_saturated_error {n : Nat} (h : ¬ (1000 ≤ n ∧ n ≤ 999999999)) :
    Sha512CryptParams.new (UInt32.ofNat (min n u32Max)) = .error roundsInvalid := by
  rw [Sha512CryptParams.new, dif_neg (mt (saturated_mem_iff n).mp h)]
  rfl

section FromStr

variable {s : Str}

theorem fromStr_of_nil (h : s.bytes = []) :
    Sha512CryptParams.fromStr s = .ok .default := by
  simp [Sha512CryptParams.fromStr, h]

theorem fromStr_of_not_prefix (hne : s.bytes ≠ [])
    (h : ¬ ∃ rest, s.bytes = roundsField rest) :
    Sha512CryptParams.fromStr s = .error .paramsInvalid := by
  have hstrip : stripPrefix sha512RoundsPrefix s.bytes = none := by
    rw [Option.eq_none_iff_forall_ne_some]
    intro rest hrest
    exact h ⟨rest, stripPrefix_eq_some_iff.mp hrest⟩
  simp [Sha512CryptParams.fromStr, hne, hstrip]

theorem fromStr_roundsField {rest : List UInt8} (h : s.bytes = roundsField rest) :
    Sha512CryptParams.fromStr s =
      match atoiU32 rest with
      | none => .error roundsInvalid
      | some rounds => Sha512CryptParams.new rounds := by
  have hempty : (sha512RoundsPrefix ++ rest).isEmpty = false := rfl
  rw [Sha512CryptParams.fromStr, h, roundsField, hempty, stripPrefix_append]
  rfl

theorem fromStr_of_isRoundCount {digits : List UInt8} (h : s.bytes = roundsField digits)
    (hdigits : IsRoundCount digits) :
    ∃ params, Sha512CryptParams.fromStr s = .ok params ∧
      params.rounds.toNat = decimalValue digits := by
  rw [fromStr_roundsField h, atoiU32_eq, if_pos hdigits.1]
  exact new_saturated hdigits.2

theorem fromStr_of_not_isRoundCount {rest : List UInt8} (h : s.bytes = roundsField rest)
    (hrest : ¬ IsRoundCount rest) :
    Sha512CryptParams.fromStr s = .error roundsInvalid := by
  rw [fromStr_roundsField h, atoiU32_eq]
  by_cases hdigits : rest.all isDigit = true
  · rw [if_pos hdigits]
    exact new_saturated_error fun hrange => hrest ⟨hdigits, hrange⟩
  · rw [if_neg hdigits]

theorem fromStr_cases (s : Str) :
    (s.bytes = [] ∧ Sha512CryptParams.fromStr s = .ok .default) ∨
    ((s.bytes ≠ [] ∧ ¬ ∃ rest, s.bytes = roundsField rest) ∧
      Sha512CryptParams.fromStr s = .error .paramsInvalid) ∨
    (∃ digits params, s.bytes = roundsField digits ∧ IsRoundCount digits ∧
      Sha512CryptParams.fromStr s = .ok params ∧ params.rounds.toNat = decimalValue digits) ∨
    (∃ rest, s.bytes = roundsField rest ∧ ¬ IsRoundCount rest ∧
      Sha512CryptParams.fromStr s = .error roundsInvalid) := by
  by_cases hnil : s.bytes = []
  · exact .inl ⟨hnil, fromStr_of_nil hnil⟩
  · by_cases hfront : ∃ rest, s.bytes = roundsField rest
    · obtain ⟨rest, htext⟩ := hfront
      by_cases hrest : IsRoundCount rest
      · obtain ⟨params, hparams⟩ := fromStr_of_isRoundCount htext hrest
        exact .inr (.inr (.inl ⟨rest, params, htext, hrest, hparams⟩))
      · exact .inr (.inr (.inr ⟨rest, htext, hrest, fromStr_of_not_isRoundCount htext hrest⟩))
    · exact .inr (.inl ⟨⟨hnil, hfront⟩, fromStr_of_not_prefix hnil hfront⟩)

theorem fromStr_eq_ok_iff {params : Sha512CryptParams} :
    Sha512CryptParams.fromStr s = .ok params ↔
      (s.bytes = [] ∧ params = .default) ∨
        ∃ digits, s.bytes = roundsField digits ∧ IsRoundCount digits ∧
          params.rounds.toNat = decimalValue digits := by
  constructor
  · intro hok
    rcases fromStr_cases s with ⟨hnil, hread⟩ | ⟨_, hread⟩ |
      ⟨digits, read, htext, hdigits, hread, hvalue⟩ | ⟨_, _, _, hread⟩
    · exact .inl ⟨hnil, Except.ok.inj (hok.symm.trans hread)⟩
    · rw [hread] at hok
      contradiction
    · obtain rfl := Except.ok.inj (hread.symm.trans hok)
      exact .inr ⟨digits, htext, hdigits, hvalue⟩
    · rw [hread] at hok
      contradiction
  · rintro (⟨hnil, rfl⟩ | ⟨digits, htext, hdigits, hvalue⟩)
    · exact fromStr_of_nil hnil
    · obtain ⟨read, hread, hsame⟩ := fromStr_of_isRoundCount htext hdigits
      rw [hread, params_ext (hsame.trans hvalue.symm)]

theorem fromStr_eq_paramsInvalid_iff :
    Sha512CryptParams.fromStr s = .error .paramsInvalid ↔
      s.bytes ≠ [] ∧ ¬ ∃ rest, s.bytes = roundsField rest := by
  constructor
  · intro herror
    rcases fromStr_cases s with ⟨_, hread⟩ | ⟨hform, _⟩ | ⟨_, _, _, _, hread, _⟩ |
      ⟨_, _, _, hread⟩
    · rw [hread] at herror
      contradiction
    · exact hform
    · rw [hread] at herror
      contradiction
    · have hsame := Except.error.inj (hread.symm.trans herror)
      exact absurd hsame roundsInvalid_ne_paramsInvalid
  · rintro ⟨hne, hfront⟩
    exact fromStr_of_not_prefix hne hfront

theorem fromStr_eq_roundsInvalid_iff :
    Sha512CryptParams.fromStr s = .error roundsInvalid ↔
      ∃ rest, s.bytes = roundsField rest ∧ ¬ IsRoundCount rest := by
  constructor
  · intro herror
    rcases fromStr_cases s with ⟨_, hread⟩ | ⟨_, hread⟩ | ⟨_, _, _, _, hread, _⟩ |
      ⟨rest, htext, hrest, _⟩
    · rw [hread] at herror
      contradiction
    · have hsame := Except.error.inj (herror.symm.trans hread)
      exact absurd hsame roundsInvalid_ne_paramsInvalid
    · rw [hread] at herror
      contradiction
    · exact ⟨rest, htext, hrest⟩
  · rintro ⟨rest, htext, hrest⟩
    exact fromStr_of_not_isRoundCount htext hrest

end FromStr

/-- `params.to_string()` -/
def toString (params : Sha512CryptParams) : Str where
  bytes := params.fmt []
  length_le := by
    have hbound := params.rounds_mem_toNat.2
    have hdecimal := decimal_length_le (by omega) (show params.rounds.toNat < 10 ^ 9 by omega)
    simp only [Sha512CryptParams.fmt, List.nil_append, List.length_append,
      sha512RoundsPrefix_length]
    exact Nat.le_trans (Nat.add_le_add_left hdecimal 7) (by decide)
  valid := (isAscii_roundsField (SaltSpec.isDigit_decimal _)).isUtf8

theorem fromStr_toString (params : Sha512CryptParams) :
    Sha512CryptParams.fromStr (toString params) = .ok params :=
  fromStr_eq_ok_iff.mpr
    (.inr ⟨_, rfl, isRoundCount_decimal params, (decimalValue_decimal _).symm⟩)

/-- The three results divide the texts among them, and a text is accepted with
the value of its digits, of whatever length. -/
theorem fromStr_exact :
    (∀ s params, Sha512CryptParams.fromStr s = .ok params ↔
      (s.bytes = [] ∧ params = .default) ∨
        ∃ digits, s.bytes = sha512RoundsPrefix ++ digits ∧ digits.all isDigit = true ∧
          (1000 ≤ decimalValue digits ∧ decimalValue digits ≤ 999999999) ∧
          params.rounds.toNat = decimalValue digits) ∧
    (∀ s, Sha512CryptParams.fromStr s = .error .paramsInvalid ↔
      s.bytes ≠ [] ∧ ¬ ∃ rest, s.bytes = sha512RoundsPrefix ++ rest) ∧
    (∀ s, Sha512CryptParams.fromStr s = .error roundsInvalid ↔
      ∃ rest, s.bytes = sha512RoundsPrefix ++ rest ∧
        ¬ (rest.all isDigit = true ∧ 1000 ≤ decimalValue rest ∧ decimalValue rest ≤ 999999999)) ∧
    ∀ params, Sha512CryptParams.fromStr (toString params) = .ok params := by
  refine ⟨fun s params => ?_, fun s => fromStr_eq_paramsInvalid_iff, fun s =>
    fromStr_eq_roundsInvalid_iff, fromStr_toString⟩
  rw [fromStr_eq_ok_iff]
  simp only [IsRoundCount, roundsField, and_assoc]

end CryptSha512.ParamsText
