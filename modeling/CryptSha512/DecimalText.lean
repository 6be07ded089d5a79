import Mathlib.Data.Nat.Digits.Lemmas
import Mathlib.Tactic.Common

namespace CryptSha512.DecimalText

def digitByte (digit : Nat) : UInt8 := UInt8.ofNat (48 + digit)

/-- `u8::is_ascii_digit` -/
def isDigit (byte : UInt8) : Bool := decide (48 ≤ byte) && decide (byte ≤ 57)

/-- The significant decimal digits of `value`, most significant first. Zero has
none. -/
def significantDigits (value : Nat) : List UInt8 :=
  ((Nat.digits 10 value).map digitByte).reverse

/-- The canonical decimal numeral, without leading zeros. -/
def decimal (value : Nat) : List UInt8 :=
  if value = 0 then [digitByte 0] else significantDigits value

/-- The value of a digit string of any length, leading zeros allowed. -/
def decimalValue (text : List UInt8) : Nat :=
  text.foldl (fun value byte => value * 10 + (byte.toNat - 48)) 0

theorem digitByte_toNat {digit : Nat} (h : digit < 10) :
    (digitByte digit).toNat = 48 + digit := by
  simp only [digitByte, UInt8.toNat_ofNat']
  omega

theorem isDigit_iff {byte : UInt8} :
    isDigit byte = true ↔ 48 ≤ byte.toNat ∧ byte.toNat ≤ 57 := by
  simp [isDigit, UInt8.le_iff_toNat_le]

theorem isDigit_digitByte {digit : Nat} (h : digit < 10) :
    isDigit (digitByte digit) = true := by
  rw [isDigit_iff, digitByte_toNat h]
  omega

@[simp] theorem significantDigits_zero : significantDigits 0 = [] := by
  simp [significantDigits]

theorem significantDigits_of_pos {value : Nat} (h : 0 < value) :
    significantDigits value =
      significantDigits (value / 10) ++ [digitByte (value % 10)] := by
  simp [significantDigits, Nat.digits_def' (by omega : 1 < 10) h]

theorem isDigit_of_mem_significantDigits {value : Nat} {byte : UInt8}
    (h : byte ∈ significantDigits value) : isDigit byte = true := by
  simp only [significantDigits, List.mem_reverse, List.mem_map] at h
  obtain ⟨digit, hdigit, rfl⟩ := h
  exact isDigit_digitByte (Nat.digits_lt_base (by omega) hdigit)

theorem isDigit_of_mem_decimal {value : Nat} {byte : UInt8}
    (h : byte ∈ decimal value) : isDigit byte = true := by
  rw [decimal] at h
  split at h
  · rw [List.mem_singleton.mp h]
    exact isDigit_digitByte (by omega)
  · exact isDigit_of_mem_significantDigits h

theorem decimal_ne_nil (value : Nat) : decimal value ≠ [] := by
  rw [decimal]
  split
  · simp
  · rename_i hvalue
    rw [significantDigits_of_pos (by omega)]
    simp

theorem significantDigits_length_le {value bound : Nat} (h : value < 10 ^ bound) :
    (significantDigits value).length ≤ bound := by
  simpa [significantDigits] using (Nat.digits_length_le_iff (by omega) value).mpr h

theorem lt_significantDigits_length {value bound : Nat} (h : 10 ^ bound ≤ value) :
    bound < (significantDigits value).length := by
  by_contra hshort
  have hlength : (Nat.digits 10 value).length ≤ bound := by
    simpa [significantDigits] using Nat.le_of_not_lt hshort
  have hlt := (Nat.digits_length_le_iff (by omega) value).mp hlength
  omega

theorem decimal_length_le {value bound : Nat} (hbound : 0 < bound)
    (h : value < 10 ^ bound) : (decimal value).length ≤ bound := by
  rw [decimal]
  split
  · simpa using Nat.succ_le_of_lt hbound
  · exact significantDigits_length_le h

theorem decimalValue_append_singleton (text : List UInt8) (byte : UInt8) :
    decimalValue (text ++ [byte]) = decimalValue text * 10 + (byte.toNat - 48) := by
  simp [decimalValue, List.foldl_append]

theorem decimalValue_significantDigits (value : Nat) :
    decimalValue (significantDigits value) = value := by
  induction value using Nat.strong_induction_on with
  | _ value ih =>
      rcases Nat.eq_zero_or_pos value with rfl | hvalue
      · rw [significantDigits_zero]
        rfl
      · rw [significantDigits_of_pos (by omega), decimalValue_append_singleton,
          ih (value / 10) (by omega), digitByte_toNat (Nat.mod_lt _ (by omega))]
        omega

theorem decimalValue_decimal (value : Nat) : decimalValue (decimal value) = value := by
  rw [decimal]
  split
  · rename_i hvalue
    subst hvalue
    rfl
  · exact decimalValue_significantDigits value

theorem saturating_step (limit value digit : Nat) :
    min (min (min value limit * 10) limit + digit) limit =
      min (value * 10 + digit) limit := by
  omega

end CryptSha512.DecimalText
