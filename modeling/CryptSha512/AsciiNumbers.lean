import CryptSha512.CheckedExecution
import CryptSha512.DecimalText

namespace CryptSha512.AsciiNumbers

open CryptSha512.CheckedExecution
open CryptSha512.DecimalText

/-- The separator of the fields of a hash. -/
def dollar : UInt8 := '$'.toUInt8

def sha512SaltPrefix : List UInt8 := ['$', '6', '$'].map Char.toUInt8

def sha512RoundsPrefix : List UInt8 :=
  ['r', 'o', 'u', 'n', 'd', 's', '='].map Char.toUInt8

theorem sha512SaltPrefix_length : sha512SaltPrefix.length = 3 := rfl

theorem sha512RoundsPrefix_length : sha512RoundsPrefix.length = 7 := rfl

def saltLenMax : Nat := 16

/-- The work factor where no parameter is given. It is never written. -/
def roundsDefault : UInt32 := 5000

def roundsMin : UInt32 := 1000

def roundsMax : UInt32 := 999999999

/-- The number of characters of an encoded digest. -/
def sha512HashEncodedLength : Nat := 86

def u32Max : Nat := 2 ^ 32 - 1

/-- `u32::saturating_mul` -/
def saturatingMul (a b : UInt32) : UInt32 := UInt32.ofNat (min (a.toNat * b.toNat) u32Max)

/-- `u32::saturating_add` -/
def saturatingAdd (a b : UInt32) : UInt32 := UInt32.ofNat (min (a.toNat + b.toNat) u32Max)

/-- `Ord::clamp`, for `low` at most `high`. -/
def clamp (value low high : UInt32) : UInt32 :=
  if value < low then low else if high < value then high else value

/-- One iteration of `atoi_u32`. The subtraction `b.wrapping_sub(b'0')` wraps,
so that every byte below `'0'` becomes a large one. -/
def atoiDigit (out : UInt32) (b : UInt8) : Option UInt32 :=
  let d := b - '0'.toUInt8
  if d < 10 then some (saturatingAdd (saturatingMul out 10) d.toUInt32) else none

/-- `atoi_u32`. One byte that is no digit rejects the whole text. -/
def atoiU32 (ascii : List UInt8) : Option UInt32 := ascii.foldlM atoiDigit 0

/-- The variables of the loop in `push_u32_as_ascii`. -/
structure DigitBuffer where
  value : UInt32
  digits : List UInt8
  idx : Nat

/-- One iteration of that loop. The index is decremented behind every digit,
also behind the one that fills the buffer. -/
def pushDigit (profile : Profile) (state : DigitBuffer) : Exec DigitBuffer := do
  let digits ← setAt state.digits state.idx ((state.value % 10).toUInt8 ||| '0'.toUInt8)
  let idx ← usizeSub profile state.idx 1
  pure ⟨state.value / 10, digits, idx⟩

/-- `push_u32_as_ascii`. The digits are written from the end of the buffer. -/
def pushU32AsAscii (profile : Profile) (value : UInt32) (output : List UInt8) :
    Exec (List UInt8) :=
  if value = 0 then pure (output ++ ['0'.toUInt8])
  else do
    let digits := List.replicate 10 0
    let idx ← usizeSub profile digits.length 1
    -- a `u32` shrinks in each iteration, so its value bounds their number
    let state ← whileLoop (fun state => decide (0 < state.value)) (pushDigit profile)
      value.toNat ⟨value, digits, idx⟩
    let start ← usizeAdd profile state.idx 1
    let tail ← sliceFrom state.digits start
    pure (output ++ tail)

/-- Buffer size for everything before the encoded digest. -/
def saltSpecOutputSize (profile : Profile) (saltLen : Nat) (roundsCustom : Bool) :
    Exec Nat := do
  let size ← usizeAdd profile sha512SaltPrefix.length saltLen
  let size ← usizeAdd profile size 1
  if roundsCustom then do
    let extra ← usizeAdd profile sha512RoundsPrefix.length 9
    let extra ← usizeAdd profile extra 1
    usizeAdd profile size extra
  else pure size

theorem clamp_toNat {value low high : UInt32} (h : low ≤ high) :
    (clamp value low high).toNat = max low.toNat (min value.toNat high.toNat) := by
  have hle : low.toNat ≤ high.toNat := UInt32.le_iff_toNat_le.mp h
  simp only [clamp, UInt32.lt_iff_toNat_lt]
  split
  · omega
  · split <;> omega

theorem u32_ofNat_min_toNat (value : Nat) :
    (UInt32.ofNat (min value u32Max)).toNat = min value u32Max := by
  rw [UInt32.toNat_ofNat']
  have hle : min value u32Max ≤ u32Max := Nat.min_le_right _ _
  simp only [u32Max] at hle ⊢
  omega

theorem atoiDigit_of_isDigit {b : UInt8} (out : UInt32) (h : isDigit b = true) :
    atoiDigit out b =
      some (UInt32.ofNat
        (min (min (out.toNat * 10) u32Max + (b.toNat - 48)) u32Max)) := by
  rw [isDigit_iff] at h
  have hdigit : (b - '0'.toUInt8).toNat = b.toNat - 48 := by
    rw [UInt8.toNat_sub_of_le]
    · rfl
    · exact UInt8.le_iff_toNat_le.mpr h.1
  have hlt : b - '0'.toUInt8 < 10 := by
    rw [UInt8.lt_iff_toNat_lt, hdigit]
    change b.toNat - 48 < 10
    omega
  simp only [atoiDigit, hlt, if_true, saturatingAdd, saturatingMul, u32_ofNat_min_toNat,
    UInt8.toNat_toUInt32, hdigit]
  rfl

theorem atoiDigit_of_not_isDigit {b : UInt8} (out : UInt32) (h : isDigit b = false) :
    atoiDigit out b = none := by
  have hlarge : ¬ (48 ≤ b.toNat ∧ b.toNat ≤ 57) := by
    rw [← isDigit_iff, h]
    simp
  have hge : ¬ b - '0'.toUInt8 < 10 := by
    rw [UInt8.lt_iff_toNat_lt, UInt8.toNat_sub]
    change ¬ (2 ^ 8 - 48 + b.toNat) % 2 ^ 8 < 10
    have := b.toNat_lt
    omega
  simp [atoiDigit, hge]

theorem atoiU32_append_singleton (text : List UInt8) (b : UInt8) :
    atoiU32 (text ++ [b]) = (atoiU32 text).bind fun out => atoiDigit out b := by
  simp only [atoiU32, List.foldlM_append]
  cases h : List.foldlM atoiDigit 0 text <;> simp

theorem atoiU32_eq (text : List UInt8) :
    atoiU32 text =
      if text.all isDigit then some (UInt32.ofNat (min (decimalValue text) u32Max))
      else none := by
  induction text using List.reverseRecOn with
  | nil => rfl
  | append_singleton text b ih =>
      have hall : (text ++ [b]).all isDigit = (text.all isDigit && isDigit b) := by simp
      rw [atoiU32_append_singleton, ih, hall]
      cases text.all isDigit with
      | false => rfl
      | true =>
          cases hb : isDigit b with
          | false => exact atoiDigit_of_not_isDigit _ hb
          | true =>
              rw [if_pos rfl, Option.bind_some, atoiDigit_of_isDigit _ hb, u32_ofNat_min_toNat,
                saturating_step, decimalValue_append_singleton]
              rfl

/-- Room for the prefix, the salt and its separator, and for nine digits in a
rounds segment. -/
def specCapacity (saltLen : Nat) (roundsCustom : Bool) : Nat :=
  4 + saltLen + if roundsCustom then 17 else 0

theorem saltSpecOutputSize_eq (profile : Profile) {saltLen : Nat} (h : saltLen ≤ saltLenMax)
    (roundsCustom : Bool) :
    saltSpecOutputSize profile saltLen roundsCustom = .ok (specCapacity saltLen roundsCustom) := by
  have hadd : ∀ a b, a + b ≤ 64 → usizeAdd profile a b = .ok (a + b) :=
    fun a b hle => usizeAdd_of_lt profile (by omega)
  simp only [saltLenMax] at h
  simp only [saltSpecOutputSize, sha512SaltPrefix_length, sha512RoundsPrefix_length, specCapacity]
  rw [hadd 3 saltLen (by omega), ok_bind, hadd (3 + saltLen) 1 (by omega), ok_bind]
  cases roundsCustom with
  | false =>
      have hsum : 3 + saltLen + 1 = 4 + saltLen + 0 := by omega
      simp [hsum]
  | true =>
      have hsum : 3 + saltLen + 1 + 17 = 4 + saltLen + 17 := by omega
      simp [hadd, hadd (3 + saltLen + 1) 17 (by omega), hsum]

theorem saltSpecOutputSize_ok (profile : Profile) {saltLen : Nat} (h : saltLen ≤ saltLenMax)
    (roundsCustom : Bool) :
    ∃ size, saltSpecOutputSize profile saltLen roundsCustom = .ok size ∧ size ≤ 37 := by
  refine ⟨_, saltSpecOutputSize_eq profile h roundsCustom, ?_⟩
  simp only [saltLenMax] at h
  rw [specCapacity]
  split <;> omega

/-- The loop invariant of the printer. The `written` digits stand at the end of
the buffer, in front of `state.idx`, which has wrapped around if the buffer is
full; `room` bounds the number of digits altogether. -/
structure Printed (profile : Profile) (room value : Nat) (state : DigitBuffer)
    (written : List UInt8) : Prop where
  digits_eq : significantDigits value = significantDigits state.value.toNat ++ written
  value_lt : state.value.toNat < 10 ^ (room - written.length)
  length_le : written.length ≤ room
  buffer_eq : state.digits = List.replicate (10 - written.length) 0 ++ written
  idx_eq : (written.length < 10 ∧ state.idx = 9 - written.length) ∨
    (written.length = 10 ∧ state.idx = usizeModulus - 1 ∧ profile = .release)

theorem digitByte_eq_or (value : UInt32) :
    (value % 10).toUInt8 ||| '0'.toUInt8 = digitByte (value.toNat % 10) := by
  have htable : ∀ digit < 10, UInt8.ofNat digit ||| '0'.toUInt8 = digitByte digit := by
    decide
  have hmod : (value % 10).toUInt8 = UInt8.ofNat (value.toNat % 10) := by
    apply UInt8.toNat_inj.mp
    rw [UInt32.toNat_toUInt8, UInt32.toNat_mod, UInt8.toNat_ofNat']
    rfl
  rw [hmod]
  exact htable _ (Nat.mod_lt _ (by omega))

section Printed

variable {profile : Profile} {room value : Nat} {state : DigitBuffer} {written : List UInt8}

theorem Printed.start {value : UInt32} (hvalue : value.toNat < 10 ^ room) :
    Printed profile room value.toNat ⟨value, List.replicate 10 0, 9⟩ [] :=
  ⟨by simp, by simpa using hvalue, by simp, by simp, by simp⟩

theorem Printed.length_lt_room (h : Printed profile room value state written)
    (hpos : 0 < state.value.toNat) : written.length < room := by
  have hlt := h.value_lt
  by_contra hfull
  rw [show room - written.length = 0 by omega] at hlt
  omega

theorem Printed.idx_eq_of_lt (h : Printed profile room value state written)
    (hspace : written.length < 10) : state.idx = 9 - written.length := by
  rcases h.idx_eq with ⟨_, hidx⟩ | ⟨hlength, _⟩
  · exact hidx
  · omega

theorem Printed.setAt_digits (h : Printed profile room value state written)
    (hspace : written.length < 10) (byte : UInt8) :
    setAt state.digits state.idx byte =
      .ok (List.replicate (9 - written.length) 0 ++ byte :: written) := by
  have hidx := h.idx_eq_of_lt hspace
  have hreplicate : List.replicate (10 - written.length) (0 : UInt8) =
      List.replicate (9 - written.length) 0 ++ [0] := by
    rw [← List.replicate_succ']
    congr 1
    omega
  rw [setAt_of_lt _ (by rw [h.buffer_eq, hidx]; simp; omega), h.buffer_eq, hidx,
    hreplicate, List.append_assoc, List.set_append_right _ _ (by simp)]
  simp

theorem Printed.usizeSub_idx (h : Printed profile room value state written)
    (hspace : written.length < 10) (hlast : written.length = 9 → profile = .release) :
    ∃ idx, usizeSub profile state.idx 1 = .ok idx ∧
      ((written.length + 1 < 10 ∧ idx = 9 - (written.length + 1)) ∨
        (written.length + 1 = 10 ∧ idx = usizeModulus - 1 ∧ profile = .release)) := by
  have hidx := h.idx_eq_of_lt hspace
  rcases Nat.eq_or_lt_of_le (show written.length ≤ 9 by omega) with hnine | hless
  · -- only the digit that fills the buffer moves the index below zero
    have hrelease := hlast hnine
    refine ⟨usizeModulus - 1, ?_, .inr ⟨by omega, rfl, hrelease⟩⟩
    rw [hrelease, hidx, hnine, usizeSub_release_of_lt (by omega)]
    rfl
  · exact ⟨state.idx - 1, usizeSub_of_le profile (by omega), .inl ⟨by omega, by omega⟩⟩

theorem Printed.pushDigit_ok (h : Printed profile room value state written)
    (hroom : room ≤ 10) (hlast : written.length = 9 → profile = .release)
    (hpos : 0 < state.value.toNat) :
    ∃ next, pushDigit profile state = .ok next ∧
      Printed profile room value next (digitByte (state.value.toNat % 10) :: written) ∧
      next.value.toNat < state.value.toNat := by
  have hless := h.length_lt_room hpos
  have hspace : written.length < 10 := by omega
  have hdiv : (state.value / 10).toNat = state.value.toNat / 10 := by
    rw [UInt32.toNat_div]
    rfl
  obtain ⟨idx, hsub, hnext⟩ := h.usizeSub_idx hspace hlast
  refine ⟨⟨state.value / 10, List.replicate (9 - written.length) 0 ++
    digitByte (state.value.toNat % 10) :: written, idx⟩, ?_, ⟨?_, ?_, hless, ?_, hnext⟩, ?_⟩
  · simp only [pushDigit, digitByte_eq_or, h.setAt_digits hspace, hsub, ok_bind, pure_eq_ok]
  · rw [h.digits_eq, significantDigits_of_pos hpos, hdiv, List.append_assoc,
      List.singleton_append]
  · simp only [hdiv, List.length_cons]
    have hlt := h.value_lt
    rw [show room - written.length = room - (written.length + 1) + 1 by omega,
      Nat.pow_succ'] at hlt
    exact Nat.div_lt_of_lt_mul hlt
  · simp only [List.length_cons]
    rw [show 10 - (written.length + 1) = 9 - written.length by omega]
  · rw [hdiv]
    omega

theorem pushDigit_printed (hroom : room ≤ 9 ∨ (room = 10 ∧ profile = .release))
    (h : Printed profile room value state written) (hpos : 0 < state.value.toNat) :
    ∃ next, pushDigit profile state = .ok next ∧
      Printed profile room value next (digitByte (state.value.toNat % 10) :: written) ∧
      next.value.toNat < state.value.toNat := by
  have hless := h.length_lt_room hpos
  exact h.pushDigit_ok (by omega) (fun hnine => (hroom.resolve_left (by omega)).2) hpos

theorem Printed.written_eq (h : Printed profile room value state written)
    (hvalue : value ≠ 0) (hdone : state.value.toNat = 0) : written = decimal value := by
  have hdigits := h.digits_eq
  rw [hdone, significantDigits_zero, List.nil_append] at hdigits
  rw [decimal, if_neg hvalue, hdigits]

theorem Printed.sliceFrom_digits (h : Printed profile room value state written) :
    usizeAdd profile state.idx 1 = .ok (10 - written.length) ∧
      sliceFrom state.digits (10 - written.length) = .ok written := by
  constructor
  · rcases h.idx_eq with ⟨hlength, hidx⟩ | ⟨hlength, hidx, hrelease⟩
    · rw [hidx, usizeAdd_of_lt profile (by omega)]
      congr 1
      omega
    · rw [hidx, hlength, hrelease]
      rfl
  · have happend := sliceFrom_append (List.replicate (10 - written.length) (0 : UInt8)) written
    rw [List.length_replicate] at happend
    rw [h.buffer_eq, happend]

end Printed

theorem pushDigits_printed {profile : Profile} {room : Nat} {value : UInt32}
    (hroom : room ≤ 9 ∨ (room = 10 ∧ profile = .release)) (hvalue : value.toNat < 10 ^ room) :
    ∃ final written,
      whileLoop (fun state => decide (0 < state.value)) (pushDigit profile) value.toNat
        ⟨value, List.replicate 10 0, 9⟩ = .ok final ∧
      Printed profile room value.toNat final written ∧ final.value.toNat = 0 := by
  have hbody : ∀ state, (∃ written, Printed profile room value.toNat state written) →
      decide (0 < state.value) = true →
      ∃ next, pushDigit profile state = .ok next ∧
        (∃ written, Printed profile room value.toNat next written) ∧
        next.value.toNat < state.value.toNat := by
    rintro state ⟨written, hstate⟩ hcondition
    have hpos : 0 < state.value.toNat :=
      UInt32.lt_iff_toNat_lt.mp (of_decide_eq_true hcondition)
    obtain ⟨next, hstep, hnext, hless⟩ := pushDigit_printed hroom hstate hpos
    exact ⟨next, hstep, ⟨_, hnext⟩, hless⟩
  obtain ⟨final, hrun, ⟨written, hwritten⟩, hexit⟩ :=
    whileLoop_total _ (fun state : DigitBuffer => state.value.toNat) hbody
      value.toNat ⟨value, List.replicate 10 0, 9⟩ ⟨[], .start hvalue⟩ le_rfl
  refine ⟨final, written, hrun, hwritten, ?_⟩
  simpa [UInt32.lt_iff_toNat_lt] using hexit

/-- The printer appends the canonical numeral, for every value in a release
build and for values of at most nine digits in any build. -/
theorem pushU32AsAscii_eq {profile : Profile} {value : UInt32}
    (h : value.toNat < 10 ^ 9 ∨ profile = .release) (output : List UInt8) :
    pushU32AsAscii profile value output = .ok (output ++ decimal value.toNat) := by
  rcases eq_or_ne value 0 with rfl | hzero
  · rfl
  · have hvalue : value.toNat ≠ 0 := by
      intro heq
      exact hzero (UInt32.toNat_inj.mp heq)
    obtain ⟨room, hroom, hbound⟩ : ∃ room,
        (room ≤ 9 ∨ (room = 10 ∧ profile = .release)) ∧ value.toNat < 10 ^ room := by
      rcases h with hsmall | hrelease
      · exact ⟨9, .inl le_rfl, hsmall⟩
      · have hlt := value.toNat_lt
        exact ⟨10, .inr ⟨rfl, hrelease⟩, by omega⟩
    have hidx : usizeSub profile 10 1 = .ok 9 := usizeSub_of_le profile (by omega)
    obtain ⟨final, written, hrun, hwritten, hdone⟩ := pushDigits_printed hroom hbound
    obtain ⟨hadd, htail⟩ := hwritten.sliceFrom_digits
    rw [← hwritten.written_eq hvalue hdone]
    simp only [pushU32AsAscii, if_neg hzero, List.length_replicate, hidx, ok_bind, hrun, hadd,
      htail, pure_eq_ok]

section Underflow

variable {room value : Nat} {state : DigitBuffer} {written : List UInt8}

theorem Printed.length_lt_of_debug (h : Printed .debug room value state written) :
    written.length < 10 := by
  rcases h.idx_eq with ⟨hspace, _⟩ | ⟨_, _, hrelease⟩
  · exact hspace
  · contradiction

theorem Printed.pushDigit_underflow (h : Printed .debug room value state written)
    (hnine : written.length = 9) :
    pushDigit .debug state = .error .arithmeticOverflow := by
  have hspace := h.length_lt_of_debug
  have hidx : state.idx = 0 := by
    rw [h.idx_eq_of_lt hspace, hnine]
  have hsub : usizeSub .debug state.idx 1 = .error .arithmeticOverflow :=
    usizeSub_debug_of_lt (by omega)
  simp only [pushDigit, h.setAt_digits hspace, ok_bind, hsub, error_bind]

theorem Printed.value_pos (h : Printed .debug room value state written)
    (hvalue : 10 ^ 9 ≤ value) : 0 < state.value.toNat := by
  apply Nat.pos_of_ne_zero
  intro hzero
  have hdigits := congrArg List.length h.digits_eq
  rw [hzero, significantDigits_zero, List.nil_append] at hdigits
  have hlong := lt_significantDigits_length hvalue
  have hspace := h.length_lt_of_debug
  omega

end Underflow

theorem pushU32AsAscii_underflow {value : UInt32} (h : 10 ^ 9 ≤ value.toNat)
    (output : List UInt8) :
    pushU32AsAscii .debug value output = .error .arithmeticOverflow := by
  have hzero : value ≠ 0 := by
    rintro rfl
    contradiction
  have hlt := value.toNat_lt
  have hvalue : value.toNat < 10 ^ 10 := by omega
  have hidx : usizeSub .debug 10 1 = .ok 9 := usizeSub_of_le .debug (by omega)
  have hcondition : ∀ state, (∃ written, Printed .debug 10 value.toNat state written) →
      decide (0 < state.value) = true := by
    rintro state ⟨written, hstate⟩
    exact decide_eq_true (UInt32.lt_iff_toNat_lt.mpr (hstate.value_pos h))
  have hbody : ∀ state, (∃ written, Printed .debug 10 value.toNat state written) →
      pushDigit .debug state = .error .arithmeticOverflow ∨
        ∃ next, pushDigit .debug state = .ok next ∧
          (∃ written, Printed .debug 10 value.toNat next written) ∧ next.idx < state.idx := by
    rintro state ⟨written, hstate⟩
    have hspace := hstate.length_lt_of_debug
    rcases Nat.eq_or_lt_of_le (Nat.le_of_lt_succ hspace) with hnine | hless
    · -- behind nine digits there is something left to print, and no index left
      exact .inl (hstate.pushDigit_underflow hnine)
    · obtain ⟨next, hstep, hnext, _⟩ :=
        hstate.pushDigit_ok le_rfl (by omega) (hstate.value_pos h)
      refine .inr ⟨next, hstep, ⟨_, hnext⟩, ?_⟩
      rw [hstate.idx_eq_of_lt hspace, hnext.idx_eq_of_lt hnext.length_lt_of_debug,
        List.length_cons]
      omega
  have hrun := whileLoop_faults _ DigitBuffer.idx .arithmeticOverflow hcondition hbody
    value.toNat ⟨value, List.replicate 10 0, 9⟩ ⟨[], .start hvalue⟩ (by simp only; omega)
  simp only [pushU32AsAscii, if_neg hzero, List.length_replicate, hidx, ok_bind, hrun,
    error_bind]

end CryptSha512.AsciiNumbers
