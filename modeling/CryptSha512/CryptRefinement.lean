import CryptSha512.CryptInner
import CryptSha512.DigestComputation
import CryptSha512.SaltSpecGrammar

namespace CryptSha512.CryptRefinement

open CryptSha512.AsciiNumbers
open CryptSha512.CheckedExecution
open CryptSha512.CryptBase64
open CryptSha512.CryptInner
open CryptSha512.CryptoBackend
open CryptSha512.DecimalText
open CryptSha512.DelimitedText
open CryptSha512.DigestComputation
open CryptSha512.SaltSpecGrammar
open CryptSha512.ShaCryptDefinition

/-- The settings the code keeps for a denotation. -/
def settingsOf (spec : SaltSpec) : Settings :=
  ⟨spec.salt, UInt32.ofNat spec.effectiveRounds, spec.rounds.isSome⟩

/-- The text of the hash for a specification, without the code. -/
def hashText (H : List UInt8 → Vector UInt8 64) (password : List UInt8)
    (spec : SaltSpec) : List UInt8 :=
  spec.render ++ dollar :: digestText (shaCrypt H password spec.salt spec.effectiveRounds)

theorem toNat_effectiveRounds (spec : SaltSpec) :
    (UInt32.ofNat spec.effectiveRounds).toNat = spec.effectiveRounds := by
  rw [UInt32.toNat_ofNat']
  exact Nat.mod_eq_of_lt (Nat.lt_of_le_of_lt spec.effectiveRounds_mem.2 (by decide))

theorem clamp_saturated (n : Nat) :
    clamp (UInt32.ofNat (min n u32Max)) roundsMin roundsMax = UInt32.ofNat (clampRounds n) := by
  have hmin : roundsMin.toNat = 1000 := rfl
  have hmax : roundsMax.toNat = 999999999 := rfl
  apply UInt32.toNat_inj.mp
  rw [clamp_toNat (by decide), u32_ofNat_min_toNat, hmin, hmax, UInt32.toNat_ofNat',
    clampRounds, u32Max]
  omega

theorem dropSaltPrefix_eq (text : List UInt8) :
    dropSaltPrefix text = .ok (withoutPrefix text) := by
  rw [dropSaltPrefix, withoutPrefix, stripPrefix]
  split
  · rename_i hfront
    exact sliceFrom_of_le (List.isPrefixOf_iff_prefix.mp hfront).length_le
  · rfl

theorem cutSalt_eq (text : List UInt8) : cutSalt text = .ok (effectiveSalt text) := by
  have hle := position_getD_le_length dollar text
  rw [cutSalt, sliceTo_of_le (Nat.le_trans (Nat.min_le_left _ _) hle), Nat.min_comm,
    ← List.take_take, take_position_eq_untilSeparator]
  rfl

theorem parseRounds_of_startsWithRounds (profile : Profile) {text digits rest : List UInt8}
    (hlength : text.length ≤ isizeMax) (h : StartsWithRounds text digits rest) :
    parseRounds profile text =
      .ok ⟨rest, UInt32.ofNat (clampRounds (decimalValue digits)), true⟩ := by
  obtain ⟨rfl, hdigits⟩ := h
  rw [roundsField, List.append_assoc] at hlength ⊢
  have hfront : sha512RoundsPrefix.isPrefixOf
      (sha512RoundsPrefix ++ (digits ++ dollar :: rest)) = true :=
    List.isPrefixOf_iff_prefix.mpr (List.prefix_append _ _)
  have hdollar : position dollar (digits ++ dollar :: rest) = some digits.length :=
    position_append_cons rest (dollar_not_mem_digits hdigits)
  have hparse : atoiU32 digits = some (UInt32.ofNat (min (decimalValue digits) u32Max)) := by
    rw [atoiU32_eq, if_pos hdigits]
  have hstart : usizeAdd profile digits.length 1 = .ok (digits.length + 1) := by
    have hlt := lt_of_le_isizeMax hlength
    simp only [List.length_append, List.length_cons] at hlt
    exact usizeAdd_of_lt profile (by omega)
  have hrest : sliceFrom (digits ++ dollar :: rest) (digits.length + 1) = .ok rest := by
    have hcut := sliceFrom_append (digits ++ [dollar]) rest
    rwa [List.length_append, List.length_singleton, List.append_assoc] at hcut
  simp only [parseRounds, hfront, if_true, sliceFrom_append, ok_bind, hdollar, sliceTo_append,
    hparse, hstart, hrest, clamp_saturated, pure_eq_ok]

theorem parseRounds_of_not_startsWithRounds (profile : Profile) {text : List UInt8}
    (h : ∀ digits rest, ¬ StartsWithRounds text digits rest) :
    parseRounds profile text = .ok ⟨text, roundsDefault, false⟩ := by
  rw [parseRounds]
  split
  · rename_i hfront
    obtain ⟨tail, rfl⟩ := List.isPrefixOf_iff_prefix.mp hfront
    rw [sliceFrom_append, ok_bind]
    -- no separator, or one behind a text that is no numeral
    rcases Decidable.em (dollar ∈ tail) with hmem | hmem
    · obtain ⟨digits, rest, rfl, hdigits⟩ := List.eq_append_cons_of_mem hmem
      have hnotDigits : ¬ digits.all isDigit = true := by
        intro hall
        refine h digits rest ⟨?_, hall⟩
        rw [roundsField, List.append_assoc]
      rw [position_append_cons rest hdigits]
      simp only [sliceTo_append, ok_bind, atoiU32_eq, if_neg hnotDigits, pure_eq_ok]
    · rw [position_eq_none_iff.mpr hmem]
      rfl
  · rfl

theorem parseSettings_eq (profile : Profile) {text : List UInt8}
    (hlength : text.length ≤ isizeMax) :
    parseSettings profile text = .ok (settingsOf (SaltSpec.denote text)) := by
  have hwithout : (withoutPrefix text).length ≤ isizeMax := by
    rw [withoutPrefix, stripPrefix]
    split
    · exact Nat.le_trans (by simp) hlength
    · exact hlength
  rw [parseSettings, dropSaltPrefix_eq, ok_bind]
  cases hsplit : splitRounds (withoutPrefix text) with
  | some parts =>
      have hstarts := startsWithRounds_iff.mpr hsplit
      rw [parseRounds_of_startsWithRounds profile hwithout hstarts, ok_bind, cutSalt_eq,
        SaltSpec.denote_of_startsWithRounds hstarts]
      rfl
  | none =>
      have hnot := splitRounds_eq_none_iff.mp hsplit
      rw [parseRounds_of_not_startsWithRounds profile hnot, ok_bind, cutSalt_eq,
        SaltSpec.denote_of_not_startsWithRounds hnot]
      rfl

theorem pushRounds_eq (profile : Profile) (spec : SaltSpec) (output : List UInt8) :
    pushRounds profile spec.rounds.isSome (UInt32.ofNat spec.effectiveRounds) output =
      .ok (output ++ spec.roundsSegment) := by
  have hvalue := toNat_effectiveRounds spec
  rw [pushRounds, SaltSpec.roundsSegment]
  cases hrounds : spec.rounds with
  | none => simp
  | some n =>
      have heffective : spec.effectiveRounds = n := by
        rw [SaltSpec.effectiveRounds, hrounds, Option.getD_some]
      rw [heffective] at hvalue ⊢
      have hsmall : (UInt32.ofNat n).toNat < 10 ^ 9 := by
        rw [hvalue]
        exact Nat.lt_of_le_of_lt (spec.rounds_mem n hrounds).2 (by decide)
      simp only [Option.isSome_some, if_true, pushU32AsAscii_eq (.inl hsmall), hvalue,
        ok_bind, pure_eq_ok, roundsField, List.append_assoc]

theorem constructOutput_eq (profile : Profile) (spec : SaltSpec) (result : Vector UInt8 64) :
    constructOutput profile (settingsOf spec) result =
      .ok (spec.render ++ dollar :: digestText result) := by
  obtain ⟨size, hsize, hle⟩ := saltSpecOutputSize_ok profile spec.salt_length_le
    spec.rounds.isSome
  have houtput : usizeAdd profile size sha512HashEncodedLength =
      .ok (size + sha512HashEncodedLength) := by
    apply usizeAdd_of_lt
    rw [sha512HashEncodedLength]
    omega
  simp only [constructOutput, settingsOf, hsize, ok_bind, houtput, pushRounds_eq,
    encodeResult_eq, pure_eq_ok, SaltSpec.render, List.append_assoc, List.singleton_append]

section Hashing

variable (profile : Profile) (B : Backend)

theorem cryptInnerWith_eq (zero : Overwrite) (key : List UInt8) {text : List UInt8}
    (hlength : text.length ≤ isizeMax) :
    cryptInnerWith profile B zero key text =
      .ok (hashText B.sha512 key (SaltSpec.denote text),
        (digestBuffers B.sha512 key (SaltSpec.denote text).salt
          (SaltSpec.denote text).effectiveRounds).clearSensitive zero) := by
  rw [cryptInnerWith, parseSettings_eq profile hlength, ok_bind, computeDigest_eq, ok_bind]
  simp only [settingsOf, toNat_effectiveRounds]
  have houtput := constructOutput_eq profile (SaltSpec.denote text)
    (shaCrypt B.sha512 key (SaltSpec.denote text).salt (SaltSpec.denote text).effectiveRounds)
  simp only [settingsOf] at houtput
  rw [digestBuffers, houtput]
  rfl

theorem cryptInner_eq (key : List UInt8) {text : List UInt8}
    (hlength : text.length ≤ isizeMax) :
    cryptInner profile B key text =
      .ok (hashText B.sha512 key (SaltSpec.denote text),
        (digestBuffers B.sha512 key (SaltSpec.denote text).salt
          (SaltSpec.denote text).effectiveRounds).clearSensitive zeroing) :=
  cryptInnerWith_eq profile B zeroing key hlength

theorem hashWithSaltReturnedWith_eq (zero : Overwrite) (password : Password) {text : List UInt8}
    (hlength : text.length ≤ isizeMax) :
    hashWithSaltReturnedWith profile B zero password text =
      .ok ⟨hashText B.sha512 password.bytes (SaltSpec.denote text), zero.write password.bytes,
        (digestBuffers B.sha512 password.bytes (SaltSpec.denote text).salt
          (SaltSpec.denote text).effectiveRounds).clearSensitive zero⟩ := by
  rw [hashWithSaltReturnedWith, cryptInnerWith_eq profile B zero _ hlength]
  rfl

theorem hashWithSalt_eq (password : Password) {text : List UInt8}
    (hlength : text.length ≤ isizeMax) :
    hashWithSalt profile B password text =
      .ok (hashText B.sha512 password.bytes (SaltSpec.denote text)) := by
  rw [hashWithSalt, hashWithSaltReturned,
    hashWithSaltReturnedWith_eq profile B zeroing password hlength]
  rfl

theorem hashWithSalt_render (password : Password) (spec : SaltSpec) :
    hashWithSalt profile B password spec.render =
      .ok (hashText B.sha512 password.bytes spec) := by
  have hlength : spec.render.length ≤ isizeMax :=
    Nat.le_trans spec.render_length_le (by decide)
  rw [hashWithSalt_eq profile B password hlength, SaltSpec.denote_render]

end Hashing

theorem parseSettings_render (profile : Profile) (spec : SaltSpec) :
    parseSettings profile spec.render = .ok (settingsOf spec) := by
  have hlength : spec.render.length ≤ isizeMax :=
    Nat.le_trans spec.render_length_le (by decide)
  rw [parseSettings_eq profile hlength, SaltSpec.denote_render]

/-- On every specification `crypt_inner` encodes the SHA-crypt digest for the
salt and the round count it has parsed, and every admissible pair of the two is
parsed from some specification. -/
theorem cryptInner_refines_shaCrypt (profile : Profile) (B : Backend) (key : List UInt8) :
    (∀ text : BoundedBytes, ∃ settings buffers before returned,
      parseSettings profile text.bytes = .ok settings ∧
      computeDigest profile B key settings.salt settings.rounds = .ok buffers ∧
      cryptInner profile B key text.bytes = .ok returned ∧
      returned.1 = encodeResult buffers.result before ∧
      buffers.result = shaCrypt B.sha512 key settings.salt settings.rounds.toNat) ∧
    (∀ salt : List UInt8, salt.length ≤ saltLenMax → dollar ∉ salt →
      ∀ rounds : UInt32, 1000 ≤ rounds.toNat → rounds.toNat ≤ 999999999 →
      ∃ text : BoundedBytes, parseSettings profile text.bytes = .ok ⟨salt, rounds, true⟩) := by
  constructor
  · intro text
    refine ⟨settingsOf (SaltSpec.denote text.bytes), _,
      (SaltSpec.denote text.bytes).render ++ [dollar], _,
      parseSettings_eq profile text.length_le, computeDigest_eq profile B key _ _,
      cryptInner_eq profile B key text.length_le, ?_, rfl⟩
    simp only [encodeResult_eq, settingsOf, toNat_effectiveRounds, hashText, digestBuffers,
      List.append_assoc, List.singleton_append]
  · intro salt hsalt hdollar rounds hmin hmax
    have hrange : ∀ n ∈ some rounds.toNat, 1000 ≤ n ∧ n ≤ 999999999 := by
      rintro n ⟨rfl⟩
      exact ⟨hmin, hmax⟩
    let spec : SaltSpec := ⟨some rounds.toNat, salt, hrange, hsalt, hdollar⟩
    refine ⟨⟨spec.render, Nat.le_trans spec.render_length_le (by decide)⟩, ?_⟩
    rw [parseSettings_render]
    simp [settingsOf, spec, SaltSpec.effectiveRounds]

theorem hashText_length_le (H : List UInt8 → Vector UInt8 64) (password : List UInt8)
    (spec : SaltSpec) : (hashText H password spec).length ≤ isizeMax := by
  have hspec := spec.render_length_le
  simp only [hashText, List.length_append, List.length_cons, digestText_length,
    sha512HashEncodedLength, isizeMax]
  omega

theorem hashText_inj {H H' : List UInt8 → Vector UInt8 64} {password password' : List UInt8}
    {spec spec' : SaltSpec} (h : hashText H password spec = hashText H' password' spec') :
    spec = spec' ∧
      shaCrypt H password spec.salt spec.effectiveRounds =
        shaCrypt H' password' spec'.salt spec'.effectiveRounds := by
  obtain ⟨hrender, hdigest⟩ := last_cut_inj (dollar_not_mem_digestText _)
    (dollar_not_mem_digestText _) h
  exact ⟨SaltSpec.render_injective hrender, digestText_injective hdigest⟩

end CryptSha512.CryptRefinement
