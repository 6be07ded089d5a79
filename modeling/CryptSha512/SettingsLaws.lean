import CryptSha512.CryptRefinement

namespace CryptSha512.SettingsLaws

open CryptSha512.AsciiNumbers
open CryptSha512.CheckedExecution
open CryptSha512.CryptBase64
open CryptSha512.CryptInner
open CryptSha512.CryptRefinement
open CryptSha512.CryptoBackend
open CryptSha512.DecimalText
open CryptSha512.DelimitedText
open CryptSha512.DigestComputation
open CryptSha512.SaltSpecGrammar
open CryptSha512.ShaCryptDefinition

section Settings

variable (profile : Profile) (B : Backend)

/-- On `text`, `crypt_inner` takes `salt` as its salt, runs `rounds` rounds and
writes `segment` between the prefix and the salt. -/
def RunsWith (key text : List UInt8) (rounds : Nat) (segment salt : List UInt8) : Prop :=
  ∃ settings buffers returned,
    parseSettings profile text = .ok settings ∧
    settings.salt = salt ∧ settings.rounds.toNat = rounds ∧
    computeDigest profile B key settings.salt settings.rounds = .ok buffers ∧
    buffers.result = shaCrypt B.sha512 key salt rounds ∧
    cryptInner profile B key text = .ok returned ∧
    returned.1 = sha512SaltPrefix ++ segment ++ salt ++ dollar ::
      encodeResult buffers.result []

theorem runsWith_denote (key : List UInt8) {text : List UInt8}
    (hlength : text.length ≤ isizeMax) :
    RunsWith profile B key text (SaltSpec.denote text).effectiveRounds
      (SaltSpec.denote text).roundsSegment (SaltSpec.denote text).salt := by
  have hrounds := toNat_effectiveRounds (SaltSpec.denote text)
  refine ⟨_, _, _, parseSettings_eq profile hlength, rfl, hrounds,
    computeDigest_eq profile B key _ _, ?_, cryptInner_eq profile B key hlength, ?_⟩
  · simp only [settingsOf, hrounds, digestBuffers]
  · simp only [settingsOf, hrounds, digestBuffers, hashText, SaltSpec.render, encodeResult_eq,
      List.nil_append]

/-- With `u` the text without one leading `$6$`: a rounds parameter in front of
`u` gives the clamped value of its digits, whatever their number; in every other
case there is no parameter at all. -/
theorem settings_follow_grammar (key : List UInt8) (text : BoundedBytes) :
    (∀ digits rest, StartsWithRounds (withoutPrefix text.bytes) digits rest →
      RunsWith profile B key text.bytes (clampRounds (decimalValue digits))
        (sha512RoundsPrefix ++ decimal (clampRounds (decimalValue digits)) ++ [dollar])
        ((untilSeparator dollar rest).take saltLenMax)) ∧
    ((¬ ∃ digits rest, StartsWithRounds (withoutPrefix text.bytes) digits rest) →
      RunsWith profile B key text.bytes 5000 []
        ((untilSeparator dollar (withoutPrefix text.bytes)).take saltLenMax)) := by
  have hruns := runsWith_denote profile B key text.length_le
  constructor
  · intro digits rest hstarts
    rw [SaltSpec.denote_of_startsWithRounds hstarts] at hruns
    exact hruns
  · intro hnone
    have hnot : ∀ digits rest, ¬ StartsWithRounds (withoutPrefix text.bytes) digits rest :=
      fun digits rest hstarts => hnone ⟨digits, rest, hstarts⟩
    rw [SaltSpec.denote_of_not_startsWithRounds hnot] at hruns
    exact hruns

end Settings

section FullHash

variable (H : List UInt8 → Vector UInt8 64) (password : List UInt8) {spec : SaltSpec}

theorem withoutPrefix_hashText :
    withoutPrefix (hashText H password spec) = spec.roundsSegment ++ spec.salt ++ dollar ::
      digestText (shaCrypt H password spec.salt spec.effectiveRounds) := by
  rw [hashText, SaltSpec.render, List.append_assoc sha512SaltPrefix, List.append_assoc,
    SaltSpec.withoutPrefix_append]

theorem effectiveSalt_behind_salt (digest : List UInt8) :
    effectiveSalt (spec.salt ++ dollar :: digest) = spec.salt := by
  rw [effectiveSalt_append_cons digest spec.dollar_not_mem,
    List.take_of_length_le spec.salt_length_le]

theorem denote_hashText_of_rounds {n : Nat} (hrounds : spec.rounds = some n) :
    SaltSpec.denote (hashText H password spec) = spec := by
  have hstarts : StartsWithRounds (withoutPrefix (hashText H password spec)) (decimal n)
      (spec.salt ++ dollar ::
        digestText (shaCrypt H password spec.salt spec.effectiveRounds)) := by
    refine ⟨?_, SaltSpec.isDigit_decimal n⟩
    rw [withoutPrefix_hashText, SaltSpec.roundsSegment, hrounds]
    simp
  rw [SaltSpec.denote_of_startsWithRounds hstarts]
  ext1
  · rw [hrounds]
    simp only [SaltSpec.ofParts, Option.map_some, decimalValue_decimal,
      clampRounds_of_mem (spec.rounds_mem n hrounds)]
  · exact effectiveSalt_behind_salt _

theorem withoutPrefix_hashText_of_no_rounds (hrounds : spec.rounds = none) :
    withoutPrefix (hashText H password spec) = spec.salt ++ dollar ::
      digestText (shaCrypt H password spec.salt spec.effectiveRounds) := by
  rw [withoutPrefix_hashText, SaltSpec.roundsSegment, hrounds, List.nil_append]

theorem denote_hashText_of_literal (hrounds : spec.rounds = none)
    (hsalt : ¬ ∃ digits, digits.all isDigit = true ∧ spec.salt = roundsField digits) :
    SaltSpec.denote (hashText H password spec) = spec := by
  have htext := withoutPrefix_hashText_of_no_rounds H password hrounds
  have hnot : ∀ digits rest,
      ¬ StartsWithRounds (withoutPrefix (hashText H password spec)) digits rest := by
    rintro digits rest ⟨heq, hdigits⟩
    rw [htext] at heq
    -- the digest ends the salt, which would thus be the parameter that was found
    have hcut := first_cut_inj spec.dollar_not_mem (roundsField_free hdigits) heq
    exact hsalt ⟨digits, hdigits, hcut.1⟩
  rw [SaltSpec.denote_of_not_startsWithRounds hnot, htext]
  ext1
  · rw [hrounds]
    rfl
  · exact effectiveSalt_behind_salt _

theorem denote_hashText_of_rounds_salt {digits : List UInt8} (hrounds : spec.rounds = none)
    (hdigits : digits.all isDigit = true) (hsalt : spec.salt = roundsField digits) :
    SaltSpec.denote (hashText H password spec) = .ofParts (some digits)
      (digestText (shaCrypt H password spec.salt spec.effectiveRounds)) := by
  apply SaltSpec.denote_of_startsWithRounds
  refine ⟨?_, hdigits⟩
  rw [withoutPrefix_hashText_of_no_rounds H password hrounds, ← hsalt]

theorem hashText_denote_ne {digits : List UInt8} (hrounds : spec.rounds = none)
    (hdigits : digits.all isDigit = true) (hsalt : spec.salt = roundsField digits) :
    hashText H password (SaltSpec.denote (hashText H password spec)) ≠
      hashText H password spec := by
  intro heq
  have hspec := (hashText_inj heq).1
  rw [denote_hashText_of_rounds_salt H password hrounds hdigits hsalt] at hspec
  have hsome := congrArg SaltSpec.rounds hspec
  rw [hrounds] at hsome
  contradiction

theorem hashText_denote_eq_iff :
    hashText H password (SaltSpec.denote (hashText H password spec)) =
        hashText H password spec ↔
      spec.rounds.isSome = true ∨
        ¬ ∃ digits, digits.all isDigit = true ∧ spec.salt = roundsField digits := by
  cases hrounds : spec.rounds with
  | some n =>
      rw [denote_hashText_of_rounds H password hrounds]
      simp
  | none =>
      simp only [Option.isSome_none, Bool.false_eq_true, false_or]
      constructor
      · rintro heq ⟨digits, hdigits, hsalt⟩
        exact hashText_denote_ne H password hrounds hdigits hsalt heq
      · intro hsalt
        rw [denote_hashText_of_literal H password hrounds hsalt]

end FullHash

/-- A hash used as a salt specification gives itself, unless it has no rounds
segment and its salt reads `rounds=` and digits. Then the salt is taken for a
round count and the digest for the salt, and the result is another string. -/
theorem full_hash_as_setting (profile : Profile) (B : Backend) (password : Password)
    (salt : BoundedBytes) :
    ∃ settings digest hash,
      parseSettings profile salt.bytes = .ok settings ∧
      hashWithSalt profile B password salt.bytes = .ok hash ∧
      hash = sha512SaltPrefix ++ (if settings.roundsCustom then
          sha512RoundsPrefix ++ decimal settings.rounds.toNat ++ [dollar] else []) ++
        settings.salt ++ dollar :: digest ∧
      digest.length = sha512HashEncodedLength ∧
      (hashWithSalt profile B password hash = .ok hash ↔
        settings.roundsCustom = true ∨
          ¬ ∃ digits, digits.all isDigit = true ∧ settings.salt = sha512RoundsPrefix ++ digits) ∧
      (∀ digits, settings.roundsCustom = false → digits.all isDigit = true →
        settings.salt = sha512RoundsPrefix ++ digits →
        parseSettings profile hash = .ok ⟨digest.take saltLenMax,
          UInt32.ofNat (clampRounds (decimalValue digits)), true⟩ ∧
        ∃ other, hashWithSalt profile B password hash = .ok other ∧ other ≠ hash) := by
  let spec := SaltSpec.denote salt.bytes
  have hlength := hashText_length_le B.sha512 password.bytes spec
  have hagain := hashWithSalt_eq profile B password hlength
  refine ⟨settingsOf spec,
    digestText (shaCrypt B.sha512 password.bytes spec.salt spec.effectiveRounds),
    hashText B.sha512 password.bytes spec, parseSettings_eq profile salt.length_le,
    hashWithSalt_eq profile B password salt.length_le, ?_, digestText_length _, ?_, ?_⟩
  · rw [hashText, SaltSpec.render, SaltSpec.roundsSegment, settingsOf]
    simp only [toNat_effectiveRounds]
    cases hrounds : spec.rounds with
    | none => simp
    | some n => simp [SaltSpec.effectiveRounds, hrounds, roundsField]
  · rw [hagain, Except.ok.injEq]
    exact hashText_denote_eq_iff B.sha512 password.bytes
  · intro digits hcustom hdigits hsalt
    have hrounds : spec.rounds = none := by simpa [settingsOf] using hcustom
    constructor
    · rw [parseSettings_eq profile hlength,
        denote_hashText_of_rounds_salt B.sha512 password.bytes hrounds hdigits hsalt]
      simp only [settingsOf, SaltSpec.effectiveRounds, SaltSpec.ofParts,
        effectiveSalt_of_not_mem (dollar_not_mem_digestText _), Option.map_some,
        Option.getD_some, Option.isSome_some]
    · exact ⟨_, hagain, hashText_denote_ne B.sha512 password.bytes hrounds hdigits hsalt⟩

end CryptSha512.SettingsLaws
