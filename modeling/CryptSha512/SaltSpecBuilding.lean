import CryptSha512.TraitVerification

namespace CryptSha512.SaltSpecBuilding

open CryptSha512.AsciiNumbers
open CryptSha512.CheckedExecution
open CryptSha512.CryptBase64
open CryptSha512.CryptInner
open CryptSha512.CryptoBackend
open CryptSha512.DecimalText
open CryptSha512.NativeVerification
open CryptSha512.PasswordHashTraits
open CryptSha512.SaltSpecGrammar
open CryptSha512.TraitVerification
open CryptSha512.Utf8Text

/-- The digits that a builder writes for a round count. The default is
omitted. -/
def roundsDigits (rounds : UInt32) : Option (List UInt8) :=
  if rounds = roundsDefault then none else some (decimal rounds.toNat)

/-- The specification that a builder's text denotes. -/
def builtSpec (rounds : UInt32) (salt : List UInt8) : SaltSpec :=
  .ofParts (roundsDigits rounds) salt

theorem isDigit_roundsDigits (rounds : UInt32) :
    ∀ d ∈ roundsDigits rounds, d.all isDigit = true := by
  intro d hd
  rw [roundsDigits] at hd
  split at hd
  · contradiction
  · obtain rfl := Option.some.inj hd
    exact SaltSpec.isDigit_decimal _

theorem pushRounds_roundsDigits (profile : Profile) {rounds : UInt32}
    (h : rounds.toNat < 10 ^ 9 ∨ profile = .release) :
    ∃ text, pushRounds profile (decide (rounds ≠ roundsDefault)) rounds sha512SaltPrefix =
        .ok text ∧
      ∀ salt, text ++ salt = rebuildSpec (roundsDigits rounds) salt := by
  rw [pushRounds, roundsDigits]
  rcases eq_or_ne rounds roundsDefault with hdefault | hdefault
  · exact ⟨sha512SaltPrefix, by simp [hdefault], by simp [hdefault, rebuildSpec]⟩
  · refine ⟨sha512SaltPrefix ++ sha512RoundsPrefix ++ decimal rounds.toNat ++ [dollar], ?_, ?_⟩
    · simp [hdefault, pushU32AsAscii_eq h]
    · simp [hdefault, rebuildSpec]

theorem rebuildSpec_roundsDigits_length_le (rounds : UInt32) (salt : List UInt8) :
    (rebuildSpec (roundsDigits rounds) salt).length ≤ 21 + salt.length := by
  have hdecimal : (decimal rounds.toNat).length ≤ 10 :=
    decimal_length_le (by omega) (Nat.lt_trans rounds.toNat_lt (by decide))
  rw [roundsDigits]
  split <;> simp only [rebuildSpec, List.length_append, List.length_singleton,
    sha512SaltPrefix_length, sha512RoundsPrefix_length] <;> omega

theorem rebuildSpec_roundsDigits_fits (rounds : UInt32) {salt : List UInt8}
    (hlength : salt.length ≤ saltLenMax) :
    (rebuildSpec (roundsDigits rounds) salt).length ≤ isizeMax := by
  have hle := rebuildSpec_roundsDigits_length_le rounds salt
  exact Nat.le_trans (Nat.le_trans hle (Nat.add_le_add_left hlength 21)) (by decide)

theorem clampRounds_default : clampRounds roundsDefault.toNat = 5000 := rfl

theorem effectiveRounds_builtSpec (rounds : UInt32) (salt : List UInt8) :
    (builtSpec rounds salt).effectiveRounds = clampRounds rounds.toNat := by
  rw [builtSpec, effectiveRounds_ofParts, roundsDigits]
  split
  · rename_i hdefault
    rw [hdefault, clampRounds_default]
    rfl
  · rw [roundsOf, decimalValue_decimal]

theorem roundsSegment_builtSpec (rounds : UInt32) (salt : List UInt8) :
    (builtSpec rounds salt).roundsSegment =
      if rounds = roundsDefault then []
      else roundsField (decimal (clampRounds rounds.toNat)) ++ [dollar] := by
  rw [builtSpec, SaltSpec.roundsSegment, SaltSpec.ofParts, roundsDigits]
  rcases eq_or_ne rounds roundsDefault with hdefault | hdefault
  · simp [hdefault]
  · simp [hdefault, decimalValue_decimal]

theorem selectRounds_eq (rounds : Option UInt32) :
    selectRounds rounds =
      (rounds.getD roundsDefault, decide (rounds.getD roundsDefault ≠ roundsDefault)) := by
  cases rounds with
  | none => simp [selectRounds]
  | some r =>
      rw [selectRounds, Option.getD_some]
      split
      · rename_i hdefault
        simp [hdefault]
      · rename_i hdefault
        simp [hdefault]

theorem generateSalt_length {rng : Csprng} {buf salt : List UInt8}
    (h : generateSalt rng buf = .ok salt) : salt.length = buf.length := by
  cases hrng : rng.fill buf.length with
  | none =>
      have hrandom : randomBytes rng buf = .error .entropy := by
        simp only [randomBytes, hrng]
      rw [generateSalt, generateSaltWith, hrandom, error_bind] at h
      contradiction
  | some drawn =>
      rw [generateSalt_eq hrng] at h
      obtain rfl := Except.ok.inj h
      rw [List.length_map, rng.fill_length hrng]

section Specifications

variable (profile : Profile)

theorem buildSaltSpec_eq (generateSalt : List UInt8 → Exec (List UInt8))
    {rounds : Option UInt32}
    (h : (rounds.getD roundsDefault).toNat < 10 ^ 9 ∨ profile = .release) :
    buildSaltSpec profile generateSalt rounds =
      generateSalt (List.replicate saltLenMax 0) >>= fun buf =>
        .ok (rebuildSpec (roundsDigits (rounds.getD roundsDefault)) buf) := by
  obtain ⟨size, hsize, _⟩ := saltSpecOutputSize_ok profile le_rfl
    (decide (rounds.getD roundsDefault ≠ roundsDefault))
  obtain ⟨text, htext, hspec⟩ := pushRounds_roundsDigits profile h
  have hlength := rebuildSpec_roundsDigits_length_le (rounds.getD roundsDefault) []
  rw [← hspec, List.append_nil, List.length_nil] at hlength
  have hstop : usizeAdd profile text.length saltLenMax = .ok (text.length + saltLenMax) := by
    apply usizeAdd_of_lt
    rw [saltLenMax]
    omega
  simp only [buildSaltSpec, selectRounds_eq, hsize, htext, ok_bind, hstop,
    Nat.add_sub_cancel_left, sliceFrom_append, List.take_left, hspec, pure_eq_ok]

theorem buildSaltSpec_underflow (generateSalt : List UInt8 → Exec (List UInt8))
    {rounds : Option UInt32} (h : 10 ^ 9 ≤ (rounds.getD roundsDefault).toNat) :
    buildSaltSpec .debug generateSalt rounds = .error .arithmeticOverflow := by
  have hdefault : rounds.getD roundsDefault ≠ roundsDefault := by
    intro heq
    rw [heq] at h
    contradiction
  obtain ⟨size, hsize, _⟩ := saltSpecOutputSize_ok .debug le_rfl true
  have hpush : pushRounds .debug true (rounds.getD roundsDefault) sha512SaltPrefix =
      .error .arithmeticOverflow := by
    rw [pushRounds, if_pos rfl, pushU32AsAscii_underflow h, error_bind]
  simp only [buildSaltSpec, selectRounds_eq, decide_eq_true hdefault, hsize, hpush, ok_bind,
    error_bind]

theorem eq_debug_of_not_printing {rounds : UInt32}
    (h : ¬ (rounds.toNat < 10 ^ 9 ∨ profile = .release)) :
    profile = .debug ∧ 10 ^ 9 ≤ rounds.toNat := by
  obtain ⟨hlarge, hchecked⟩ := not_or.mp h
  refine ⟨?_, Nat.le_of_not_lt hlarge⟩
  rcases profile with ⟨_ | _⟩
  · exact absurd rfl hchecked
  · rfl

theorem buildSaltSpec_congr {f g : List UInt8 → Exec (List UInt8)}
    (h : f (List.replicate saltLenMax 0) = g (List.replicate saltLenMax 0))
    (rounds : Option UInt32) :
    buildSaltSpec profile f rounds = buildSaltSpec profile g rounds := by
  rcases em ((rounds.getD roundsDefault).toNat < 10 ^ 9 ∨ profile = .release) with
    hprints | hprints
  · rw [buildSaltSpec_eq profile f hprints, buildSaltSpec_eq profile g hprints, h]
  · obtain ⟨rfl, hlarge⟩ := eq_debug_of_not_printing profile hprints
    rw [buildSaltSpec_underflow f hlarge, buildSaltSpec_underflow g hlarge]

theorem buildSaltSpec_length_le {generateSalt : List UInt8 → Exec (List UInt8)}
    (hgenerate : ∀ {buf salt}, generateSalt buf = .ok salt → salt.length = buf.length)
    {rounds : Option UInt32} {saltSpec : List UInt8}
    (h : buildSaltSpec profile generateSalt rounds = .ok saltSpec) :
    saltSpec.length ≤ isizeMax := by
  rcases em ((rounds.getD roundsDefault).toNat < 10 ^ 9 ∨ profile = .release) with
    hprints | hprints
  · rw [buildSaltSpec_eq profile generateSalt hprints] at h
    cases hdraw : generateSalt (List.replicate saltLenMax 0) with
    | error fault =>
        rw [hdraw, error_bind] at h
        contradiction
    | ok buf =>
        rw [hdraw, ok_bind] at h
        obtain rfl := Except.ok.inj h
        apply rebuildSpec_roundsDigits_fits
        rw [hgenerate hdraw, List.length_replicate]
  · obtain ⟨rfl, hlarge⟩ := eq_debug_of_not_printing profile hprints
    rw [buildSaltSpec_underflow generateSalt hlarge] at h
    contradiction

theorem extractSalt_length_le {hash : Str} {salt : List UInt8}
    (h : extractSalt profile hash = .ok (.ok salt)) : salt.length ≤ isizeMax := by
  rcases em (HasCut hash.bytes) with hhash | hhash
  · obtain ⟨setting, digest, hcut, hdigest⟩ := exists_cut_of_hasCut hhash
    rw [extractSalt_of_cut profile hcut hdigest] at h
    obtain rfl := Except.ok.inj (Except.ok.inj h)
    exact setting_length_le hcut
  · rw [extractSalt_of_not_hasCut profile hhash] at h
    have hinvalid := Except.ok.inj h
    contradiction

end Specifications

theorem hash_underflow {B : Backend} {rng : Csprng} {password : Password}
    {rounds : Option UInt32} (h : 10 ^ 9 ≤ (rounds.getD roundsDefault).toNat) :
    hash .debug B rng password rounds = .error .arithmeticOverflow := by
  rw [CryptInner.hash, buildSaltSpec_underflow _ h, error_bind]

end CryptSha512.SaltSpecBuilding
