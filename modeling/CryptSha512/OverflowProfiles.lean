import CryptSha512.DrawnSalts

namespace CryptSha512.OverflowProfiles

open CryptSha512.AsciiNumbers
open CryptSha512.CheckedExecution
open CryptSha512.CryptInner
open CryptSha512.CryptRefinement
open CryptSha512.CryptoBackend
open CryptSha512.HashGeneration
open CryptSha512.NativeVerification
open CryptSha512.PasswordHashTraits
open CryptSha512.SaltSpecBuilding
open CryptSha512.TraitVerification
open CryptSha512.Utf8Text

section Unobserved

variable (profile profile' : Profile) (B : Backend)

theorem hashWithSalt_profile (password : Password) (salt : BoundedBytes) :
    hashWithSalt profile B password salt.bytes = hashWithSalt profile' B password salt.bytes := by
  rw [hashWithSalt_eq profile B password salt.length_le,
    hashWithSalt_eq profile' B password salt.length_le]

theorem verify_profile (password : Password) (hash : Str) :
    verify profile B password hash = verify profile' B password hash := by
  rcases em (HasCut hash.bytes) with hhash | hhash
  · obtain ⟨setting, digest, hcut, hdigest⟩ := exists_cut_of_hasCut hhash
    rw [verify_of_cut profile B password hcut hdigest,
      verify_of_cut profile' B password hcut hdigest]
  · rw [verify_of_not_hasCut profile B password hhash,
      verify_of_not_hasCut profile' B password hhash]

variable (mcf : Mcf) (self : Sha512Crypt) (password : List UInt8)

theorem hashPasswordCustomized_profile (salt : BoundedBytes) (algorithm : Option (List UInt8))
    (version : Option UInt32) (params : Sha512CryptParams) :
    hashPasswordCustomized profile B mcf self password salt.bytes algorithm version params =
      hashPasswordCustomized profile' B mcf self password salt.bytes algorithm version
        params := by
  rcases em ((algorithm = none ∨ algorithm = some sha512CryptId) ∧ version = none ∧
      salt.bytes ≠ []) with ⟨halgorithm, rfl, hsalt⟩ | hrejected
  · rw [hashPasswordCustomized_eq_elim profile B self password salt hsalt halgorithm params,
      hashPasswordCustomized_eq_elim profile' B self password salt hsalt halgorithm params]
  · obtain ⟨error, herror⟩ := hashPasswordCustomizedWith_of_rejected hrejected
    rw [hashPasswordCustomized, hashPasswordCustomized, herror, herror]

theorem verifyPasswordRef_profile (hash : PasswordHashRef) :
    verifyPasswordRef profile B self password hash =
      verifyPasswordRef profile' B self password hash := by
  rcases eq_or_ne hash.id sha512CryptId with hid | hid
  · obtain ⟨digits, rest, hfields⟩ := splitsRounds_exists hash.fields
    rcases eq_or_ne rest.length 2 with hlength | hlength
    · obtain ⟨salt, expected, rfl⟩ := List.length_eq_two.mp hlength
      rw [verifyPasswordRef_of_fields profile B self password hid hfields,
        verifyPasswordRef_of_fields profile' B self password hid hfields]
    · rw [verifyPasswordRef_of_length_ne profile B self password hid hfields hlength,
        verifyPasswordRef_of_length_ne profile' B self password hid hfields hlength]
  · rw [verifyPasswordRef_of_id_ne profile B self password hid,
      verifyPasswordRef_of_id_ne profile' B self password hid]

theorem verifyPassword_profile (hash : Str) :
    verifyPassword profile B mcf self password hash =
      verifyPassword profile' B mcf self password hash := by
  cases hparsed : mcf.new hash.bytes with
  | none =>
      rw [verifyPassword_of_new_none profile B self password hparsed,
        verifyPassword_of_new_none profile' B self password hparsed]
  | some parsed =>
      rw [verifyPassword_of_new profile B self password hparsed,
        verifyPassword_of_new profile' B self password hparsed]
      exact verifyPasswordRef_profile profile profile' B self password parsed

end Unobserved

section Faults

variable {B : Backend} {rng : Csprng} {password : List UInt8} {rounds : Option UInt32}

theorem hash_eq_error_iff (profile : Profile) (fault : Fault) :
    hash profile B rng (.fromBytes password) rounds = .error fault ↔
      (fault = .arithmeticOverflow ∧ profile = .debug ∧
        10 ^ 9 ≤ (rounds.getD roundsDefault).toNat) ∨
      (fault = .entropy ∧
        ((rounds.getD roundsDefault).toNat < 10 ^ 9 ∨ profile = .release) ∧
        rng.fill saltLenMax = none) := by
  -- the round count is printed before the salt is drawn
  rcases em ((rounds.getD roundsDefault).toNat < 10 ^ 9 ∨ profile = .release) with
    hprints | hprints
  · have hno : ¬ (profile = .debug ∧ 10 ^ 9 ≤ (rounds.getD roundsDefault).toNat) := by
      rintro ⟨rfl, hlarge⟩
      rcases hprints with hsmall | hrelease
      · exact absurd hsmall (Nat.not_lt.mpr hlarge)
      · exact absurd hrelease (by decide)
    cases hrng : rng.fill saltLenMax with
    | none =>
        rw [hash_of_fill_none profile B hrng password rounds hprints]
        simp only [Except.error.injEq, hno, and_false, false_or, hprints, and_self, and_true]
        exact eq_comm
    | some drawn =>
        rw [hash_eq profile B hrng password rounds hprints]
        simp only [reduceCtorEq, hno, and_false, or_false]
  · obtain ⟨rfl, hlarge⟩ := eq_debug_of_not_printing profile hprints
    rw [hash_underflow hlarge]
    simp only [Except.error.injEq, hlarge, hprints, and_true, false_and, and_false, or_false]
    exact eq_comm

theorem hash_debug_eq_release_iff :
    hash .debug B rng (.fromBytes password) rounds =
        hash .release B rng (.fromBytes password) rounds ↔
      (rounds.getD roundsDefault).toNat < 10 ^ 9 := by
  constructor
  · intro hsame
    by_contra hlarge
    rw [hash_underflow (Nat.not_lt.mp hlarge)] at hsame
    rcases (hash_eq_error_iff .release .arithmeticOverflow).mp hsame.symm with
      ⟨_, hdebug, _⟩ | ⟨hentropy, _⟩
    · exact absurd hdebug (by decide)
    · contradiction
  · intro hsmall
    cases hrng : rng.fill saltLenMax with
    | none =>
        rw [hash_of_fill_none .debug B hrng password rounds (.inl hsmall),
          hash_of_fill_none .release B hrng password rounds (.inl hsmall)]
    | some drawn =>
        rw [hash_eq .debug B hrng password rounds (.inl hsmall),
          hash_eq .release B hrng password rounds (.inl hsmall)]

end Faults

/-- A build with overflow checks and one without give the same results on every
input of every entry point but `hash`. There they differ exactly for a round
count of ten digits, which faults before any byte is drawn; the only other fault
of `hash` is missing entropy. -/
theorem overflow_checks_unobserved (B : Backend) (mcf : Mcf) (profile profile' : Profile) :
    (∀ (password : Password) (salt : BoundedBytes),
      hashWithSalt profile B password salt.bytes =
        hashWithSalt profile' B password salt.bytes) ∧
    (∀ (password : Password) (hash : Str),
      verify profile B password hash = verify profile' B password hash) ∧
    (∀ (self : Sha512Crypt) (password : List UInt8) (salt : BoundedBytes)
      (algorithm : Option (List UInt8)) (version : Option UInt32) (params : Sha512CryptParams),
      hashPasswordCustomized profile B mcf self password salt.bytes algorithm version params =
        hashPasswordCustomized profile' B mcf self password salt.bytes algorithm version
          params) ∧
    (∀ (self : Sha512Crypt) (password : List UInt8) (hash : Str),
      verifyPassword profile B mcf self password hash =
        verifyPassword profile' B mcf self password hash) ∧
    ∀ (rng : Csprng) (password : List UInt8) (rounds : Option UInt32),
      (hash .debug B rng (.fromBytes password) rounds =
          hash .release B rng (.fromBytes password) rounds ↔
        (rounds.getD roundsDefault).toNat < 10 ^ 9) ∧
      ∀ fault, hash profile B rng (.fromBytes password) rounds = .error fault ↔
        (fault = .arithmeticOverflow ∧ profile = .debug ∧
          10 ^ 9 ≤ (rounds.getD roundsDefault).toNat) ∨
        (fault = .entropy ∧
          ((rounds.getD roundsDefault).toNat < 10 ^ 9 ∨ profile = .release) ∧
          rng.fill saltLenMax = none) :=
  ⟨hashWithSalt_profile profile profile' B, verify_profile profile profile' B,
    fun self password =>
      hashPasswordCustomized_profile profile profile' B mcf self password,
    fun self password => verifyPassword_profile profile profile' B mcf self password,
    fun _ _ _ => ⟨hash_debug_eq_release_iff, hash_eq_error_iff profile⟩⟩

end CryptSha512.OverflowProfiles
