import CryptSha512.BufferRelease
import CryptSha512.HashGeneration

namespace CryptSha512.PasswordCustody

open CryptSha512.BufferRelease
open CryptSha512.BufferRelease.Releasing
open CryptSha512.CheckedExecution
open CryptSha512.CryptBase64
open CryptSha512.CryptInner
open CryptSha512.CryptRefinement
open CryptSha512.CryptoBackend
open CryptSha512.HashGeneration
open CryptSha512.PasswordHashTraits
open CryptSha512.SaltSpecBuilding
open CryptSha512.TraitVerification
open CryptSha512.Utf8Text

/-- The drop of a password gives its buffer back. -/
def Password.drop (password : Password) : List UInt8 := secureZeroBytes password.bytes

section Copies

variable (profile : Profile) (B : Backend)

/-- `into_bytes` has disarmed the drop, so that `key_bytes` is given back as it
is if `crypt_inner` faults. -/
def hashWithSaltReleasing (password : Password) (salt : List UInt8) :
    Releasing (List UInt8) := do
  let keyBytes := password.intoBytes
  let (out, _) ← holding keyBytes (ofExec (cryptInner profile B keyBytes salt))
  let keyBytes := secureZeroBytes keyBytes
  release keyBytes
  pure out

/-- The password stays with `hash` until the specification is complete. -/
def hashReleasing (rng : Csprng) (password : Password) (rounds : Option UInt32) :
    Releasing (List UInt8) := do
  let saltSpec ← holding (Password.drop password) (ofExec
    (buildSaltSpec profile (generateSalt rng) rounds))
  hashWithSaltReleasing profile B password saltSpec

/-- The early returns drop the password. -/
def verifyReleasing (password : Password) (hash : Str) :
    Releasing (Except InvalidHash Bool) :=
  verifyWith (holding (Password.drop password) (ofExec (extractSalt profile hash)))
    (release (Password.drop password)) (hashWithSaltReleasing profile B password)
    B.constantTimeEq hash

variable (mcf : Mcf)

/-- `password.to_vec()` makes the only copy, in the call of `hash_with_salt`. -/
def hashPasswordCustomizedReleasing (_self : Sha512Crypt) (password salt : List UInt8)
    (algorithm : Option (List UInt8)) (version : Option UInt32)
    (params : Sha512CryptParams) : Releasing (Except Error PasswordHashRef) :=
  hashPasswordCustomizedWith profile (hashWithSaltReleasing profile B) mcf password salt algorithm
    version params

def verifyPasswordRefReleasing (_self : Sha512Crypt) (password : List UInt8)
    (hash : PasswordHashRef) : Releasing (Except Error Unit) :=
  verifyPasswordRefWith profile (hashWithSaltReleasing profile B) B.constantTimeEq password hash

def verifyPasswordReleasing (_self : Sha512Crypt) (password : List UInt8) (hash : Str) :
    Releasing (Except Error Unit) :=
  verifyPasswordWith profile (hashWithSaltReleasing profile B) B.constantTimeEq mcf password hash

end Copies

/-- The outcome is that of the plain function, and one copy of the password has
been given back, wiped. -/
def WipesOneCopy {α : Type} (password : List UInt8) (run : Releasing α) (plain : Exec α) :
    Prop :=
  run = ⟨plain, [List.replicate password.length 0]⟩

/-- The outcome is that of the plain function, and no copy was ever made. -/
def MakesNoCopy {α : Type} (run : Releasing α) (plain : Exec α) : Prop := run = ⟨plain, []⟩

section NativeCustody

variable (profile : Profile) (B : Backend)

theorem hashWithSaltReleasing_eq (password : Password) {salt : List UInt8}
    (hlength : salt.length ≤ isizeMax) :
    hashWithSaltReleasing profile B password salt =
      ⟨hashWithSalt profile B password salt, [Password.drop password]⟩ := by
  -- `crypt_inner` never faults, so that the buffer is wiped before it is given back
  have hcrypt := cryptInner_eq profile B password.bytes hlength
  rw [hashWithSalt_eq profile B password hlength, hashWithSaltReleasing, Password.intoBytes,
    holding_ok _ hcrypt, returned_bind]
  rfl

theorem hashReleasing_eq (rng : Csprng) (password : Password) (rounds : Option UInt32) :
    hashReleasing profile B rng password rounds =
      ⟨hash profile B rng password rounds, [Password.drop password]⟩ := by
  apply holding_ofExec_bind
  intro saltSpec hsaltSpec
  exact hashWithSaltReleasing_eq profile B password
    (buildSaltSpec_length_le profile generateSalt_length hsaltSpec)

theorem verifyReleasing_eq (password : Password) (hash : Str) :
    verifyReleasing profile B password hash =
      ⟨verify profile B password hash, [Password.drop password]⟩ := by
  apply holding_ofExec_bind
  intro extracted hextracted
  cases extracted with
  | error invalid => rfl
  | ok salt =>
      have hlength := extractSalt_length_le profile hextracted
      simp only [hashWithSaltReleasing_eq profile B password hlength,
        hashWithSalt_eq profile B password hlength]
      rfl

end NativeCustody

section TraitCustody

variable (profile : Profile) (B : Backend) (mcf : Mcf)

theorem hashPasswordCustomizedReleasing_of_rejected (self : Sha512Crypt)
    (password : List UInt8) {salt : List UInt8} {algorithm : Option (List UInt8)}
    {version : Option UInt32} (params : Sha512CryptParams)
    (h : ¬ ((algorithm = none ∨ algorithm = some sha512CryptId) ∧ version = none ∧ salt ≠ [])) :
    MakesNoCopy
      (hashPasswordCustomizedReleasing profile B mcf self password salt algorithm version params)
      (hashPasswordCustomized profile B mcf self password salt algorithm version params) := by
  obtain ⟨error, herror⟩ := hashPasswordCustomizedWith_of_rejected h
  rw [MakesNoCopy, hashPasswordCustomizedReleasing, hashPasswordCustomized, herror, herror]
  rfl

theorem hashPasswordCustomizedReleasing_of_accepted (self : Sha512Crypt)
    (password : List UInt8) (salt : BoundedBytes) (hsalt : salt.bytes ≠ [])
    {algorithm : Option (List UInt8)}
    (halgorithm : algorithm = none ∨ algorithm = some sha512CryptId)
    (params : Sha512CryptParams) :
    WipesOneCopy password
      (hashPasswordCustomizedReleasing profile B mcf self password salt.bytes algorithm none
        params)
      (hashPasswordCustomized profile B mcf self password salt.bytes algorithm none params) := by
  have hlength := rebuildSpec_roundsDigits_fits params.rounds (storedSalt_length_le salt.bytes)
  rw [WipesOneCopy, hashPasswordCustomizedReleasing, hashPasswordCustomized,
    hashPasswordCustomizedWith_of_accepted profile _ mcf password salt hsalt halgorithm params,
    hashPasswordCustomizedWith_of_accepted profile _ mcf password salt hsalt halgorithm params,
    hashWithSaltReleasing_eq profile B _ hlength, hashWithSalt_eq profile B _ hlength]
  rfl

theorem verifyPasswordRefReleasing_of_fields (self : Sha512Crypt) (password : List UInt8)
    {hash : PasswordHashRef} {digits : Option (List UInt8)} {salt expected : List UInt8}
    (hid : hash.id = sha512CryptId)
    (hfields : SplitsRounds hash.fields digits [salt, expected]) :
    WipesOneCopy password (verifyPasswordRefReleasing profile B self password hash)
      (verifyPasswordRef profile B self password hash) := by
  have hlength := rebuildSpec_length_le hid hfields
  rw [WipesOneCopy, verifyPasswordRefReleasing, verifyPasswordRef,
    verifyPasswordRefWith_of_fields profile _ _ _ hid hfields,
    verifyPasswordRefWith_of_fields profile _ _ _ hid hfields,
    hashWithSaltReleasing_eq profile B _ hlength, hashWithSalt_eq profile B _ hlength]
  simp only [returned_bind, ok_bind, liftM_exec, digestField_hashText, liftM_ok, pure_bind]
  rfl

/-- A parsed hash whose fields are those of a `$6$` hash. -/
def WellFormed (hash : PasswordHashRef) : Prop :=
  hash.id = sha512CryptId ∧ ∃ parts, splitFields hash.fields = .ok parts

theorem verifyPasswordRefReleasing_of_wellFormed (self : Sha512Crypt) (password : List UInt8)
    {hash : PasswordHashRef} (h : WellFormed hash) :
    WipesOneCopy password (verifyPasswordRefReleasing profile B self password hash)
      (verifyPasswordRef profile B self password hash) := by
  obtain ⟨hid, parts, hparts⟩ := h
  obtain ⟨digits, rest, hfields⟩ := splitsRounds_exists hash.fields
  have hsplit := splitFields_eq hfields
  rw [hparts] at hsplit
  rcases rest with _ | ⟨salt, _ | ⟨expected, _ | ⟨extra, others⟩⟩⟩
  · contradiction
  · contradiction
  · exact verifyPasswordRefReleasing_of_fields profile B self password hid hfields
  · contradiction

theorem verifyPasswordRefReleasing_of_not_wellFormed (self : Sha512Crypt)
    (password : List UInt8) {hash : PasswordHashRef} (h : ¬ WellFormed hash) :
    MakesNoCopy (verifyPasswordRefReleasing profile B self password hash)
      (verifyPasswordRef profile B self password hash) := by
  rw [MakesNoCopy, verifyPasswordRefReleasing, verifyPasswordRef]
  rcases eq_or_ne hash.id sha512CryptId with hid | hid
  · obtain ⟨digits, rest, hfields⟩ := splitsRounds_exists hash.fields
    have hlength : rest.length ≠ 2 := by
      intro htwo
      obtain ⟨salt, expected, rfl⟩ := List.length_eq_two.mp htwo
      exact h ⟨hid, _, splitFields_eq hfields⟩
    rw [verifyPasswordRefWith_of_length_ne profile _ _ _ hid hfields hlength,
      verifyPasswordRefWith_of_length_ne profile _ _ _ hid hfields hlength]
    rfl
  · rw [verifyPasswordRefWith_of_id_ne profile _ _ _ hid,
      verifyPasswordRefWith_of_id_ne profile _ _ _ hid]
    rfl

end TraitCustody

end CryptSha512.PasswordCustody
