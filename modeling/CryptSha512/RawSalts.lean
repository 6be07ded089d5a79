import CryptSha512.HashGeneration

namespace CryptSha512.RawSalts

open CryptSha512.AsciiNumbers
open CryptSha512.CheckedExecution
open CryptSha512.CryptBase64
open CryptSha512.CryptRefinement
open CryptSha512.CryptoBackend
open CryptSha512.DecimalText
open CryptSha512.HashGeneration
open CryptSha512.PasswordHashTraits
open CryptSha512.SaltSpecBuilding
open CryptSha512.SaltSpecGrammar
open CryptSha512.ShaCryptDefinition
open CryptSha512.TraitVerification

theorem storedSalt_eq_take (salt : List UInt8) : storedSalt salt = cryptBase64 (salt.take 12) :=
  cryptBase64_take salt

theorem storedSalt_eq_iff (x y : List UInt8) :
    storedSalt x = storedSalt y ↔ x.take 12 = y.take 12 := by
  rw [storedSalt_eq_take, storedSalt_eq_take]
  exact cryptBase64_injective.eq_iff

section Runs

variable (profile : Profile) (B : Backend) (mcf : Mcf) (self : Sha512Crypt)
variable (password : List UInt8) (algorithm : Option (List UInt8)) (params : Sha512CryptParams)

/-- Trait hashing of `salt` offers `text` to `mcf`, and the hash that `mcf` makes
of it carries `field` as its salt field. -/
def Produces (salt text field : List UInt8) : Prop :=
  hashPasswordCustomized profile B mcf self password salt algorithm none params =
    .ok ((mcf.new text).elim (.error .encodingInvalid) .ok) ∧
  ∃ digest, ∀ hashed, mcf.new text = some hashed →
    hashed.asStr = text ∧
    hashed.fields = (if params.rounds = roundsDefault then []
      else [sha512RoundsPrefix ++ decimal params.rounds.toNat]) ++ [field, digest]

theorem hashFields_builtSpec (salt digest : List UInt8) :
    hashFields (builtSpec params.rounds (storedSalt salt)) digest =
      (if params.rounds = roundsDefault then []
        else [sha512RoundsPrefix ++ decimal params.rounds.toNat]) ++
          [storedSalt salt, digest] := by
  have hsalt := salt_builtSpec (storedSalt_alphabet salt) (storedSalt_length_le salt)
    params.rounds
  rw [hashFields, hsalt]
  rcases eq_or_ne params.rounds roundsDefault with hdefault | hdefault
  · simp [builtSpec, SaltSpec.ofParts, roundsDigits, hdefault]
  · simp [builtSpec, SaltSpec.ofParts, roundsDigits, hdefault, decimalValue_decimal,
      clampRounds_params, roundsField]

theorem produces_storedSalt
    (halgorithm : algorithm = none ∨ algorithm = some sha512CryptId)
    (salt : BoundedBytes) (hsalt : salt.bytes ≠ []) :
    Produces profile B mcf self password algorithm params salt.bytes
      (hashText B.sha512 password (builtSpec params.rounds (storedSalt salt.bytes)))
      (storedSalt salt.bytes) := by
  let spec := builtSpec params.rounds (storedSalt salt.bytes)
  refine ⟨hashPasswordCustomized_eq_elim profile B self password salt hsalt halgorithm params,
    digestText (shaCrypt B.sha512 password spec.salt spec.effectiveRounds), ?_⟩
  intro hashed hhashed
  have htext := mcf.asStr_of_new hhashed
  refine ⟨htext, ?_⟩
  rw [(fields_of_hashText htext).2, hashFields_builtSpec]

end Runs

end CryptSha512.RawSalts
