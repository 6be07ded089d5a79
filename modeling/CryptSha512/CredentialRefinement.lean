import CryptSha512.DrawnSalts
import CryptSha512.PasswordSchemes
import CryptSha512.TraitRehashing

namespace CryptSha512.CredentialRefinement

open CryptSha512.AsciiNumbers
open CryptSha512.CheckedExecution
open CryptSha512.CryptBase64
open CryptSha512.CryptInner
open CryptSha512.CryptRefinement
open CryptSha512.CryptoBackend
open CryptSha512.DecimalText
open CryptSha512.DelimitedText
open CryptSha512.DrawnSalts
open CryptSha512.HashGeneration
open CryptSha512.NativeVerification
open CryptSha512.PasswordHashTraits
open CryptSha512.PasswordSchemes
open CryptSha512.SaltSpecGrammar
open CryptSha512.ShaCryptDefinition
open CryptSha512.TraitRehashing
open CryptSha512.TraitVerification
open CryptSha512.Utf8Text

/-- A specification with a digest of SHA-512. -/
abbrev ShaCryptCredential := Credential SaltSpec (Vector UInt8 64)

/-- The digest of the scheme that both interfaces share. -/
def shaCryptDigest (B : Backend) (password : List UInt8) (spec : SaltSpec) :
    Vector UInt8 64 :=
  shaCrypt B.sha512 password spec.salt spec.effectiveRounds

def credentialText (credential : ShaCryptCredential) : List UInt8 :=
  credential.setting.render ++ dollar :: digestText credential.digest

theorem credentialText_injective : Function.Injective credentialText := by
  intro credential credential' htext
  obtain ⟨hrender, hdigest⟩ := last_cut_inj (dollar_not_mem_digestText _)
    (dollar_not_mem_digestText _) htext
  ext1
  · exact SaltSpec.render_injective hrender
  · exact digestText_injective hdigest

theorem credentialText_enrol (B : Backend) (password : List UInt8) (spec : SaltSpec) :
    credentialText (enrol (shaCryptDigest B) password spec) = hashText B.sha512 password spec :=
  rfl

/-- The reading of the traits, field by field. -/
noncomputable def readFields (hash : PasswordHashRef) : Option ShaCryptCredential :=
  if hash.id ≠ sha512CryptId then none
  else match splitFields hash.fields with
    | .error _ => none
    | .ok (digits, salt, expected) =>
        (Function.partialInv digestText expected).map fun digest =>
          ⟨.ofParts digits salt, digest⟩

section Readings

variable {hash : PasswordHashRef} {credential credential' : ShaCryptCredential}

theorem readFields_eq_some_iff :
    readFields hash = some credential ↔
      hash.id = sha512CryptId ∧ ∃ digits salt,
        SplitsRounds hash.fields digits [salt, digestText credential.digest] ∧
        .ofParts digits salt = credential.setting := by
  rw [readFields]
  split
  · rename_i hid
    simp [hid]
  · rename_i hid
    constructor
    · intro hread
      obtain ⟨digits, rest, hfields⟩ := splitsRounds_exists hash.fields
      have hsplit := splitFields_eq hfields
      rcases rest with _ | ⟨salt, _ | ⟨expected, _ | ⟨extra, others⟩⟩⟩
      · simp [hsplit] at hread
      · simp [hsplit] at hread
      · simp only [hsplit] at hread
        obtain ⟨digest, hdigest, rfl⟩ := Option.map_eq_some_iff.mp hread
        have hexpected := (digestText_injective.isPartialInv digest expected).mp hdigest
        rw [← hexpected] at hfields
        exact ⟨not_not.mp hid, digits, salt, hfields, rfl⟩
      · simp [hsplit] at hread
    · rintro ⟨_, digits, salt, hfields, hsetting⟩
      simp only [splitFields_eq hfields, Function.partialInv_left digestText_injective,
        Option.map_some, hsetting]

theorem readings_agree (hread : read credentialText hash.asStr = some credential)
    (hfields : readFields hash = some credential') : credential = credential' := by
  have htext := (read_eq_some_iff credentialText_injective).mp hread
  obtain ⟨hid, digits, salt, hsplit, hsetting⟩ := readFields_eq_some_iff.mp hfields
  obtain ⟨hrender, hdigest⟩ := last_cut_inj (dollar_not_mem_digestText _)
    (dollar_not_mem_digestText _) (htext.trans (asStr_eq hid hsplit))
  ext1
  · rw [← hsetting, ← SaltSpec.denote_render credential.setting, hrender,
      denote_rebuildSpec (all_isDigit_of_splitsRounds hsplit) (dollar_not_mem_fields hsplit).1]
  · exact digestText_injective hdigest

theorem render_eq_mcfText (spec : SaltSpec) (digest : List UInt8) :
    spec.render ++ dollar :: digest = mcfText sha512CryptId (hashFields spec digest) := by
  rw [SaltSpec.render, SaltSpec.roundsSegment, hashFields]
  cases spec.rounds with
  | none => simp [mcfText_two]
  | some n => simp [mcfText_three]

theorem readFields_of_read (hread : read credentialText hash.asStr = some credential)
    (hshape : ¬ RoundsAsSalt hash.asStr) : readFields hash = some credential := by
  have htext := (read_eq_some_iff credentialText_injective).mp hread
  obtain ⟨spec, digest⟩ := credential
  have hfields := fields_of_asStr (hashFields_free spec (dollar_not_mem_digestText digest))
    (htext.symm.trans (render_eq_mcfText spec (digestText digest)))
  rw [readFields_eq_some_iff]
  refine ⟨hfields.1, spec.rounds.map decimal, spec.salt, ?_, ofParts_spec spec⟩
  rw [hfields.2]
  apply splitsRounds_hashFields
  rintro hrounds digits hsalt ⟨hne, hdigits⟩
  refine hshape ⟨digits, digestText digest, ?_, hne, hdigits, dollar_not_mem_digestText digest⟩
  rw [← htext, credentialText, SaltSpec.render, SaltSpec.roundsSegment, hrounds,
    List.append_nil, ← hsalt]

end Readings

section EntryPoints

variable (profile : Profile) (B : Backend) (mcf : Mcf)

theorem readings_of_hashed {self : Sha512Crypt} {password : List UInt8} {salt : BoundedBytes}
    {algorithm : Option (List UInt8)} {version : Option UInt32} {params : Sha512CryptParams}
    {hashed : PasswordHashRef}
    (h : hashPasswordCustomized profile B mcf self password salt.bytes algorithm version params =
      .ok (.ok hashed)) :
    ∃ setting,
      read credentialText hashed.asStr = some (enrol (shaCryptDigest B) password setting) ∧
      readFields hashed = some (enrol (shaCryptDigest B) password setting) := by
  obtain ⟨halgorithm, rfl, hsalt⟩ := accepted_of_hashed h
  rw [hashPasswordCustomized_eq_elim profile B self password salt hsalt halgorithm params] at h
  have htext := mcf.asStr_of_new (new_of_elim h)
  have hread := (read_eq_some_iff credentialText_injective).mpr
    ((credentialText_enrol B password _).trans htext.symm)
  refine ⟨_, hread, readFields_of_read hread ?_⟩
  rw [htext]
  exact not_roundsAsSalt (storedSalt_alphabet _) (storedSalt_length_le _) _ _ _

theorem verifyPasswordRef_accepts_iff (self : Sha512Crypt) (password : List UInt8)
    (hash : PasswordHashRef) :
    verifyPasswordRef profile B self password hash = .ok (.ok ()) ↔
      ∃ credential ∈ readFields hash, Accepts (shaCryptDigest B) password credential := by
  rw [verifyPasswordRef_eq_ok_iff]
  constructor
  · rintro ⟨hid, digits, salt, hfields⟩
    refine ⟨enrol (shaCryptDigest B) password (.ofParts digits salt), ?_, accepts_enrol _⟩
    exact readFields_eq_some_iff.mpr ⟨hid, digits, salt, hfields, rfl⟩
  · rintro ⟨credential, hread, haccepts⟩
    obtain ⟨hid, digits, salt, hfields, hsetting⟩ := readFields_eq_some_iff.mp hread
    refine ⟨hid, digits, salt, ?_⟩
    rw [Accepts, ← hsetting] at haccepts
    rw [← haccepts] at hfields
    exact hfields

/-- The interfaces refine one scheme. Each hash is the text of an enrolled
credential, each verdict is the verdict on the credential that is read, and the
two readings never see different credentials in one text. -/
theorem entry_points_refine :
    (∀ (password : Password) (salt : BoundedBytes),
      hashWithSalt profile B password salt.bytes =
        .ok (credentialText
          (enrol (shaCryptDigest B) password.bytes (SaltSpec.denote salt.bytes)))) ∧
    (∀ (rng : Csprng) (password : List UInt8) (rounds : Option UInt32) (out : List UInt8),
      hash profile B rng (.fromBytes password) rounds = .ok out →
        ∃ setting, read credentialText out =
          some (enrol (shaCryptDigest B) password setting)) ∧
    (∀ (self : Sha512Crypt) (password : List UInt8) (salt : BoundedBytes)
      (algorithm : Option (List UInt8)) (version : Option UInt32) (params : Sha512CryptParams)
      (hashed : PasswordHashRef),
      hashPasswordCustomized profile B mcf self password salt.bytes algorithm version params =
          .ok (.ok hashed) →
        ∃ setting,
          read credentialText hashed.asStr =
            some (enrol (shaCryptDigest B) password setting) ∧
          readFields hashed = some (enrol (shaCryptDigest B) password setting)) ∧
    (∀ (password : Password) (hash : Str),
      verify profile B password hash = .ok (.ok true) ↔
        ∃ credential ∈ read credentialText hash.bytes,
          Accepts (shaCryptDigest B) password.bytes credential) ∧
    (∀ (self : Sha512Crypt) (password : List UInt8) (hash : PasswordHashRef),
      verifyPasswordRef profile B self password hash = .ok (.ok ()) ↔
        ∃ credential ∈ readFields hash, Accepts (shaCryptDigest B) password credential) ∧
    ∀ (hash : PasswordHashRef) (credential : ShaCryptCredential),
      read credentialText hash.asStr = some credential →
        (∀ credential', readFields hash = some credential' → credential = credential') ∧
        (¬ RoundsAsSalt hash.asStr → readFields hash = some credential) := by
  refine ⟨?_, ?_, ?_, ?_, verifyPasswordRef_accepts_iff profile B, ?_⟩
  · intro password salt
    exact hashWithSalt_eq profile B password salt.length_le
  · intro rng password rounds out hout
    obtain ⟨_, drawn, _, htext⟩ := (hash_eq_ok_iff rng out).mp hout
    exact ⟨_, (read_eq_some_iff credentialText_injective).mpr htext.symm⟩
  · intro self password salt algorithm version params hashed hhashed
    exact readings_of_hashed profile B mcf hhashed
  · intro password hash
    rw [verify_eq_true_iff, exists_read_iff credentialText_injective]
    constructor
    · rintro ⟨spec, htext⟩
      exact ⟨spec, htext.symm⟩
    · rintro ⟨spec, htext⟩
      exact ⟨spec, htext.symm⟩
  · intro hash credential hread
    exact ⟨fun _ => readings_agree hread, readFields_of_read hread⟩

end EntryPoints

end CryptSha512.CredentialRefinement
