import CryptSha512.ParamsText
import CryptSha512.RawSalts
import CryptSha512.HashGeneration

namespace CryptSha512.TraitRehashing

open CryptSha512.AsciiNumbers
open CryptSha512.CheckedExecution
open CryptSha512.CryptBase64
open CryptSha512.CryptInner
open CryptSha512.CryptRefinement
open CryptSha512.CryptoBackend
open CryptSha512.DecimalText
open CryptSha512.DelimitedText
open CryptSha512.HashGeneration
open CryptSha512.NativeVerification
open CryptSha512.ParamsText
open CryptSha512.PasswordHashTraits
open CryptSha512.RawSalts
open CryptSha512.SaltSpecBuilding
open CryptSha512.SaltSpecGrammar
open CryptSha512.TraitVerification
open CryptSha512.Utf8Text

/-- The text of the rounds field, or nothing where hashing omits it. -/
def recordedParams (params : Sha512CryptParams) : Str :=
  if params.rounds = roundsDefault then ⟨⟨[], by decide⟩, IsAscii.isUtf8 (by decide)⟩
  else toString params

theorem fromStr_recordedParams (params : Sha512CryptParams) :
    Sha512CryptParams.fromStr (recordedParams params) = .ok params := by
  rw [recordedParams]
  split
  · rename_i hdefault
    rw [fromStr_of_nil rfl]
    have hsame : Sha512CryptParams.default = params := by
      apply params_ext
      rw [hdefault]
      rfl
    rw [hsame]
  · exact fromStr_toString params

theorem recordedParams_field (params : Sha512CryptParams) :
    (if (recordedParams params).bytes = [] then [] else [(recordedParams params).bytes]) =
      if params.rounds = roundsDefault then []
        else [sha512RoundsPrefix ++ decimal params.rounds.toNat] := by
  rw [recordedParams]
  split
  · rfl
  · rfl

section Rehashing

variable {profile : Profile} {B : Backend} {mcf : Mcf} {self : Sha512Crypt}
variable {password salt : List UInt8} {algorithm : Option (List UInt8)}
variable {version : Option UInt32} {params : Sha512CryptParams} {hashed : PasswordHashRef}

theorem accepted_of_hashed
    (h : hashPasswordCustomized profile B mcf self password salt algorithm version params =
      .ok (.ok hashed)) :
    (algorithm = none ∨ algorithm = some sha512CryptId) ∧ version = none ∧ salt ≠ [] := by
  by_contra hrejected
  obtain ⟨error, herror⟩ := hashPasswordCustomizedWith_of_rejected hrejected
  rw [hashPasswordCustomized, herror] at h
  have hinner := Except.ok.inj h
  contradiction

theorem new_of_elim {text : List UInt8}
    (h : (.ok ((mcf.new text).elim (.error .encodingInvalid) .ok) :
      Exec (Except Error PasswordHashRef)) = .ok (.ok hashed)) :
    mcf.new text = some hashed := by
  have hinner := Except.ok.inj h
  cases hnew : mcf.new text with
  | none =>
      rw [hnew] at hinner
      contradiction
  | some parsed =>
      rw [hnew] at hinner
      rw [Except.ok.inj hinner]

theorem rehash_eq_iff (profile : Profile) (B : Backend) (params : Sha512CryptParams)
    {raw : BoundedBytes} (hraw : raw.bytes ≠ []) {text : List UInt8}
    (hnew : mcf.new text = some hashed) (other : List UInt8) :
    hashPasswordWithSalt profile B mcf (.new params) other raw.bytes = .ok (.ok hashed) ↔
      text = hashText B.sha512 other (builtSpec params.rounds (storedSalt raw.bytes)) := by
  have hhash : hashPasswordCustomized profile B mcf (.new params) other raw.bytes none none
      params = _ :=
    hashPasswordCustomized_eq_elim profile B (.new params) other raw hraw (.inl rfl) params
  rw [hashPasswordWithSalt]
  constructor
  · intro h
    rw [← mcf.asStr_of_new hnew]
    exact mcf.asStr_of_new (new_of_elim (hhash.symm.trans h))
  · rintro rfl
    refine hhash.trans ?_
    rw [hnew]
    rfl

theorem trait_accepts_iff {spec : SaltSpec}
    (htext : hashed.asStr = hashText B.sha512 password spec)
    (hshape : ¬ RoundsAsSalt hashed.asStr) (other : List UInt8) :
    verifyPasswordRef profile B self other hashed = .ok (.ok ()) ↔
      hashed.asStr = hashText B.sha512 other spec := by
  constructor
  · intro hverify
    obtain ⟨hid, digits, field, hfields⟩ :=
      (verifyPasswordRef_eq_ok_iff profile B self other hashed).mp hverify
    have hsplit := asStr_eq hid hfields
    obtain ⟨hrender, _⟩ := last_cut_inj (dollar_not_mem_digestText _)
      (dollar_not_mem_digestText _) (hsplit.symm.trans htext)
    have hspec : SaltSpec.ofParts digits field = spec := by
      rw [← SaltSpec.denote_render spec, ← hrender,
        denote_rebuildSpec (all_isDigit_of_splitsRounds hfields)
          (dollar_not_mem_fields hfields).1]
    rw [hsplit, hspec, hrender]
    rfl
  · intro hother
    exact verifyPasswordRef_hashText self hother hshape

theorem native_accepts_iff (profile : Profile) {spec : SaltSpec} {text : Str}
    (htext : text.bytes = hashText B.sha512 password spec) (other : List UInt8) :
    verify profile B (.fromBytes other) text = .ok (.ok true) ↔
      text.bytes = hashText B.sha512 other spec := by
  rw [verify_eq_true_iff]
  constructor
  · rintro ⟨spec', hother⟩
    obtain ⟨rfl, _⟩ := hashText_inj (htext.symm.trans hother)
    exact hother
  · exact fun hother => ⟨spec, hother⟩

/-- A hash made through the traits describes itself. Its rounds field reads back
as the parameters, its salt field decodes to the twelve bytes that were used of
the raw salt, and either verifier accepts a password exactly if hashing it with
these two gives the same hash. -/
theorem hashed_describes_itself {salt : BoundedBytes}
    (h : hashPasswordCustomized profile B mcf self password salt.bytes algorithm version params =
      .ok (.ok hashed)) :
    ∃ (paramsText : Str) (field digest : List UInt8),
      hashed.id = sha512CryptId ∧
      hashed.fields = (if paramsText.bytes = [] then [] else [paramsText.bytes]) ++
        [field, digest] ∧
      Sha512CryptParams.fromStr paramsText = .ok params ∧
      uncryptBase64 field = salt.bytes.take 12 ∧
      ∀ (profile' : Profile) (other : List UInt8) (verifier : Sha512Crypt),
        (verifyPasswordRef profile' B verifier other hashed = .ok (.ok ()) ↔
          hashPasswordWithSalt profile' B mcf (.new params) other (uncryptBase64 field) =
            .ok (.ok hashed)) ∧
        ∀ text : Str, text.bytes = hashed.asStr →
          (verify profile' B (.fromBytes other) text = .ok (.ok true) ↔
            hashPasswordWithSalt profile' B mcf (.new params) other (uncryptBase64 field) =
              .ok (.ok hashed)) := by
  obtain ⟨halgorithm, rfl, hsalt⟩ := accepted_of_hashed h
  rw [hashPasswordCustomized_eq_elim profile B self password salt hsalt halgorithm params] at h
  have hnew := new_of_elim h
  have htext := mcf.asStr_of_new hnew
  obtain ⟨hid, hfields⟩ := fields_of_hashText htext
  have hdecoded : uncryptBase64 (storedSalt salt.bytes) = salt.bytes.take 12 := by
    rw [storedSalt_eq_take, uncryptBase64_cryptBase64]
  have hshape : ¬ RoundsAsSalt hashed.asStr := by
    rw [htext]
    exact not_roundsAsSalt (storedSalt_alphabet _) (storedSalt_length_le _) _ _ _
  let raw : BoundedBytes :=
    ⟨salt.bytes.take 12, Nat.le_trans (List.length_take_le 12 _) (by decide)⟩
  have hraw : raw.bytes ≠ [] := by
    simpa [raw, List.take_eq_nil_iff] using hsalt
  have hstored : storedSalt raw.bytes = storedSalt salt.bytes := by
    rw [storedSalt_eq_iff, List.take_take]
    rfl
  have hrecorded := hfields
  rw [hashFields_builtSpec, ← recordedParams_field] at hrecorded
  refine ⟨recordedParams params, storedSalt salt.bytes, _, hid, hrecorded,
    fromStr_recordedParams params, hdecoded, ?_⟩
  intro profile' other verifier
  have hrehash := rehash_eq_iff profile' B params hraw hnew other
  rw [hstored, ← htext] at hrehash
  rw [hdecoded]
  refine ⟨(trait_accepts_iff htext hshape other).trans hrehash.symm, ?_⟩
  intro text hbytes
  have hverify := native_accepts_iff profile' (hbytes.trans htext) other
  rw [hbytes] at hverify
  exact hverify.trans hrehash.symm

end Rehashing

theorem hashed_describes_itself_long_salt :
    ∃ (hashed : PasswordHashRef),
      hashPasswordCustomized .debug (.buffered fun _ => .replicate 64 0) .splitting
        (.new .default) [1] (List.replicate 20 255) none none ⟨10000, by decide⟩ =
          .ok (.ok hashed) ∧
      ∃ (paramsText : Str) (field digest : List UInt8),
        hashed.id = sha512CryptId ∧
        hashed.fields = (if paramsText.bytes = [] then [] else [paramsText.bytes]) ++
          [field, digest] ∧
        Sha512CryptParams.fromStr paramsText = .ok ⟨10000, by decide⟩ ∧
        uncryptBase64 field = (List.replicate 20 255).take 12 ∧
        ∀ (profile' : Profile) (other : List UInt8) (verifier : Sha512Crypt),
          (verifyPasswordRef profile' (.buffered fun _ => .replicate 64 0) verifier other hashed =
              .ok (.ok ()) ↔
            hashPasswordWithSalt profile' (.buffered fun _ => .replicate 64 0) .splitting
              (.new ⟨10000, by decide⟩) other (uncryptBase64 field) = .ok (.ok hashed)) ∧
          ∀ text : Str, text.bytes = hashed.asStr →
            (verify profile' (.buffered fun _ => .replicate 64 0) (.fromBytes other) text =
                .ok (.ok true) ↔
              hashPasswordWithSalt profile' (.buffered fun _ => .replicate 64 0) .splitting
                (.new ⟨10000, by decide⟩) other (uncryptBase64 field) = .ok (.ok hashed)) := by
  let salt : BoundedBytes := ⟨List.replicate 20 255, by decide⟩
  obtain ⟨_, hashed, hhashed, _⟩ := hashPasswordCustomized_eq .debug
    (.buffered fun _ => .replicate 64 0) Mcf.splitting_acceptsCrypt (.new .default) [1] salt
    (by decide) (.inl rfl) ⟨10000, by decide⟩
  exact ⟨hashed, hhashed, hashed_describes_itself hhashed⟩

end CryptSha512.TraitRehashing
