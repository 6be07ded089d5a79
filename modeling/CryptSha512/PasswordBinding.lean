import CryptSha512.DigestLog
import CryptSha512.TraitVerification

namespace CryptSha512.PasswordBinding

open CryptSha512.AsciiNumbers
open CryptSha512.CheckedExecution
open CryptSha512.CryptBase64
open CryptSha512.CryptInner
open CryptSha512.CryptRefinement
open CryptSha512.CryptoBackend
open CryptSha512.DelimitedText
open CryptSha512.DigestComputation
open CryptSha512.DigestLog
open CryptSha512.DigestTexts
open CryptSha512.HashChains
open CryptSha512.NativeVerification
open CryptSha512.PasswordHashTraits
open CryptSha512.SaltSpecGrammar
open CryptSha512.ShaCryptDefinition
open CryptSha512.TraitVerification
open CryptSha512.Utf8Text

/-- A run of `hash_with_salt`, with the texts that it hashes. -/
structure HashRun (profile : Profile) (B : Backend) (password : Password)
    (salt : List UInt8) where
  settings : Settings
  buffers : Buffers
  log : Log
  out : List UInt8
  parsed : parseSettings profile salt = .ok settings
  computed : computeDigest profile B password.bytes settings.salt settings.rounds = .ok buffers
  logged : computeDigestLogged profile B password.bytes settings.salt settings.rounds =
    .ok (buffers, log)
  returned : hashWithSalt profile B password salt = .ok out

theorem settingsOf_injective : Function.Injective settingsOf := by
  intro spec spec' h
  have hrounds : (settingsOf spec).rounds.toNat = (settingsOf spec').rounds.toNat := by rw [h]
  simp only [settingsOf, toNat_effectiveRounds] at hrounds
  have hcustom : spec.rounds.isSome = spec'.rounds.isSome := congrArg Settings.roundsCustom h
  ext1
  · cases hspec : spec.rounds with
    | none =>
        rw [hspec] at hcustom
        exact (Option.isNone_iff_eq_none.mp (by simpa using hcustom.symm)).symm
    | some n =>
        rw [hspec, Option.isSome_some] at hcustom
        obtain ⟨n', hspec'⟩ := Option.isSome_iff_exists.mp hcustom.symm
        rw [SaltSpec.effectiveRounds, SaltSpec.effectiveRounds, hspec, hspec'] at hrounds
        rw [hspec']
        exact congrArg some hrounds
  · exact congrArg Settings.salt h

section Runs

variable (profile : Profile) (B : Backend)

theorem exists_hashRun (password : Password) (salt : BoundedBytes) :
    ∃ run : HashRun profile B password salt.bytes,
      run.settings = settingsOf (SaltSpec.denote salt.bytes) ∧
      run.buffers.result = shaCrypt B.sha512 password.bytes (SaltSpec.denote salt.bytes).salt
        (SaltSpec.denote salt.bytes).effectiveRounds ∧
      run.log = digestTexts B.sha512 password.bytes (SaltSpec.denote salt.bytes).salt
        (SaltSpec.denote salt.bytes).effectiveRounds ∧
      run.out = hashText B.sha512 password.bytes (SaltSpec.denote salt.bytes) := by
  have hrounds := toNat_effectiveRounds (SaltSpec.denote salt.bytes)
  refine ⟨⟨_, _, _, _, parseSettings_eq profile salt.length_le,
    computeDigest_eq profile B password.bytes _ _,
    computeDigestLogged_eq profile B password.bytes _ _,
    hashWithSalt_eq profile B password salt.length_le⟩, rfl, ?_, ?_, rfl⟩
  · simp only [settingsOf, hrounds, digestBuffers]
  · simp only [settingsOf, hrounds]

/-- Results agree exactly if the settings and the digests do, and for one round
count the digest alone binds the password and the effective salt. -/
theorem results_bind (password password' : Password) (salt salt' : BoundedBytes) :
    ∃ (run : HashRun profile B password salt.bytes)
      (run' : HashRun profile B password' salt'.bytes),
      (run.out = run'.out ↔
        run.settings = run'.settings ∧ run.buffers.result = run'.buffers.result) ∧
      (run.settings.rounds = run'.settings.rounds →
        run.buffers.result = run'.buffers.result →
        (password.bytes = password'.bytes ∧ run.settings.salt = run'.settings.salt) ∨
          Collision B.sha512 run.log run'.log) := by
  obtain ⟨run, hsettings, hresult, hlog, hout⟩ := exists_hashRun profile B password salt
  obtain ⟨run', hsettings', hresult', hlog', hout'⟩ := exists_hashRun profile B password' salt'
  refine ⟨run, run', ?_, ?_⟩
  · rw [hout, hout', hsettings, hsettings', hresult, hresult', settingsOf_injective.eq_iff]
    constructor
    · exact hashText_inj
    · rintro ⟨hspec, hdigest⟩
      rw [hashText, hashText, hdigest, hspec]
  · rw [hsettings, hsettings', hresult, hresult', hlog, hlog']
    intro hrounds hdigest
    have heffective := congrArg UInt32.toNat hrounds
    simp only [settingsOf, toNat_effectiveRounds] at heffective
    rw [← heffective] at hdigest ⊢
    have hpos := (SaltSpec.denote salt.bytes).effectiveRounds_mem.1
    exact shaCrypt_eq_or_collision (by omega) hdigest

/-- Whatever else another backend computes, it returns the same string if its
SHA-512 agrees on the texts that the run hashes. -/
theorem result_needs_logged_texts (password : Password) (salt : BoundedBytes)
    (profile' : Profile) (B' : Backend) :
    ∃ run : HashRun profile B password salt.bytes,
      (∀ text ∈ run.log, B.sha512 text = B'.sha512 text) →
        hashWithSalt profile' B' password salt.bytes = .ok run.out := by
  obtain ⟨run, _, _, hlog, hout⟩ := exists_hashRun profile B password salt
  refine ⟨run, ?_⟩
  intro hagree
  rw [hlog] at hagree
  rw [hashWithSalt_eq profile' B' password salt.length_le, hout, hashText, hashText,
    shaCrypt_congr hagree]

end Runs

section Accepted

variable (profile : Profile) (B : Backend) (mcf : Mcf) (self : Sha512Crypt)

/-- One of the two verifiers accepts the password. -/
def Accepts (password : List UInt8) (hash : Str) : Prop :=
  verify profile B (.fromBytes password) hash = .ok (.ok true) ∨
    verifyPassword profile B mcf self password hash = .ok (.ok ())

variable {profile B mcf self}

theorem Accepts.cut {password : List UInt8} {hash : Str}
    (h : Accepts profile B mcf self password hash) :
    ∃ setting, hash.bytes = setting ++ dollar :: digestText (shaCrypt B.sha512 password
      (SaltSpec.denote setting).salt (SaltSpec.denote setting).effectiveRounds) := by
  rcases h with hnative | htrait
  · obtain ⟨spec, hspec⟩ := (verify_eq_true_iff profile B (.fromBytes password) hash).mp hnative
    refine ⟨spec.render, ?_⟩
    rw [hspec, SaltSpec.denote_render]
    rfl
  · obtain ⟨parsed, digits, salt, hparsed, hid, hfields⟩ :=
      exists_fields_of_accepted profile B htrait
    refine ⟨rebuildSpec digits salt, ?_⟩
    rw [denote_rebuildSpec (all_isDigit_of_splitsRounds hfields)
      (dollar_not_mem_fields hfields).1, ← mcf.asStr_of_new hparsed, asStr_eq hid hfields]

/-- Two passwords accepted for one hash, by whichever verifiers, are equal or
exhibit a collision of SHA-512 among the texts of the two verifications. -/
theorem accepted_passwords_bind {password password' : List UInt8} {hash : Str}
    (h : Accepts profile B mcf self password hash)
    (h' : Accepts profile B mcf self password' hash) :
    ∃ (salt : BoundedBytes) (digest : List UInt8)
      (run : HashRun profile B (.fromBytes password) salt.bytes)
      (run' : HashRun profile B (.fromBytes password') salt.bytes),
      hash.bytes = salt.bytes ++ dollar :: digest ∧ dollar ∉ digest ∧
      (password = password' ∨ Collision B.sha512 run.log run'.log) := by
  obtain ⟨setting, hcut⟩ := h.cut
  obtain ⟨setting', hcut'⟩ := h'.cut
  obtain ⟨rfl, hdigest⟩ := last_cut_inj (dollar_not_mem_digestText _)
    (dollar_not_mem_digestText _) (hcut.symm.trans hcut')
  have hlength : setting.length ≤ isizeMax := by
    apply Nat.le_trans _ hash.length_le
    rw [hcut]
    exact (List.prefix_append _ _).length_le
  obtain ⟨run, _, _, hlog, _⟩ :=
    exists_hashRun profile B (.fromBytes password) ⟨setting, hlength⟩
  obtain ⟨run', _, _, hlog', _⟩ :=
    exists_hashRun profile B (.fromBytes password') ⟨setting, hlength⟩
  have hpos := (SaltSpec.denote setting).effectiveRounds_mem.1
  refine ⟨⟨setting, hlength⟩, _, run, run', hcut, dollar_not_mem_digestText _, ?_⟩
  rw [hlog, hlog']
  rcases shaCrypt_eq_or_collision (by omega) (digestText_injective hdigest) with
    ⟨hsame, _⟩ | hcollision
  · exact .inl hsame
  · exact .inr hcollision

end Accepted

theorem accepted_passwords_bind_of_constant :
    ∃ (hash : Str) (salt : BoundedBytes) (digest : List UInt8)
      (run : HashRun .release (.buffered fun _ => .replicate 64 0) (.fromBytes [1]) salt.bytes)
      (run' : HashRun .release (.buffered fun _ => .replicate 64 0) (.fromBytes [2]) salt.bytes),
      hash.bytes = salt.bytes ++ dollar :: digest ∧ dollar ∉ digest ∧
      (([1] : List UInt8) = [2] ∨
        Collision (Backend.buffered fun _ => .replicate 64 0).sha512 run.log run'.log) := by
  let B : Backend := .buffered fun _ => .replicate 64 0
  let spec : SaltSpec := ⟨none, [], by simp, by decide, by decide⟩
  let hash : Str := ⟨⟨hashText B.sha512 [1] spec, hashText_length_le _ _ _⟩,
    (isUtf8_hashText_iff _ _ spec).mpr isUtf8_nil⟩
  have hother : hash.bytes = hashText B.sha512 [2] spec := rfl
  have hfirst := (verify_eq_true_iff .release B (.fromBytes [1]) hash).mpr ⟨spec, rfl⟩
  have hsecond := (verify_eq_true_iff .release B (.fromBytes [2]) hash).mpr ⟨spec, hother⟩
  have haccepts : Accepts .release B .splitting (.new .default) [1] hash := .inl hfirst
  exact ⟨hash, accepted_passwords_bind haccepts (.inl hsecond)⟩

end CryptSha512.PasswordBinding
