import CryptSha512.DrawnSalts
import CryptSha512.EncodingLaws
import CryptSha512.TraitRehashing

namespace CryptSha512.GeneratedHashes

open CryptSha512.AsciiNumbers
open CryptSha512.CheckedExecution
open CryptSha512.CryptBase64
open CryptSha512.CryptInner
open CryptSha512.CryptRefinement
open CryptSha512.CryptoBackend
open CryptSha512.DrawnSalts
open CryptSha512.EncodingLaws
open CryptSha512.HashGeneration
open CryptSha512.PasswordHashTraits
open CryptSha512.SaltSpecBuilding
open CryptSha512.RawSalts
open CryptSha512.SaltSpecGrammar
open CryptSha512.SextetPacking
open CryptSha512.TraitRehashing

section Specifications

variable {salt : List UInt8} {spec : SaltSpec}

theorem eq_builtSpec_iff (halphabet : ∀ byte ∈ salt, byte ∈ b64Chars.toList)
    (hlength : salt.length ≤ saltLenMax) (requested : UInt32) :
    spec = builtSpec requested salt ↔
      spec.salt = salt ∧ spec.rounds = (builtSpec requested salt).rounds := by
  constructor
  · rintro rfl
    exact ⟨salt_builtSpec halphabet hlength requested, rfl⟩
  · rintro ⟨hsalt, hrounds⟩
    ext1
    · exact hrounds
    · rw [hsalt, salt_builtSpec halphabet hlength]

theorem rounds_builtSpec_ne (requested : UInt32) (salt : List UInt8) :
    (builtSpec requested salt).rounds ≠ some 5000 := by
  have hdefault := clampRounds_eq_default_iff requested
  rw [rounds_builtSpec]
  split
  · simp
  · rename_i hrequested
    simpa using mt hdefault.mp hrequested

theorem exists_params_of_rounds (h : spec.rounds ≠ some 5000) (salt : List UInt8) :
    ∃ params : Sha512CryptParams, spec.rounds = (builtSpec params.rounds salt).rounds := by
  cases hrounds : spec.rounds with
  | none =>
      refine ⟨.default, ?_⟩
      rw [rounds_builtSpec]
      rfl
  | some n =>
      obtain ⟨hmin, hmax⟩ := spec.rounds_mem n hrounds
      have htoNat : (UInt32.ofNat n).toNat = n := by
        rw [UInt32.toNat_ofNat']
        exact Nat.mod_eq_of_lt (by omega)
      have hmem : roundsMin ≤ UInt32.ofNat n ∧ UInt32.ofNat n ≤ roundsMax := by
        rw [UInt32.le_iff_toNat_le, UInt32.le_iff_toNat_le, htoNat]
        exact ⟨hmin, hmax⟩
      refine ⟨⟨UInt32.ofNat n, hmem⟩, ?_⟩
      have hclamp : clampRounds n = n := clampRounds_of_mem ⟨hmin, hmax⟩
      have hdefault := clampRounds_eq_default_iff (UInt32.ofNat n)
      rw [htoNat, hclamp] at hdefault
      rw [rounds_builtSpec, if_neg, htoNat, hclamp]
      intro hrequested
      rw [hdefault.mpr hrequested] at hrounds
      exact h hrounds

theorem exists_drawn (halphabet : ∀ byte ∈ salt, byte ∈ b64Chars.toList) :
    ∃ drawn : List UInt8, drawn.map saltByte = salt := by
  induction salt with
  | nil => exact ⟨[], rfl⟩
  | cons char salt ih =>
      obtain ⟨drawn, hdrawn⟩ := ih fun byte hbyte => halphabet byte (List.mem_cons_of_mem _ hbyte)
      obtain ⟨byte, hbyte⟩ := (fibreEquiv (halphabet char List.mem_cons_self)).symm 0
      exact ⟨byte :: drawn, by rw [List.map_cons, hbyte, hdrawn]⟩

theorem canonicalTail_of_full (halphabet : ∀ byte ∈ salt, byte ∈ b64Chars.toList)
    (hlength : salt.length % 4 = 0) : CanonicalTail (salt.map alphabetDigit) :=
  (exists_cryptBase64_iff halphabet).mp ⟨_, cryptBase64_uncryptBase64 halphabet hlength⟩

theorem exists_storedSalt_iff (halphabet : ∀ byte ∈ salt, byte ∈ b64Chars.toList)
    (hlength : salt.length ≤ saltLenMax) :
    (∃ raw : BoundedBytes, raw.bytes ≠ [] ∧ storedSalt raw.bytes = salt) ↔
      salt ≠ [] ∧ CanonicalTail (salt.map alphabetDigit) := by
  rw [← exists_cryptBase64_iff halphabet]
  constructor
  · rintro ⟨raw, hraw, rfl⟩
    refine ⟨?_, raw.bytes.take 12, (storedSalt_eq_take raw.bytes).symm⟩
    apply List.ne_nil_of_length_pos
    have htwo := two_le_storedSalt_length hraw
    omega
  · rintro ⟨hne, bytes, rfl⟩
    have hbytes : bytes.length ≤ isizeMax := by
      rw [cryptBase64_length, saltLenMax] at hlength
      rw [isizeMax]
      omega
    refine ⟨⟨bytes, hbytes⟩, ?_, List.take_of_length_le hlength⟩
    rintro rfl
    exact hne rfl

end Specifications

section Generators

variable (profile : Profile) (B : Backend) (mcf : Mcf) (password : List UInt8)

/-- Some call of `hash` returns this text for the password. -/
def GeneratedNatively (out : List UInt8) : Prop :=
  ∃ rng rounds, hash profile B rng (.fromBytes password) rounds = .ok out

/-- Some call of `hash_password_customized` does. -/
def GeneratedByTraits (out : List UInt8) : Prop :=
  ∃ (self : Sha512Crypt) (raw : BoundedBytes) (algorithm : Option (List UInt8))
    (version : Option UInt32) (params : Sha512CryptParams) (hashed : PasswordHashRef),
    hashPasswordCustomized profile B mcf self password raw.bytes algorithm version params =
      .ok (.ok hashed) ∧ hashed.asStr = out

theorem generatedNatively_iff (spec : SaltSpec) :
    GeneratedNatively profile B password (hashText B.sha512 password spec) ↔
      spec.rounds ≠ some 5000 ∧ (∀ byte ∈ spec.salt, byte ∈ b64Chars.toList) ∧
        spec.salt.length = saltLenMax := by
  constructor
  · rintro ⟨rng, rounds, hhash⟩
    obtain ⟨_, drawn, hdrawn, htext⟩ := (hash_eq_ok_iff rng _).mp hhash
    obtain ⟨hspec, _⟩ := hashText_inj htext
    have halphabet := saltBytes_alphabet drawn
    have hlength := saltBytes_length hdrawn
    rw [hspec, salt_builtSpec halphabet hlength.le]
    exact ⟨rounds_builtSpec_ne _ _, halphabet, hlength⟩
  · rintro ⟨hdefault, halphabet, hlength⟩
    obtain ⟨params, hrounds⟩ := exists_params_of_rounds hdefault spec.salt
    obtain ⟨drawn, hdrawn⟩ := exists_drawn halphabet
    have hfill : (Csprng.drawing drawn).fill saltLenMax = some drawn := by
      rw [drawing_fill_eq_some_iff, ← hlength, ← hdrawn, List.length_map]
      exact ⟨rfl, rfl⟩
    have hspec : spec = builtSpec params.rounds spec.salt :=
      (eq_builtSpec_iff halphabet hlength.le params.rounds).mpr ⟨rfl, hrounds⟩
    refine ⟨.drawing drawn, some params.rounds, ?_⟩
    rw [hash_eq profile B hfill password (some params.rounds) (.inl (params_lt params)),
      hdrawn, Option.getD_some, ← hspec]

variable {mcf}

theorem generatedByTraits_iff (hmcf : mcf.AcceptsCrypt) (spec : SaltSpec) :
    GeneratedByTraits profile B mcf password (hashText B.sha512 password spec) ↔
      spec.rounds ≠ some 5000 ∧ (∀ byte ∈ spec.salt, byte ∈ b64Chars.toList) ∧
        spec.salt ≠ [] ∧ CanonicalTail (spec.salt.map alphabetDigit) := by
  constructor
  · rintro ⟨self, raw, algorithm, version, params, hashed, hhash, htext⟩
    obtain ⟨halgorithm, rfl, hraw⟩ := accepted_of_hashed hhash
    rw [hashPasswordCustomized_eq_elim profile B self password raw hraw halgorithm params]
      at hhash
    rw [mcf.asStr_of_new (new_of_elim hhash)] at htext
    obtain ⟨rfl, _⟩ := hashText_inj htext
    have halphabet := storedSalt_alphabet raw.bytes
    have hlength := storedSalt_length_le raw.bytes
    rw [salt_builtSpec halphabet hlength]
    exact ⟨rounds_builtSpec_ne _ _, halphabet,
      (exists_storedSalt_iff halphabet hlength).mp ⟨raw, hraw, rfl⟩⟩
  · rintro ⟨hdefault, halphabet, hstored⟩
    obtain ⟨params, hrounds⟩ := exists_params_of_rounds hdefault spec.salt
    obtain ⟨raw, hraw, hsalt⟩ :=
      (exists_storedSalt_iff halphabet spec.salt_length_le).mpr hstored
    have hspec : spec = builtSpec params.rounds spec.salt :=
      (eq_builtSpec_iff halphabet spec.salt_length_le params.rounds).mpr ⟨rfl, hrounds⟩
    obtain ⟨_, hashed, hhash, _, _, htext⟩ := hashPasswordCustomized_eq profile B hmcf
      (.new params) password raw hraw (.inl rfl) params
    refine ⟨.new params, raw, none, none, params, hashed, hhash, ?_⟩
    rw [htext, hsalt, ← hspec]

theorem rounds_settingsOf_iff (spec : SaltSpec) :
    ((settingsOf spec).roundsCustom = true ∧ (settingsOf spec).rounds = roundsDefault) ↔
      spec.rounds = some 5000 := by
  have hdefault : roundsDefault.toNat = 5000 := rfl
  have htoNat : (settingsOf spec).rounds.toNat = spec.effectiveRounds :=
    toNat_effectiveRounds spec
  rw [← UInt32.toNat_inj, hdefault, htoNat]
  simp only [settingsOf, SaltSpec.effectiveRounds]
  cases spec.rounds with
  | none => simp
  | some n => simp

/-- The hash over an explicit salt is one that `hash` can return exactly if its
salt is sixteen characters of the alphabet, and one that the traits can return
exactly if its salt is the encoding of some bytes. Neither writes a rounds segment
for the default. So every hash that `hash` can return the traits can return. -/
theorem generated_hashes (hmcf : mcf.AcceptsCrypt) (salt : BoundedBytes) :
    ∃ settings out, parseSettings profile salt.bytes = .ok settings ∧
      hashWithSalt profile B (.fromBytes password) salt.bytes = .ok out ∧
      (GeneratedNatively profile B password out ↔
        ¬ (settings.roundsCustom = true ∧ settings.rounds = roundsDefault) ∧
        (∀ byte ∈ settings.salt, byte ∈ b64Chars.toList) ∧
        settings.salt.length = saltLenMax) ∧
      (GeneratedByTraits profile B mcf password out ↔
        ¬ (settings.roundsCustom = true ∧ settings.rounds = roundsDefault) ∧
        (∀ byte ∈ settings.salt, byte ∈ b64Chars.toList) ∧ settings.salt ≠ [] ∧
        settings.salt.length % 4 ≠ 1 ∧
        (settings.salt.length % 4 = 2 →
          ∀ last ∈ settings.salt.getLast?, alphabetDigit last >>> 2 = 0) ∧
        (settings.salt.length % 4 = 3 →
          ∀ last ∈ settings.salt.getLast?, alphabetDigit last >>> 4 = 0)) ∧
      (GeneratedNatively profile B password out ↔
        GeneratedByTraits profile B mcf password out ∧
          settings.salt.length = saltLenMax) := by
  let spec := SaltSpec.denote salt.bytes
  have hnatively := generatedNatively_iff profile B password spec
  have htraits := generatedByTraits_iff profile B password hmcf spec
  refine ⟨settingsOf spec, hashText B.sha512 password spec,
    parseSettings_eq profile salt.length_le, hashWithSalt_eq profile B _ salt.length_le,
    ?_, ?_, ?_⟩
  · rw [hnatively, rounds_settingsOf_iff]
    rfl
  · rw [htraits, canonicalTail_map_alphabetDigit_iff, rounds_settingsOf_iff]
    rfl
  · rw [hnatively, htraits]
    constructor
    · rintro ⟨hdefault, halphabet, hlength⟩
      refine ⟨⟨hdefault, halphabet, ?_, canonicalTail_of_full halphabet (by rw [hlength]; rfl)⟩,
        hlength⟩
      apply List.ne_nil_of_length_pos
      rw [hlength]
      decide
    · rintro ⟨⟨hdefault, halphabet, _⟩, hlength⟩
      exact ⟨hdefault, halphabet, hlength⟩

end Generators

theorem generated_hashes_abc :
    ∃ settings out,
      parseSettings .debug (['a', 'b', 'c'].map Char.toUInt8) = .ok settings ∧
      hashWithSalt .debug (.buffered fun _ => .replicate 64 0) (.fromBytes [1])
        (['a', 'b', 'c'].map Char.toUInt8) = .ok out ∧
      (GeneratedNatively .debug (.buffered fun _ => .replicate 64 0) [1] out ↔
        ¬ (settings.roundsCustom = true ∧ settings.rounds = roundsDefault) ∧
        (∀ byte ∈ settings.salt, byte ∈ b64Chars.toList) ∧
        settings.salt.length = saltLenMax) ∧
      (GeneratedByTraits .debug (.buffered fun _ => .replicate 64 0) .splitting [1] out ↔
        ¬ (settings.roundsCustom = true ∧ settings.rounds = roundsDefault) ∧
        (∀ byte ∈ settings.salt, byte ∈ b64Chars.toList) ∧ settings.salt ≠ [] ∧
        settings.salt.length % 4 ≠ 1 ∧
        (settings.salt.length % 4 = 2 →
          ∀ last ∈ settings.salt.getLast?, alphabetDigit last >>> 2 = 0) ∧
        (settings.salt.length % 4 = 3 →
          ∀ last ∈ settings.salt.getLast?, alphabetDigit last >>> 4 = 0)) ∧
      (GeneratedNatively .debug (.buffered fun _ => .replicate 64 0) [1] out ↔
        GeneratedByTraits .debug (.buffered fun _ => .replicate 64 0) .splitting [1] out ∧
          settings.salt.length = saltLenMax) :=
  generated_hashes .debug (.buffered fun _ => .replicate 64 0) [1] Mcf.splitting_acceptsCrypt
    ⟨['a', 'b', 'c'].map Char.toUInt8, by decide⟩

end CryptSha512.GeneratedHashes
