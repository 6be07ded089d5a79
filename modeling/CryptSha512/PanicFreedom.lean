import CryptSha512.HashGeneration

namespace CryptSha512.PanicFreedom

open CryptSha512.AsciiNumbers
open CryptSha512.CheckedExecution
open CryptSha512.CryptInner
open CryptSha512.CryptRefinement
open CryptSha512.CryptoBackend
open CryptSha512.DecimalText
open CryptSha512.DigestComputation
open CryptSha512.HashGeneration
open CryptSha512.NativeVerification
open CryptSha512.PasswordHashTraits
open CryptSha512.SaltSpecBuilding
open CryptSha512.SaltSpecGrammar
open CryptSha512.TraitVerification
open CryptSha512.Utf8Text

section Printing

variable (B : Backend)

/-- `hash` returns, or stops because no random bytes could be drawn. -/
def HashCompletes (profile : Profile) (rng : Csprng) (password : Password)
    (rounds : Option UInt32) : Prop :=
  (∃ out, hash profile B rng password rounds = .ok out) ∨
    (rng.fill saltLenMax = none ∧ hash profile B rng password rounds = .error .entropy)

theorem hashCompletes_of_lt (profile : Profile) (rng : Csprng) (password : Password)
    {rounds : Option UInt32} (h : (rounds.getD roundsDefault).toNat < 10 ^ 9) :
    HashCompletes B profile rng password rounds := by
  cases hrng : rng.fill saltLenMax with
  | none =>
      exact .inr ⟨hrng, hash_of_fill_none profile B hrng password.bytes rounds (.inl h)⟩
  | some drawn =>
      exact .inl ⟨_, hash_eq profile B hrng password.bytes rounds (.inl h)⟩

/-- With overflow checks the printer completes, and appends the canonical
numeral, exactly on values of at most nine digits. The same values are those on
which `hash` completes. -/
theorem printing_completes_iff :
    (∀ (value : UInt32) (output : List UInt8),
      (pushU32AsAscii .debug value output = .ok (output ++ decimal value.toNat) ↔
        value.toNat < 10 ^ 9) ∧
      (10 ^ 9 ≤ value.toNat →
        pushU32AsAscii .debug value output = .error .arithmeticOverflow)) ∧
    (∀ (rng : Csprng) (password : Password) (rounds : UInt32),
      (HashCompletes B .debug rng password (some rounds) ↔ rounds.toNat < 10 ^ 9) ∧
      (10 ^ 9 ≤ rounds.toNat →
        hash .debug B rng password (some rounds) = .error .arithmeticOverflow)) := by
  constructor
  · intro value output
    refine ⟨?_, fun hlarge => pushU32AsAscii_underflow hlarge output⟩
    constructor
    · intro hprint
      by_contra hlarge
      rw [pushU32AsAscii_underflow (Nat.le_of_not_lt hlarge)] at hprint
      contradiction
    · intro hsmall
      exact pushU32AsAscii_eq (.inl hsmall) output
  · intro rng password rounds
    refine ⟨?_, fun hlarge => hash_underflow hlarge⟩
    constructor
    · intro hcompletes
      by_contra hlarge
      have hfault : hash .debug B rng password (some rounds) = .error .arithmeticOverflow :=
        hash_underflow (Nat.le_of_not_lt hlarge)
      rcases hcompletes with ⟨out, hout⟩ | ⟨_, hentropy⟩
      · rw [hfault] at hout
        contradiction
      · rw [hfault] at hentropy
        contradiction
    · intro hsmall
      exact hashCompletes_of_lt B .debug rng password hsmall

end Printing

theorem printing_billion_underflows :
    pushU32AsAscii .debug 1000000000 [] = .error .arithmeticOverflow ∧
      hash .debug (.buffered fun _ => .replicate 64 0) (.drawing (.replicate 16 0)) ⟨[]⟩
        (some 1000000000) = .error .arithmeticOverflow :=
  ⟨pushU32AsAscii_underflow (by decide) [], hash_underflow (by decide)⟩

section Completion

variable (profile : Profile) (B : Backend)

theorem verify_completes (password : Password) (hash : Str) :
    ∃ verdict, verify profile B password hash = .ok verdict := by
  rcases em (HasCut hash.bytes) with hhash | hhash
  · obtain ⟨setting, digest, hcut, hdigest⟩ := exists_cut_of_hasCut hhash
    exact ⟨_, verify_of_cut profile B password hcut hdigest⟩
  · exact ⟨_, verify_of_not_hasCut profile B password hhash⟩

theorem verifyPasswordRef_completes (self : Sha512Crypt) (password : List UInt8)
    (hash : PasswordHashRef) :
    ∃ verdict, verifyPasswordRef profile B self password hash = .ok verdict := by
  rcases eq_or_ne hash.id sha512CryptId with hid | hid
  · obtain ⟨digits, rest, hfields⟩ := splitsRounds_exists hash.fields
    rcases eq_or_ne rest.length 2 with hlength | hlength
    · obtain ⟨salt, expected, rfl⟩ := List.length_eq_two.mp hlength
      exact ⟨_, verifyPasswordRef_of_fields profile B self password hid hfields⟩
    · exact ⟨_, verifyPasswordRef_of_length_ne profile B self password hid hfields hlength⟩
  · exact ⟨_, verifyPasswordRef_of_id_ne profile B self password hid⟩

theorem verifyPassword_completes (mcf : Mcf) (self : Sha512Crypt) (password : List UInt8)
    (hash : Str) : ∃ verdict, verifyPassword profile B mcf self password hash = .ok verdict := by
  cases hparsed : mcf.new hash.bytes with
  | none => exact ⟨_, verifyPassword_of_new_none profile B self password hparsed⟩
  | some parsed =>
      rw [verifyPassword_of_new profile B self password hparsed]
      exact verifyPasswordRef_completes profile B self password parsed

theorem cryptInner_completes (key : List UInt8) (salt : BoundedBytes) :
    ∃ settings buffers returned,
      parseSettings profile salt.bytes = .ok settings ∧
      settings.salt.length ≤ saltLenMax ∧ settings.rounds.toNat < 10 ^ 9 ∧
      computeDigest profile B key settings.salt settings.rounds = .ok buffers ∧
      cryptInner profile B key salt.bytes = .ok returned := by
  refine ⟨settingsOf (SaltSpec.denote salt.bytes), _, _, parseSettings_eq profile salt.length_le,
    (SaltSpec.denote salt.bytes).salt_length_le, ?_, computeDigest_eq profile B key _ _,
    cryptInner_eq profile B key salt.length_le⟩
  rw [settingsOf, toNat_effectiveRounds]
  exact Nat.lt_of_le_of_lt (SaltSpec.denote salt.bytes).effectiveRounds_mem.2 (by decide)

/-- No execution of the core or of a verifier ends in a fault, whatever the
build profile is. The core prints only counts that the printer completes on. -/
theorem core_and_verifiers_complete :
    (∀ (password : Password) (salt : BoundedBytes),
      ∃ settings buffers returned,
        parseSettings profile salt.bytes = .ok settings ∧
        settings.salt.length ≤ saltLenMax ∧
        (∀ output, pushU32AsAscii profile settings.rounds output =
          .ok (output ++ decimal settings.rounds.toNat)) ∧
        computeDigest profile B password.bytes settings.salt settings.rounds = .ok buffers ∧
        cryptInner profile B password.bytes salt.bytes = .ok returned ∧
        hashWithSalt profile B password salt.bytes = .ok returned.1) ∧
    (∀ (password : Password) (hash : Str),
      ∃ verdict, verify profile B password hash = .ok verdict) ∧
    (∀ (self : Sha512Crypt) (password : List UInt8) (hash : PasswordHashRef),
      ∃ verdict, verifyPasswordRef profile B self password hash = .ok verdict) ∧
    (∀ (mcf : Mcf) (self : Sha512Crypt) (password : List UInt8) (hash : Str),
      ∃ verdict, verifyPassword profile B mcf self password hash = .ok verdict) := by
  refine ⟨?_, verify_completes profile B, verifyPasswordRef_completes profile B,
    verifyPassword_completes profile B⟩
  intro password salt
  obtain ⟨settings, buffers, returned, hsettings, hsalt, hrounds, hbuffers, hreturned⟩ :=
    cryptInner_completes profile B password.bytes salt
  refine ⟨settings, buffers, returned, hsettings, hsalt, pushU32AsAscii_eq (.inl hrounds),
    hbuffers, hreturned, ?_⟩
  rw [cryptInner] at hreturned
  simp only [hashWithSalt, hashWithSaltReturned, hashWithSaltReturnedWith, Password.intoBytes,
    hreturned, ok_bind, pure_eq_ok]

end Completion

end CryptSha512.PanicFreedom
