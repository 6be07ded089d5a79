import CryptSha512.SaltSpecBuilding

namespace CryptSha512.HashGeneration

open CryptSha512.AsciiNumbers
open CryptSha512.CheckedExecution
open CryptSha512.CryptBase64
open CryptSha512.CryptInner
open CryptSha512.CryptRefinement
open CryptSha512.CryptoBackend
open CryptSha512.DecimalText
open CryptSha512.NativeVerification
open CryptSha512.PasswordHashTraits
open CryptSha512.SaltSpecBuilding
open CryptSha512.SaltSpecGrammar
open CryptSha512.ShaCryptDefinition
open CryptSha512.TraitVerification
open CryptSha512.Utf8Text

section AlphabetSalts

variable {salt : List UInt8}

theorem dollar_not_mem_of_alphabet (hsalt : ∀ byte ∈ salt, byte ∈ b64Chars.toList) :
    dollar ∉ salt :=
  fun hmem => dollar_not_mem_alphabet (hsalt dollar hmem)

theorem salt_builtSpec (hsalt : ∀ byte ∈ salt, byte ∈ b64Chars.toList)
    (hlength : salt.length ≤ saltLenMax) (rounds : UInt32) :
    (builtSpec rounds salt).salt = salt := by
  change effectiveSalt salt = salt
  rw [effectiveSalt_of_not_mem (dollar_not_mem_of_alphabet hsalt),
    List.take_of_length_le hlength]

theorem not_roundsAsSalt (hsalt : ∀ byte ∈ salt, byte ∈ b64Chars.toList)
    (hlength : salt.length ≤ saltLenMax) (rounds : UInt32)
    (H : List UInt8 → Vector UInt8 64) (password : List UInt8) :
    ¬ RoundsAsSalt (hashText H password (builtSpec rounds salt)) := by
  rw [roundsAsSalt_hashText_iff, salt_builtSpec hsalt hlength]
  rintro ⟨_, digits, rfl, _⟩
  -- the sign in `rounds=` is not in the alphabet
  have hequals : '='.toUInt8 ∈ roundsField digits := by
    rw [roundsField, List.mem_append]
    exact .inl (by decide)
  exact equalsSign_not_mem_alphabet (hsalt _ hequals)

theorem acceptedField_builtSpec (hsalt : ∀ byte ∈ salt, byte ∈ b64Chars.toList)
    (hlength : salt.length ≤ saltLenMax) (hne : salt ≠ []) (rounds : UInt32) :
    AcceptedField (builtSpec rounds salt).salt := by
  rw [salt_builtSpec hsalt hlength]
  exact ⟨hne, fun byte hbyte => .inl (hsalt byte hbyte)⟩

theorem hashWithSalt_rebuildSpec (profile : Profile) (B : Backend) (password : List UInt8)
    (hsalt : ∀ byte ∈ salt, byte ∈ b64Chars.toList) (hlength : salt.length ≤ saltLenMax)
    (rounds : UInt32) :
    hashWithSalt profile B (.fromBytes password) (rebuildSpec (roundsDigits rounds) salt) =
      .ok (hashText B.sha512 password (builtSpec rounds salt)) := by
  rw [hashWithSalt_eq profile B _ (rebuildSpec_roundsDigits_fits rounds hlength),
    denote_rebuildSpec (isDigit_roundsDigits rounds)
    (dollar_not_mem_of_alphabet hsalt)]
  rfl

end AlphabetSalts

theorem saltBytes_alphabet (drawn : List UInt8) :
    ∀ byte ∈ drawn.map saltByte, byte ∈ b64Chars.toList := by
  intro byte hbyte
  obtain ⟨_, _, rfl⟩ := List.mem_map.mp hbyte
  exact saltByte_mem _

theorem saltBytes_length {rng : Csprng} {drawn : List UInt8}
    (hrng : rng.fill saltLenMax = some drawn) : (drawn.map saltByte).length = saltLenMax := by
  rw [List.length_map, rng.fill_length hrng]

section Builders

variable (profile : Profile) (B : Backend)

theorem hash_eq {rng : Csprng} {drawn : List UInt8} (hrng : rng.fill saltLenMax = some drawn)
    (password : List UInt8) (rounds : Option UInt32)
    (h : (rounds.getD roundsDefault).toNat < 10 ^ 9 ∨ profile = .release) :
    hash profile B rng (.fromBytes password) rounds =
      .ok (hashText B.sha512 password
        (builtSpec (rounds.getD roundsDefault) (drawn.map saltByte))) := by
  have hgenerate : generateSalt rng (List.replicate saltLenMax 0) =
      .ok (drawn.map saltByte) := by
    apply generateSalt_eq
    rwa [List.length_replicate]
  have hdrawn : (drawn.map saltByte).length ≤ saltLenMax := (saltBytes_length hrng).le
  rw [CryptInner.hash, buildSaltSpec_eq profile (generateSalt rng) h, hgenerate, ok_bind, ok_bind,
    hashWithSalt_rebuildSpec profile B password (saltBytes_alphabet drawn) hdrawn]

theorem hash_of_fill_none {rng : Csprng} (hrng : rng.fill saltLenMax = none)
    (password : List UInt8) (rounds : Option UInt32)
    (h : (rounds.getD roundsDefault).toNat < 10 ^ 9 ∨ profile = .release) :
    hash profile B rng (.fromBytes password) rounds = .error .entropy := by
  have hrandom : randomBytes rng (List.replicate saltLenMax 0) = .error .entropy := by
    simp only [randomBytes, List.length_replicate, hrng]
  rw [CryptInner.hash, buildSaltSpec_eq profile (generateSalt rng) h, generateSalt,
    generateSaltWith, hrandom]
  rfl

/-- The salt field that the traits store for a raw salt. -/
def storedSalt (salt : List UInt8) : List UInt8 := (cryptBase64 salt).take saltLenMax

theorem storedSalt_alphabet (salt : List UInt8) :
    ∀ byte ∈ storedSalt salt, byte ∈ b64Chars.toList :=
  fun _ hbyte => mem_alphabet_of_mem_cryptBase64 (List.mem_of_mem_take hbyte)

theorem storedSalt_length_le (salt : List UInt8) : (storedSalt salt).length ≤ saltLenMax :=
  List.length_take_le _ _

theorem two_le_storedSalt_length {salt : List UInt8} (hsalt : salt ≠ []) :
    2 ≤ (storedSalt salt).length := by
  have hpos := List.length_pos_iff.mpr hsalt
  rw [storedSalt, List.length_take, cryptBase64_length, saltLenMax]
  omega

theorem params_lt (params : Sha512CryptParams) : params.rounds.toNat < 10 ^ 9 := by
  have hle := params.rounds_mem_toNat.2
  omega

theorem clampRounds_params (params : Sha512CryptParams) :
    clampRounds params.rounds.toNat = params.rounds.toNat :=
  clampRounds_of_mem params.rounds_mem_toNat

section Bodies

variable {m : Type → Type} [Monad m] [MonadLiftT Exec m]
variable (hashWithSalt : Password → List UInt8 → m (List UInt8)) (mcf : Mcf)

omit profile B in
theorem hashPasswordCustomizedWith_of_rejected {salt : List UInt8}
    {algorithm : Option (List UInt8)} {version : Option UInt32}
    (h : ¬ ((algorithm = none ∨ algorithm = some sha512CryptId) ∧ version = none ∧ salt ≠ [])) :
    ∃ error, ∀ (m : Type → Type) [Monad m] [MonadLiftT Exec m] (profile : Profile)
      (hashWithSalt : Password → List UInt8 → m (List UInt8)) (mcf : Mcf) (password : List UInt8)
      (params : Sha512CryptParams),
      hashPasswordCustomizedWith profile hashWithSalt mcf password salt algorithm version params =
        pure (.error error) := by
  simp only [hashPasswordCustomizedWith]
  split
  · exact ⟨_, fun _ _ _ _ _ _ _ _ => rfl⟩
  · rename_i halgorithm
    split
    · exact ⟨_, fun _ _ _ _ _ _ _ _ => rfl⟩
    · rename_i hversion
      split
      · exact ⟨_, fun _ _ _ _ _ _ _ _ => rfl⟩
      · rename_i hsalt
        refine absurd ⟨?_, ?_, ?_⟩ h
        · by_contra hneither
          exact halgorithm (not_or.mp hneither)
        · simpa using hversion
        · simpa using hsalt

theorem hashPasswordCustomizedWith_of_accepted [LawfulMonad m] [LawfulMonadLiftT Exec m]
    (password : List UInt8) (salt : BoundedBytes) (hsalt : salt.bytes ≠ [])
    {algorithm : Option (List UInt8)}
    (halgorithm : algorithm = none ∨ algorithm = some sha512CryptId)
    (params : Sha512CryptParams) :
    hashPasswordCustomizedWith profile hashWithSalt mcf password salt.bytes algorithm none params =
      hashWithSalt (.fromBytes password)
          (rebuildSpec (roundsDigits params.rounds) (storedSalt salt.bytes)) >>= fun text =>
        pure ((mcf.new text).elim (.error .encodingInvalid) .ok) := by
  have hpasses : ¬ (algorithm ≠ none ∧ algorithm ≠ some sha512CryptId) := by
    rintro ⟨hnone, hsome⟩
    exact halgorithm.elim hnone hsome
  have hnotEmpty : salt.bytes.isEmpty = false := by simpa using hsalt
  obtain ⟨size, hsize, _⟩ := saltSpecOutputSize_ok profile (storedSalt_length_le salt.bytes)
    (decide (params.rounds ≠ roundsDefault))
  obtain ⟨spec, hpush, hspec⟩ := pushRounds_roundsDigits profile (.inl (params_lt params))
  rw [← hspec]
  simp only [storedSalt] at hsize ⊢
  simp only [hashPasswordCustomizedWith, if_neg hpasses, hnotEmpty, Option.isSome_none,
    Bool.false_eq_true, if_false, encodeCryptBase64_eq profile salt.length_le, liftM_ok,
    pure_bind, hsize, hpush]
  congr 1
  funext text
  cases mcf.new text with
  | none => rfl
  | some hashed => rfl

end Bodies

variable {mcf : Mcf}

theorem hashPasswordCustomized_eq_elim (self : Sha512Crypt) (password : List UInt8)
    (salt : BoundedBytes) (hsalt : salt.bytes ≠ []) {algorithm : Option (List UInt8)}
    (halgorithm : algorithm = none ∨ algorithm = some sha512CryptId)
    (params : Sha512CryptParams) :
    hashPasswordCustomized profile B mcf self password salt.bytes algorithm none params =
      .ok ((mcf.new (hashText B.sha512 password
        (builtSpec params.rounds (storedSalt salt.bytes)))).elim
          (.error .encodingInvalid) .ok) := by
  rw [hashPasswordCustomized, hashPasswordCustomizedWith_of_accepted profile _ mcf password salt
    hsalt halgorithm params, hashWithSalt_rebuildSpec profile B password
      (storedSalt_alphabet salt.bytes) (storedSalt_length_le salt.bytes) params.rounds]
  rfl

theorem hashPasswordCustomized_eq (hmcf : mcf.AcceptsCrypt) (self : Sha512Crypt)
    (password : List UInt8) (salt : BoundedBytes) (hsalt : salt.bytes ≠ [])
    {algorithm : Option (List UInt8)}
    (halgorithm : algorithm = none ∨ algorithm = some sha512CryptId)
    (params : Sha512CryptParams) :
    ∃ (text : Str) (parsed : PasswordHashRef),
      hashPasswordCustomized profile B mcf self password salt.bytes algorithm none params =
        .ok (.ok parsed) ∧
      text.bytes = parsed.asStr ∧ mcf.new text.bytes = some parsed ∧
      parsed.asStr = hashText B.sha512 password
        (builtSpec params.rounds (storedSalt salt.bytes)) := by
  have halphabet := storedSalt_alphabet salt.bytes
  have hlength := storedSalt_length_le salt.bytes
  have hne : storedSalt salt.bytes ≠ [] := by
    apply List.ne_nil_of_length_pos
    have htwo := two_le_storedSalt_length hsalt
    omega
  obtain ⟨text, parsed, hbytes, hparsed, htext⟩ :
      ∃ (text : Str) (parsed : PasswordHashRef), text.bytes = hashText B.sha512 password
        (builtSpec params.rounds (storedSalt salt.bytes)) ∧
          mcf.new text.bytes = some parsed ∧ _ :=
    exists_parsed_hashText hmcf (acceptedField_builtSpec halphabet hlength hne params.rounds)
  refine ⟨text, parsed, ?_, hbytes.trans htext.symm, hparsed, htext⟩
  rw [hashPasswordCustomized_eq_elim profile B self password salt hsalt halgorithm params,
    ← hbytes, hparsed]
  rfl

end Builders

section Results

variable (profile : Profile) (B : Backend) (mcf : Mcf)

theorem verify_builtSpec {text : Str} {password salt : List UInt8} {rounds : UInt32}
    (htext : text.bytes = hashText B.sha512 password (builtSpec rounds salt)) :
    verify profile B (.fromBytes password) text = .ok (.ok true) :=
  (verify_eq_true_iff profile B (.fromBytes password) text).mpr ⟨_, htext⟩

theorem verifyPasswordRef_builtSpec {parsed : PasswordHashRef}
    {password salt : List UInt8} {rounds : UInt32}
    (halphabet : ∀ byte ∈ salt, byte ∈ b64Chars.toList) (hlength : salt.length ≤ saltLenMax)
    (htext : parsed.asStr = hashText B.sha512 password (builtSpec rounds salt))
    (self : Sha512Crypt) :
    verifyPasswordRef profile B self password parsed = .ok (.ok ()) := by
  apply verifyPasswordRef_hashText self htext
  rw [htext]
  exact not_roundsAsSalt halphabet hlength rounds B.sha512 password

/-- The rounds segment for a requested number of rounds. -/
def requestedSegment (rounds : Option UInt32) : List UInt8 :=
  match rounds with
  | none => []
  | some n =>
      if n = roundsDefault then []
      else sha512RoundsPrefix ++ decimal (clampRounds n.toNat) ++ [dollar]

/-- The number of rounds that are run for a request. -/
def requestedRounds (rounds : Option UInt32) : Nat :=
  match rounds with
  | none => 5000
  | some n => clampRounds n.toNat

theorem roundsSegment_requested (rounds : Option UInt32) (salt : List UInt8) :
    (builtSpec (rounds.getD roundsDefault) salt).roundsSegment = requestedSegment rounds := by
  rw [roundsSegment_builtSpec]
  cases rounds with
  | none => rfl
  | some n => rfl

theorem effectiveRounds_requested (rounds : Option UInt32) (salt : List UInt8) :
    (builtSpec (rounds.getD roundsDefault) salt).effectiveRounds = requestedRounds rounds := by
  rw [effectiveRounds_builtSpec]
  cases rounds with
  | none => rfl
  | some n => rfl

/-- In a release build `hash` records the clamped work factor, whatever was
requested, and both verifiers accept its result. -/
theorem hash_records_clamped_rounds (hmcf : mcf.AcceptsCrypt) (self : Sha512Crypt)
    (rng : Csprng) (drawn : List UInt8) (hrng : rng.fill saltLenMax = some drawn)
    (password : List UInt8) (rounds : Option UInt32) :
    ∃ (out : Str) (salt encoded : List UInt8),
      hash .release B rng (.fromBytes password) rounds = .ok out.bytes ∧
      out.bytes = sha512SaltPrefix ++ requestedSegment rounds ++ salt ++ dollar :: encoded ∧
      salt.length = 16 ∧
      salt.map some = drawn.map (fun byte => b64Chars.toList[(byte &&& 0x3f).toNat]?) ∧
      encoded = digestText (shaCrypt B.sha512 password salt (requestedRounds rounds)) ∧
      encoded.length = 86 ∧
      verify .release B (.fromBytes password) out = .ok (.ok true) ∧
      verifyPassword .release B mcf self password out = .ok (.ok ()) := by
  have halphabet := saltBytes_alphabet drawn
  have hlength : (drawn.map saltByte).length ≤ saltLenMax := (saltBytes_length hrng).le
  have hsalt := salt_builtSpec halphabet hlength (rounds.getD roundsDefault)
  have hne : drawn.map saltByte ≠ [] := by
    apply List.ne_nil_of_length_pos
    rw [saltBytes_length hrng]
    decide
  obtain ⟨out, parsed, hout, hparsed, htext⟩ :
      ∃ (out : Str) (parsed : PasswordHashRef), out.bytes = hashText B.sha512 password
        (builtSpec (rounds.getD roundsDefault) (drawn.map saltByte)) ∧
          mcf.new out.bytes = some parsed ∧ _ :=
    exists_parsed_hashText hmcf (acceptedField_builtSpec halphabet hlength hne _)
  refine ⟨out, drawn.map saltByte, _, ?_, ?_, saltBytes_length hrng, ?_, rfl,
    digestText_length _, verify_builtSpec .release B hout, ?_⟩
  · rw [hout]
    exact hash_eq .release B hrng password rounds (.inr rfl)
  · rw [hout, hashText, SaltSpec.render, hsalt, roundsSegment_requested,
      effectiveRounds_requested]
  · simp only [getElem?_alphabet_saltByte, List.map_map, Function.comp_def]
  · rw [verifyPassword_of_new .release B self password hparsed]
    exact verifyPasswordRef_builtSpec .release B halphabet hlength htext self

theorem hash_records_clamped_rounds_of_largest :
    ∃ (out : Str) (salt encoded : List UInt8),
      hash .release (.buffered fun _ => .replicate 64 0) (.drawing (.replicate 16 0))
        (.fromBytes [1]) (some 4294967295) = .ok out.bytes ∧
      out.bytes = sha512SaltPrefix ++ requestedSegment (some 4294967295) ++ salt ++
        dollar :: encoded ∧
      salt.length = 16 ∧
      salt.map some = (List.replicate 16 0).map
        (fun byte => b64Chars.toList[((byte : UInt8) &&& 0x3f).toNat]?) ∧
      encoded = digestText (shaCrypt (fun _ => .replicate 64 0) [1] salt
        (requestedRounds (some 4294967295))) ∧
      encoded.length = 86 ∧
      verify .release (.buffered fun _ => .replicate 64 0) (.fromBytes [1]) out =
        .ok (.ok true) ∧
      verifyPassword .release (.buffered fun _ => .replicate 64 0) .splitting (.new .default)
        [1] out = .ok (.ok ()) :=
  hash_records_clamped_rounds (.buffered fun _ => .replicate 64 0) .splitting
    Mcf.splitting_acceptsCrypt (.new .default) (.drawing (.replicate 16 0)) (.replicate 16 0)
    (by rfl) [1] (some 4294967295)

/-- Trait hashing succeeds on every non-empty raw salt, and its result is
accepted by every configuration of the trait verifier and by the native one. -/
theorem hashPasswordCustomized_round_trip (hmcf : mcf.AcceptsCrypt) (self : Sha512Crypt)
    (password : List UInt8) (salt : BoundedBytes) (hsalt : salt.bytes ≠ [])
    (algorithm : Option (List UInt8))
    (halgorithm : algorithm = none ∨ algorithm = some sha512CryptId)
    (params : Sha512CryptParams) :
    ∃ (hashed : PasswordHashRef) (text : Str) (segment field digest : List UInt8),
      hashPasswordCustomized profile B mcf self password salt.bytes algorithm none params =
        .ok (.ok hashed) ∧
      text.bytes = hashed.asStr ∧
      hashed.asStr = sha512SaltPrefix ++ segment ++ field ++ dollar :: digest ∧
      segment = (if params.rounds = roundsDefault then []
        else sha512RoundsPrefix ++ decimal params.rounds.toNat ++ [dollar]) ∧
      2 ≤ field.length ∧ field.length ≤ saltLenMax ∧
      (∀ byte ∈ field, byte ∈ b64Chars.toList) ∧
      digest.length = sha512HashEncodedLength ∧
      (∀ verifier, verifyPasswordRef profile B verifier password hashed = .ok (.ok ())) ∧
      (∀ verifier, verifyPassword profile B mcf verifier password text = .ok (.ok ())) ∧
      verify profile B (.fromBytes password) text = .ok (.ok true) := by
  have halphabet := storedSalt_alphabet salt.bytes
  have hlength := storedSalt_length_le salt.bytes
  obtain ⟨text, parsed, hhash, hbytes, hparsed, htext⟩ :=
    hashPasswordCustomized_eq profile B hmcf self password salt hsalt halgorithm params
  have haccepts := verifyPasswordRef_builtSpec profile B halphabet hlength htext
  refine ⟨parsed, text, _, storedSalt salt.bytes,
    digestText (shaCrypt B.sha512 password (storedSalt salt.bytes) params.rounds.toNat),
    hhash, hbytes, ?_, rfl, two_le_storedSalt_length hsalt, hlength, halphabet,
    digestText_length _, haccepts, ?_, verify_builtSpec profile B (hbytes.trans htext)⟩
  · rw [htext, hashText, SaltSpec.render, salt_builtSpec halphabet hlength,
      roundsSegment_builtSpec, effectiveRounds_builtSpec, clampRounds_params]
    rfl
  · intro verifier
    rw [verifyPassword_of_new profile B verifier password hparsed]
    exact haccepts verifier

theorem hashPasswordCustomized_round_trip_long_salt :
    ∃ (hashed : PasswordHashRef) (text : Str) (segment field digest : List UInt8),
      hashPasswordCustomized .debug (.buffered fun _ => .replicate 64 0) .splitting
        (.new .default) [1] (List.replicate 20 255) (some sha512CryptId) none
        ⟨10000, by decide⟩ = .ok (.ok hashed) ∧
      text.bytes = hashed.asStr ∧
      hashed.asStr = sha512SaltPrefix ++ segment ++ field ++ dollar :: digest ∧
      segment = (if (10000 : UInt32) = roundsDefault then []
        else sha512RoundsPrefix ++ decimal (10000 : UInt32).toNat ++ [dollar]) ∧
      2 ≤ field.length ∧ field.length ≤ saltLenMax ∧
      (∀ byte ∈ field, byte ∈ b64Chars.toList) ∧
      digest.length = sha512HashEncodedLength ∧
      (∀ verifier, verifyPasswordRef .debug (.buffered fun _ => .replicate 64 0) verifier [1]
        hashed = .ok (.ok ())) ∧
      (∀ verifier, verifyPassword .debug (.buffered fun _ => .replicate 64 0) .splitting
        verifier [1] text = .ok (.ok ())) ∧
      verify .debug (.buffered fun _ => .replicate 64 0) (.fromBytes [1]) text =
        .ok (.ok true) :=
  hashPasswordCustomized_round_trip .debug (.buffered fun _ => .replicate 64 0) .splitting
    Mcf.splitting_acceptsCrypt (.new .default) [1] ⟨List.replicate 20 255, by decide⟩ (by decide)
    (some sha512CryptId) (.inr rfl) ⟨10000, by decide⟩

/-- The two APIs hash alike: the characters drawn natively are the encoding of
exactly one raw salt of twelve bytes, and on it the traits return the same
text. -/
theorem native_and_trait_hashing_agree (hmcf : mcf.AcceptsCrypt) (rng : Csprng)
    (drawn : List UInt8) (hrng : rng.fill saltLenMax = some drawn) (password : List UInt8)
    (rounds : UInt32) (hmin : roundsMin ≤ rounds) (hmax : rounds ≤ roundsMax) :
    ∃ (params : Sha512CryptParams) (salt : List UInt8) (hashed : PasswordHashRef),
      Sha512CryptParams.new rounds = .ok params ∧
      salt.length = 12 ∧
      encodeCryptBase64 profile salt = .ok (drawn.map saltByte) ∧
      (∀ other, other.length = 12 →
        encodeCryptBase64 profile other = .ok (drawn.map saltByte) → other = salt) ∧
      hashPasswordWithSalt profile B mcf (.new params) password salt = .ok (.ok hashed) ∧
      hash profile B rng (.fromBytes password) (some rounds) = .ok hashed.asStr ∧
      (rounds = roundsDefault →
        hash profile B rng (.fromBytes password) none = .ok hashed.asStr) := by
  have halphabet := saltBytes_alphabet drawn
  have hdrawn : (drawn.map saltByte).length = 16 := saltBytes_length hrng
  let params : Sha512CryptParams := ⟨rounds, hmin, hmax⟩
  let salt := uncryptBase64 (drawn.map saltByte)
  have hencode : cryptBase64 salt = drawn.map saltByte :=
    cryptBase64_uncryptBase64 halphabet (by rw [hdrawn])
  have hsalt : salt.length = 12 := by
    have hlength := congrArg List.length hencode
    rw [cryptBase64_length, hdrawn] at hlength
    omega
  have hbound : ∀ other : List UInt8, other.length = 12 → other.length ≤ isizeMax := by
    intro other hother
    rw [hother]
    decide
  have hstored : storedSalt salt = drawn.map saltByte := by
    rw [storedSalt, hencode, List.take_of_length_le (by rw [hdrawn]; exact le_rfl)]
  have hne : salt ≠ [] := by
    apply List.ne_nil_of_length_pos
    omega
  obtain ⟨_, hashed, hhash, _, _, htext⟩ := hashPasswordCustomized_eq profile B hmcf
    (.new params) password ⟨salt, hbound salt hsalt⟩ hne (.inl rfl) params
  rw [hstored] at htext
  have hsmall : rounds.toNat < 10 ^ 9 := params_lt params
  refine ⟨params, salt, hashed, dif_pos ⟨hmin, hmax⟩, hsalt, ?_, ?_, hhash, ?_, ?_⟩
  · rw [encodeCryptBase64_eq profile (hbound salt hsalt), hencode]
  · intro other hother hsame
    rw [encodeCryptBase64_eq profile (hbound other hother), ← hencode] at hsame
    exact cryptBase64_injective (Except.ok.inj hsame)
  · rw [htext]
    exact hash_eq profile B hrng password (some rounds) (.inl hsmall)
  · intro hdefault
    have hnone := hash_eq profile B hrng password none (.inl (by decide))
    rw [htext, hnone]
    simp [params, hdefault]

theorem native_and_trait_hashing_agree_at_default :
    ∃ (params : Sha512CryptParams) (salt : List UInt8) (hashed : PasswordHashRef),
      Sha512CryptParams.new 5000 = .ok params ∧
      salt.length = 12 ∧
      encodeCryptBase64 .debug salt = .ok ((List.replicate 16 0).map saltByte) ∧
      (∀ other, other.length = 12 →
        encodeCryptBase64 .debug other = .ok ((List.replicate 16 0).map saltByte) →
        other = salt) ∧
      hashPasswordWithSalt .debug (.buffered fun _ => .replicate 64 0) .splitting
        (.new params) [1] salt = .ok (.ok hashed) ∧
      hash .debug (.buffered fun _ => .replicate 64 0) (.drawing (.replicate 16 0))
        (.fromBytes [1]) (some 5000) = .ok hashed.asStr ∧
      ((5000 : UInt32) = roundsDefault →
        hash .debug (.buffered fun _ => .replicate 64 0) (.drawing (.replicate 16 0))
          (.fromBytes [1]) none = .ok hashed.asStr) :=
  native_and_trait_hashing_agree .debug (.buffered fun _ => .replicate 64 0) .splitting
    Mcf.splitting_acceptsCrypt (.drawing (.replicate 16 0)) (.replicate 16 0) (by rfl) [1] 5000
    (by decide) (by decide)

end Results

end CryptSha512.HashGeneration
