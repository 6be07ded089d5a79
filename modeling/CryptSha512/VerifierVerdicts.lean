import CryptSha512.TraitVerification

namespace CryptSha512.VerifierVerdicts

open CryptSha512.AsciiNumbers
open CryptSha512.CheckedExecution
open CryptSha512.CryptBase64
open CryptSha512.CryptInner
open CryptSha512.CryptRefinement
open CryptSha512.CryptoBackend
open CryptSha512.DelimitedText
open CryptSha512.NativeVerification
open CryptSha512.PasswordHashTraits
open CryptSha512.SaltSpecGrammar
open CryptSha512.ShaCryptDefinition
open CryptSha512.TraitVerification
open CryptSha512.Utf8Text

section Cuts

variable {hash : PasswordHashRef}

theorem asStr_of_fields {first : List UInt8} {others : List (List UInt8)}
    (hfields : hash.fields = first :: others) :
    hash.asStr = dollar :: (hash.id ++ dollar :: [dollar].intercalate (first :: others)) := by
  rw [PasswordHashRef.asStr, hfields, mcfText, List.intercalate_cons_cons]
  simp

theorem hasCut_asStr_iff :
    HasCut hash.asStr ↔ hash.id = sha512CryptId ∧ 2 ≤ hash.fields.length := by
  have hpieces := hash.dollar_not_mem
  have hfront : ∀ rest, sha512SaltPrefix ++ rest = dollar :: (sha512CryptId ++ dollar :: rest) :=
    fun _ => rfl
  have hsix : dollar ∉ sha512CryptId := by decide
  constructor
  · rintro ⟨rest, htext, hmem⟩
    rw [hfront] at htext
    cases hfields : hash.fields with
    | nil =>
        rw [PasswordHashRef.asStr, hfields, mcfText, List.intercalate_singleton] at htext
        have hid : dollar ∈ hash.id := by
          rw [(List.cons.inj htext).2]
          simp
        exact absurd hid (hpieces hash.id (by simp))
    | cons first others =>
        rw [asStr_of_fields hfields] at htext
        obtain ⟨hid, hrest⟩ := first_cut_inj (hpieces hash.id (by simp)) hsix
          (List.cons.inj htext).2
        refine ⟨hid, ?_⟩
        cases others with
        | nil =>
            rw [List.intercalate_singleton] at hrest
            rw [← hrest] at hmem
            exact absurd hmem (hpieces first (by simp [hfields]))
        | cons second others => simp
  · rintro ⟨hid, hlength⟩
    obtain ⟨first, second, others, hfields⟩ : ∃ first second others,
        hash.fields = first :: second :: others := by
      rcases hfields : hash.fields with _ | ⟨first, _ | ⟨second, others⟩⟩
      · rw [hfields] at hlength
        contradiction
      · rw [hfields] at hlength
        contradiction
      · exact ⟨first, second, others, rfl⟩
    refine ⟨[dollar].intercalate (first :: second :: others), ?_, ?_⟩
    · rw [asStr_of_fields hfields, hid, hfront]
    · rw [List.intercalate_cons_cons]
      simp

end Cuts

section Together

variable (profile : Profile) (B : Backend) (self : Sha512Crypt) (password : List UInt8)

theorem verify_of_hasCut {hash : Str} (h : HasCut hash.bytes) :
    ∃ verdict, verify profile B (.fromBytes password) hash = .ok (.ok verdict) := by
  obtain ⟨setting, digest, hcut, hdigest⟩ := exists_cut_of_hasCut h
  exact ⟨_, verify_of_cut profile B (.fromBytes password) hcut hdigest⟩

/-- The pairs of verdicts that are possible on a hash that `mcf` accepts. -/
inductive Together : Except InvalidHash Bool → Except Error Unit → Prop where
  | otherAlgorithm : Together (.error ⟨⟩) (.error .algorithm)
  | missingFields : Together (.error ⟨⟩) (.error .encodingInvalid)
  | wrongFields : Together (.ok false) (.error .encodingInvalid)
  | roundsAsSalt : Together (.ok true) (.error .encodingInvalid)
  | wrongPassword : Together (.ok false) (.error .passwordInvalid)
  | notNormal : Together (.ok false) (.ok ())
  | accepted : Together (.ok true) (.ok ())

theorem splitsRounds_length_le {fields rest : List (List UInt8)}
    {digits : Option (List UInt8)} (h : SplitsRounds fields digits rest) :
    rest.length ≤ fields.length := by
  cases digits with
  | some digits =>
      rw [h.1, List.length_cons]
      exact Nat.le_succ _
  | none => rw [h.1]

theorem verdicts_of_hasCut {hash : Str} {parsed : PasswordHashRef}
    (htext : parsed.asStr = hash.bytes) (hid : parsed.id = sha512CryptId)
    (hcut : HasCut hash.bytes) :
    ∃ native trait, verify profile B (.fromBytes password) hash = .ok native ∧
      verifyPasswordRef profile B self password parsed = .ok trait ∧ Together native trait ∧
      trait ≠ .error .algorithm ∧ native ≠ .error ⟨⟩ ∧
      (native = .ok true → (trait = .error .encodingInvalid ↔ RoundsAsSalt hash.bytes)) := by
  obtain ⟨verdict, hnative⟩ := verify_of_hasCut profile B password hcut
  cases verdict with
  | true =>
      obtain ⟨spec, hspec⟩ := (verify_eq_true_iff profile B (.fromBytes password) hash).mp hnative
      have hhash : parsed.asStr = hashText B.sha512 password spec := htext.trans hspec
      rcases em (RoundsAsSalt parsed.asStr) with hshape | hshape
      · have htrait : verifyPasswordRef profile B self password parsed = _ :=
          verifyPasswordRef_roundsAsSalt self hhash hshape
        rw [htext] at hshape
        exact ⟨_, _, hnative, htrait, .roundsAsSalt, by simp, by simp, by simp [hshape]⟩
      · have htrait : verifyPasswordRef profile B self password parsed = _ :=
          verifyPasswordRef_hashText self hhash hshape
        rw [htext] at hshape
        exact ⟨_, _, hnative, htrait, .accepted, by simp, by simp, by simp [hshape]⟩
  | false =>
      obtain ⟨digits, rest, hfields⟩ := splitsRounds_exists parsed.fields
      rcases eq_or_ne rest.length 2 with hlength | hlength
      · obtain ⟨salt, expected, rfl⟩ := List.length_eq_two.mp hlength
        have htrait := verifyPasswordRef_of_fields profile B self password hid hfields
        split at htrait
        · exact ⟨_, _, hnative, htrait, .notNormal, by simp, by simp, by simp⟩
        · exact ⟨_, _, hnative, htrait, .wrongPassword, by simp, by simp, by simp⟩
      · have htrait :=
          verifyPasswordRef_of_length_ne profile B self password hid hfields hlength
        exact ⟨_, _, hnative, htrait, .wrongFields, by simp, by simp, by simp⟩

/-- On every hash that `mcf` accepts the two verifiers give one of seven pairs of
verdicts. The first two belong to the hashes without `$6$` or without a salt and a
digest, and the fourth to the salts that read as a round count. -/
theorem verdicts_together {mcf : Mcf} {hash : Str} {parsed : PasswordHashRef}
    (hparsed : mcf.new hash.bytes = some parsed) :
    ∃ native trait, verify profile B (.fromBytes password) hash = .ok native ∧
      verifyPassword profile B mcf self password hash = .ok trait ∧ Together native trait ∧
      (trait = .error .algorithm ↔ parsed.id ≠ sha512CryptId) ∧
      (native = .error ⟨⟩ ↔ parsed.id ≠ sha512CryptId ∨ parsed.fields.length ≤ 1) ∧
      (native = .ok true → (trait = .error .encodingInvalid ↔ RoundsAsSalt hash.bytes)) := by
  have htext := mcf.asStr_of_new hparsed
  have hcut : HasCut hash.bytes ↔ parsed.id = sha512CryptId ∧ 2 ≤ parsed.fields.length := by
    rw [← htext]
    exact hasCut_asStr_iff
  rw [verifyPassword_of_new profile B self password hparsed]
  rcases eq_or_ne parsed.id sha512CryptId with hid | hid
  · rcases Nat.lt_or_ge parsed.fields.length 2 with hshort | hlong
    · obtain ⟨digits, rest, hfields⟩ := splitsRounds_exists parsed.fields
      have hrest := splitsRounds_length_le hfields
      have hnot : ¬ HasCut hash.bytes := by
        rw [hcut]
        omega
      refine ⟨_, _, verify_of_not_hasCut profile B (.fromBytes password) hnot,
        verifyPasswordRef_of_length_ne profile B self password hid hfields (by omega),
        .missingFields, by simp [hid], ?_, by simp⟩
      simp [Nat.le_of_lt_succ hshort]
    · obtain ⟨native, trait, hnative, htrait, htogether, halgorithm, hinvalid, hrounds⟩ :=
        verdicts_of_hasCut profile B self password htext hid (hcut.mpr ⟨hid, hlong⟩)
      refine ⟨native, trait, hnative, htrait, htogether, ?_, ?_, hrounds⟩
      · simp [halgorithm, hid]
      · simp only [hinvalid, hid, ne_eq, not_true_eq_false, false_or, false_iff]
        omega
  · have hnot : ¬ HasCut hash.bytes := fun h => hid (hcut.mp h).1
    exact ⟨_, _, verify_of_not_hasCut profile B (.fromBytes password) hnot,
      verifyPasswordRef_of_id_ne profile B self password hid, .otherAlgorithm, by simp [hid],
      by simp [hid], by simp⟩

end Together

theorem verdicts_together_abc :
    ∃ (hash : Str) (parsed : PasswordHashRef), Mcf.splitting.new hash.bytes = some parsed ∧
      ∃ native trait,
        verify .release (.buffered fun _ => .replicate 64 0) (.fromBytes [1]) hash =
          .ok native ∧
        verifyPassword .release (.buffered fun _ => .replicate 64 0) .splitting
          (.new .default) [1] hash = .ok trait ∧ Together native trait ∧
        (trait = .error .algorithm ↔ parsed.id ≠ sha512CryptId) ∧
        (native = .error ⟨⟩ ↔ parsed.id ≠ sha512CryptId ∨ parsed.fields.length ≤ 1) ∧
        (native = .ok true →
          (trait = .error .encodingInvalid ↔ RoundsAsSalt hash.bytes)) := by
  let B : Backend := .buffered fun _ => .replicate 64 0
  let spec : SaltSpec := ⟨none, ['a', 'b', 'c'].map Char.toUInt8, by simp, by decide, by decide⟩
  have hsalt : AcceptedField spec.salt := ⟨by decide, by decide +kernel⟩
  obtain ⟨hash, parsed, _, hparsed, _⟩ : ∃ (hash : Str) (parsed : PasswordHashRef),
      hash.bytes = hashText B.sha512 [1] spec ∧ Mcf.splitting.new hash.bytes = some parsed ∧ _ :=
    exists_parsed_hashText Mcf.splitting_acceptsCrypt hsalt
  exact ⟨hash, parsed, hparsed, verdicts_together .release B (.new .default) [1] hparsed⟩

section NormalForm

variable {profile : Profile} {B : Backend} {mcf : Mcf} {self : Sha512Crypt}

theorem isUtf8_salt_ofParts {parsed : PasswordHashRef} {digits : Option (List UInt8)}
    {salt expected : List UInt8}
    (hfields : SplitsRounds parsed.fields digits [salt, expected]) :
    IsUtf8 (SaltSpec.ofParts digits salt).salt := by
  have htake : (SaltSpec.ofParts digits salt).salt = salt.take saltLenMax :=
    effectiveSalt_of_not_mem (dollar_not_mem_fields hfields).1
  have hmem : salt ∈ parsed.id :: parsed.fields := by
    cases digits with
    | some digits =>
        rw [hfields.1]
        simp
    | none =>
        rw [← hfields.1]
        simp
  rw [htake]
  apply IsAscii.isUtf8
  intro byte hbyte
  exact parsed.ascii salt hmem byte (List.mem_of_mem_take hbyte)

/-- A hash that the trait verifier accepts for some password can be rewritten, from
its text alone, into one on which the native verifier decides every password
alike. It is the same hash exactly if the native verifier accepts it already. -/
theorem exists_normal_form {password : List UInt8} {hash : Str}
    (h : verifyPassword profile B mcf self password hash = .ok (.ok ())) :
    ∃ normal : Str,
      (∀ other, ∃ verdict, verify profile B (.fromBytes other) normal = .ok (.ok verdict) ∧
        verifyPassword profile B mcf self other hash =
          .ok (if verdict then .ok () else .error .passwordInvalid)) ∧
      (normal.bytes = hash.bytes ↔
        verify profile B (.fromBytes password) hash = .ok (.ok true)) := by
  obtain ⟨parsed, digits, salt, hparsed, hid, hfields⟩ := exists_fields_of_accepted profile B h
  obtain ⟨hsalt, hdigest⟩ := dollar_not_mem_fields hfields
  let spec := SaltSpec.ofParts digits salt
  let normal : Str := ⟨⟨hashText B.sha512 password spec, hashText_length_le _ _ _⟩,
    (isUtf8_hashText_iff _ _ spec).mpr (isUtf8_salt_ofParts hfields)⟩
  refine ⟨normal, ?_, ?_⟩
  · intro other
    refine ⟨_, verify_hashText profile B (.fromBytes other) rfl, ?_⟩
    rw [verifyPassword_of_new profile B self other hparsed,
      verifyPasswordRef_of_fields profile B self other hid hfields]
    simp only [digestText_injective.eq_iff, decide_eq_true_eq]
    rfl
  · have htext : hash.bytes = rebuildSpec digits salt ++ dollar ::
        digestText (shaCrypt B.sha512 password spec.salt spec.effectiveRounds) := by
      rw [← mcf.asStr_of_new hparsed, asStr_eq hid hfields]
    rw [verify_eq_true_iff]
    constructor
    · exact fun hnormal => ⟨spec, hnormal.symm⟩
    · rintro ⟨spec', hspec'⟩
      obtain ⟨hrender, _⟩ := last_cut_inj (dollar_not_mem_digestText _)
        (dollar_not_mem_digestText _) (htext.symm.trans hspec')
      have hsame : spec = spec' := by
        rw [← SaltSpec.denote_render spec', ← hrender,
          denote_rebuildSpec (all_isDigit_of_splitsRounds hfields) hsalt]
      rw [hspec', ← hsame]
      rfl

end NormalForm

theorem exists_normal_form_clamped :
    ∃ (hash normal : Str) (digest : List UInt8),
      hash.bytes = sha512SaltPrefix ++ roundsField (['1', '0'].map Char.toUInt8) ++
        dollar :: List.replicate 20 97 ++ dollar :: digest ∧
      (∀ other, ∃ verdict,
        verify .release (.buffered fun _ => .replicate 64 0) (.fromBytes other) normal =
          .ok (.ok verdict) ∧
        verifyPassword .release (.buffered fun _ => .replicate 64 0) .splitting
          (.new .default) other hash =
            .ok (if verdict then .ok () else .error .passwordInvalid)) ∧
      (normal.bytes = hash.bytes ↔
        verify .release (.buffered fun _ => .replicate 64 0) (.fromBytes [1]) hash =
          .ok (.ok true)) := by
  obtain ⟨hash, digest, hbytes, haccepted⟩ := exists_accepted_clamped
  obtain ⟨normal, hverdicts, hsame⟩ := exists_normal_form haccepted
  exact ⟨hash, normal, digest, hbytes, hverdicts, hsame⟩

end CryptSha512.VerifierVerdicts
