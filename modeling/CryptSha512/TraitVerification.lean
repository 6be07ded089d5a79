import CryptSha512.NativeVerification
import CryptSha512.PasswordHashTraits

namespace CryptSha512.TraitVerification

open CryptSha512.AsciiNumbers
open CryptSha512.CheckedExecution
open CryptSha512.CryptBase64
open CryptSha512.CryptInner
open CryptSha512.CryptRefinement
open CryptSha512.CryptoBackend
open CryptSha512.DecimalText
open CryptSha512.DelimitedText
open CryptSha512.NativeVerification
open CryptSha512.PasswordHashTraits
open CryptSha512.SaltSpecGrammar
open CryptSha512.ShaCryptDefinition
open CryptSha512.Utf8Text

/-- The first field is a rounds field over at least one decimal digit, and
`rest` are the others; or it is none, and `rest` are all the fields. -/
def SplitsRounds (fields : List (List UInt8)) :
    Option (List UInt8) → List (List UInt8) → Prop
  | some digits, rest =>
      fields = roundsField digits :: rest ∧ digits ≠ [] ∧ digits.all isDigit = true
  | none, rest =>
      rest = fields ∧ ∀ digits tail, fields = roundsField digits :: tail →
        ¬ (digits ≠ [] ∧ digits.all isDigit = true)

/-- The number of rounds that a rounds field, or its absence, asks for. -/
def roundsOf (digits : Option (List UInt8)) : Nat :=
  match digits with
  | some d => clampRounds (decimalValue d)
  | none => 5000

theorem splitsRounds_exists (fields : List (List UInt8)) :
    ∃ digits rest, SplitsRounds fields digits rest := by
  rcases em (∃ digits tail, fields = roundsField digits :: tail ∧
      digits ≠ [] ∧ digits.all isDigit = true) with ⟨digits, tail, hparts⟩ | h
  · exact ⟨some digits, tail, hparts⟩
  · refine ⟨none, fields, rfl, ?_⟩
    intro digits tail hfields hdigits
    exact h ⟨digits, tail, hfields, hdigits⟩

theorem takeRounds_some {digits : List UInt8} (hne : digits ≠ [])
    (hdigits : digits.all isDigit = true) (fields : List (List UInt8)) :
    takeRounds (roundsField digits) fields =
      (nextField fields).bind fun next => .ok (some digits, next.1, next.2) := by
  have hcondition : ¬ digits.isEmpty = true ∧ digits.all isDigit = true := by
    simp [hne, hdigits]
  rw [takeRounds, roundsField, stripPrefix_append]
  simp only [if_pos hcondition]
  rfl

theorem takeRounds_none {first : List UInt8} (fields : List (List UInt8))
    (h : ∀ digits, first = roundsField digits → ¬ (digits ≠ [] ∧ digits.all isDigit = true)) :
    takeRounds first fields = .ok (none, first, fields) := by
  rw [takeRounds]
  cases hstrip : stripPrefix sha512RoundsPrefix first with
  | none => rfl
  | some digits =>
      have hnot := h digits (stripPrefix_eq_some_iff.mp hstrip)
      have hcondition : ¬ (¬ digits.isEmpty = true ∧ digits.all isDigit = true) := by
        simpa using hnot
      simp only [if_neg hcondition]

theorem splitFields_eq {fields rest : List (List UInt8)} {digits : Option (List UInt8)}
    (h : SplitsRounds fields digits rest) :
    splitFields fields =
      match rest with
      | [salt, expected] => .ok (digits, salt, expected)
      | _ => .error .encodingInvalid := by
  cases digits with
  | some digits =>
      obtain ⟨rfl, hne, hdigits⟩ := h
      have htake := takeRounds_some hne hdigits rest
      simp only [splitFields, nextField, htake, bind, Except.bind]
      rcases rest with _ | ⟨salt, _ | ⟨expected, _ | ⟨extra, others⟩⟩⟩ <;> rfl
  | none =>
      obtain ⟨rfl, hnot⟩ := h
      cases rest with
      | nil => rfl
      | cons first others =>
          have htake : takeRounds first others = .ok (none, first, others) := by
            apply takeRounds_none
            intro digits hfirst
            exact hnot digits others (by rw [hfirst])
          simp only [splitFields, nextField, htake, bind, Except.bind]
          rcases others with _ | ⟨expected, _ | ⟨extra, more⟩⟩ <;> rfl

theorem denote_rebuildSpec {digits : Option (List UInt8)} {salt : List UInt8}
    (hdigits : ∀ d ∈ digits, d.all isDigit = true) (hsalt : dollar ∉ salt) :
    SaltSpec.denote (rebuildSpec digits salt) = .ofParts digits salt := by
  cases digits with
  | some d =>
      have hrebuild : rebuildSpec (some d) salt =
          sha512SaltPrefix ++ roundsField d ++ dollar :: salt := by
        simp [rebuildSpec, roundsField]
      rw [hrebuild, SaltSpec.denote_rounds (hdigits d rfl)]
  | none => exact SaltSpec.denote_no_rounds hsalt

theorem asStr_eq {hash : PasswordHashRef} {digits : Option (List UInt8)}
    {salt expected : List UInt8} (hid : hash.id = sha512CryptId)
    (hfields : SplitsRounds hash.fields digits [salt, expected]) :
    hash.asStr = rebuildSpec digits salt ++ dollar :: expected := by
  cases digits with
  | some d =>
      rw [PasswordHashRef.asStr, hid, hfields.1]
      simp [mcfText, rebuildSpec, roundsField, sha512SaltPrefix_eq]
  | none =>
      rw [PasswordHashRef.asStr, hid, ← hfields.1]
      simp [mcfText, rebuildSpec, sha512SaltPrefix_eq]

theorem dollar_not_mem_fields {hash : PasswordHashRef} {digits : Option (List UInt8)}
    {salt expected : List UInt8}
    (hfields : SplitsRounds hash.fields digits [salt, expected]) :
    dollar ∉ salt ∧ dollar ∉ expected := by
  have hpieces := hash.dollar_not_mem
  cases digits with
  | some d =>
      rw [hfields.1] at hpieces
      exact ⟨hpieces salt (by simp), hpieces expected (by simp)⟩
  | none =>
      rw [← hfields.1] at hpieces
      exact ⟨hpieces salt (by simp), hpieces expected (by simp)⟩

theorem all_isDigit_of_splitsRounds {fields rest : List (List UInt8)}
    {digits : Option (List UInt8)} (h : SplitsRounds fields digits rest) :
    ∀ d ∈ digits, d.all isDigit = true := by
  rintro d ⟨rfl⟩
  exact h.2.2

theorem effectiveRounds_ofParts (digits : Option (List UInt8)) (salt : List UInt8) :
    (SaltSpec.ofParts digits salt).effectiveRounds = roundsOf digits := by
  cases digits <;> rfl

theorem rebuildSpec_length_le {hash : PasswordHashRef} {digits : Option (List UInt8)}
    {salt expected : List UInt8} (hid : hash.id = sha512CryptId)
    (hfields : SplitsRounds hash.fields digits [salt, expected]) :
    (rebuildSpec digits salt).length ≤ isizeMax := by
  have htext : hash.asStr.length ≤ isizeMax := hash.length_le
  rw [asStr_eq hid hfields, List.length_append] at htext
  omega

section Bodies

variable {m : Type → Type} [Monad m] [MonadLiftT Exec m]
variable (profile : Profile) (hashWithSalt : Password → List UInt8 → m (List UInt8))
variable (constantTimeEq : List UInt8 → List UInt8 → Bool) (mcf : Mcf) (password : List UInt8)
variable {hash : PasswordHashRef} {digits : Option (List UInt8)}

theorem verifyPasswordRefWith_of_id_ne (hid : hash.id ≠ sha512CryptId) :
    verifyPasswordRefWith profile hashWithSalt constantTimeEq password hash =
      pure (.error .algorithm) :=
  if_pos hid

theorem verifyPasswordRefWith_of_length_ne {rest : List (List UInt8)}
    (hid : hash.id = sha512CryptId) (hfields : SplitsRounds hash.fields digits rest)
    (hlength : rest.length ≠ 2) :
    verifyPasswordRefWith profile hashWithSalt constantTimeEq password hash =
      pure (.error .encodingInvalid) := by
  rw [verifyPasswordRefWith, if_neg (not_not.mpr hid), splitFields_eq hfields]
  match rest, hlength with
  | [], _ => rfl
  | [_], _ => rfl
  | _ :: _ :: _ :: _, _ => rfl

theorem verifyPasswordRefWith_of_fields [LawfulMonad m] [LawfulMonadLiftT Exec m]
    {salt expected : List UInt8} (hid : hash.id = sha512CryptId)
    (hfields : SplitsRounds hash.fields digits [salt, expected]) :
    verifyPasswordRefWith profile hashWithSalt constantTimeEq password hash =
      hashWithSalt (.fromBytes password) (rebuildSpec digits salt) >>= fun computed =>
        liftM (digestField profile computed) >>= fun digest =>
          pure (if constantTimeEq digest expected then .ok () else .error .passwordInvalid) := by
  obtain ⟨size, hsize, _⟩ := saltSpecOutputSize_ok profile
    (Nat.min_le_right salt.length saltLenMax) digits.isSome
  simp only [verifyPasswordRefWith, if_neg (not_not.mpr hid), splitFields_eq hfields, hsize,
    liftM_ok, pure_bind]
  congr 1
  funext computed
  congr 1
  funext digest
  split <;> rfl

theorem verifyPasswordWith_of_new {text : Str} (hparsed : mcf.new text.bytes = some hash) :
    verifyPasswordWith profile hashWithSalt constantTimeEq mcf password text =
      verifyPasswordRefWith profile hashWithSalt constantTimeEq password hash := by
  rw [verifyPasswordWith, hparsed]

theorem verifyPasswordWith_of_new_none {text : Str} (hparsed : mcf.new text.bytes = none) :
    verifyPasswordWith profile hashWithSalt constantTimeEq mcf password text =
      pure (.error .encodingInvalid) := by
  rw [verifyPasswordWith, hparsed]

end Bodies

section Verdict

variable (profile : Profile) (B : Backend)

theorem digestField_hashText (H : List UInt8 → Vector UInt8 64) (password : List UInt8)
    (spec : SaltSpec) :
    digestField profile (hashText H password spec) =
      .ok (digestText (shaCrypt H password spec.salt spec.effectiveRounds)) := by
  have hposition : rposition dollar (hashText H password spec) = some spec.render.length :=
    rposition_append_cons _ (dollar_not_mem_digestText _)
  have hstart : usizeAdd profile spec.render.length 1 = .ok (spec.render ++ [dollar]).length := by
    rw [usizeAdd_of_lt, List.length_append, List.length_singleton]
    have hrender := spec.render_length_le
    omega
  have hslice := sliceFrom_append (spec.render ++ [dollar])
    (digestText (shaCrypt H password spec.salt spec.effectiveRounds))
  rw [List.append_assoc, List.singleton_append] at hslice
  simp only [digestField, hposition, hstart, ok_bind]
  exact hslice

theorem verifyPasswordRef_of_fields (self : Sha512Crypt) (password : List UInt8)
    {hash : PasswordHashRef} {digits : Option (List UInt8)} {salt expected : List UInt8}
    (hid : hash.id = sha512CryptId)
    (hfields : SplitsRounds hash.fields digits [salt, expected]) :
    verifyPasswordRef profile B self password hash =
      .ok (if digestText (shaCrypt B.sha512 password (SaltSpec.ofParts digits salt).salt
          (SaltSpec.ofParts digits salt).effectiveRounds) = expected then .ok ()
        else .error .passwordInvalid) := by
  obtain ⟨hsalt, _⟩ := dollar_not_mem_fields hfields
  have hlength := rebuildSpec_length_le hid hfields
  have hdenote := denote_rebuildSpec (all_isDigit_of_splitsRounds hfields) hsalt
  have hcomputed : hashWithSalt profile B (.fromBytes password) (rebuildSpec digits salt) =
      .ok (hashText B.sha512 password (SaltSpec.ofParts digits salt)) := by
    rw [← hdenote]
    exact hashWithSalt_eq profile B (.fromBytes password) hlength
  rw [verifyPasswordRef, verifyPasswordRefWith_of_fields profile _ _ _ hid hfields, hcomputed]
  simp only [ok_bind, liftM_exec, digestField_hashText, B.constantTimeEq_eq_decide,
    decide_eq_true_eq, pure_eq_ok]

theorem verifyPasswordRef_ne_error_of_fields (self : Sha512Crypt) (password : List UInt8)
    {hash : PasswordHashRef} {digits : Option (List UInt8)} {salt expected : List UInt8}
    (hid : hash.id = sha512CryptId)
    (hfields : SplitsRounds hash.fields digits [salt, expected]) {error : Error}
    (herror : error ≠ .passwordInvalid) :
    verifyPasswordRef profile B self password hash ≠ .ok (.error error) := by
  rw [verifyPasswordRef_of_fields profile B self password hid hfields]
  intro h
  have hverdict := Except.ok.inj h
  split at hverdict
  · contradiction
  · exact herror (Except.error.inj hverdict).symm

theorem verifyPasswordRef_of_length_ne (self : Sha512Crypt) (password : List UInt8)
    {hash : PasswordHashRef} {digits : Option (List UInt8)} {rest : List (List UInt8)}
    (hid : hash.id = sha512CryptId) (hfields : SplitsRounds hash.fields digits rest)
    (hlength : rest.length ≠ 2) :
    verifyPasswordRef profile B self password hash = .ok (.error .encodingInvalid) :=
  verifyPasswordRefWith_of_length_ne profile _ _ _ hid hfields hlength

theorem verifyPasswordRef_of_id_ne (self : Sha512Crypt) (password : List UInt8)
    {hash : PasswordHashRef} (hid : hash.id ≠ sha512CryptId) :
    verifyPasswordRef profile B self password hash = .ok (.error .algorithm) :=
  verifyPasswordRefWith_of_id_ne profile _ _ _ hid

/-- The exact verdict on every parsed hash, and the settings the rebuilt
specification is read back with. -/
theorem verifyPasswordRef_verdict (self : Sha512Crypt) (password : List UInt8)
    (hash : PasswordHashRef) :
    (verifyPasswordRef profile B self password hash = .ok (.error .algorithm) ↔
      hash.id ≠ sha512CryptId) ∧
    (hash.id = sha512CryptId → ∃ digits rest, SplitsRounds hash.fields digits rest ∧
      (verifyPasswordRef profile B self password hash = .ok (.error .encodingInvalid) ↔
        rest.length ≠ 2) ∧
      ∀ salt expected, rest = [salt, expected] →
        parseSettings profile (rebuildSpec digits salt) =
          .ok ⟨salt.take saltLenMax, UInt32.ofNat (roundsOf digits), digits.isSome⟩ ∧
        ∃ encoded, encoded = digestText
            (shaCrypt B.sha512 password (salt.take saltLenMax) (roundsOf digits)) ∧
          encoded.length = 86 ∧
          verifyPasswordRef profile B self password hash =
            .ok (if expected = encoded then .ok () else .error .passwordInvalid)) := by
  constructor
  · constructor
    · intro herror hid
      obtain ⟨digits, rest, hfields⟩ := splitsRounds_exists hash.fields
      rcases eq_or_ne rest.length 2 with hlength | hlength
      · obtain ⟨salt, expected, rfl⟩ := List.length_eq_two.mp hlength
        exact verifyPasswordRef_ne_error_of_fields profile B self password hid hfields
          (by decide) herror
      · rw [verifyPasswordRef_of_length_ne profile B self password hid hfields hlength] at herror
        simp at herror
    · exact verifyPasswordRef_of_id_ne profile B self password
  · intro hid
    obtain ⟨digits, rest, hfields⟩ := splitsRounds_exists hash.fields
    refine ⟨digits, rest, hfields, ?_, ?_⟩
    · constructor
      · intro herror hlength
        obtain ⟨salt, expected, rfl⟩ := List.length_eq_two.mp hlength
        exact verifyPasswordRef_ne_error_of_fields profile B self password hid hfields
          (by decide) herror
      · exact verifyPasswordRef_of_length_ne profile B self password hid hfields
    · rintro salt expected rfl
      obtain ⟨hsalt, _⟩ := dollar_not_mem_fields hfields
      have hspec : (SaltSpec.ofParts digits salt).salt = salt.take saltLenMax :=
        effectiveSalt_of_not_mem hsalt
      refine ⟨?_, _, rfl, digestText_length _, ?_⟩
      · rw [parseSettings_eq profile (rebuildSpec_length_le hid hfields),
          denote_rebuildSpec (all_isDigit_of_splitsRounds hfields) hsalt, settingsOf, hspec,
          effectiveRounds_ofParts]
        cases digits <;> rfl
      · rw [verifyPasswordRef_of_fields profile B self password hid hfields, hspec,
          effectiveRounds_ofParts]
        simp only [eq_comm]

end Verdict

theorem render_ofParts_eq_iff {digits : Option (List UInt8)} {salt : List UInt8}
    (hdigits : ∀ d ∈ digits, d.all isDigit = true) (hsalt : dollar ∉ salt) :
    (SaltSpec.ofParts digits salt).render = rebuildSpec digits salt ↔
      salt.length ≤ saltLenMax ∧
        ∀ d ∈ digits, ∃ n, 1000 ≤ n ∧ n ≤ 999999999 ∧ d = decimal n := by
  have htake : (SaltSpec.ofParts digits salt).salt = salt.take saltLenMax :=
    effectiveSalt_of_not_mem hsalt
  rw [SaltSpec.render, htake]
  cases digits with
  | none =>
      simp [SaltSpec.roundsSegment, SaltSpec.ofParts, rebuildSpec]
  | some d =>
      have hd := dollar_not_mem_digits (hdigits d rfl)
      have hdecimal := dollar_not_mem_digits
        (SaltSpec.isDigit_decimal (clampRounds (decimalValue d)))
      simp only [SaltSpec.roundsSegment, SaltSpec.ofParts, rebuildSpec, roundsField,
        Option.map_some, List.append_assoc, List.append_cancel_left_eq, List.singleton_append]
      constructor
      · intro heq
        obtain ⟨hnumeral, hfront⟩ := first_cut_inj hdecimal hd heq
        refine ⟨List.take_eq_self_iff _ |>.mp hfront, ?_⟩
        rintro d' ⟨rfl⟩
        obtain ⟨hmin, hmax⟩ := clampRounds_mem (decimalValue d)
        exact ⟨_, hmin, hmax, hnumeral.symm⟩
      · rintro ⟨hlength, hcanonical⟩
        obtain ⟨n, hmin, hmax, rfl⟩ := hcanonical d rfl
        rw [decimalValue_decimal, clampRounds_of_mem ⟨hmin, hmax⟩,
          List.take_of_length_le hlength]

section Comparison

variable (profile : Profile) (B : Backend)

theorem verifyPasswordRef_eq_ok_iff (self : Sha512Crypt) (password : List UInt8)
    (hash : PasswordHashRef) :
    verifyPasswordRef profile B self password hash = .ok (.ok ()) ↔
      hash.id = sha512CryptId ∧ ∃ digits salt, SplitsRounds hash.fields digits
        [salt, digestText (shaCrypt B.sha512 password (SaltSpec.ofParts digits salt).salt
          (SaltSpec.ofParts digits salt).effectiveRounds)] := by
  constructor
  · intro hverify
    have hid : hash.id = sha512CryptId := by
      by_contra hid
      rw [verifyPasswordRef_of_id_ne profile B self password hid] at hverify
      simp at hverify
    obtain ⟨digits, rest, hfields⟩ := splitsRounds_exists hash.fields
    have hlength : rest.length = 2 := by
      by_contra hlength
      rw [verifyPasswordRef_of_length_ne profile B self password hid hfields hlength] at hverify
      simp at hverify
    obtain ⟨salt, expected, rfl⟩ := List.length_eq_two.mp hlength
    rw [verifyPasswordRef_of_fields profile B self password hid hfields] at hverify
    have hdigest := Except.ok.inj hverify
    split at hdigest
    · rename_i hexpected
      rw [← hexpected] at hfields
      exact ⟨hid, digits, salt, hfields⟩
    · contradiction
  · rintro ⟨hid, digits, salt, hfields⟩
    rw [verifyPasswordRef_of_fields profile B self password hid hfields, if_pos rfl]

theorem verifyPassword_of_new {mcf : Mcf} (self : Sha512Crypt) (password : List UInt8)
    {hash : Str} {parsed : PasswordHashRef} (hparsed : mcf.new hash.bytes = some parsed) :
    verifyPassword profile B mcf self password hash =
      verifyPasswordRef profile B self password parsed :=
  verifyPasswordWith_of_new profile _ _ mcf password hparsed

theorem verifyPassword_of_new_none {mcf : Mcf} (self : Sha512Crypt) (password : List UInt8)
    {hash : Str} (hparsed : mcf.new hash.bytes = none) :
    verifyPassword profile B mcf self password hash = .ok (.error .encodingInvalid) :=
  verifyPasswordWith_of_new_none profile _ _ mcf password hparsed

theorem exists_fields_of_accepted {mcf : Mcf} {self : Sha512Crypt} {password : List UInt8}
    {hash : Str} (h : verifyPassword profile B mcf self password hash = .ok (.ok ())) :
    ∃ parsed digits salt, mcf.new hash.bytes = some parsed ∧ parsed.id = sha512CryptId ∧
      SplitsRounds parsed.fields digits
        [salt, digestText (shaCrypt B.sha512 password (SaltSpec.ofParts digits salt).salt
          (SaltSpec.ofParts digits salt).effectiveRounds)] := by
  cases hparsed : mcf.new hash.bytes with
  | none =>
      rw [verifyPassword_of_new_none profile B self password hparsed] at h
      simp at h
  | some parsed =>
      rw [verifyPassword_of_new profile B self password hparsed] at h
      obtain ⟨hid, digits, salt, hfields⟩ :=
        (verifyPasswordRef_eq_ok_iff profile B self password parsed).mp h
      exact ⟨parsed, digits, salt, rfl, hid, hfields⟩

/-- The rounds field, if the text has one, would be its last field but one: the
salt of such a text reads as a round count. -/
def RoundsAsSalt (text : List UInt8) : Prop :=
  ∃ digits digest, text = sha512SaltPrefix ++ roundsField digits ++ dollar :: digest ∧
    digits ≠ [] ∧ digits.all isDigit = true ∧ dollar ∉ digest

theorem fields_of_asStr {hash : PasswordHashRef} {fields : List (List UInt8)}
    (hfields : ∀ field ∈ fields, dollar ∉ field)
    (h : hash.asStr = mcfText sha512CryptId fields) :
    hash.id = sha512CryptId ∧ hash.fields = fields := by
  have hid : dollar ∉ sha512CryptId := by decide
  have hpieces := intercalate_inj hash.dollar_not_mem
    (List.forall_mem_cons.mpr ⟨hid, hfields⟩) (by simp) (by simp) (List.cons.inj h).2
  exact List.cons.inj hpieces

theorem rebuildSpec_spec (spec : SaltSpec) :
    rebuildSpec (spec.rounds.map decimal) spec.salt = spec.render := by
  rw [SaltSpec.render, SaltSpec.roundsSegment]
  cases spec.rounds with
  | none => simp [rebuildSpec]
  | some n => simp [rebuildSpec, roundsField]

theorem ofParts_spec (spec : SaltSpec) :
    SaltSpec.ofParts (spec.rounds.map decimal) spec.salt = spec := by
  have hdigits : ∀ d ∈ spec.rounds.map decimal, d.all isDigit = true := by
    intro d hd
    obtain ⟨n, _, rfl⟩ := Option.mem_map.mp hd
    exact SaltSpec.isDigit_decimal n
  rw [← denote_rebuildSpec hdigits spec.dollar_not_mem, rebuildSpec_spec, SaltSpec.denote_render]

theorem mcfText_two (first second : List UInt8) :
    mcfText sha512CryptId [first, second] =
      sha512SaltPrefix ++ first ++ dollar :: second := by
  simp [mcfText, sha512SaltPrefix_eq]

theorem mcfText_three (first second third : List UInt8) :
    mcfText sha512CryptId [first, second, third] =
      sha512SaltPrefix ++ first ++ dollar :: (second ++ dollar :: third) := by
  simp [mcfText, sha512SaltPrefix_eq]

/-- The fields of a hash text. -/
def hashFields (spec : SaltSpec) (digest : List UInt8) : List (List UInt8) :=
  match spec.rounds with
  | some n => [roundsField (decimal n), spec.salt, digest]
  | none => [spec.salt, digest]

theorem hashText_eq_mcfText (H : List UInt8 → Vector UInt8 64) (password : List UInt8)
    (spec : SaltSpec) :
    hashText H password spec = mcfText sha512CryptId (hashFields spec
      (digestText (shaCrypt H password spec.salt spec.effectiveRounds))) := by
  rw [hashText, SaltSpec.render, SaltSpec.roundsSegment, hashFields]
  cases spec.rounds with
  | none => simp [mcfText_two]
  | some n => simp [mcfText_three]

theorem hashFields_free (spec : SaltSpec) {digest : List UInt8} (hdigest : dollar ∉ digest) :
    ∀ field ∈ hashFields spec digest, dollar ∉ field := by
  have hsalt := spec.dollar_not_mem
  rw [hashFields]
  cases spec.rounds with
  | none => simp [hsalt, hdigest]
  | some n =>
      have hrounds := roundsField_free (SaltSpec.isDigit_decimal n)
      simp [hsalt, hdigest, hrounds]

theorem splitsRounds_hashFields {spec : SaltSpec} {digest : List UInt8}
    (h : spec.rounds = none → ∀ digits, spec.salt = roundsField digits →
      ¬ (digits ≠ [] ∧ digits.all isDigit = true)) :
    SplitsRounds (hashFields spec digest) (spec.rounds.map decimal) [spec.salt, digest] := by
  rw [hashFields]
  cases hrounds : spec.rounds with
  | none =>
      refine ⟨rfl, ?_⟩
      intro digits tail hfields
      exact h hrounds digits (List.cons.inj hfields).1
  | some n => exact ⟨rfl, decimal_ne_nil n, SaltSpec.isDigit_decimal n⟩

theorem roundsAsSalt_hashText_iff (H : List UInt8 → Vector UInt8 64) (password : List UInt8)
    (spec : SaltSpec) :
    RoundsAsSalt (hashText H password spec) ↔
      spec.rounds = none ∧ ∃ digits, spec.salt = roundsField digits ∧
        digits ≠ [] ∧ digits.all isDigit = true := by
  constructor
  · rintro ⟨digits, digest, htext, hne, hdigits, hdigest⟩
    obtain ⟨hrender, _⟩ := last_cut_inj (dollar_not_mem_digestText _) hdigest htext
    have hspec := congrArg SaltSpec.denote hrender
    rw [SaltSpec.denote_render, SaltSpec.denote_no_rounds (roundsField_free hdigits)] at hspec
    have hrounds : spec.rounds = none := by
      rw [hspec]
      rfl
    refine ⟨hrounds, digits, ?_, hne, hdigits⟩
    rw [SaltSpec.render, SaltSpec.roundsSegment, hrounds, List.append_nil] at hrender
    exact List.append_cancel_left hrender
  · rintro ⟨hrounds, digits, hsalt, hne, hdigits⟩
    refine ⟨digits, digestText (shaCrypt H password spec.salt spec.effectiveRounds), ?_, hne,
      hdigits, dollar_not_mem_digestText _⟩
    rw [hashText, SaltSpec.render, SaltSpec.roundsSegment, hrounds, List.append_nil, ← hsalt]

section HashTexts

variable {profile B}
variable {password : List UInt8} {spec : SaltSpec} {parsed : PasswordHashRef}

theorem fields_of_hashText (htext : parsed.asStr = hashText B.sha512 password spec) :
    parsed.id = sha512CryptId ∧ parsed.fields = hashFields spec
      (digestText (shaCrypt B.sha512 password spec.salt spec.effectiveRounds)) := by
  apply fields_of_asStr (hashFields_free spec (dollar_not_mem_digestText _))
  rw [htext, hashText_eq_mcfText]

theorem verifyPasswordRef_hashText (self : Sha512Crypt)
    (htext : parsed.asStr = hashText B.sha512 password spec)
    (hshape : ¬ RoundsAsSalt parsed.asStr) :
    verifyPasswordRef profile B self password parsed = .ok (.ok ()) := by
  obtain ⟨hid, hfields⟩ := fields_of_hashText htext
  rw [htext, roundsAsSalt_hashText_iff] at hshape
  rw [verifyPasswordRef_eq_ok_iff]
  refine ⟨hid, spec.rounds.map decimal, spec.salt, ?_⟩
  rw [ofParts_spec, hfields]
  apply splitsRounds_hashFields
  intro hrounds digits hsalt hdigits
  exact hshape ⟨hrounds, digits, hsalt, hdigits⟩

theorem verifyPasswordRef_roundsAsSalt (self : Sha512Crypt)
    (htext : parsed.asStr = hashText B.sha512 password spec)
    (hshape : RoundsAsSalt parsed.asStr) :
    verifyPasswordRef profile B self password parsed = .ok (.error .encodingInvalid) := by
  obtain ⟨hid, hfields⟩ := fields_of_hashText htext
  rw [htext, roundsAsSalt_hashText_iff] at hshape
  obtain ⟨hrounds, digits, hsalt, hne, hdigits⟩ := hshape
  rw [hashFields, hrounds, hsalt] at hfields
  have hsplit : SplitsRounds parsed.fields (some digits) [_] := ⟨hfields, hne, hdigits⟩
  exact verifyPasswordRef_of_length_ne profile B self password hid hsplit (by simp)

/-- A non-empty piece that `mcf` accepts as a field. -/
def AcceptedField (field : List UInt8) : Prop :=
  field ≠ [] ∧ ∀ byte ∈ field, byte ∈ b64Chars.toList ∨ byte = '='.toUInt8

theorem acceptedField_rounds (n : Nat) : AcceptedField (roundsField (decimal n)) := by
  have hfront : sha512RoundsPrefix ≠ [] ∧ ∀ byte ∈ sha512RoundsPrefix,
      byte ∈ b64Chars.toList ∨ byte = '='.toUInt8 := by
    decide +kernel
  refine ⟨by simp [roundsField, hfront.1], ?_⟩
  intro byte hbyte
  rcases List.mem_append.mp hbyte with hbyte | hbyte
  · exact hfront.2 byte hbyte
  · exact .inl (mem_alphabet_of_isDigit (isDigit_of_mem_decimal hbyte))

theorem acceptedField_digest (result : Vector UInt8 64) :
    AcceptedField (digestText result) := by
  constructor
  · apply List.ne_nil_of_length_pos
    rw [digestText_length]
    decide
  · exact fun byte hbyte => .inl (mem_alphabet_of_mem_digestText hbyte)

theorem AcceptedField.isAscii {field : List UInt8} (h : AcceptedField field) :
    IsAscii field := by
  intro byte hbyte
  rcases h.2 byte hbyte with halphabet | rfl
  · exact ascii_of_mem_alphabet halphabet
  · decide

theorem AcceptedField.dollar_not_mem {field : List UInt8} (h : AcceptedField field) :
    dollar ∉ field := by
  intro hmem
  rcases h.2 dollar hmem with halphabet | hequals
  · exact dollar_not_mem_alphabet halphabet
  · exact absurd hequals (by decide)

theorem isAscii_mcfText {fields : List (List UInt8)}
    (hfields : ∀ field ∈ fields, AcceptedField field) :
    IsAscii (mcfText sha512CryptId fields) := by
  have hdollar : IsAscii [dollar] := by decide
  have hid : IsAscii sha512CryptId := by decide
  rw [mcfText, ← List.singleton_append]
  apply hdollar.append
  apply hdollar.intercalate
  intro piece hpiece
  rcases List.mem_cons.mp hpiece with rfl | hfield
  · exact hid
  · exact (hfields piece hfield).isAscii

theorem exists_parsed_of_fields {mcf : Mcf} (hmcf : mcf.AcceptsCrypt)
    {fields : List (List UInt8)} (hne : fields ≠ [])
    (hfields : ∀ field ∈ fields, AcceptedField field)
    (hlength : (mcfText sha512CryptId fields).length ≤ isizeMax) :
    ∃ (hash : Str) (parsed : PasswordHashRef),
      hash.bytes = mcfText sha512CryptId fields ∧ mcf.new hash.bytes = some parsed ∧
      parsed.id = sha512CryptId ∧ parsed.fields = fields := by
  let hash : Str := ⟨⟨mcfText sha512CryptId fields, hlength⟩, (isAscii_mcfText hfields).isUtf8⟩
  obtain ⟨parsed, hparsed⟩ := Option.isSome_iff_exists.mp (hmcf fields hne hfields hlength)
  obtain ⟨hid, hsame⟩ := fields_of_asStr (fun field hfield => (hfields field hfield).dollar_not_mem)
    (mcf.asStr_of_new hparsed)
  exact ⟨hash, parsed, rfl, hparsed, hid, hsame⟩

theorem exists_parsed_hashText {mcf : Mcf} (hmcf : mcf.AcceptsCrypt)
    (hsalt : AcceptedField spec.salt) :
    ∃ (hash : Str) (parsed : PasswordHashRef),
      hash.bytes = hashText B.sha512 password spec ∧
      mcf.new hash.bytes = some parsed ∧
      parsed.asStr = hashText B.sha512 password spec := by
  let digest := digestText (shaCrypt B.sha512 password spec.salt spec.effectiveRounds)
  have hdigest : AcceptedField digest := acceptedField_digest _
  have hfields : hashFields spec digest ≠ [] ∧
      ∀ field ∈ hashFields spec digest, AcceptedField field := by
    rw [hashFields]
    cases spec.rounds with
    | none => simp [hsalt, hdigest]
    | some n => simp [hsalt, hdigest, acceptedField_rounds n]
  have htext := hashText_eq_mcfText B.sha512 password spec
  obtain ⟨hash, parsed, hbytes, hparsed, _⟩ := exists_parsed_of_fields hmcf hfields.1 hfields.2
    (by rw [← htext]; exact hashText_length_le _ _ _)
  have hspec : hash.bytes = hashText B.sha512 password spec := hbytes.trans htext.symm
  exact ⟨hash, parsed, hspec, hparsed, (mcf.asStr_of_new hparsed).trans hspec⟩

theorem exists_accepted_of_fields {mcf : Mcf} (hmcf : mcf.AcceptsCrypt)
    {fields : List (List UInt8)} {digits : Option (List UInt8)} {salt : List UInt8}
    (hfields : ∀ field ∈ fields, AcceptedField field)
    (hlength : (mcfText sha512CryptId fields).length ≤ isizeMax)
    (hsplit : SplitsRounds fields digits
      [salt, digestText (shaCrypt B.sha512 password (SaltSpec.ofParts digits salt).salt
        (SaltSpec.ofParts digits salt).effectiveRounds)]) (self : Sha512Crypt) :
    ∃ hash : Str, hash.bytes = mcfText sha512CryptId fields ∧
      verifyPassword profile B mcf self password hash = .ok (.ok ()) := by
  have hne : fields ≠ [] := by
    rintro rfl
    cases digits with
    | none => exact absurd hsplit.1 (by simp)
    | some digits => exact absurd hsplit.1 (by simp)
  obtain ⟨hash, parsed, hbytes, hparsed, hid, hsame⟩ :=
    exists_parsed_of_fields hmcf hne hfields hlength
  refine ⟨hash, hbytes, ?_⟩
  rw [verifyPassword_of_new profile B self password hparsed, verifyPasswordRef_eq_ok_iff, hsame]
  exact ⟨hid, digits, salt, hsplit⟩

end HashTexts

/-- On a hash that the native verifier accepts, the trait verifier differs in
one case: the salt itself has the form of a rounds field. -/
theorem trait_verdict_of_native_accepts (mcf : Mcf) (self : Sha512Crypt)
    (password : List UInt8) (hash : Str) (parsed : PasswordHashRef)
    (hparsed : mcf.new hash.bytes = some parsed)
    (hnative : verify profile B (.fromBytes password) hash = .ok (.ok true)) :
    (verifyPassword profile B mcf self password hash = .ok (.ok ()) ↔
      ¬ RoundsAsSalt hash.bytes) ∧
    (RoundsAsSalt hash.bytes →
      verifyPassword profile B mcf self password hash = .ok (.error .encodingInvalid)) := by
  obtain ⟨spec, hspec⟩ := (verify_eq_true_iff profile B (.fromBytes password) hash).mp hnative
  have hasStr := mcf.asStr_of_new hparsed
  have htext : parsed.asStr = hashText B.sha512 password spec := hasStr.trans hspec
  rw [verifyPassword_of_new profile B self password hparsed, ← hasStr]
  refine ⟨?_, verifyPasswordRef_roundsAsSalt self htext⟩
  constructor
  · intro haccepts hshape
    rw [verifyPasswordRef_roundsAsSalt self htext hshape] at haccepts
    simp at haccepts
  · exact verifyPasswordRef_hashText self htext

end Comparison

theorem trait_verdict_of_native_accepts_abc :
    ∃ (hash : Str) (parsed : PasswordHashRef),
      Mcf.splitting.new hash.bytes = some parsed ∧
      verify .release (.buffered fun _ => .replicate 64 0) (.fromBytes [1]) hash =
        .ok (.ok true) ∧
      (verifyPassword .release (.buffered fun _ => .replicate 64 0) .splitting
          (.new .default) [1] hash = .ok (.ok ()) ↔ ¬ RoundsAsSalt hash.bytes) ∧
      (RoundsAsSalt hash.bytes →
        verifyPassword .release (.buffered fun _ => .replicate 64 0) .splitting
          (.new .default) [1] hash = .ok (.error .encodingInvalid)) := by
  let B : Backend := .buffered fun _ => .replicate 64 0
  let spec : SaltSpec := ⟨none, ['a', 'b', 'c'].map Char.toUInt8, by simp, by decide, by decide⟩
  have hsalt : AcceptedField spec.salt := ⟨by decide, by decide +kernel⟩
  obtain ⟨hash, parsed, hspec, hparsed, _⟩ : ∃ (hash : Str) (parsed : PasswordHashRef),
      hash.bytes = hashText B.sha512 [1] spec ∧ Mcf.splitting.new hash.bytes = some parsed ∧ _ :=
    exists_parsed_hashText Mcf.splitting_acceptsCrypt hsalt
  have hnative : verify .release B (.fromBytes [1]) hash = .ok (.ok true) :=
    (verify_eq_true_iff .release B _ hash).mpr ⟨spec, hspec⟩
  exact ⟨hash, parsed, hparsed, hnative,
    trait_verdict_of_native_accepts .release B .splitting (.new .default) [1] hash parsed
      hparsed hnative⟩

/-- The native verifier accepts a salt that looks like a rounds field; the trait
verifier takes it for one and misses a field. -/
theorem trait_verdict_counterexample :
    Mcf.splitting.AcceptsCrypt ∧ ∃ (hash : Str) (digest : List UInt8),
      hash.bytes = ['$', '6', '$', 'r', 'o', 'u', 'n', 'd', 's', '=', '1', '2', '3',
        '$'].map Char.toUInt8 ++ digest ∧
      (Mcf.splitting.new hash.bytes).isSome = true ∧
      verify .release (.buffered fun _ => .replicate 64 0) (.fromBytes [1]) hash =
        .ok (.ok true) ∧
      verifyPassword .release (.buffered fun _ => .replicate 64 0) .splitting
        (.new .default) [1] hash = .ok (.error .encodingInvalid) := by
  let B : Backend := .buffered fun _ => .replicate 64 0
  let digits : List UInt8 := ['1', '2', '3'].map Char.toUInt8
  let spec : SaltSpec := ⟨none, roundsField digits, by simp, by decide, by decide⟩
  have hsalt : AcceptedField spec.salt := ⟨by decide, by decide +kernel⟩
  obtain ⟨hash, parsed, hspec, hparsed, htext⟩ : ∃ (hash : Str) (parsed : PasswordHashRef),
      hash.bytes = hashText B.sha512 [1] spec ∧ Mcf.splitting.new hash.bytes = some parsed ∧
        parsed.asStr = hashText B.sha512 [1] spec :=
    exists_parsed_hashText Mcf.splitting_acceptsCrypt hsalt
  have hshape : RoundsAsSalt parsed.asStr := by
    rw [htext, roundsAsSalt_hashText_iff]
    exact ⟨rfl, digits, rfl, by decide, by decide⟩
  refine ⟨Mcf.splitting_acceptsCrypt, hash, digestText (shaCrypt B.sha512 [1] spec.salt 5000),
    hspec, by rw [hparsed]; rfl, (verify_eq_true_iff .release B _ hash).mpr ⟨spec, hspec⟩, ?_⟩
  change verifyPassword .release B .splitting (.new .default) [1] hash = _
  rw [verifyPassword_of_new .release B (.new .default) [1] hparsed]
  exact verifyPasswordRef_roundsAsSalt (.new .default) htext hshape

/-- What the trait verifier accepts is well-formed for the native one, which in
addition insists on the normal form. -/
theorem native_verdict_of_trait_accepts (profile : Profile) (B : Backend) (mcf : Mcf)
    (self : Sha512Crypt) (password : List UInt8) (hash : Str)
    (htrait : verifyPassword profile B mcf self password hash = .ok (.ok ())) :
    ∃ parsed digits salt expected verdict, mcf.new hash.bytes = some parsed ∧
      SplitsRounds parsed.fields digits [salt, expected] ∧
      verify profile B (.fromBytes password) hash = .ok (.ok verdict) ∧
      (verdict = true ↔ salt.length ≤ saltLenMax ∧
        ∀ d ∈ digits, ∃ n, 1000 ≤ n ∧ n ≤ 999999999 ∧ d = decimal n) := by
  obtain ⟨parsed, digits, salt, hparsed, hid, hfields⟩ :=
    exists_fields_of_accepted profile B htrait
  obtain ⟨hsalt, hdigest⟩ := dollar_not_mem_fields hfields
  have hdigits := all_isDigit_of_splitsRounds hfields
  have htext : hash.bytes = rebuildSpec digits salt ++ dollar ::
      digestText (shaCrypt B.sha512 password (SaltSpec.ofParts digits salt).salt
        (SaltSpec.ofParts digits salt).effectiveRounds) := by
    rw [← mcf.asStr_of_new hparsed, asStr_eq hid hfields]
  obtain ⟨setting, hsetting⟩ : ∃ setting,
      rebuildSpec digits salt = sha512SaltPrefix ++ setting := by
    cases digits with
    | some d => exact ⟨sha512RoundsPrefix ++ d ++ [dollar] ++ salt, by simp [rebuildSpec]⟩
    | none => exact ⟨salt, rfl⟩
  have hcut := htext
  rw [hsetting] at hcut
  refine ⟨parsed, digits, salt, _, _, hparsed, hfields,
    verify_of_cut profile B (.fromBytes password) hcut hdigest, ?_⟩
  rw [decide_eq_true_iff, ← hsetting, denote_rebuildSpec hdigits hsalt, htext, hashText,
    ← render_ofParts_eq_iff hdigits hsalt]
  exact List.append_left_inj _

theorem exists_accepted_clamped :
    ∃ (hash : Str) (digest : List UInt8),
      hash.bytes = sha512SaltPrefix ++ roundsField (['1', '0'].map Char.toUInt8) ++
        dollar :: List.replicate 20 97 ++ dollar :: digest ∧
      verifyPassword .release (.buffered fun _ => .replicate 64 0) .splitting
        (.new .default) [1] hash = .ok (.ok ()) := by
  let B : Backend := .buffered fun _ => .replicate 64 0
  let digits : List UInt8 := ['1', '0'].map Char.toUInt8
  let salt : List UInt8 := List.replicate 20 97
  let spec := SaltSpec.ofParts (some digits) salt
  let digest := digestText (shaCrypt B.sha512 [1] spec.salt spec.effectiveRounds)
  have hfields : ∀ field ∈ [roundsField digits, salt, digest], AcceptedField field := by
    have hrounds : AcceptedField (roundsField digits) := ⟨by decide, by decide +kernel⟩
    have hsalt : AcceptedField salt := ⟨by decide, by decide +kernel⟩
    have hdigest : AcceptedField digest := acceptedField_digest _
    simp [hrounds, hsalt, hdigest]
  have htext : mcfText sha512CryptId [roundsField digits, salt, digest] =
      sha512SaltPrefix ++ roundsField digits ++ dollar :: salt ++ dollar :: digest := by
    simp [mcfText_three]
  have hlength : (mcfText sha512CryptId [roundsField digits, salt, digest]).length ≤
      isizeMax := by
    have hdigest : digest.length = sha512HashEncodedLength := digestText_length _
    rw [htext, List.length_append, List.length_cons, hdigest]
    decide
  have hsplit : SplitsRounds [roundsField digits, salt, digest] (some digits) [salt, digest] :=
    ⟨rfl, by decide, by decide⟩
  obtain ⟨hash, hbytes, haccepted⟩ : ∃ hash : Str, hash.bytes = _ ∧
      verifyPassword .release B .splitting (.new .default) [1] hash = _ :=
    exists_accepted_of_fields Mcf.splitting_acceptsCrypt hfields hlength hsplit (.new .default)
  exact ⟨hash, digest, hbytes.trans htext, haccepted⟩

theorem native_verdict_of_trait_accepts_clamped :
    ∃ (hash : Str) (digest : List UInt8),
      hash.bytes = sha512SaltPrefix ++ roundsField (['1', '0'].map Char.toUInt8) ++
        dollar :: List.replicate 20 97 ++ dollar :: digest ∧
      ∃ parsed digits salt expected verdict,
        Mcf.splitting.new hash.bytes = some parsed ∧
        SplitsRounds parsed.fields digits [salt, expected] ∧
        verify .release (.buffered fun _ => .replicate 64 0) (.fromBytes [1]) hash =
          .ok (.ok verdict) ∧
        (verdict = true ↔ salt.length ≤ saltLenMax ∧
          ∀ d ∈ digits, ∃ n, 1000 ≤ n ∧ n ≤ 999999999 ∧ d = decimal n) := by
  obtain ⟨hash, digest, hbytes, haccepted⟩ := exists_accepted_clamped
  exact ⟨hash, digest, hbytes, native_verdict_of_trait_accepts .release
    (.buffered fun _ => .replicate 64 0) .splitting (.new .default) [1] hash haccepted⟩

end CryptSha512.TraitVerification
