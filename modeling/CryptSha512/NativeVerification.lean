import CryptSha512.CryptRefinement
import CryptSha512.Utf8Text

namespace CryptSha512.NativeVerification

open CryptSha512.AsciiNumbers
open CryptSha512.CheckedExecution
open CryptSha512.CryptBase64
open CryptSha512.CryptInner
open CryptSha512.CryptRefinement
open CryptSha512.CryptoBackend
open CryptSha512.DecimalText
open CryptSha512.DelimitedText
open CryptSha512.DigestComputation
open CryptSha512.SaltSpecGrammar
open CryptSha512.ShaCryptDefinition
open CryptSha512.Utf8Text

/-- A hash that can be cut: it starts with `$6$` and has a later separator. -/
def HasCut (text : List UInt8) : Prop :=
  ∃ rest, text = sha512SaltPrefix ++ rest ∧ dollar ∈ rest

theorem dollar_ascii : dollar < 128 := by decide

theorem isAscii_digest (result : Vector UInt8 64) : IsAscii (dollar :: digestText result) := by
  intro byte hbyte
  rcases List.mem_cons.mp hbyte with rfl | hbyte
  · exact dollar_ascii
  · exact ascii_of_mem_alphabet (mem_alphabet_of_mem_digestText hbyte)

theorem isUtf8_hashText_iff (H : List UInt8 → Vector UInt8 64) (password : List UInt8)
    (spec : SaltSpec) : IsUtf8 (hashText H password spec) ↔ IsUtf8 spec.salt :=
  isUtf8_ascii_around_iff spec.isAscii_roundsSegment (isAscii_digest _)

theorem isAscii_hashText_iff (H : List UInt8 → Vector UInt8 64) (password : List UInt8)
    (spec : SaltSpec) : IsAscii (hashText H password spec) ↔ IsAscii spec.salt := by
  rw [hashText, SaltSpec.render, isAscii_append_iff, isAscii_append_iff]
  constructor
  · exact fun h => h.1.2
  · exact fun h => ⟨⟨spec.isAscii_roundsSegment, h⟩, isAscii_digest _⟩

section Verify

variable (profile : Profile) (B : Backend)

theorem extractSalt_of_cut {hash : Str} {setting digest : List UInt8}
    (hcut : hash.bytes = sha512SaltPrefix ++ setting ++ dollar :: digest)
    (hdigest : dollar ∉ digest) :
    extractSalt profile hash = .ok (.ok (sha512SaltPrefix ++ setting)) := by
  have hlength := lt_of_le_isizeMax hash.length_le
  rw [hcut] at hlength
  simp only [List.length_append, List.length_cons] at hlength
  have hstop : usizeAdd profile sha512SaltPrefix.length setting.length =
      .ok (sha512SaltPrefix ++ setting).length := by
    rw [usizeAdd_of_lt profile (by omega), List.length_append]
  have hstrip : stripPrefix sha512SaltPrefix hash.bytes =
      some (setting ++ dollar :: digest) := by
    rw [hcut, List.append_assoc, stripPrefix_append]
  simp only [extractSalt, hstrip, rposition_append_cons setting hdigest, hstop, ok_bind]
  rw [hcut, strSliceTo_append_cons _ _ dollar_ascii, ok_bind]
  rfl

theorem extractSalt_of_not_hasCut {hash : Str} (h : ¬ HasCut hash.bytes) :
    extractSalt profile hash = .ok (.error ⟨⟩) := by
  rw [extractSalt]
  cases hstrip : stripPrefix sha512SaltPrefix hash.bytes with
  | none => rfl
  | some rest =>
      have hnot : dollar ∉ rest := fun hmem => h ⟨rest, stripPrefix_eq_some_iff.mp hstrip, hmem⟩
      simp only [rposition_eq_none_iff.mpr hnot, pure_eq_ok]

theorem exists_cut_of_hasCut {text : List UInt8} (h : HasCut text) :
    ∃ setting digest, text = sha512SaltPrefix ++ setting ++ dollar :: digest ∧
      dollar ∉ digest := by
  obtain ⟨rest, rfl, hmem⟩ := h
  obtain ⟨setting, digest, rfl, hdigest⟩ := exists_last_cut hmem
  exact ⟨setting, digest, by rw [List.append_assoc], hdigest⟩

theorem setting_length_le {hash : Str} {setting digest : List UInt8}
    (hcut : hash.bytes = sha512SaltPrefix ++ setting ++ dollar :: digest) :
    (sha512SaltPrefix ++ setting).length ≤ isizeMax := by
  apply Nat.le_trans _ hash.length_le
  rw [hcut]
  exact (List.prefix_append _ _).length_le

theorem verify_of_cut (password : Password) {hash : Str} {setting digest : List UInt8}
    (hcut : hash.bytes = sha512SaltPrefix ++ setting ++ dollar :: digest)
    (hdigest : dollar ∉ digest) :
    verify profile B password hash =
      .ok (.ok (decide (hashText B.sha512 password.bytes
        (SaltSpec.denote (sha512SaltPrefix ++ setting)) = hash.bytes))) := by
  simp only [verify, verifyWith, extractSalt_of_cut profile hcut hdigest, ok_bind,
    hashWithSalt_eq profile B password (setting_length_le hcut), B.constantTimeEq_eq_decide,
    pure_eq_ok]

theorem verify_of_not_hasCut (password : Password) {hash : Str} (h : ¬ HasCut hash.bytes) :
    verify profile B password hash = .ok (.error ⟨⟩) := by
  rw [verify, verifyWith, extractSalt_of_not_hasCut profile h]
  rfl

theorem verify_hashText (password : Password) {hash : Str} {password' : List UInt8}
    {spec : SaltSpec} (h : hash.bytes = hashText B.sha512 password' spec) :
    verify profile B password hash =
      .ok (.ok (decide (shaCrypt B.sha512 password.bytes spec.salt spec.effectiveRounds =
        shaCrypt B.sha512 password' spec.salt spec.effectiveRounds))) := by
  have hcut : hash.bytes = sha512SaltPrefix ++ (spec.roundsSegment ++ spec.salt) ++
      dollar :: digestText (shaCrypt B.sha512 password' spec.salt spec.effectiveRounds) := by
    rw [h, hashText, SaltSpec.render, List.append_assoc sha512SaltPrefix]
  have hrender : sha512SaltPrefix ++ (spec.roundsSegment ++ spec.salt) = spec.render := by
    rw [SaltSpec.render, List.append_assoc]
  rw [verify_of_cut profile B password hcut (dollar_not_mem_digestText _), hrender,
    SaltSpec.denote_render, h]
  congr 2
  rw [decide_eq_decide]
  constructor
  · intro htext
    exact (hashText_inj htext).2
  · intro hdigest
    rw [hashText, hashText, hdigest]

theorem verify_eq_true_iff (password : Password) (hash : Str) :
    verify profile B password hash = .ok (.ok true) ↔
      ∃ spec : SaltSpec, hash.bytes = hashText B.sha512 password.bytes spec := by
  constructor
  · intro hverify
    rcases em (HasCut hash.bytes) with hhash | hhash
    · obtain ⟨setting, digest, hcut, hdigest⟩ := exists_cut_of_hasCut hhash
      rw [verify_of_cut profile B password hcut hdigest] at hverify
      have heq : hashText B.sha512 password.bytes
          (SaltSpec.denote (sha512SaltPrefix ++ setting)) = hash.bytes := by
        simpa using hverify
      exact ⟨_, heq.symm⟩
    · rw [verify_of_not_hasCut profile B password hhash] at hverify
      simp at hverify
  · rintro ⟨spec, h⟩
    rw [verify_hashText profile B password h, decide_eq_true rfl]

theorem exists_hashWithSalt_iff (password : Password) (text : List UInt8) :
    (∃ salt : BoundedBytes, hashWithSalt profile B password salt.bytes = .ok text) ↔
      ∃ spec : SaltSpec, text = hashText B.sha512 password.bytes spec := by
  constructor
  · rintro ⟨salt, hsalt⟩
    rw [hashWithSalt_eq profile B password salt.length_le] at hsalt
    exact ⟨_, (Except.ok.inj hsalt).symm⟩
  · rintro ⟨spec, rfl⟩
    refine ⟨⟨spec.render, Nat.le_trans spec.render_length_le (by decide)⟩, ?_⟩
    exact hashWithSalt_render profile B password spec

/-- `verify` accepts exactly the image of `hash_with_salt`. What it accepts has
the one shape that the last part describes. -/
theorem verify_accepts_image (password : Password) (hash : Str) :
    (verify profile B password hash = .ok (.error ⟨⟩) ↔ ¬ HasCut hash.bytes) ∧
    (HasCut hash.bytes →
      (verify profile B password hash = .ok (.ok true) ↔
        ∃ salt : BoundedBytes, hashWithSalt profile B password salt.bytes = .ok hash.bytes) ∧
      (verify profile B password hash = .ok (.ok false) ↔
        ¬ ∃ salt : BoundedBytes,
          hashWithSalt profile B password salt.bytes = .ok hash.bytes)) ∧
    (verify profile B password hash = .ok (.ok true) →
      ∃ segment salt digest : List UInt8,
        hash.bytes = sha512SaltPrefix ++ segment ++ salt ++ dollar :: digest ∧
        (segment = [] ∨ ∃ n, 1000 ≤ n ∧ n ≤ 999999999 ∧
          segment = sha512RoundsPrefix ++ decimal n ++ [dollar]) ∧
        salt.length ≤ saltLenMax ∧ dollar ∉ salt ∧
        digest.length = sha512HashEncodedLength ∧
        ∀ byte ∈ digest, byte ∈ b64Chars.toList) := by
  refine ⟨?_, ?_, ?_⟩
  · constructor
    · rintro herror hhash
      obtain ⟨setting, digest, hcut, hdigest⟩ := exists_cut_of_hasCut hhash
      rw [verify_of_cut profile B password hcut hdigest] at herror
      simp at herror
    · exact verify_of_not_hasCut profile B password
  · intro hhash
    obtain ⟨setting, digest, hcut, hdigest⟩ := exists_cut_of_hasCut hhash
    have htrue := verify_eq_true_iff profile B password hash
    rw [← exists_hashWithSalt_iff profile B] at htrue
    refine ⟨htrue, ?_⟩
    rw [← htrue, verify_of_cut profile B password hcut hdigest]
    simp
  · intro htrue
    obtain ⟨spec, hspec⟩ := (verify_eq_true_iff profile B password hash).mp htrue
    refine ⟨spec.roundsSegment, spec.salt, _, hspec, ?_, spec.salt_length_le,
      spec.dollar_not_mem, digestText_length _, fun _ => mem_alphabet_of_mem_digestText⟩
    rw [SaltSpec.roundsSegment]
    cases hrounds : spec.rounds with
    | none => exact .inl rfl
    | some n =>
        obtain ⟨hmin, hmax⟩ := spec.rounds_mem n hrounds
        exact .inr ⟨n, hmin, hmax, rfl⟩

/-- The string built without a check is valid UTF-8 exactly if the effective
salt is, and ASCII exactly if the effective salt is. This holds for salts given
by the caller and for those that `verify` cuts out of a string. -/
theorem unchecked_string_valid_iff :
    (∀ (password : Password) (salt : BoundedBytes), ∃ out,
      hashWithSalt profile B password salt.bytes = .ok out ∧
      (IsUtf8 out ↔ IsUtf8 (SaltSpec.denote salt.bytes).salt) ∧
      (IsAscii out ↔ IsAscii (SaltSpec.denote salt.bytes).salt)) ∧
    (∀ (password : Password) (hash : Str) (setting digest : List UInt8),
      hash.bytes = sha512SaltPrefix ++ setting ++ dollar :: digest → dollar ∉ digest →
      ∃ computed,
        hashWithSalt profile B password (sha512SaltPrefix ++ setting) = .ok computed ∧
        verify profile B password hash = .ok (.ok (decide (computed = hash.bytes))) ∧
        (IsUtf8 computed ↔ IsUtf8 (SaltSpec.denote (sha512SaltPrefix ++ setting)).salt) ∧
        (IsAscii computed ↔
          IsAscii (SaltSpec.denote (sha512SaltPrefix ++ setting)).salt)) := by
  constructor
  · intro password salt
    exact ⟨_, hashWithSalt_eq profile B password salt.length_le, isUtf8_hashText_iff _ _ _,
      isAscii_hashText_iff _ _ _⟩
  · intro password hash setting digest hcut hdigest
    exact ⟨_, hashWithSalt_eq profile B password (setting_length_le hcut),
      verify_of_cut profile B password hcut hdigest, isUtf8_hashText_iff _ _ _,
      isAscii_hashText_iff _ _ _⟩

end Verify

/-- A salt may be any byte string, and a cut at sixteen bytes may split a
character of a salt that came from a string. -/
theorem unchecked_string_counterexample :
    (∃ out, hashWithSalt .release (.buffered fun _ => .replicate 64 0) ⟨[]⟩ [0xff] = .ok out ∧
      ¬ IsUtf8 out) ∧
    (∃ (hash : Str) (salt out : List UInt8),
      hash.bytes = sha512SaltPrefix ++ List.replicate 15 97 ++ [0xc3, 0xa9] ++ [dollar] ∧
      extractSalt .release hash = .ok (.ok salt) ∧
      hashWithSalt .release (.buffered fun _ => .replicate 64 0) ⟨[]⟩ salt = .ok out ∧
      ¬ IsUtf8 out) := by
  constructor
  · refine ⟨_, hashWithSalt_eq _ _ _ (by decide), ?_⟩
    rw [isUtf8_hashText_iff]
    have hsalt : (SaltSpec.denote [0xff]).salt = [0xff] := by rfl
    rw [hsalt, isUtf8_singleton_iff]
    decide
  · let setting : List UInt8 := List.replicate 15 97 ++ [0xc3, 0xa9]
    have htext : IsUtf8 (sha512SaltPrefix ++ setting ++ [dollar]) :=
      ⟨['$', '6', '$', 'a', 'a', 'a', 'a', 'a', 'a', 'a', 'a', 'a', 'a', 'a', 'a', 'a', 'a', 'a',
        'é', '$'], by decide⟩
    let hash : Str := ⟨⟨sha512SaltPrefix ++ setting ++ [dollar], by decide⟩, htext⟩
    have hcut : hash.bytes = sha512SaltPrefix ++ setting ++ dollar :: [] := rfl
    refine ⟨hash, sha512SaltPrefix ++ setting, _, rfl, extractSalt_of_cut _ hcut (by decide),
      hashWithSalt_eq _ _ _ (by decide), ?_⟩
    have hsalt : (SaltSpec.denote (sha512SaltPrefix ++ setting)).salt =
        List.replicate 15 97 ++ [0xc3] := by rfl
    have hletters : IsAscii (List.replicate 15 97) := by decide
    have hnothing : IsAscii [] := by decide
    have haround : IsUtf8 (List.replicate 15 97 ++ [0xc3] ++ []) ↔ IsUtf8 [0xc3] :=
      isUtf8_ascii_around_iff hletters hnothing
    rw [List.append_nil] at haround
    rw [isUtf8_hashText_iff, hsalt, haround, isUtf8_singleton_iff]
    decide

end CryptSha512.NativeVerification
