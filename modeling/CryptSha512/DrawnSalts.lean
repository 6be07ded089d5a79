import CryptSha512.HashGeneration
import CryptSha512.MapFibres

namespace CryptSha512.DrawnSalts

open CryptSha512.AsciiNumbers
open CryptSha512.CheckedExecution
open CryptSha512.CryptBase64
open CryptSha512.CryptInner
open CryptSha512.CryptRefinement
open CryptSha512.CryptoBackend
open CryptSha512.DecimalText
open CryptSha512.HashGeneration
open CryptSha512.MapFibres
open CryptSha512.SaltSpecBuilding
open CryptSha512.SaltSpecGrammar
open CryptSha512.ShaCryptDefinition

theorem lowBits_toNat (byte : UInt8) : (byte &&& 0x3f).toNat = byte.toNat % 64 := by
  rw [UInt8.toNat_and]
  exact Nat.and_two_pow_sub_one_eq_mod byte.toNat 6

theorem saltByte_eq_alphabetByte (byte : UInt8) : saltByte byte = alphabetByte byte.toNat := by
  simp only [saltByte, alphabetByte, lowBits_toNat]

theorem saltByte_eq_iff {char : UInt8} (hchar : char ∈ b64Chars.toList) (byte : UInt8) :
    saltByte byte = char ↔ byte.toNat % 64 = alphabetDigit char := by
  have hmod : alphabetByte byte.toNat = alphabetByte (byte.toNat % 64) := by
    simp only [alphabetByte, Nat.mod_mod]
  rw [saltByte_eq_alphabetByte, hmod]
  constructor
  · rintro rfl
    exact (alphabetDigit_alphabetByte (Nat.mod_lt _ (by decide))).symm
  · intro hdigit
    rw [hdigit, alphabetByte_alphabetDigit hchar]

theorem saltByte_eq_saltByte_iff (byte byte' : UInt8) :
    saltByte byte = saltByte byte' ↔ byte &&& 0x3f = byte' &&& 0x3f := by
  have hdigit := (saltByte_eq_iff (saltByte_mem byte') byte').mp rfl
  rw [saltByte_eq_iff (saltByte_mem byte'), ← hdigit, ← UInt8.toNat_inj, lowBits_toNat,
    lowBits_toNat]

theorem map_saltByte_eq_iff (drawn drawn' : List UInt8) :
    drawn.map saltByte = drawn'.map saltByte ↔
      drawn.map (· &&& 0x3f) = drawn'.map (· &&& 0x3f) := by
  induction drawn generalizing drawn' with
  | nil => simp
  | cons byte drawn ih =>
      cases drawn' with
      | nil => simp
      | cons byte' drawn' => simp [saltByte_eq_saltByte_iff, ih]

theorem withHighBits_toNat {char : UInt8} (hchar : char ∈ b64Chars.toList) (high : Fin 4) :
    (UInt8.ofNat (64 * high.val + alphabetDigit char)).toNat =
      64 * high.val + alphabetDigit char := by
  have hdigit := alphabetDigit_lt hchar
  have hhigh := high.isLt
  rw [UInt8.toNat_ofNat']
  exact Nat.mod_eq_of_lt (by omega)

/-- The two high bits of a byte are free. -/
def fibreEquiv {char : UInt8} (hchar : char ∈ b64Chars.toList) : Fibre saltByte char ≃ Fin 4 where
  toFun byte := ⟨byte.1.toNat / 64, by have hlt := byte.1.toNat_lt; omega⟩
  invFun high := ⟨UInt8.ofNat (64 * high.val + alphabetDigit char), by
    have hdigit := alphabetDigit_lt hchar
    rw [saltByte_eq_iff hchar, withHighBits_toNat hchar]
    omega⟩
  left_inv byte := by
    have hlow := (saltByte_eq_iff hchar byte.1).mp byte.2
    apply Subtype.ext
    apply UInt8.toNat_inj.mp
    have hnat := withHighBits_toNat hchar
      ⟨byte.1.toNat / 64, by have hlt := byte.1.toNat_lt; omega⟩
    rw [hnat, ← hlow]
    exact Nat.div_add_mod byte.1.toNat 64
  right_inv high := by
    have hdigit := alphabetDigit_lt hchar
    apply Fin.ext
    simp only [withHighBits_toNat hchar]
    omega

theorem card_fibre {char : UInt8} (hchar : char ∈ b64Chars.toList) :
    Nat.card (Fibre saltByte char) = 4 :=
  Nat.card_eq_of_equiv_fin (fibreEquiv hchar)

section Draws

variable {profile : Profile} {B : Backend} {password : List UInt8} {rounds : Option UInt32}

theorem hash_eq_ok_iff (rng : Csprng) (out : List UInt8) :
    hash profile B rng (.fromBytes password) rounds = .ok out ↔
      ((rounds.getD roundsDefault).toNat < 10 ^ 9 ∨ profile = .release) ∧
      ∃ drawn, rng.fill saltLenMax = some drawn ∧
        out = hashText B.sha512 password
          (builtSpec (rounds.getD roundsDefault) (drawn.map saltByte)) := by
  rcases em ((rounds.getD roundsDefault).toNat < 10 ^ 9 ∨ profile = .release) with
    hprints | hprints
  · cases hrng : rng.fill saltLenMax with
    | none =>
        rw [hash_of_fill_none profile B hrng password rounds hprints]
        simp
    | some drawn =>
        rw [hash_eq profile B hrng password rounds hprints]
        simp only [hprints, true_and, Except.ok.injEq, Option.some.injEq, exists_eq_left']
        exact eq_comm
  · obtain ⟨rfl, hlarge⟩ := eq_debug_of_not_printing profile hprints
    rw [hash_underflow hlarge]
    constructor
    · intro hreturned
      contradiction
    · rintro ⟨hprinted, _⟩
      exact absurd hprinted hprints

theorem drawing_fill_eq_some_iff (bytes drawn : List UInt8) (n : Nat) :
    (Csprng.drawing bytes).fill n = some drawn ↔ bytes.length = n ∧ bytes = drawn := by
  simp only [Csprng.drawing]
  split
  · rename_i hlength
    simp [hlength]
  · rename_i hlength
    simp [hlength]

theorem builtSpec_injective {requested : UInt32} {salt salt' : List UInt8}
    (halphabet : ∀ byte ∈ salt, byte ∈ b64Chars.toList) (hlength : salt.length ≤ saltLenMax)
    (halphabet' : ∀ byte ∈ salt', byte ∈ b64Chars.toList)
    (hlength' : salt'.length ≤ saltLenMax)
    (h : builtSpec requested salt = builtSpec requested salt') : salt = salt' := by
  have hsalt := congrArg SaltSpec.salt h
  rwa [salt_builtSpec halphabet hlength, salt_builtSpec halphabet' hlength'] at hsalt

theorem hash_drawing_eq_iff {rng : Csprng} {out : List UInt8}
    (hout : hash profile B rng (.fromBytes password) rounds = .ok out) :
    ∃ salt : List UInt8, salt.length = saltLenMax ∧ (∀ byte ∈ salt, byte ∈ b64Chars.toList) ∧
      ∀ drawn, hash profile B (.drawing drawn) (.fromBytes password) rounds = .ok out ↔
        drawn.map saltByte = salt := by
  obtain ⟨hprints, first, hfirst, rfl⟩ := (hash_eq_ok_iff rng out).mp hout
  have halphabet := saltBytes_alphabet first
  have hlength := saltBytes_length hfirst
  refine ⟨first.map saltByte, hlength, halphabet, ?_⟩
  intro drawn
  rw [hash_eq_ok_iff]
  constructor
  · rintro ⟨_, other, hother, htext⟩
    have hdrawn := saltBytes_length hother
    obtain ⟨_, rfl⟩ := (drawing_fill_eq_some_iff drawn other saltLenMax).mp hother
    exact (builtSpec_injective halphabet hlength.le (saltBytes_alphabet drawn) hdrawn.le
      (hashText_inj htext).1).symm
  · intro hsalt
    have hdrawn : drawn.length = saltLenMax := by
      rw [← List.length_map saltByte, hsalt, hlength]
    exact ⟨hprints, drawn, (drawing_fill_eq_some_iff drawn drawn saltLenMax).mpr
      ⟨hdrawn, rfl⟩, by rw [hsalt]⟩

/-- Every result that `hash` can return at all comes from the same number of
draws: with uniform random bytes all salts are equally likely. -/
theorem results_equally_likely {out : List UInt8}
    (h : ∃ rng, hash profile B rng (.fromBytes password) rounds = .ok out) :
    Nat.card {drawn : List UInt8 //
      hash profile B (.drawing drawn) (.fromBytes password) rounds = .ok out} =
        4 ^ saltLenMax := by
  obtain ⟨rng, hout⟩ := h
  obtain ⟨salt, hlength, halphabet, hdraws⟩ := hash_drawing_eq_iff hout
  rw [Nat.card_congr (Equiv.subtypeEquivRight hdraws),
    card_listFibre_of_const saltByte fun char hchar => card_fibre (halphabet char hchar), hlength]

end Draws

theorem results_equally_likely_of_zeros :
    Nat.card {drawn : List UInt8 //
      hash .debug (.buffered fun _ => .replicate 64 0) (.drawing drawn) (.fromBytes [1]) none =
        .ok (hashText (fun _ => .replicate 64 0) [1]
          (builtSpec roundsDefault ((List.replicate 16 0).map saltByte)))} = 4 ^ saltLenMax :=
  results_equally_likely ⟨.drawing (.replicate 16 0),
    hash_eq .debug (.buffered fun _ => .replicate 64 0) (by rfl) [1] none (.inl (by decide))⟩

theorem rounds_builtSpec (requested : UInt32) (salt : List UInt8) :
    (builtSpec requested salt).rounds =
      if requested = roundsDefault then none else some (clampRounds requested.toNat) := by
  rw [builtSpec, SaltSpec.ofParts, roundsDigits]
  split
  · rfl
  · simp only [Option.map_some, decimalValue_decimal]

theorem clampRounds_eq_default_iff (requested : UInt32) :
    clampRounds requested.toNat = 5000 ↔ requested = roundsDefault := by
  rw [← UInt32.toNat_inj, clampRounds]
  have hdefault : roundsDefault.toNat = 5000 := rfl
  rw [hdefault]
  omega

theorem rounds_builtSpec_eq_iff (requested requested' : UInt32) (salt salt' : List UInt8) :
    (builtSpec requested salt).rounds = (builtSpec requested' salt').rounds ↔
      clampRounds requested.toNat = clampRounds requested'.toNat := by
  have hdefault := clampRounds_eq_default_iff requested
  have hdefault' := clampRounds_eq_default_iff requested'
  rw [rounds_builtSpec, rounds_builtSpec]
  split
  · rename_i hrequested
    rw [hdefault.mpr hrequested]
    split
    · rename_i hrequested'
      simp [hdefault'.mpr hrequested']
    · rename_i hrequested'
      simp [Ne.symm (mt hdefault'.mp hrequested')]
  · rename_i hrequested
    split
    · rename_i hrequested'
      rw [hdefault'.mpr hrequested']
      simp [mt hdefault.mp hrequested]
    · simp

theorem hash_eq_ok_of_fill {profile : Profile} {B : Backend} {rng : Csprng}
    {drawn : List UInt8} (hrng : rng.fill saltLenMax = some drawn) {password : List UInt8}
    {rounds : Option UInt32} {out : List UInt8}
    (hout : hash profile B rng (.fromBytes password) rounds = .ok out) :
    out = hashText B.sha512 password
      (builtSpec (rounds.getD roundsDefault) (drawn.map saltByte)) := by
  obtain ⟨_, other, hother, htext⟩ := (hash_eq_ok_iff rng out).mp hout
  obtain rfl := Option.some.inj (hother.symm.trans hrng)
  exact htext

/-- Two calls of `hash` return the same text exactly if they ask for the same
number of rounds after clamping, draw bytes that agree in the six low bits, and
arrive at one digest. -/
theorem results_agree_iff {profile profile' : Profile} {B B' : Backend}
    {rng rng' : Csprng} {drawn drawn' : List UInt8} (hrng : rng.fill saltLenMax = some drawn)
    (hrng' : rng'.fill saltLenMax = some drawn') {password password' : List UInt8}
    {rounds rounds' : Option UInt32} {out out' : List UInt8}
    (hout : hash profile B rng (.fromBytes password) rounds = .ok out)
    (hout' : hash profile' B' rng' (.fromBytes password') rounds' = .ok out') :
    out = out' ↔
      requestedRounds rounds = requestedRounds rounds' ∧
      drawn.map (· &&& 0x3f) = drawn'.map (· &&& 0x3f) ∧
      shaCrypt B.sha512 password (drawn.map saltByte) (requestedRounds rounds) =
        shaCrypt B'.sha512 password' (drawn'.map saltByte) (requestedRounds rounds') := by
  have hsalt := salt_builtSpec (saltBytes_alphabet drawn) (saltBytes_length hrng).le
    (rounds.getD roundsDefault)
  have hsalt' := salt_builtSpec (saltBytes_alphabet drawn') (saltBytes_length hrng').le
    (rounds'.getD roundsDefault)
  rw [hash_eq_ok_of_fill hrng hout, hash_eq_ok_of_fill hrng' hout', ← map_saltByte_eq_iff,
    ← effectiveRounds_requested rounds (drawn.map saltByte),
    ← effectiveRounds_requested rounds' (drawn'.map saltByte)]
  constructor
  · intro htext
    obtain ⟨hspec, hdigest⟩ := hashText_inj htext
    rw [hsalt, hsalt'] at hdigest
    refine ⟨congrArg SaltSpec.effectiveRounds hspec, ?_, hdigest⟩
    rw [← hsalt, ← hsalt', hspec]
  · rintro ⟨hrounds, hsame, hdigest⟩
    have hspec : builtSpec (rounds.getD roundsDefault) (drawn.map saltByte) =
        builtSpec (rounds'.getD roundsDefault) (drawn'.map saltByte) := by
      ext1
      · rw [effectiveRounds_builtSpec, effectiveRounds_builtSpec] at hrounds
        exact (rounds_builtSpec_eq_iff _ _ _ _).mpr hrounds
      · rw [hsalt, hsalt', hsame]
    rw [hashText, hashText, hsalt, hsalt', hdigest, hspec]

theorem results_agree_iff_clamped :
    hashText (fun _ => .replicate 64 0) [1] (builtSpec 1 ((List.replicate 16 0).map saltByte)) =
        hashText (fun _ => .replicate 64 0) [2]
          (builtSpec 999 ((List.replicate 16 64).map saltByte)) ↔
      requestedRounds (some 1) = requestedRounds (some 999) ∧
      (List.replicate 16 (0 : UInt8)).map (· &&& 0x3f) =
        (List.replicate 16 64).map (· &&& 0x3f) ∧
      shaCrypt (fun _ => .replicate 64 0) [1] ((List.replicate 16 0).map saltByte)
          (requestedRounds (some 1)) =
        shaCrypt (fun _ => .replicate 64 0) [2] ((List.replicate 16 64).map saltByte)
          (requestedRounds (some 999)) := by
  have hrng : (Csprng.drawing (.replicate 16 0)).fill saltLenMax = some (.replicate 16 0) := rfl
  have hrng' : (Csprng.drawing (.replicate 16 64)).fill saltLenMax = some (.replicate 16 64) :=
    rfl
  exact results_agree_iff hrng hrng'
    (hash_eq .debug (.buffered fun _ => .replicate 64 0) hrng [1] (some 1) (.inl (by decide)))
    (hash_eq .release (.buffered fun _ => .replicate 64 0) hrng' [2] (some 999) (.inr rfl))

end CryptSha512.DrawnSalts
