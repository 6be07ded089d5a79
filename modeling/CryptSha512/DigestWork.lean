import CryptSha512.PasswordBinding

namespace CryptSha512.DigestWork

open CryptSha512.CheckedExecution
open CryptSha512.CryptInner
open CryptSha512.CryptRefinement
open CryptSha512.CryptoBackend
open CryptSha512.DigestTexts
open CryptSha512.HashChains
open CryptSha512.PasswordBinding
open CryptSha512.ShaCryptDefinition

/-- The bytes added for the binary representation of the length of the key. -/
def lengthBitsLength (keyLen : Nat) : Nat :=
  ((Nat.digits 2 keyLen).map fun digit => if digit = 1 then 64 else keyLen).sum

/-- The length of the text of round `i`. -/
def roundLength (keyLen saltLen i : Nat) : Nat :=
  64 + keyLen + (if 3 ∣ i then 0 else saltLen) + (if 7 ∣ i then 0 else keyLen)

/-- The lengths of the texts of a run, in order. -/
def textLengths (keyLen saltLen repetitions rounds : Nat) : List Nat :=
  [2 * keyLen + saltLen, 2 * keyLen + saltLen + lengthBitsLength keyLen, keyLen * keyLen,
    repetitions * saltLen] ++ (List.range rounds).map (roundLength keyLen saltLen)

/-- How many of the numbers below `n` are not divisible by `m`. -/
def nonMultiples (m n : Nat) : Nat := n - (n + m - 1) / m

/-- The total length of the texts of a run. -/
def totalLength (keyLen saltLen repetitions rounds : Nat) : Nat :=
  4 * keyLen + 2 * saltLen + lengthBitsLength keyLen + keyLen * keyLen +
    repetitions * saltLen + 64 * rounds + keyLen * (rounds + nonMultiples 7 rounds) +
    saltLen * nonMultiples 3 rounds

theorem nonMultiples_succ {m : Nat} (hm : 0 < m) (n : Nat) :
    nonMultiples m (n + 1) = nonMultiples m n + if m ∣ n then 0 else 1 := by
  have hquotient : (n + 1 + m - 1) / m = (n + m - 1) / m + if m ∣ n then 1 else 0 := by
    have hsucc : (n + m - 1 + 1) / m = _ := Nat.succ_div
    simpa only [show n + m - 1 + 1 = n + m by omega, Nat.dvd_add_self_right,
      show n + 1 + m - 1 = n + m by omega] using hsucc
  have hless : (n + m - 1) / m < n + 1 := by
    rw [Nat.div_lt_iff_lt_mul hm, Nat.add_mul, Nat.one_mul]
    have hle := Nat.le_mul_of_pos_right n hm
    omega
  rw [nonMultiples, nonMultiples, hquotient]
  split <;> omega

theorem sum_roundLength (keyLen saltLen rounds : Nat) :
    ((List.range rounds).map (roundLength keyLen saltLen)).sum =
      64 * rounds + keyLen * (rounds + nonMultiples 7 rounds) +
        saltLen * nonMultiples 3 rounds := by
  induction rounds with
  | zero => simp [nonMultiples]
  | succ rounds ih =>
      rw [List.range_succ, List.map_append, List.sum_append, ih, nonMultiples_succ (by omega),
        nonMultiples_succ (by omega)]
      simp only [List.map_singleton, List.sum_singleton, roundLength]
      split <;> split <;> ring

theorem sum_textLengths (keyLen saltLen repetitions rounds : Nat) :
    (textLengths keyLen saltLen repetitions rounds).sum =
      totalLength keyLen saltLen repetitions rounds := by
  rw [textLengths, List.sum_append, sum_roundLength]
  simp only [List.sum_cons, List.sum_nil, totalLength]
  ring

theorem repeated_length (count : Nat) (bytes : List UInt8) :
    (repeated count bytes).length = count * bytes.length := by
  simp [repeated]

theorem roundText_length (p s : List UInt8) (i : Nat) (c : Vector UInt8 64) :
    (roundText p s i c).length = roundLength p.length s.length i := by
  simp only [roundText, roundLength, List.length_append]
  split <;> split <;> split <;> simp <;> omega

section Lengths

variable (H : List UInt8 → Vector UInt8 64) (key salt : List UInt8)

theorem map_length_setupTexts :
    (setupTexts H key salt).map List.length =
      [2 * key.length + salt.length, 2 * key.length + salt.length + lengthBitsLength key.length,
        key.length * key.length, saltRepetitions H key salt * salt.length] := by
  have halternate : (key ++ salt ++ key).length = 2 * key.length + salt.length := by
    simp only [List.length_append]
    omega
  simp only [setupTexts, List.map_cons, List.map_nil, halternate, intermediateText_length,
    repeated_length, lengthBitsLength]

theorem map_length_roundTexts (rounds : Nat) :
    (roundTexts H key salt rounds).map List.length =
      (List.range rounds).map (roundLength key.length salt.length) := by
  rw [roundTexts, chainTexts, List.map_map]
  apply List.map_congr_left
  intro i _
  rw [Function.comp_apply, roundText_length, keySequence, saltSequence, cyc_length, cyc_length]

theorem map_length_digestTexts (rounds : Nat) :
    (digestTexts H key salt rounds).map List.length =
      textLengths key.length salt.length (saltRepetitions H key salt) rounds := by
  rw [digestTexts, List.map_append, map_length_setupTexts, map_length_roundTexts, textLengths]

end Lengths

/-- The lengths of the texts that a run hashes, and their total. The password
enters with its length, and with the first byte of the intermediate digest in
the number of repetitions of the salt. -/
theorem lengths_of_run (profile : Profile) (B : Backend) (password : Password)
    (salt : BoundedBytes) :
    ∃ (run : HashRun profile B password salt.bytes) (repetitions : Nat),
      run.log.map List.length = textLengths password.bytes.length run.settings.salt.length
        repetitions run.settings.rounds.toNat ∧
      run.log.length = run.settings.rounds.toNat + 4 ∧
      (run.log.map List.length).sum = totalLength password.bytes.length
        run.settings.salt.length repetitions run.settings.rounds.toNat ∧
      repetitions = 16 + ((intermediate B.sha512 password.bytes run.settings.salt).get
        ⟨0, zero_lt_block⟩).toNat := by
  obtain ⟨run, hsettings, _, hlog, _⟩ := exists_hashRun profile B password salt
  have hlengths : run.log.map List.length = textLengths password.bytes.length
      run.settings.salt.length (saltRepetitions B.sha512 password.bytes run.settings.salt)
      run.settings.rounds.toNat := by
    rw [hlog, hsettings, map_length_digestTexts]
    simp only [settingsOf, toNat_effectiveRounds]
  refine ⟨run, _, hlengths, ?_, ?_, rfl⟩
  · have hcount := congrArg List.length hlengths
    simp only [List.length_map, textLengths, List.length_append, List.length_cons,
      List.length_nil, List.length_range] at hcount
    omega
  · rw [hlengths, sum_textLengths]

end CryptSha512.DigestWork
