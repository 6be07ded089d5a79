import Mathlib.Data.Fin.Basic
import Mathlib.Data.List.FinRange
import CryptSha512.AsciiNumbers
import CryptSha512.CryptoBackend
import CryptSha512.SextetPacking

namespace CryptSha512.CryptBase64

open CryptSha512.AsciiNumbers
open CryptSha512.CheckedExecution
open CryptSha512.CryptoBackend
open CryptSha512.DecimalText
open CryptSha512.SextetPacking

def b64Chars : Vector UInt8 64 :=
  ⟨(List.map Char.toUInt8
    ['.', '/', '0', '1', '2', '3', '4', '5', '6', '7', '8', '9',
    'A', 'B', 'C', 'D', 'E', 'F', 'G', 'H', 'I', 'J', 'K', 'L', 'M',
    'N', 'O', 'P', 'Q', 'R', 'S', 'T', 'U', 'V', 'W', 'X', 'Y', 'Z',
    'a', 'b', 'c', 'd', 'e', 'f', 'g', 'h', 'i', 'j', 'k', 'l', 'm',
    'n', 'o', 'p', 'q', 'r', 's', 't', 'u', 'v', 'w', 'x', 'y', 'z']).toArray, rfl⟩

theorem sextet_lt (w : UInt32) : (w &&& 0x3f).toNat < 64 := by
  rw [UInt32.toNat_and]
  exact Nat.lt_of_le_of_lt Nat.and_le_right (by decide)

/-- The character for the six low bits of a word. -/
def b64Char (w : UInt32) : UInt8 := b64Chars.get ⟨(w &&& 0x3f).toNat, sextet_lt w⟩

/-- The loop of `b64_from_24bit`: `n` characters, least significant bits first.
-/
def pushSextets : Nat → UInt32 → List UInt8 → List UInt8
  | 0, _, output => output
  | n + 1, w, output => pushSextets n (w >>> 6) (output ++ [b64Char w])

/-- `b64_from_24bit`, where `n` is at most four. -/
def b64From24Bit (b2 b1 b0 : UInt8) (n : Nat) (output : List UInt8) : List UInt8 :=
  pushSextets n (b2.toUInt32 <<< 16 ||| b1.toUInt32 <<< 8 ||| b0.toUInt32) output

theorem saltByte_lt (byte : UInt8) : (byte &&& 0x3f).toNat < 64 := by
  rw [UInt8.toNat_and]
  exact Nat.lt_of_le_of_lt Nat.and_le_right (by decide)

/-- The character that `generate_salt` puts in the place of a random byte. -/
def saltByte (byte : UInt8) : UInt8 := b64Chars.get ⟨(byte &&& 0x3f).toNat, saltByte_lt byte⟩

/-- The body of `generate_salt`, over the function that draws. -/
def generateSaltWith (randomBytes : List UInt8 → Exec (List UInt8)) (buf : List UInt8) :
    Exec (List UInt8) := do
  let buf ← randomBytes buf
  pure (buf.map saltByte)

def generateSalt (rng : Csprng) (buf : List UInt8) : Exec (List UInt8) :=
  generateSaltWith (randomBytes rng) buf

/-- One iteration of `encode_crypt_base64`. Missing bytes of the last chunk are
zero. -/
def encodeChunk (output chunk : List UInt8) : Exec (List UInt8) := do
  let b0 ← getAt chunk 0
  let b1 := chunk[1]?.getD 0
  let b2 := chunk[2]?.getD 0
  pure (b64From24Bit b2 b1 b0 (chunk.length + 1) output)

def encodeCryptBase64 (profile : Profile) (input : List UInt8) : Exec (List UInt8) := do
  let _capacity ← usizeMul profile ((input.length + 2) / 3) 4
  (chunksOfThree input).foldlM encodeChunk []

/-- The part of `crypt_inner` that encodes the result in the specific order. -/
def encodeResult (result : Vector UInt8 64) (output : List UInt8) : List UInt8 :=
  let output := b64From24Bit result[0] result[21] result[42] 4 output
  let output := b64From24Bit result[22] result[43] result[1] 4 output
  let output := b64From24Bit result[44] result[2] result[23] 4 output
  let output := b64From24Bit result[3] result[24] result[45] 4 output
  let output := b64From24Bit result[25] result[46] result[4] 4 output
  let output := b64From24Bit result[47] result[5] result[26] 4 output
  let output := b64From24Bit result[6] result[27] result[48] 4 output
  let output := b64From24Bit result[28] result[49] result[7] 4 output
  let output := b64From24Bit result[50] result[8] result[29] 4 output
  let output := b64From24Bit result[9] result[30] result[51] 4 output
  let output := b64From24Bit result[31] result[52] result[10] 4 output
  let output := b64From24Bit result[53] result[11] result[32] 4 output
  let output := b64From24Bit result[12] result[33] result[54] 4 output
  let output := b64From24Bit result[34] result[55] result[13] 4 output
  let output := b64From24Bit result[56] result[14] result[35] 4 output
  let output := b64From24Bit result[15] result[36] result[57] 4 output
  let output := b64From24Bit result[37] result[58] result[16] 4 output
  let output := b64From24Bit result[59] result[17] result[38] 4 output
  let output := b64From24Bit result[18] result[39] result[60] 4 output
  let output := b64From24Bit result[40] result[61] result[19] 4 output
  let output := b64From24Bit result[62] result[20] result[41] 4 output
  b64From24Bit 0 0 result[63] 2 output

theorem mod_alphabet_lt (digit : Nat) : digit % 64 < 64 := Nat.mod_lt digit (by decide)

def alphabetByte (digit : Nat) : UInt8 := b64Chars.get ⟨digit % 64, mod_alphabet_lt digit⟩

def alphabetDigit (byte : UInt8) : Nat := b64Chars.toList.idxOf byte

/-- The encoding as a map on byte strings, without words or shifts. -/
def cryptBase64 (bytes : List UInt8) : List UInt8 := (sextets bytes).map alphabetByte

/-- The decoding, which ignores superfluous bits. -/
def uncryptBase64 (text : List UInt8) : List UInt8 := unsextets (text.map alphabetDigit)

/-- The positions of the digest in the order in which the unrolled calls emit
them. -/
def digestOrder : List (Fin 64) :=
  [42, 21, 0, 1, 43, 22, 23, 2, 44, 45, 24, 3, 4, 46, 25, 26,
    5, 47, 48, 27, 6, 7, 49, 28, 29, 8, 50, 51, 30, 9, 10, 52,
    31, 32, 11, 53, 54, 33, 12, 13, 55, 34, 35, 14, 56, 57, 36, 15,
    16, 58, 37, 38, 17, 59, 60, 39, 18, 19, 61, 40, 41, 20, 62, 63]

/-- The text of a digest: its bytes permuted, then encoded sequentially. -/
def digestText (result : Vector UInt8 64) : List UInt8 :=
  cryptBase64 (digestOrder.map fun i => result[i])

theorem b64Chars_nodup : b64Chars.toList.Nodup := by decide +kernel

theorem alphabetByte_eq_getElem {digit : Nat} (h : digit < b64Chars.toList.length) :
    alphabetByte digit = b64Chars.toList[digit] := by
  have hlt : digit < 64 := h
  simp [alphabetByte, Vector.get, Nat.mod_eq_of_lt hlt]

theorem alphabetDigit_alphabetByte {digit : Nat} (h : digit < 64) :
    alphabetDigit (alphabetByte digit) = digit := by
  rw [alphabetByte_eq_getElem h, alphabetDigit]
  exact b64Chars_nodup.idxOf_getElem digit h

theorem get_mem_alphabet (i : Fin 64) : b64Chars.get i ∈ b64Chars.toList :=
  Vector.mem_toList_iff.mpr (by simp [Vector.get])

theorem alphabetByte_mem (digit : Nat) : alphabetByte digit ∈ b64Chars.toList :=
  get_mem_alphabet _

theorem alphabetDigit_lt {byte : UInt8} (h : byte ∈ b64Chars.toList) :
    alphabetDigit byte < 64 :=
  List.idxOf_lt_length_of_mem h

theorem alphabetByte_alphabetDigit {byte : UInt8} (h : byte ∈ b64Chars.toList) :
    alphabetByte (alphabetDigit byte) = byte := by
  rw [alphabetByte_eq_getElem (alphabetDigit_lt h)]
  exact List.getElem_idxOf (alphabetDigit_lt h)

theorem ascii_of_mem_alphabet {byte : UInt8} (h : byte ∈ b64Chars.toList) : byte < 128 := by
  have htable : ∀ byte ∈ b64Chars.toList, byte < 128 := by decide +kernel
  exact htable byte h

theorem mem_alphabet_of_isDigit {byte : UInt8} (h : isDigit byte = true) :
    byte ∈ b64Chars.toList := by
  have htable : ∀ digit < 10, digitByte digit ∈ b64Chars.toList := by decide +kernel
  rw [isDigit_iff] at h
  have hbyte : digitByte (byte.toNat - 48) = byte := by
    apply UInt8.toNat_inj.mp
    rw [digitByte_toNat (by omega)]
    omega
  rw [← hbyte]
  exact htable _ (by omega)

theorem dollar_not_mem_alphabet : dollar ∉ b64Chars.toList := by decide +kernel

theorem equalsSign_not_mem_alphabet : '='.toUInt8 ∉ b64Chars.toList := by decide +kernel

theorem b64Char_eq (w : UInt32) : b64Char w = alphabetByte w.toNat := by
  have hmask : (w &&& 0x3f).toNat = w.toNat % 64 := by
    rw [UInt32.toNat_and]
    exact Nat.and_two_pow_sub_one_eq_mod w.toNat 6
  simp only [b64Char, alphabetByte, hmask]

theorem pushSextets_eq (n : Nat) (w : UInt32) (output : List UInt8) :
    pushSextets n w output = output ++ (fixedDigits 64 n w.toNat).map alphabetByte := by
  induction n generalizing w output with
  | zero => simp [pushSextets, fixedDigits]
  | succ n ih =>
      have hshift : (w >>> 6).toNat = w.toNat / 64 := by
        rw [UInt32.toNat_shiftRight]
        exact Nat.shiftRight_eq_div_pow w.toNat 6
      have hdigit : alphabetByte (w.toNat % 64) = alphabetByte w.toNat := by
        simp [alphabetByte]
      rw [pushSextets, ih, hshift, b64Char_eq, fixedDigits, List.map_cons, hdigit,
        List.append_assoc, List.singleton_append]

theorem word_toNat (b2 b1 b0 : UInt8) :
    (b2.toUInt32 <<< 16 ||| b1.toUInt32 <<< 8 ||| b0.toUInt32).toNat =
      groupWord [b0, b1, b2] := by
  have h0 := b0.toNat_lt
  have h1 := b1.toNat_lt
  have h2 := b2.toNat_lt
  have hhigh : b2.toNat <<< 16 % 2 ^ 32 = b2.toNat <<< 16 := by
    rw [Nat.shiftLeft_eq]
    omega
  have hmiddle : b1.toNat <<< 8 % 2 ^ 32 = b1.toNat <<< 8 := by
    rw [Nat.shiftLeft_eq]
    omega
  rw [UInt32.toNat_or, UInt32.toNat_or, UInt32.toNat_shiftLeft, UInt32.toNat_shiftLeft]
  simp only [UInt8.toNat_toUInt32]
  change b2.toNat <<< 16 % 2 ^ 32 ||| b1.toNat <<< 8 % 2 ^ 32 ||| b0.toNat = _
  rw [hhigh, hmiddle, Nat.or_assoc,
    ← Nat.shiftLeft_add_eq_or_of_lt (show b0.toNat < 2 ^ 8 from h0),
    ← Nat.shiftLeft_add_eq_or_of_lt
      (show b1.toNat <<< 8 + b0.toNat < 2 ^ 16 by rw [Nat.shiftLeft_eq]; omega)]
  simp only [groupWord, List.map_cons, List.map_nil, Nat.ofDigits_cons, Nat.ofDigits_nil,
    Nat.shiftLeft_eq]
  omega

theorem b64From24Bit_eq (b2 b1 b0 : UInt8) (n : Nat) (output : List UInt8) :
    b64From24Bit b2 b1 b0 n output =
      output ++ (fixedDigits 64 n (groupWord [b0, b1, b2])).map alphabetByte := by
  rw [b64From24Bit, pushSextets_eq, word_toNat]

theorem encodeChunk_eq {chunk : List UInt8} (h : 0 < chunk.length ∧ chunk.length ≤ 3)
    (output : List UInt8) :
    encodeChunk output chunk = .ok (output ++ (groupSextets chunk).map alphabetByte) := by
  match chunk, h with
  | [b0], _ =>
      have hword : groupWord [b0, 0, 0] = groupWord [b0] := by
        simp [groupWord, Nat.ofDigits_cons]
      simp [encodeChunk, getAt, b64From24Bit_eq, groupSextets, hword]
  | [b0, b1], _ =>
      have hword : groupWord [b0, b1, 0] = groupWord [b0, b1] := by
        simp [groupWord, Nat.ofDigits_cons]
      simp [encodeChunk, getAt, b64From24Bit_eq, groupSextets, hword]
  | [b0, b1, b2], _ => simp [encodeChunk, getAt, b64From24Bit_eq, groupSextets]

theorem foldlM_encodeChunk {chunks : List (List UInt8)}
    (h : ∀ chunk ∈ chunks, 0 < chunk.length ∧ chunk.length ≤ 3) (output : List UInt8) :
    chunks.foldlM encodeChunk output =
      .ok (output ++ (chunks.flatMap groupSextets).map alphabetByte) := by
  induction chunks generalizing output with
  | nil => simp
  | cons chunk chunks ih =>
      rw [List.foldlM_cons, encodeChunk_eq (h chunk (by simp)), ok_bind,
        ih fun other hother => h other (by simp [hother])]
      simp

theorem encodeCryptBase64_eq (profile : Profile) {input : List UInt8}
    (h : input.length ≤ isizeMax) :
    encodeCryptBase64 profile input = .ok (cryptBase64 input) := by
  have hcapacity : usizeMul profile ((input.length + 2) / 3) 4 =
      .ok ((input.length + 2) / 3 * 4) := by
    have hlt := lt_of_le_isizeMax h
    exact usizeMul_of_lt profile (by omega)
  rw [encodeCryptBase64, hcapacity, ok_bind,
    foldlM_encodeChunk fun chunk hchunk => chunksOfThree_length_le hchunk]
  rfl

theorem encodeResult_eq (result : Vector UInt8 64) (output : List UInt8) :
    encodeResult result output = output ++ digestText result := by
  simp only [encodeResult, b64From24Bit_eq, digestText, digestOrder, List.map_cons,
    List.map_nil, cryptBase64, sextets_cons, List.map_append, List.append_assoc]
  rfl

theorem mem_alphabet_of_mem_cryptBase64 {bytes : List UInt8} {byte : UInt8}
    (h : byte ∈ cryptBase64 bytes) : byte ∈ b64Chars.toList := by
  obtain ⟨digit, _, rfl⟩ := List.mem_map.mp h
  exact alphabetByte_mem digit

theorem cryptBase64_length (bytes : List UInt8) :
    (cryptBase64 bytes).length = (8 * bytes.length + 5) / 6 := by
  rw [cryptBase64, List.length_map, sextets_length]

theorem map_alphabetDigit_cryptBase64 (bytes : List UInt8) :
    (cryptBase64 bytes).map alphabetDigit = sextets bytes := by
  rw [cryptBase64, List.map_map]
  apply map_eq_self
  intro digit hdigit
  exact alphabetDigit_alphabetByte (lt_of_mem_sextets hdigit)

theorem uncryptBase64_cryptBase64 (bytes : List UInt8) :
    uncryptBase64 (cryptBase64 bytes) = bytes := by
  rw [uncryptBase64, map_alphabetDigit_cryptBase64, unsextets_sextets]

theorem cryptBase64_injective : Function.Injective cryptBase64 :=
  Function.LeftInverse.injective uncryptBase64_cryptBase64

section AlphabetTexts

variable {text : List UInt8} (htext : ∀ byte ∈ text, byte ∈ b64Chars.toList)

include htext

theorem lt_of_mem_map_alphabetDigit : ∀ digit ∈ text.map alphabetDigit, digit < 64 := by
  intro digit hdigit
  obtain ⟨byte, hbyte, rfl⟩ := List.mem_map.mp hdigit
  exact alphabetDigit_lt (htext byte hbyte)

theorem map_alphabetByte_map_alphabetDigit :
    (text.map alphabetDigit).map alphabetByte = text := by
  rw [List.map_map]
  apply map_eq_self
  intro byte hbyte
  exact alphabetByte_alphabetDigit (htext byte hbyte)

theorem exists_cryptBase64_iff :
    (∃ bytes, cryptBase64 bytes = text) ↔ CanonicalTail (text.map alphabetDigit) := by
  rw [← exists_sextets_iff (lt_of_mem_map_alphabetDigit htext)]
  constructor
  · rintro ⟨bytes, rfl⟩
    exact ⟨bytes, (map_alphabetDigit_cryptBase64 bytes).symm⟩
  · rintro ⟨bytes, hbytes⟩
    refine ⟨bytes, ?_⟩
    rw [cryptBase64, hbytes, map_alphabetByte_map_alphabetDigit htext]

theorem cryptBase64_uncryptBase64 (hlength : text.length % 4 = 0) :
    cryptBase64 (uncryptBase64 text) = text := by
  have hdigits := sextets_unsextets (by simpa using hlength) (lt_of_mem_map_alphabetDigit htext)
  rw [cryptBase64, uncryptBase64, hdigits, map_alphabetByte_map_alphabetDigit htext]

end AlphabetTexts

theorem cryptBase64_take (bytes : List UInt8) :
    (cryptBase64 bytes).take 16 = cryptBase64 (bytes.take 12) := by
  rcases Nat.le_total bytes.length 12 with hshort | hlong
  · rw [List.take_of_length_le hshort, List.take_of_length_le]
    rw [cryptBase64_length]
    omega
  · have hfront : (bytes.take 12).length = 12 := by
      rw [List.length_take, Nat.min_eq_left hlong]
    have hlength : (cryptBase64 (bytes.take 12)).length = 16 := by
      rw [cryptBase64_length, hfront]
    have hcut : cryptBase64 bytes =
        cryptBase64 (bytes.take 12) ++ (sextets (bytes.drop 12)).map alphabetByte := by
      conv_lhs => rw [cryptBase64, ← List.take_append_drop 12 bytes]
      rw [sextets_append (by rw [hfront]), List.map_append, cryptBase64]
    rw [hcut, ← hlength, List.take_left]

theorem mem_digestOrder (i : Fin 64) : i ∈ digestOrder := by
  revert i
  decide

theorem digestText_length (result : Vector UInt8 64) :
    (digestText result).length = sha512HashEncodedLength := by
  rw [digestText, cryptBase64_length, List.length_map]
  rfl

theorem mem_alphabet_of_mem_digestText {result : Vector UInt8 64} {byte : UInt8}
    (h : byte ∈ digestText result) : byte ∈ b64Chars.toList :=
  mem_alphabet_of_mem_cryptBase64 h

theorem dollar_not_mem_digestText (result : Vector UInt8 64) : dollar ∉ digestText result :=
  fun h => dollar_not_mem_alphabet (mem_alphabet_of_mem_digestText h)

theorem digestText_injective : Function.Injective digestText := by
  intro result result' heq
  have hbytes := cryptBase64_injective heq
  apply Vector.ext
  intro i hi
  exact List.map_inj_left.mp hbytes ⟨i, hi⟩ (mem_digestOrder ⟨i, hi⟩)

theorem saltByte_mem (byte : UInt8) : saltByte byte ∈ b64Chars.toList :=
  get_mem_alphabet _

theorem getElem?_alphabet_saltByte (byte : UInt8) :
    b64Chars.toList[(byte &&& 0x3f).toNat]? = some (saltByte byte) := by
  simp [saltByte, Vector.get]

theorem generateSalt_eq {rng : Csprng} {buf bytes : List UInt8}
    (h : rng.fill buf.length = some bytes) :
    generateSalt rng buf = .ok (bytes.map saltByte) := by
  simp [generateSalt, generateSaltWith, randomBytes, h]

end CryptSha512.CryptBase64
