import Mathlib.Logic.Equiv.Defs
import CryptSha512.CryptBase64

namespace CryptSha512.EncodingLaws

open CryptSha512.AsciiNumbers
open CryptSha512.CheckedExecution
open CryptSha512.CryptBase64
open CryptSha512.SextetPacking

theorem digestOrder_length : digestOrder.length = 64 := rfl

theorem idxOf_digestOrder_lt (i : Fin 64) : digestOrder.idxOf i < 64 :=
  List.idxOf_lt_length_of_mem (mem_digestOrder i)

/-- The positions of a digest in the order of the unrolled calls, as a
permutation. -/
def digestPermutation : Equiv.Perm (Fin 64) where
  toFun i := digestOrder.get (i.cast digestOrder_length.symm)
  invFun i := ⟨digestOrder.idxOf i, idxOf_digestOrder_lt i⟩
  left_inv := by decide +kernel
  right_inv := by decide +kernel

theorem map_digestPermutation :
    (List.finRange 64).map digestPermutation = digestOrder := by
  decide +kernel

theorem digestText_eq_permuted (result : Vector UInt8 64) :
    digestText result =
      cryptBase64 ((List.finRange 64).map fun i => result[digestPermutation i]) := by
  rw [digestText, ← map_digestPermutation, List.map_map]
  rfl

/-- One permutation makes the unrolled calls the sequential encoder on every
digest, and the text they append determines the digest. -/
theorem unrolled_encoder_is_sequential :
    ∃ q : Equiv.Perm (Fin 64),
      (∀ result : Vector UInt8 64, ∃ text,
        (∀ output, encodeResult result output = output ++ text) ∧
        (∀ profile, encodeCryptBase64 profile ((List.finRange 64).map fun i => result[q i]) =
          .ok text) ∧
        text.length = sha512HashEncodedLength ∧ dollar ∉ text) ∧
      (∀ result result' : Vector UInt8 64, result ≠ result' →
        encodeResult result [] ≠ encodeResult result' []) := by
  refine ⟨digestPermutation, ?_, ?_⟩
  · intro result
    refine ⟨digestText result, encodeResult_eq result, ?_, digestText_length result,
      dollar_not_mem_digestText result⟩
    intro profile
    rw [encodeCryptBase64_eq profile, digestText_eq_permuted]
    rw [List.length_map, List.length_finRange]
    decide
  · intro result result' hne hsame
    simp only [encodeResult_eq, List.nil_append] at hsame
    exact hne (digestText_injective hsame)

theorem canonicalTail_map_alphabetDigit_iff (text : List UInt8) :
    CanonicalTail (text.map alphabetDigit) ↔
      text.length % 4 ≠ 1 ∧
      (text.length % 4 = 2 → ∀ last ∈ text.getLast?, alphabetDigit last >>> 2 = 0) ∧
      (text.length % 4 = 3 → ∀ last ∈ text.getLast?, alphabetDigit last >>> 4 = 0) := by
  have hlow : ∀ digit : Nat, digit < 4 ↔ digit >>> 2 = 0 := by
    intro digit
    rw [Nat.shiftRight_eq_div_pow]
    omega
  have hhigh : ∀ digit : Nat, digit < 16 ↔ digit >>> 4 = 0 := by
    intro digit
    rw [Nat.shiftRight_eq_div_pow]
    omega
  simp only [CanonicalTail, List.length_map, List.getLast?_map, Option.mem_map,
    forall_exists_index, and_imp, forall_apply_eq_imp_iff₂, hlow, hhigh]

/-- The sequential encoder loses nothing, and its image consists of the texts
over the alphabet that have a possible length and no superfluous bits. -/
theorem sequential_encoder_lossless_with_image (profile : Profile) :
    (∃ decode : List UInt8 → List UInt8, ∀ bytes : BoundedBytes, ∃ text,
      encodeCryptBase64 profile bytes.bytes = .ok text ∧
      text.length = (8 * bytes.bytes.length + 5) / 6 ∧
      (∀ byte ∈ text, byte ∈ b64Chars.toList) ∧ decode text = bytes.bytes) ∧
    (∀ text : BoundedBytes, (∀ byte ∈ text.bytes, byte ∈ b64Chars.toList) →
      ((∃ bytes : BoundedBytes, encodeCryptBase64 profile bytes.bytes = .ok text.bytes) ↔
        text.bytes.length % 4 ≠ 1 ∧
        (text.bytes.length % 4 = 2 →
          ∀ last ∈ text.bytes.getLast?, alphabetDigit last >>> 2 = 0) ∧
        (text.bytes.length % 4 = 3 →
          ∀ last ∈ text.bytes.getLast?, alphabetDigit last >>> 4 = 0))) := by
  constructor
  · refine ⟨uncryptBase64, ?_⟩
    intro bytes
    exact ⟨cryptBase64 bytes.bytes, encodeCryptBase64_eq profile bytes.length_le,
      cryptBase64_length bytes.bytes, fun _ => mem_alphabet_of_mem_cryptBase64,
      uncryptBase64_cryptBase64 bytes.bytes⟩
  · intro text htext
    rw [← canonicalTail_map_alphabetDigit_iff, ← exists_cryptBase64_iff htext]
    constructor
    · rintro ⟨bytes, hbytes⟩
      rw [encodeCryptBase64_eq profile bytes.length_le] at hbytes
      exact ⟨bytes.bytes, Except.ok.inj hbytes⟩
    · rintro ⟨bytes, hbytes⟩
      -- an encoding is no shorter than what it encodes
      have hlength : bytes.length ≤ isizeMax := by
        have hle := text.length_le
        rw [← hbytes, cryptBase64_length] at hle
        omega
      refine ⟨⟨bytes, hlength⟩, ?_⟩
      rw [encodeCryptBase64_eq profile hlength, hbytes]

end CryptSha512.EncodingLaws
