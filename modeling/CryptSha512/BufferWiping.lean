import CryptSha512.CryptRefinement

namespace CryptSha512.BufferWiping

open CryptSha512.CheckedExecution
open CryptSha512.CryptInner
open CryptSha512.CryptRefinement
open CryptSha512.CryptoBackend
open CryptSha512.SaltSpecGrammar
open CryptSha512.ShaCryptDefinition

def Wiped (bytes : List UInt8) : Prop := ∀ byte ∈ bytes, byte = 0

/-- Every buffer that held the password or a digest made from it is wiped. -/
structure AllWiped (returned : Returned) : Prop where
  keyBytes : Wiped returned.keyBytes
  result : Wiped returned.buffers.result.toList
  tempResultP : Wiped returned.buffers.tempResultP.toList
  tempResultS : Wiped returned.buffers.tempResultS.toList
  pBytes : Wiped returned.buffers.pBytes
  sBytes : Wiped returned.buffers.sBytes

/-- The digest that a wiped array is equal to. -/
def zeroDigest : Vector UInt8 64 := .replicate 64 0

theorem wiped_secureZeroBytes (bytes : List UInt8) : Wiped (secureZeroBytes bytes) := by
  intro byte hbyte
  exact List.eq_of_mem_replicate hbyte

theorem wiped_zeroing_digest (digest : Vector UInt8 64) :
    Wiped (zeroing.digest digest).toList :=
  wiped_secureZeroBytes digest.toList

theorem wiped_digest_iff (digest : Vector UInt8 64) :
    Wiped digest.toList ↔ digest = zeroDigest := by
  constructor
  · intro h
    apply Vector.ext
    intro i hi
    have hbyte := h digest[i] (by simp)
    simpa [zeroDigest] using hbyte
  · rintro rfl
    intro byte hbyte
    simp only [zeroDigest, Vector.toList_replicate] at hbyte
    exact List.eq_of_mem_replicate hbyte

section Returning

variable (profile : Profile) (B : Backend)

theorem hashWithSaltReturned_eq (password : Password) (salt : BoundedBytes) :
    ∃ returned, hashWithSaltReturned profile B password salt.bytes = .ok returned ∧
      Wiped returned.keyBytes ∧ Wiped returned.buffers.result.toList ∧
      Wiped returned.buffers.pBytes ∧ Wiped returned.buffers.sBytes ∧
      returned.buffers.tempResultP = keyBlock B.sha512 password.bytes ∧
      returned.buffers.tempResultS =
        saltBlock B.sha512 password.bytes (SaltSpec.denote salt.bytes).salt := by
  exact ⟨_, hashWithSaltReturnedWith_eq profile B zeroing password salt.length_le,
    wiped_secureZeroBytes _, wiped_zeroing_digest _, wiped_secureZeroBytes _,
    wiped_secureZeroBytes _, rfl, rfl⟩

/-- Four of the six buffers are always wiped. The other two keep the digests
that P and S are filled from, so that all are wiped exactly if both of these
digests happen to be zero. -/
theorem buffers_wiped_iff (password : Password) (salt : BoundedBytes) :
    ∃ returned, hashWithSaltReturned profile B password salt.bytes = .ok returned ∧
      Wiped returned.keyBytes ∧ Wiped returned.buffers.result.toList ∧
      Wiped returned.buffers.pBytes ∧ Wiped returned.buffers.sBytes ∧
      (AllWiped returned ↔
        keyBlock B.sha512 password.bytes = zeroDigest ∧
          saltBlock B.sha512 password.bytes (SaltSpec.denote salt.bytes).salt = zeroDigest) := by
  obtain ⟨returned, hrun, hkey, hresult, hp, hs, htempP, htempS⟩ :=
    hashWithSaltReturned_eq profile B password salt
  refine ⟨returned, hrun, hkey, hresult, hp, hs, ?_⟩
  rw [← htempP, ← htempS, ← wiped_digest_iff, ← wiped_digest_iff]
  constructor
  · intro h
    exact ⟨h.tempResultP, h.tempResultS⟩
  · rintro ⟨hwipedP, hwipedS⟩
    exact ⟨hkey, hresult, hwipedP, hwipedS, hp, hs⟩

end Returning

theorem temp_results_survive :
    ∃ returned, hashWithSaltReturned .release (.buffered fun _ => .replicate 64 1) ⟨[112, 119]⟩
        [115] = .ok returned ∧
      returned.buffers.tempResultP = .replicate 64 1 ∧
      returned.buffers.tempResultS = .replicate 64 1 ∧ ¬ AllWiped returned := by
  obtain ⟨returned, hrun, _, _, _, _, htempP, htempS⟩ := hashWithSaltReturned_eq .release
    (.buffered fun _ => .replicate 64 1) ⟨[112, 119]⟩ ⟨[115], by decide⟩
  have hp : returned.buffers.tempResultP = .replicate 64 1 := htempP
  refine ⟨returned, hrun, hp, htempS, ?_⟩
  intro h
  have hbyte : (1 : UInt8) = 0 := h.tempResultP 1 (by rw [hp]; simp)
  exact absurd hbyte (by decide)

end CryptSha512.BufferWiping
