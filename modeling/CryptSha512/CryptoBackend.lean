import CryptSha512.CheckedExecution
import CryptSha512.HashContexts

/-!
The crate-private interface every crypto backend exposes. The primitives a
backend imports from its crypto stack are parameters; what the four backends
write themselves around those primitives is defined here.
-/

namespace CryptSha512.CryptoBackend

open CryptSha512.CheckedExecution
open CryptSha512.HashContexts

/-- The comparison that every backend writes around a primitive for buffers of one
length. -/
def constantTimeEqWith (memEq : List UInt8 → List UInt8 → Bool) (a b : List UInt8) : Bool :=
  if a.length ≠ b.length then false else memEq a b

theorem constantTimeEqWith_eq_decide {memEq : List UInt8 → List UInt8 → Bool}
    (h : ∀ a b : List UInt8, a.length = b.length → (memEq a b = true ↔ a = b))
    (a b : List UInt8) : constantTimeEqWith memEq a b = decide (a = b) := by
  rw [constantTimeEqWith, Bool.eq_iff_iff, decide_eq_true_iff]
  split
  · rename_i hlength
    simp only [Bool.false_eq_true, false_iff]
    rintro rfl
    exact hlength rfl
  · rename_i hlength
    exact h a b (not_not.mp hlength)

/-- The imported primitives: the SHA-512 context, and a comparison of two
buffers of one length (`CRYPTO_memcmp`, `ct_eq`). -/
structure Backend where
  sha512Context : StreamingDigest (Vector UInt8 64)
  memEq : List UInt8 → List UInt8 → Bool
  memEq_iff : ∀ a b : List UInt8, a.length = b.length → (memEq a b = true ↔ a = b)

namespace Backend

variable (B : Backend)

/-- SHA-512 as the backend computes it. -/
abbrev sha512 : List UInt8 → Vector UInt8 64 := B.sha512Context.digest

def constantTimeEq (a b : List UInt8) : Bool := constantTimeEqWith B.memEq a b

theorem constantTimeEq_eq_decide (a b : List UInt8) :
    B.constantTimeEq a b = decide (a = b) :=
  constantTimeEqWith_eq_decide B.memEq_iff a b

/-- The backend over a given hash function. -/
def buffered (sha512 : List UInt8 → Vector UInt8 64) : Backend where
  sha512Context := .buffered sha512
  memEq a b := a == b
  memEq_iff := by simp

end Backend

/-- The system's CSPRNG as one call sees it: the bytes of a request, or nothing
when it fails. -/
structure Csprng where
  fill : Nat → Option (List UInt8)
  fill_length : ∀ {n bytes}, fill n = some bytes → bytes.length = n

/-- A CSPRNG that answers a request of the right length with the given bytes. -/
def Csprng.drawing (bytes : List UInt8) : Csprng where
  fill n := if bytes.length = n then some bytes else none
  fill_length := by
    intro n drawn h
    split at h
    · simp_all
    · simp at h

/-- All backends treat failure as fatal, by an abort or by a panic. -/
def randomBytes (rng : Csprng) (buf : List UInt8) : Exec (List UInt8) :=
  match rng.fill buf.length with
  | some bytes => .ok bytes
  | none => .error .entropy

def secureZeroBytes (data : List UInt8) : List UInt8 :=
  List.replicate data.length 0

/-- A function that overwrites a region in place. -/
@[ext] structure Overwrite where
  write : List UInt8 → List UInt8
  write_length : ∀ data, (write data).length = data.length

/-- The write on a digest. -/
def Overwrite.digest (overwrite : Overwrite) (digest : Vector UInt8 64) : Vector UInt8 64 :=
  ⟨(overwrite.write digest.toList).toArray, by simp [overwrite.write_length]⟩

/-- `secure_zero_bytes`, as a write. -/
def zeroing : Overwrite := ⟨secureZeroBytes, fun data => by simp [secureZeroBytes]⟩

end CryptSha512.CryptoBackend
