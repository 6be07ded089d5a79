import Mathlib.Data.List.Basic
import Mathlib.Data.Nat.Digits.Lemmas
import Mathlib.Tactic.Common

/-!
The SHA-crypt construction over an arbitrary hash function `H`, as a definition
without buffers, contexts or loops over them.
-/

namespace CryptSha512.ShaCryptDefinition

theorem zero_lt_block : 0 < 64 := by decide

theorem mod_block_lt (j : Nat) : j % 64 < 64 := Nat.mod_lt j zero_lt_block

/-- The `n` bytes that start the endless repetition of a block. -/
def cyc (block : Vector UInt8 64) (n : Nat) : List UInt8 :=
  (List.range n).map fun j => block.get ⟨j % 64, mod_block_lt j⟩

/-- For each binary digit of `n`, least significant first, the block for a one
and the key for a zero. -/
def binaryDigits (block : Vector UInt8 64) (key : List UInt8) (n : Nat) : List UInt8 :=
  (Nat.digits 2 n).flatMap fun digit => if digit = 1 then block.toList else key

def repeated (count : Nat) (bytes : List UInt8) : List UInt8 :=
  (List.replicate count bytes).flatten

/-- The text hashed in round `i`, from the previous value `c`. -/
def roundText (p s : List UInt8) (i : Nat) (c : Vector UInt8 64) : List UInt8 :=
  (if i % 2 = 1 then p else c.toList) ++ (if 3 ∣ i then [] else s) ++
    (if 7 ∣ i then [] else p) ++ (if i % 2 = 1 then c.toList else p)

section Construction

variable (H : List UInt8 → Vector UInt8 64) (key salt : List UInt8)

/-- `B`, the alternate sum. -/
def alternateSum : Vector UInt8 64 := H (key ++ salt ++ key)

/-- `A`, the intermediate result the rounds start from. -/
def intermediate : Vector UInt8 64 :=
  H (key ++ salt ++ cyc (alternateSum H key salt) key.length ++
    binaryDigits (alternateSum H key salt) key key.length)

/-- The digest that P is made of. -/
def keyBlock : Vector UInt8 64 := H (repeated key.length key)

/-- The digest that S is made of. -/
def saltBlock : Vector UInt8 64 :=
  H (repeated (16 + ((intermediate H key salt).get ⟨0, zero_lt_block⟩).toNat) salt)

/-- `P` -/
def keySequence : List UInt8 := cyc (keyBlock H key) key.length

/-- `S` -/
def saltSequence : List UInt8 := cyc (saltBlock H key salt) salt.length

/-- `C_i` -/
def chain : Nat → Vector UInt8 64
  | 0 => intermediate H key salt
  | i + 1 => H (roundText (keySequence H key) (saltSequence H key salt) i (chain i))

/-- The digest of a password after the given number of rounds. -/
def shaCrypt (rounds : Nat) : Vector UInt8 64 := chain H key salt rounds

end Construction

@[simp] theorem cyc_length (block : Vector UInt8 64) (n : Nat) : (cyc block n).length = n := by
  simp [cyc]

theorem cyc_of_le (block : Vector UInt8 64) {n : Nat} (h : n ≤ 64) :
    cyc block n = block.toList.take n := by
  apply List.ext_getElem
  · simp [cyc, h]
  · intro j hj _
    have hless : j < 64 := by
      simp only [cyc, List.length_map, List.length_range] at hj
      omega
    simp [cyc, Vector.get, Nat.mod_eq_of_lt hless]

theorem cyc_block_add (block : Vector UInt8 64) (n : Nat) :
    cyc block (64 + n) = block.toList ++ cyc block n := by
  have hfirst : cyc block 64 = block.toList := by
    rw [cyc_of_le block le_rfl, List.take_of_length_le (by simp)]
  rw [← hfirst]
  simp only [cyc, List.range_add, List.map_append, List.map_map]
  congr 1
  apply List.map_congr_left
  intro j _
  simp

@[simp] theorem binaryDigits_zero (block : Vector UInt8 64) (key : List UInt8) :
    binaryDigits block key 0 = [] := by
  simp [binaryDigits]

theorem binaryDigits_of_pos (block : Vector UInt8 64) (key : List UInt8) {n : Nat}
    (h : 0 < n) :
    binaryDigits block key n =
      (if n % 2 = 1 then block.toList else key) ++ binaryDigits block key (n / 2) := by
  rw [binaryDigits, Nat.digits_def' (by omega) h, List.flatMap_cons]
  rfl

theorem repeated_succ (count : Nat) (bytes : List UInt8) :
    repeated (count + 1) bytes = repeated count bytes ++ bytes := by
  simp [repeated, List.replicate_succ']

end CryptSha512.ShaCryptDefinition
