import Mathlib.Data.Nat.Digits.Lemmas
import Mathlib.Tactic.Common

/-!
Packing of bytes into six-bit digits: groups of three bytes are read as
little-endian words and written as four base-64 digits, least significant
first. A short last group of `k` bytes takes `k + 1` digits.
-/

namespace CryptSha512.SextetPacking

/-- The `count` least significant digits of `value`, least significant first. -/
def fixedDigits (base : Nat) : Nat → Nat → List Nat
  | 0, _ => []
  | count + 1, value => value % base :: fixedDigits base count (value / base)

@[simp] theorem fixedDigits_length (base count value : Nat) :
    (fixedDigits base count value).length = count := by
  induction count generalizing value with
  | zero => rfl
  | succ count ih => simp [fixedDigits, ih]

theorem lt_of_mem_fixedDigits {base count value digit : Nat} (hbase : 0 < base)
    (h : digit ∈ fixedDigits base count value) : digit < base := by
  induction count generalizing value with
  | zero => simp [fixedDigits] at h
  | succ count ih =>
      simp only [fixedDigits, List.mem_cons] at h
      rcases h with rfl | h
      · exact Nat.mod_lt _ hbase
      · exact ih h

theorem ofDigits_fixedDigits {base count value : Nat} (h : value < base ^ count) :
    Nat.ofDigits base (fixedDigits base count value) = value := by
  induction count generalizing value with
  | zero =>
      have hzero : value = 0 := by simpa using h
      simp [fixedDigits, hzero]
  | succ count ih =>
      have hquotient : value / base < base ^ count := by
        apply Nat.div_lt_of_lt_mul
        rwa [Nat.mul_comm, ← Nat.pow_succ]
      simp only [fixedDigits, Nat.ofDigits_cons]
      rw [ih hquotient]
      exact Nat.mod_add_div value base

theorem fixedDigits_ofDigits {base : Nat} {digits : List Nat}
    (h : ∀ digit ∈ digits, digit < base) :
    fixedDigits base digits.length (Nat.ofDigits base digits) = digits := by
  induction digits with
  | nil => rfl
  | cons digit digits ih =>
      have hdigit : digit < base := h digit (by simp)
      have htail : ∀ value ∈ digits, value < base := by
        intro value hvalue
        exact h value (by simp [hvalue])
      simp only [List.length_cons, fixedDigits, Nat.ofDigits_cons]
      rw [Nat.add_mul_mod_self_left, Nat.mod_eq_of_lt hdigit,
        Nat.add_mul_div_left _ _ (by omega), Nat.div_eq_of_lt hdigit, Nat.zero_add,
        ih htail]

section Chunks

variable {α : Type}

/-- `xs.chunks(3)` -/
def chunksOfThree : List α → List (List α)
  | [] => []
  | [a] => [[a]]
  | [a, b] => [[a, b]]
  | a :: b :: c :: rest => [a, b, c] :: chunksOfThree rest

def chunksOfFour : List α → List (List α)
  | [] => []
  | [a] => [[a]]
  | [a, b] => [[a, b]]
  | [a, b, c] => [[a, b, c]]
  | a :: b :: c :: d :: rest => [a, b, c, d] :: chunksOfFour rest

theorem chunksOfThree_length_le {xs chunk : List α} (h : chunk ∈ chunksOfThree xs) :
    0 < chunk.length ∧ chunk.length ≤ 3 := by
  induction xs using chunksOfThree.induct with
  | case1 => simp [chunksOfThree] at h
  | case2 a => simp [chunksOfThree] at h; simp [h]
  | case3 a b => simp [chunksOfThree] at h; simp [h]
  | case4 a b c rest ih =>
      rcases List.mem_cons.mp h with rfl | h
      · simp
      · exact ih h

theorem map_eq_self {f : α → α} {xs : List α} (h : ∀ x ∈ xs, f x = x) : xs.map f = xs :=
  (List.map_congr_left h).trans (List.map_id xs)

end Chunks

/-- A group of bytes as a little-endian word. -/
def groupWord (group : List UInt8) : Nat :=
  Nat.ofDigits 256 (group.map UInt8.toNat)

/-- The digits of a group, one more than it has bytes. -/
def groupSextets (group : List UInt8) : List Nat :=
  fixedDigits 64 (group.length + 1) (groupWord group)

/-- The bytes of a group of digits. -/
def groupBytes (group : List Nat) : List UInt8 :=
  (fixedDigits 256 (group.length - 1) (Nat.ofDigits 64 group)).map UInt8.ofNat

def sextets (bytes : List UInt8) : List Nat :=
  (chunksOfThree bytes).flatMap groupSextets

def unsextets (digits : List Nat) : List UInt8 :=
  (chunksOfFour digits).flatMap groupBytes

theorem lt_of_mem_map_toNat {group : List UInt8} {digit : Nat}
    (h : digit ∈ group.map UInt8.toNat) : digit < 256 := by
  obtain ⟨byte, _, rfl⟩ := List.mem_map.mp h
  exact byte.toNat_lt

theorem groupWord_lt (group : List UInt8) : groupWord group < 256 ^ group.length := by
  have hlt : Nat.ofDigits 256 (group.map UInt8.toNat) < 256 ^ (group.map UInt8.toNat).length :=
    Nat.ofDigits_lt_base_pow_length (by omega) fun _ => lt_of_mem_map_toNat
  rwa [List.length_map] at hlt

theorem groupWord_lt_sextets {group : List UInt8} (h : group.length ≤ 3) :
    groupWord group < 64 ^ (group.length + 1) := by
  have hpower : 256 ^ group.length ≤ 64 ^ (group.length + 1) := by
    generalize group.length = n at h
    have hcases : n = 0 ∨ n = 1 ∨ n = 2 ∨ n = 3 := by omega
    rcases hcases with rfl | rfl | rfl | rfl <;> decide
  exact (groupWord_lt group).trans_le hpower

theorem groupBytes_groupSextets {group : List UInt8} (h : group.length ≤ 3) :
    groupBytes (groupSextets group) = group := by
  have hdigits : fixedDigits 256 (group.map UInt8.toNat).length _ = _ :=
    fixedDigits_ofDigits fun _ => lt_of_mem_map_toNat
  rw [List.length_map] at hdigits
  simp only [groupBytes, groupSextets, fixedDigits_length, Nat.add_sub_cancel,
    ofDigits_fixedDigits (groupWord_lt_sextets h)]
  rw [groupWord, hdigits, List.map_map]
  have hinverse : UInt8.ofNat ∘ UInt8.toNat = id := by
    funext byte
    simp
  rw [hinverse, List.map_id]

theorem chunksOfFour_groupSextets_append (a b c : UInt8) (digits : List Nat) :
    chunksOfFour (groupSextets [a, b, c] ++ digits) =
      groupSextets [a, b, c] :: chunksOfFour digits := by
  simp [groupSextets, fixedDigits, chunksOfFour]

theorem sextets_cons (a b c : UInt8) (rest : List UInt8) :
    sextets (a :: b :: c :: rest) = groupSextets [a, b, c] ++ sextets rest := by
  simp [sextets, chunksOfThree]

theorem unsextets_sextets (bytes : List UInt8) : unsextets (sextets bytes) = bytes := by
  induction bytes using chunksOfThree.induct with
  | case1 => rfl
  | case2 a =>
      have hchunks : chunksOfFour (sextets [a]) = [groupSextets [a]] := by
        simp [sextets, chunksOfThree, groupSextets, fixedDigits, chunksOfFour]
      simp [unsextets, hchunks, groupBytes_groupSextets]
  | case3 a b =>
      have hchunks : chunksOfFour (sextets [a, b]) = [groupSextets [a, b]] := by
        simp [sextets, chunksOfThree, groupSextets, fixedDigits, chunksOfFour]
      simp [unsextets, hchunks, groupBytes_groupSextets]
  | case4 a b c rest ih =>
      rw [sextets_cons, unsextets, chunksOfFour_groupSextets_append, List.flatMap_cons,
        groupBytes_groupSextets (by simp)]
      rw [unsextets] at ih
      rw [ih]
      rfl

theorem sextets_length (bytes : List UInt8) :
    (sextets bytes).length = (8 * bytes.length + 5) / 6 := by
  induction bytes using chunksOfThree.induct with
  | case1 => rfl
  | case2 a => simp [sextets, chunksOfThree, groupSextets]
  | case3 a b => simp [sextets, chunksOfThree, groupSextets]
  | case4 a b c rest ih =>
      rw [sextets_cons, List.length_append, ih]
      simp only [groupSextets, fixedDigits_length, List.length_cons, List.length_nil]
      omega

theorem lt_of_mem_sextets {bytes : List UInt8} {digit : Nat}
    (h : digit ∈ sextets bytes) : digit < 64 := by
  obtain ⟨group, _, hdigit⟩ := List.mem_flatMap.mp h
  exact lt_of_mem_fixedDigits (by omega) hdigit

theorem groupSextets_groupBytes_of_lt {group : List Nat} (hne : group ≠ [])
    (hdigits : ∀ digit ∈ group, digit < 64)
    (hword : Nat.ofDigits 64 group < 256 ^ (group.length - 1)) :
    groupSextets (groupBytes group) = group := by
  have hpos := List.length_pos_iff.mpr hne
  have hlength : (groupBytes group).length + 1 = group.length := by
    rw [groupBytes, List.length_map, fixedDigits_length]
    omega
  have hbytes : (groupBytes group).map UInt8.toNat =
      fixedDigits 256 (group.length - 1) (Nat.ofDigits 64 group) := by
    rw [groupBytes, List.map_map]
    apply map_eq_self
    intro digit hdigit
    have hlt := lt_of_mem_fixedDigits (by omega) hdigit
    exact UInt8.toNat_ofNat_of_lt' hlt
  rw [groupSextets, hlength, groupWord, hbytes, ofDigits_fixedDigits hword]
  exact fixedDigits_ofDigits hdigits

theorem groupSextets_groupBytes {a b c d : Nat}
    (h : ∀ digit ∈ [a, b, c, d], digit < 64) :
    ∃ x y z, groupBytes [a, b, c, d] = [x, y, z] ∧
      groupSextets [x, y, z] = [a, b, c, d] := by
  have hword : Nat.ofDigits 64 [a, b, c, d] < 256 ^ 3 := by
    simpa using Nat.ofDigits_lt_base_pow_length (by omega) h
  exact ⟨_, _, _, rfl, groupSextets_groupBytes_of_lt (by simp) h hword⟩

/-- The high bits of a short last group that stand for no byte are zero. -/
def CanonicalTail (digits : List Nat) : Prop :=
  digits.length % 4 ≠ 1 ∧
    (digits.length % 4 = 2 → ∀ last ∈ digits.getLast?, last < 4) ∧
    (digits.length % 4 = 3 → ∀ last ∈ digits.getLast?, last < 16)

theorem canonicalTail_group_append {group rest : List Nat} (hgroup : group.length = 4) :
    CanonicalTail (group ++ rest) ↔ CanonicalTail rest := by
  cases rest with
  | nil => simp [CanonicalTail, hgroup]
  | cons digit rest =>
      have hmod : (group.length + (rest.length + 1)) % 4 = (rest.length + 1) % 4 := by omega
      simp only [CanonicalTail, List.length_append, List.length_cons, hmod,
        List.getLast?_append, List.getLast?_cons, Option.some_or]

theorem canonicalTail_sextets (bytes : List UInt8) : CanonicalTail (sextets bytes) := by
  induction bytes using chunksOfThree.induct with
  | case1 => simp [CanonicalTail, sextets, chunksOfThree]
  | case2 a =>
      have hlt := groupWord_lt [a]
      simp only [CanonicalTail, sextets, chunksOfThree, groupSextets, fixedDigits,
        List.flatMap_cons, List.flatMap_nil, List.append_nil, List.length_cons, List.length_nil]
      refine ⟨by decide, ?_, by simp⟩
      rintro - last hlast
      have heq : groupWord [a] / 64 % 64 = last := by simpa using hlast
      simp only [List.length_singleton] at hlt
      omega
  | case3 a b =>
      have hlt := groupWord_lt [a, b]
      simp only [CanonicalTail, sextets, chunksOfThree, groupSextets, fixedDigits,
        List.flatMap_cons, List.flatMap_nil, List.append_nil, List.length_cons, List.length_nil]
      refine ⟨by decide, by simp, ?_⟩
      rintro - last hlast
      have heq : groupWord [a, b] / 64 / 64 % 64 = last := by simpa using hlast
      simp only [List.length_cons, List.length_nil] at hlt
      omega
  | case4 a b c rest ih =>
      have hgroup : (groupSextets [a, b, c]).length = 4 := fixedDigits_length ..
      rw [sextets_cons, canonicalTail_group_append hgroup]
      exact ih

theorem unsextets_group_append {a b c d : Nat} (rest : List Nat) :
    unsextets (a :: b :: c :: d :: rest) = groupBytes [a, b, c, d] ++ unsextets rest := by
  simp [unsextets, chunksOfFour]

theorem sextets_unsextets_of_canonicalTail {digits : List Nat} (htail : CanonicalTail digits)
    (hdigits : ∀ digit ∈ digits, digit < 64) : sextets (unsextets digits) = digits := by
  induction digits using chunksOfFour.induct with
  | case1 => rfl
  | case2 a => simp [CanonicalTail] at htail
  | case3 a b =>
      have ha := hdigits a (by simp)
      have hb : b < 4 := by simpa [CanonicalTail] using htail
      have hword : Nat.ofDigits 64 [a, b] < 256 ^ 1 := by
        simp only [Nat.ofDigits_cons, Nat.ofDigits_nil]
        omega
      have hgroup := groupSextets_groupBytes_of_lt (by simp) hdigits hword
      simpa [unsextets, chunksOfFour, groupBytes, fixedDigits, sextets, chunksOfThree] using hgroup
  | case4 a b c =>
      have ha := hdigits a (by simp)
      have hb := hdigits b (by simp)
      have hc : c < 16 := by simpa [CanonicalTail] using htail
      have hword : Nat.ofDigits 64 [a, b, c] < 256 ^ 2 := by
        simp only [Nat.ofDigits_cons, Nat.ofDigits_nil]
        omega
      have hgroup := groupSextets_groupBytes_of_lt (by simp) hdigits hword
      simpa [unsextets, chunksOfFour, groupBytes, fixedDigits, sextets, chunksOfThree] using hgroup
  | case5 a b c d rest ih =>
      have hfirst : ∀ digit ∈ [a, b, c, d], digit < 64 := by
        intro digit hdigit
        apply hdigits
        exact List.mem_append_left rest hdigit
      have hlast : CanonicalTail ([a, b, c, d] ++ rest) := htail
      rw [canonicalTail_group_append rfl] at hlast
      have hrest := ih hlast fun digit hdigit => hdigits digit (by simp [hdigit])
      obtain ⟨x, y, z, hbytes, hgroup⟩ := groupSextets_groupBytes hfirst
      rw [unsextets_group_append, hbytes, List.cons_append, List.cons_append, List.cons_append,
        List.nil_append, sextets_cons, hgroup, hrest]
      rfl

theorem sextets_unsextets {digits : List Nat} (hlength : digits.length % 4 = 0)
    (hdigits : ∀ digit ∈ digits, digit < 64) :
    sextets (unsextets digits) = digits := by
  apply sextets_unsextets_of_canonicalTail _ hdigits
  simp [CanonicalTail, hlength]

theorem exists_sextets_iff {digits : List Nat} (hdigits : ∀ digit ∈ digits, digit < 64) :
    (∃ bytes, sextets bytes = digits) ↔ CanonicalTail digits := by
  constructor
  · rintro ⟨bytes, rfl⟩
    exact canonicalTail_sextets bytes
  · intro htail
    exact ⟨unsextets digits, sextets_unsextets_of_canonicalTail htail hdigits⟩

theorem sextets_append {front : List UInt8} (hfront : front.length % 3 = 0)
    (back : List UInt8) : sextets (front ++ back) = sextets front ++ sextets back := by
  induction front using chunksOfThree.induct with
  | case1 => rfl
  | case2 a => simp at hfront
  | case3 a b => simp at hfront
  | case4 a b c rest ih =>
      have hrest := ih (by simp only [List.length_cons] at hfront; omega)
      rw [List.cons_append, List.cons_append, List.cons_append, sextets_cons, sextets_cons,
        hrest, List.append_assoc]

end CryptSha512.SextetPacking
