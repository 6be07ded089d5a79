import CryptSha512.HashChains
import CryptSha512.ShaCryptDefinition

namespace CryptSha512.DigestTexts

open CryptSha512.HashChains
open CryptSha512.ShaCryptDefinition

section Texts

variable (H : List UInt8 → Vector UInt8 64) (key salt : List UInt8)

/-- The text of the intermediate result, with `block` as the alternate sum. -/
def intermediateText (block : Vector UInt8 64) : List UInt8 :=
  key ++ salt ++ cyc block key.length ++ binaryDigits block key key.length

/-- How often the salt is repeated in the text of the S block. -/
def saltRepetitions : Nat :=
  16 + ((intermediate H key salt).get ⟨0, zero_lt_block⟩).toNat

/-- The texts in front of the rounds, in the order in which they are hashed. -/
def setupTexts : List (List UInt8) :=
  [key ++ salt ++ key, intermediateText key salt (alternateSum H key salt),
    repeated key.length key, repeated (saltRepetitions H key salt) salt]

def roundTexts (rounds : Nat) : List (List UInt8) :=
  chainTexts H (roundText (keySequence H key) (saltSequence H key salt))
    (intermediate H key salt) rounds

/-- All texts of the construction, in the order in which they are hashed. -/
def digestTexts (rounds : Nat) : List (List UInt8) :=
  setupTexts H key salt ++ roundTexts H key salt rounds

theorem shaCrypt_eq_chainValue (rounds : Nat) :
    shaCrypt H key salt rounds =
      chainValue H (roundText (keySequence H key) (saltSequence H key salt))
        (intermediate H key salt) rounds := by
  rw [shaCrypt]
  induction rounds with
  | zero => rfl
  | succ rounds ih => rw [chain, chainValue, ih]

theorem setupTexts_subset (rounds : Nat) :
    setupTexts H key salt ⊆ digestTexts H key salt rounds :=
  List.subset_append_left _ _

theorem roundTexts_subset (rounds : Nat) :
    roundTexts H key salt rounds ⊆ digestTexts H key salt rounds :=
  List.subset_append_right _ _

end Texts

section Locality

variable {H H' : List UInt8 → Vector UInt8 64} {key salt : List UInt8}

theorem setup_congr (h : ∀ text ∈ setupTexts H key salt, H text = H' text) :
    intermediate H' key salt = intermediate H key salt ∧
      keySequence H' key = keySequence H key ∧
      saltSequence H' key salt = saltSequence H key salt := by
  have halternate : alternateSum H' key salt = alternateSum H key salt :=
    (h _ (by simp [setupTexts])).symm
  have hintermediate : intermediate H' key salt = intermediate H key salt := by
    have htext := h (intermediateText key salt (alternateSum H key salt)) (by simp [setupTexts])
    rw [intermediate, halternate]
    exact htext.symm
  have hkeyBlock : keyBlock H' key = keyBlock H key := (h _ (by simp [setupTexts])).symm
  have hsaltBlock : saltBlock H' key salt = saltBlock H key salt := by
    have htext := h (repeated (saltRepetitions H key salt) salt) (by simp [setupTexts])
    rw [saltBlock, hintermediate]
    exact htext.symm
  refine ⟨hintermediate, ?_, ?_⟩
  · rw [keySequence, keySequence, hkeyBlock]
  · rw [saltSequence, saltSequence, hsaltBlock]

theorem shaCrypt_congr {rounds : Nat}
    (h : ∀ text ∈ digestTexts H key salt rounds, H text = H' text) :
    shaCrypt H' key salt rounds = shaCrypt H key salt rounds := by
  obtain ⟨hintermediate, hkey, hsalt⟩ := setup_congr
    fun text htext => h text (setupTexts_subset H key salt rounds htext)
  rw [shaCrypt_eq_chainValue, shaCrypt_eq_chainValue, hintermediate, hkey, hsalt]
  exact chainValue_congr H _ _ fun text htext =>
    h text (roundTexts_subset H key salt rounds htext)

end Locality

section Binding

variable {p p' s s' : List UInt8} {c c' : Vector UInt8 64}

theorem roundText_value {i : Nat} (h : roundText p s i c = roundText p' s' i c') : c = c' := by
  have hlength : c.toList.length = c'.toList.length := by simp
  rw [roundText, roundText] at h
  apply Vector.toList_inj.mp
  split at h
  · exact (List.append_inj' h hlength).2
  · rw [List.append_assoc, List.append_assoc, List.append_assoc, List.append_assoc] at h
    exact (List.append_inj h hlength).1

theorem roundText_zero : roundText p s 0 c = c.toList ++ p := by
  simp [roundText]

theorem binaryDigits_length (block : Vector UInt8 64) (key : List UInt8) (n : Nat) :
    (binaryDigits block key n).length =
      ((Nat.digits 2 n).map fun digit => if digit = 1 then 64 else key.length).sum := by
  rw [binaryDigits, List.length_flatMap]
  congr 1
  apply List.map_congr_left
  intro digit _
  split <;> simp

variable {key key' salt salt' : List UInt8} {block block' : Vector UInt8 64}

theorem intermediateText_length :
    (intermediateText key salt block).length = 2 * key.length + salt.length +
      ((Nat.digits 2 key.length).map fun digit => if digit = 1 then 64 else key.length).sum := by
  simp only [intermediateText, List.length_append, cyc_length, binaryDigits_length]
  omega

theorem intermediateText_inj (hlength : key.length = key'.length)
    (h : intermediateText key salt block = intermediateText key' salt' block') :
    key = key' ∧ salt = salt' := by
  have htotal := congrArg List.length h
  rw [intermediateText_length, intermediateText_length, hlength] at htotal
  have hsalt : salt.length = salt'.length := by omega
  simp only [intermediateText, List.append_assoc] at h
  obtain ⟨hkey, hrest⟩ := List.append_inj h hlength
  exact ⟨hkey, (List.append_inj hrest hsalt).1⟩

variable {H : List UInt8 → Vector UInt8 64}

/-- Equal digests are traced back through the rounds to the intermediate
results. The first round tells the lengths of the keys, and with them the
intermediate text shows where the key ends and the salt begins. -/
theorem shaCrypt_eq_or_collision {rounds : Nat} (hrounds : 0 < rounds)
    (h : shaCrypt H key salt rounds = shaCrypt H key' salt' rounds) :
    (key = key' ∧ salt = salt') ∨
      Collision H (digestTexts H key salt rounds) (digestTexts H key' salt' rounds) := by
  rw [shaCrypt_eq_chainValue, shaCrypt_eq_chainValue] at h
  have hinj : ∀ i value value', roundText (keySequence H key) (saltSequence H key salt) i value =
      roundText (keySequence H key') (saltSequence H key' salt') i value' → value = value' :=
    fun _ _ _ => roundText_value
  rcases chain_eq_or_collision H hinj h with ⟨hstart, htexts⟩ | hcollision
  · have hfirst := htexts 0 hrounds
    rw [roundText_zero, roundText_zero] at hfirst
    have hp : keySequence H key = keySequence H key' := (List.append_inj hfirst (by simp)).2
    have hlength : key.length = key'.length := by
      have hlengths := congrArg List.length hp
      simpa [keySequence] using hlengths
    have hmem : ∀ key salt : List UInt8,
        intermediateText key salt (alternateSum H key salt) ∈ digestTexts H key salt rounds :=
      fun key salt => setupTexts_subset H key salt rounds (by simp [setupTexts])
    rcases eq_or_collision (hmem key salt) (hmem key' salt') hstart with htext | hcollision
    · exact .inl (intermediateText_inj hlength htext)
    · exact .inr hcollision
  · exact .inr (hcollision.mono (roundTexts_subset H key salt rounds)
      (roundTexts_subset H key' salt' rounds))

end Binding

end CryptSha512.DigestTexts
