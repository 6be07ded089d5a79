import Mathlib.Data.List.Basic
import Mathlib.Tactic.Common

namespace CryptSha512.HashChains

universe u v

variable {Text : Type u} {Value : Type v}

/-- A text of the first list and another text of the second one that the hash
function does not tell apart. -/
def Collision (H : Text → Value) (texts texts' : List Text) : Prop :=
  ∃ x ∈ texts, ∃ y ∈ texts', x ≠ y ∧ H x = H y

theorem eq_or_collision {H : Text → Value} {texts texts' : List Text} {x y : Text}
    (hx : x ∈ texts) (hy : y ∈ texts') (h : H x = H y) :
    x = y ∨ Collision H texts texts' := by
  rcases Classical.em (x = y) with hsame | hne
  · exact .inl hsame
  · exact .inr ⟨x, hx, y, hy, hne, h⟩

theorem Collision.mono {H : Text → Value} {texts texts' more more' : List Text}
    (hsubset : texts ⊆ more) (hsubset' : texts' ⊆ more') (h : Collision H texts texts') :
    Collision H more more' := by
  obtain ⟨x, hx, y, hy, hcollision⟩ := h
  exact ⟨x, hsubset hx, y, hsubset' hy, hcollision⟩

section Chain

variable (H : Text → Value) (text : Nat → Value → Text) (start : Value)

/-- The value after `n` links. -/
def chainValue : Nat → Value
  | 0 => start
  | n + 1 => H (text n (chainValue n))

/-- The texts that are hashed up to value `n`. -/
def chainTexts (n : Nat) : List Text :=
  (List.range n).map fun i => text i (chainValue H text start i)

theorem mem_chainTexts {i n : Nat} (h : i < n) :
    text i (chainValue H text start i) ∈ chainTexts H text start n :=
  List.mem_map.mpr ⟨i, List.mem_range.mpr h, rfl⟩

theorem chainTexts_succ (n : Nat) :
    chainTexts H text start (n + 1) =
      chainTexts H text start n ++ [text n (chainValue H text start n)] := by
  simp [chainTexts, List.range_succ]

theorem chainTexts_subset_succ (n : Nat) :
    chainTexts H text start n ⊆ chainTexts H text start (n + 1) := by
  rw [chainTexts_succ]
  exact List.subset_append_left _ _

theorem chainValue_congr {H' : Text → Value} {n : Nat}
    (h : ∀ x ∈ chainTexts H text start n, H x = H' x) :
    chainValue H' text start n = chainValue H text start n := by
  induction n with
  | zero => rfl
  | succ n ih =>
      have hprefix := ih fun x hx => h x (chainTexts_subset_succ H text start n hx)
      rw [chainValue, chainValue, hprefix]
      exact (h _ (mem_chainTexts H text start (Nat.lt_succ_self n))).symm

variable {text start} {text' : Nat → Value → Text} {start' : Value}

/-- The texts of two chains may be made in different ways, as long as equal
texts are made from equal values. -/
theorem chain_eq_or_collision
    (hinj : ∀ i value value', text i value = text' i value' → value = value')
    {n : Nat} (h : chainValue H text start n = chainValue H text' start' n) :
    (start = start' ∧ ∀ i < n,
        text i (chainValue H text start i) = text' i (chainValue H text' start' i)) ∨
      Collision H (chainTexts H text start n) (chainTexts H text' start' n) := by
  induction n with
  | zero => exact .inl ⟨h, fun i hi => absurd hi (Nat.not_lt_zero i)⟩
  | succ n ih =>
      have hlast := Nat.lt_succ_self n
      rcases eq_or_collision (mem_chainTexts H text start hlast)
        (mem_chainTexts H text' start' hlast) h with htext | hcollision
      · rcases ih (hinj n _ _ htext) with ⟨hstart, htexts⟩ | hcollision
        · refine .inl ⟨hstart, ?_⟩
          intro i hi
          rcases Nat.lt_succ_iff_lt_or_eq.mp hi with hless | rfl
          · exact htexts i hless
          · exact htext
        · exact .inr (hcollision.mono (chainTexts_subset_succ H text start n)
            (chainTexts_subset_succ H text' start' n))
      · exact .inr hcollision

end Chain

end CryptSha512.HashChains
