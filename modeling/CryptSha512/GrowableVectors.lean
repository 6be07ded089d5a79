import Mathlib.Data.List.Basic
import Mathlib.Tactic.Common

/-!
Vectors that own an allocation. Elements that do not fit are moved to a larger
allocation together with the old ones, and the old allocation is freed as it is.
-/

namespace CryptSha512.GrowableVectors

/-- What an allocator gives for a requested capacity, and what growth asks for.
Both may be more than is needed. -/
structure Allocator where
  withCapacity : Nat → Nat
  le_withCapacity : ∀ n, n ≤ withCapacity n
  grow : Nat → Nat → Nat
  le_grow : ∀ capacity needed, needed ≤ grow capacity needed

/-- The allocator that gives what was asked for, and doubles on growth. -/
def Allocator.exact : Allocator where
  withCapacity n := n
  le_withCapacity := Nat.le_refl
  grow capacity needed := max (2 * capacity) needed
  le_grow _ _ := Nat.le_max_right _ _

/-- `freed` are the contents of the allocations that growth has left behind. -/
@[ext] structure GrowableVec (α : Type) where
  items : List α
  capacity : Nat
  length_le : items.length ≤ capacity
  freed : List (List α)

namespace GrowableVec

variable {α : Type} (A : Allocator)

def withCapacity (n : Nat) : GrowableVec α := ⟨[], A.withCapacity n, Nat.zero_le _, []⟩

/-- A vector without capacity has no allocation to leave behind. -/
def extendFromSlice (v : GrowableVec α) (piece : List α) : GrowableVec α :=
  if h : (v.items ++ piece).length ≤ v.capacity then ⟨v.items ++ piece, v.capacity, h, v.freed⟩
  else
    ⟨v.items ++ piece, A.grow v.capacity (v.items ++ piece).length, A.le_grow _ _,
      if v.capacity = 0 then v.freed else v.freed ++ [v.items]⟩

def push (v : GrowableVec α) (a : α) : GrowableVec α := extendFromSlice A v [a]

/-- `resize` to a length that is not smaller. -/
def resize (v : GrowableVec α) (len : Nat) (a : α) : GrowableVec α :=
  extendFromSlice A v (List.replicate (len - v.items.length) a)

@[simp] theorem withCapacity_items (n : Nat) :
    (withCapacity A n : GrowableVec α).items = [] := rfl

@[simp] theorem extendFromSlice_items (v : GrowableVec α) (piece : List α) :
    (extendFromSlice A v piece).items = v.items ++ piece := by
  rw [extendFromSlice]
  split <;> rfl

variable {A}

theorem extendFromSlice_of_fits {v : GrowableVec α} {piece : List α}
    (h : (v.items ++ piece).length ≤ v.capacity) :
    extendFromSlice A v piece = ⟨v.items ++ piece, v.capacity, h, v.freed⟩ := dif_pos h

theorem extendFromSlice_of_lt {v : GrowableVec α} {piece : List α}
    (h : v.capacity < (v.items ++ piece).length) :
    (extendFromSlice A v piece).freed =
      if v.capacity = 0 then v.freed else v.freed ++ [v.items] := by
  rw [extendFromSlice, dif_neg (Nat.not_le.mpr h)]

/-- `f` appends `bytes`. It leaves the allocation exactly if they do not fit. -/
structure Appends (f : GrowableVec α → GrowableVec α) (bytes : List α) : Prop where
  items_eq : ∀ v, (f v).items = v.items ++ bytes
  stays : ∀ v, (v.items ++ bytes).length ≤ v.capacity →
    (f v).capacity = v.capacity ∧ (f v).freed = v.freed
  freed_le : ∀ v, v.freed.length ≤ (f v).freed.length
  moves : ∀ v, v.capacity ≠ 0 → v.capacity < (v.items ++ bytes).length →
    v.freed.length < (f v).freed.length

theorem appends_nothing : Appends (fun v : GrowableVec α => v) [] where
  items_eq v := (List.append_nil v.items).symm
  stays _ _ := ⟨rfl, rfl⟩
  freed_le _ := Nat.le_refl _
  moves v _ h := by
    rw [List.append_nil] at h
    exact absurd v.length_le (Nat.not_le.mpr h)

variable (A) in
theorem appends_extendFromSlice (piece : List α) :
    Appends (fun v => extendFromSlice A v piece) piece where
  items_eq v := extendFromSlice_items A v piece
  stays v h := by
    rw [extendFromSlice_of_fits h]
    exact ⟨rfl, rfl⟩
  freed_le v := by
    rcases Nat.lt_or_ge v.capacity (v.items ++ piece).length with h | h
    · rw [extendFromSlice_of_lt h]
      split <;> simp
    · simp only [extendFromSlice_of_fits h, Nat.le_refl]
  moves v hcapacity h := by
    rw [extendFromSlice_of_lt h, if_neg hcapacity]
    simp

variable (A) in
theorem appends_push (a : α) : Appends (fun v => push A v a) [a] :=
  appends_extendFromSlice A [a]

theorem Appends.comp {f g : GrowableVec α → GrowableVec α} {xs ys : List α}
    (hf : Appends f xs) (hg : Appends g ys) : Appends (fun v => g (f v)) (xs ++ ys) where
  items_eq v := by rw [hg.items_eq, hf.items_eq, List.append_assoc]
  stays v h := by
    rw [← List.append_assoc] at h
    have hfirst : (v.items ++ xs).length ≤ v.capacity := by
      rw [List.length_append] at h
      omega
    obtain ⟨hcapacity, hfreed⟩ := hf.stays v hfirst
    obtain ⟨hcapacity', hfreed'⟩ := hg.stays (f v) (by rwa [hf.items_eq, hcapacity])
    exact ⟨hcapacity'.trans hcapacity, hfreed'.trans hfreed⟩
  freed_le v := Nat.le_trans (hf.freed_le v) (hg.freed_le (f v))
  moves v hcapacity h := by
    rw [← List.append_assoc] at h
    rcases Nat.lt_or_ge v.capacity (v.items ++ xs).length with hfirst | hfirst
    · exact Nat.lt_of_lt_of_le (hf.moves v hcapacity hfirst) (hg.freed_le (f v))
    · obtain ⟨hsame, hfreed⟩ := hf.stays v hfirst
      have hmoves := hg.moves (f v) (by rwa [hsame]) (by rwa [hf.items_eq, hsame])
      rwa [hfreed] at hmoves

variable (A) in
/-- The elements are pushed one after the other. -/
def pushAll (bytes : List α) (v : GrowableVec α) : GrowableVec α := bytes.foldl (push A) v

variable (A) in
theorem appends_pushAll (bytes : List α) : Appends (pushAll A bytes) bytes := by
  induction bytes with
  | nil => exact appends_nothing
  | cons a bytes ih => exact (appends_push A a).comp ih

theorem Appends.freed_eq_nil_iff {f : GrowableVec α → GrowableVec α} {bytes : List α}
    (hf : Appends f bytes) {n : Nat} (hn : 0 < n) :
    (f (withCapacity A n)).freed = [] ↔ bytes.length ≤ A.withCapacity n := by
  have hpos : (withCapacity A n : GrowableVec α).capacity ≠ 0 :=
    Nat.ne_of_gt (Nat.lt_of_lt_of_le hn (A.le_withCapacity n))
  constructor
  · intro hfreed
    by_contra hlarge
    have hmoves := hf.moves (withCapacity A n) hpos (Nat.not_le.mp hlarge)
    rw [hfreed] at hmoves
    exact Nat.lt_irrefl 0 hmoves
  · intro hfits
    exact (hf.stays (withCapacity A n) hfits).2

theorem Appends.stays_of_le {f : GrowableVec α → GrowableVec α} {bytes : List α}
    (hf : Appends f bytes) {n : Nat} (hn : bytes.length ≤ n) :
    (f (withCapacity A n)).items = bytes ∧ (f (withCapacity A n)).freed = [] :=
  ⟨hf.items_eq _, (hf.stays _ (Nat.le_trans hn (A.le_withCapacity n))).2⟩

end GrowableVec

end CryptSha512.GrowableVectors
