import Mathlib.SetTheory.Cardinal.Finite

namespace CryptSha512.MapFibres

variable {α β : Type*} (f : α → β)

/-- The elements that `f` maps to `b`. -/
abbrev Fibre (b : β) : Type _ := {a // f a = b}

/-- The lists that `f` maps, element by element, to `bs`. -/
abbrev ListFibre (bs : List β) : Type _ := {as : List α // as.map f = bs}

/-- A list over `b :: bs` has a head over `b` and a tail over `bs`. -/
def listFibreCons (b : β) (bs : List β) : ListFibre f (b :: bs) ≃ Fibre f b × ListFibre f bs where
  toFun
    | ⟨a :: as, h⟩ => (⟨a, (List.cons.inj h).1⟩, ⟨as, (List.cons.inj h).2⟩)
    | ⟨[], h⟩ => absurd h.symm (List.cons_ne_nil b bs)
  invFun pair := ⟨pair.1.1 :: pair.2.1, by rw [List.map_cons, pair.1.2, pair.2.2]⟩
  left_inv
    | ⟨_ :: _, _⟩ => rfl
    | ⟨[], h⟩ => absurd h.symm (List.cons_ne_nil b bs)
  right_inv _ := rfl

theorem card_listFibre_nil : Nat.card (ListFibre f []) = 1 := by
  have hempty : ∀ as : ListFibre f [], as = ⟨[], rfl⟩ := by
    rintro ⟨as, h⟩
    exact Subtype.ext (List.map_eq_nil_iff.mp h)
  have hsubsingleton : Subsingleton (ListFibre f []) :=
    ⟨fun as as' => (hempty as).trans (hempty as').symm⟩
  have hnonempty : Nonempty (ListFibre f []) := ⟨⟨[], rfl⟩⟩
  exact Nat.card_unique

theorem card_listFibre_cons (b : β) (bs : List β) :
    Nat.card (ListFibre f (b :: bs)) = Nat.card (Fibre f b) * Nat.card (ListFibre f bs) := by
  rw [Nat.card_congr (listFibreCons f b bs), Nat.card_prod]

theorem card_listFibre_of_const {k : Nat} {bs : List β}
    (h : ∀ b ∈ bs, Nat.card (Fibre f b) = k) : Nat.card (ListFibre f bs) = k ^ bs.length := by
  induction bs with
  | nil => rw [card_listFibre_nil, List.length_nil, Nat.pow_zero]
  | cons b bs ih =>
      have hhead := h b (by simp)
      have htail := ih fun other hother => h other (by simp [hother])
      rw [card_listFibre_cons, hhead, htail, List.length_cons, Nat.pow_succ, Nat.mul_comm]

end CryptSha512.MapFibres
