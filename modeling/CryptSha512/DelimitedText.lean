import Mathlib.Data.List.Basic
import Mathlib.Data.List.TakeWhile
import Mathlib.Tactic.Common

namespace CryptSha512.DelimitedText

variable {α : Type} [DecidableEq α]

/-- `text.strip_prefix(start)` -/
def stripPrefix (start text : List α) : Option (List α) :=
  if start.isPrefixOf text then some (text.drop start.length) else none

/-- `text.iter().position(|&x| x == separator)` -/
def position (separator : α) (text : List α) : Option Nat :=
  text.findIdx? (· == separator)

/-- `text.rfind(separator)` -/
def rposition (separator : α) (text : List α) : Option Nat :=
  (position separator text.reverse).map fun i => text.length - 1 - i

/-- The longest prefix without a separator. -/
def untilSeparator (separator : α) (text : List α) : List α :=
  text.takeWhile (· != separator)

theorem stripPrefix_eq_some_iff {start text rest : List α} :
    stripPrefix start text = some rest ↔ text = start ++ rest := by
  constructor
  · intro h
    simp only [stripPrefix] at h
    split at h
    · rename_i hfront
      obtain ⟨tail, rfl⟩ := List.isPrefixOf_iff_prefix.mp hfront
      simpa using h
    · simp at h
  · rintro rfl
    simp [stripPrefix, List.isPrefixOf_iff_prefix]

@[simp] theorem stripPrefix_append (start rest : List α) :
    stripPrefix start (start ++ rest) = some rest :=
  stripPrefix_eq_some_iff.mpr rfl

theorem position_eq_none_iff {separator : α} {text : List α} :
    position separator text = none ↔ separator ∉ text := by
  simp only [position, List.findIdx?_eq_none_iff, beq_eq_false_iff_ne]
  constructor
  · intro h hmem
    exact h separator hmem rfl
  · rintro h x hx rfl
    exact h hx

theorem position_append_cons {separator : α} {before : List α} (after : List α)
    (hbefore : separator ∉ before) :
    position separator (before ++ separator :: after) = some before.length := by
  have hnone : before.findIdx? (· == separator) = none := position_eq_none_iff.mpr hbefore
  simp [position, List.findIdx?_append, hnone, List.findIdx?_cons]

omit [DecidableEq α] in
theorem exists_last_cut {separator : α} {text : List α} (h : separator ∈ text) :
    ∃ before after, text = before ++ separator :: after ∧ separator ∉ after := by
  obtain ⟨after, before, hreverse, hafter⟩ :=
    List.eq_append_cons_of_mem (List.mem_reverse.mpr h)
  refine ⟨before.reverse, after.reverse, ?_, by simpa using hafter⟩
  rw [← List.reverse_reverse text, hreverse]
  simp

theorem rposition_eq_none_iff {separator : α} {text : List α} :
    rposition separator text = none ↔ separator ∉ text := by
  simp [rposition, position_eq_none_iff]

theorem rposition_append_cons {separator : α} (before : List α) {after : List α}
    (hafter : separator ∉ after) :
    rposition separator (before ++ separator :: after) = some before.length := by
  have hreverse : (before ++ separator :: after).reverse =
      after.reverse ++ separator :: before.reverse := by
    simp
  rw [rposition, hreverse, position_append_cons _ (by simpa using hafter)]
  simp only [Option.map_some, List.length_append, List.length_cons, List.length_reverse,
    Option.some.injEq]
  omega

theorem untilSeparator_eq_self {separator : α} {text : List α} (h : separator ∉ text) :
    untilSeparator separator text = text := by
  rw [untilSeparator, List.takeWhile_eq_self_iff]
  intro x hx
  simp only [bne_iff_ne]
  rintro rfl
  exact h hx

theorem untilSeparator_append_cons {separator : α} {before : List α} (after : List α)
    (hbefore : separator ∉ before) :
    untilSeparator separator (before ++ separator :: after) = before := by
  have hself := untilSeparator_eq_self hbefore
  rw [untilSeparator] at hself ⊢
  rw [List.takeWhile_append, hself]
  simp

theorem separator_not_mem_untilSeparator (separator : α) (text : List α) :
    separator ∉ untilSeparator separator text := by
  intro hmem
  have hall := List.mem_takeWhile_imp hmem
  simp at hall

theorem take_position_eq_untilSeparator (separator : α) (text : List α) :
    text.take ((position separator text).getD text.length) =
      untilSeparator separator text := by
  rcases Decidable.em (separator ∈ text) with hmem | hmem
  · obtain ⟨before, after, rfl, hbefore⟩ := List.eq_append_cons_of_mem hmem
    rw [position_append_cons after hbefore, untilSeparator_append_cons after hbefore]
    simp
  · rw [position_eq_none_iff.mpr hmem, untilSeparator_eq_self hmem]
    simp

theorem position_getD_le_length (separator : α) (text : List α) :
    (position separator text).getD text.length ≤ text.length := by
  rcases Decidable.em (separator ∈ text) with hmem | hmem
  · obtain ⟨before, after, rfl, hbefore⟩ := List.eq_append_cons_of_mem hmem
    simp [position_append_cons after hbefore]
  · simp [position_eq_none_iff.mpr hmem]

theorem first_cut_inj {separator : α} {before before' after after' : List α}
    (hbefore : separator ∉ before) (hbefore' : separator ∉ before')
    (h : before ++ separator :: after = before' ++ separator :: after') :
    before = before' ∧ after = after' := by
  have hhead : before = before' := by
    rw [← untilSeparator_append_cons after hbefore, h,
      untilSeparator_append_cons after' hbefore']
  subst hhead
  simpa using h

theorem last_cut_inj {separator : α} {before before' after after' : List α}
    (hafter : separator ∉ after) (hafter' : separator ∉ after')
    (h : before ++ separator :: after = before' ++ separator :: after') :
    before = before' ∧ after = after' := by
  have hreverse := congrArg List.reverse h
  simp only [List.reverse_append, List.reverse_cons, List.append_assoc,
    List.singleton_append] at hreverse
  have hcut := first_cut_inj (by simpa using hafter) (by simpa using hafter') hreverse
  exact ⟨List.reverse_injective hcut.2, List.reverse_injective hcut.1⟩

theorem intercalate_inj {separator : α} {pieces pieces' : List (List α)}
    (hpieces : ∀ piece ∈ pieces, separator ∉ piece)
    (hpieces' : ∀ piece ∈ pieces', separator ∉ piece)
    (hne : pieces ≠ []) (hne' : pieces' ≠ [])
    (h : [separator].intercalate pieces = [separator].intercalate pieces') :
    pieces = pieces' := by
  rw [← List.splitOn_intercalate separator hpieces hne, h,
    List.splitOn_intercalate separator hpieces' hne']

end CryptSha512.DelimitedText
