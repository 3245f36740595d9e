import Mathlib.Data.List.Basic

/-!
# The first of several sources

A loop that goes over some sources and keeps what it has found already computes, for each thing that
it looks for, the first source that has it (`foldl_or`).
-/

namespace OpenIsr.Base

open List

variable {α β γ : Type} {source : β → Option γ}

theorem foldl_or (get : α → Option γ) (step : α → β → α) (source : β → Option γ)
    (hstep : ∀ a b, get (step a b) = (get a).or (source b)) (l : List β) (a : α) :
    get (l.foldl step a) = (get a).or (l.findSome? source) := by
  induction l generalizing a with
  | nil => rw [foldl_nil, findSome?_nil, Option.or_none]
  | cons b l ih =>
    rw [foldl_cons, ih, hstep, Option.or_assoc, findSome?_cons]
    cases source b <;> rfl

theorem findSome?_single [DecidableEq β] (b : β) (hother : ∀ x, x ≠ b → source x = none)
    (l : List β) : l.findSome? source = if b ∈ l then source b else none := by
  induction l with
  | nil => rfl
  | cons x l ih =>
    rw [findSome?_cons]
    by_cases hx : x = b
    · subst hx
      rw [if_pos mem_cons_self, ih]
      cases source x with
      | none => rw [ite_self]
      | some y => rfl
    · rw [hother x hx, ih]
      simp only [mem_cons, Ne.symm hx, false_or]

theorem findSome?_congr {source' : β → Option γ} {l : List β} (h : ∀ x ∈ l, source x = source' x) :
    l.findSome? source = l.findSome? source' := by
  induction l with
  | nil => rfl
  | cons x l ih =>
    obtain ⟨hx, hl⟩ := forall_mem_cons.mp h
    rw [findSome?_cons, findSome?_cons, hx, ih hl]

end OpenIsr.Base
