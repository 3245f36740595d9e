import Mathlib.Logic.Basic
import Mathlib.Data.List.Basic

/-!
# Properties of histories

A history lists the events of a run, newest first. `Always Q h` says that every event of
`h` stood in the relation `Q` to the events before it. Since events are only ever added in
front, such a property is kept by a step as soon as the new event has it.
-/

namespace OpenIsr.Base

variable {α : Type} {Q R : α → List α → Prop} {h : List α} {x : α}

/-- Every event is related by `Q` to its past. -/
def Always (Q : α → List α → Prop) (h : List α) : Prop :=
  ∀ post x past, h = post ++ x :: past → Q x past

theorem Always.nil : Always Q [] := by
  intro post x past he
  cases post <;> cases he

theorem Always.cons (hx : Q x h) (hh : Always Q h) : Always Q (x :: h) := by
  intro post y past he
  cases post with
  | nil =>
    obtain ⟨rfl, rfl⟩ := List.cons_eq_cons.mp he
    exact hx
  | cons z post =>
    obtain ⟨-, he⟩ := List.cons_eq_cons.mp he
    exact hh post y past he

theorem Always.head (hh : Always Q (x :: h)) : Q x h := hh [] x h rfl

theorem Always.tail (hh : Always Q (x :: h)) : Always Q h :=
  fun post y past he => hh (x :: post) y past (congrArg (x :: ·) he)

end OpenIsr.Base
