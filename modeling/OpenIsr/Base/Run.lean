import Mathlib.Logic.Basic
import Mathlib.Order.Basic

/-!
# Runs of a nondeterministic step function

A concurrent component is modelled as a step function `step : σ → α → Option σ`.
The action `α` names the thread that moves and every choice the environment
makes for it (which request arrives, which waiter a signal wakes, whether a call
fails), and `none` means the action is not enabled. `Reach step C s₀ s` says that
`s` is reached from `s₀` by a run whose every action meets `C` in the state it is
taken in; `C` is where a property that holds of some runs only names them.

`Reach.inv` is the one induction over runs, and `exec` with `reach_of_exec_any` turns
a concrete schedule into a reachable state by evaluation.
-/

namespace OpenIsr.Base

variable {σ α β : Type} {step : σ → α → Option σ} {s₀ s : σ} {C D : σ → α → Prop}

/-- States reached from `s₀` by actions that all meet `C`. -/
inductive Reach (step : σ → α → Option σ) (C : σ → α → Prop) (s₀ : σ) : σ → Prop
  | init : Reach step C s₀ s₀
  | step {s s' : σ} {a : α} : Reach step C s₀ s → C s a → step s a = some s' →
      Reach step C s₀ s'

/-- The induction rule for runs: what holds initially and survives every action
that meets `C` holds in every state reached. -/
theorem Reach.inv {I : σ → Prop} (h0 : I s₀)
    (hstep : ∀ s a s', I s → C s a → step s a = some s' → I s') :
    ∀ {s : σ}, Reach step C s₀ s → I s := by
  intro s hr
  induction hr with
  | init => exact h0
  | step _ hC hs ih => exact hstep _ _ _ ih hC hs

/-- A run that meets `C` also meets any weaker condition. -/
theorem Reach.mono (hCD : ∀ s a, C s a → D s a) (h : Reach step C s₀ s) : Reach step D s₀ s := by
  induction h with
  | init => exact .init
  | step _ hC hs ih => exact .step ih (hCD _ _ hC) hs

theorem Reach.trans {s₁ : σ} (h₁ : Reach step C s₀ s₁) (h : Reach step C s₁ s) :
    Reach step C s₀ s := by
  induction h with
  | init => exact h₁
  | step _ hC hs ih => exact .step ih hC hs

theorem Reach.head (h : Reach step C s₀ s) :
    s = s₀ ∨ ∃ a s₁, C s₀ a ∧ step s₀ a = some s₁ ∧ Reach step C s₁ s := by
  induction h with
  | init => exact .inl rfl
  | @step s s' a _ hC hs ih =>
    rcases ih with rfl | ⟨b, s₁, hb, hsb, hr⟩
    · exact .inr ⟨a, s', hC, hs, .init⟩
    · exact .inr ⟨b, s₁, hb, hsb, .step hr hC hs⟩

/-- If `C` leaves no choice, a run to a state where it ends passes through every state reached. -/
theorem Reach.to_last {t : σ} (hdet : ∀ s a b, C s a → C s b → a = b)
    (hlast : ∀ a, step s a = none) (h : Reach step C s₀ s) (ht : Reach step C s₀ t) :
    Reach step C t s := by
  induction ht with
  | init => exact h
  | @step t t' a _ hC hs ih =>
    rcases ih.head with rfl | ⟨b, t₁, hb, hsb, hr⟩
    · cases (hlast a).symm.trans hs
    · rw [hdet t b a hb hC, hs] at hsb
      cases hsb
      exact hr

/-- Run a schedule, checking `C` before every action. -/
def exec (step : σ → α → Option σ) (C : σ → α → Bool) : σ → List α → Option σ
  | s, [] => some s
  | s, a :: as =>
    if C s a then
      match step s a with
      | some s' => exec step C s' as
      | none => none
    else none

/-- A schedule that executes reaches its final state. -/
theorem reach_of_exec {C : σ → α → Bool} (hCD : ∀ s a, C s a = true → D s a) :
    ∀ (as : List α) {s s' : σ}, Reach step D s₀ s → exec step C s as = some s' →
      Reach step D s₀ s' := by
  intro as
  induction as with
  | nil =>
    intro s s' hr he
    simp only [exec, Option.some.injEq] at he
    rw [← he]
    exact hr
  | cons a as ih =>
    intro s s' hr he
    unfold exec at he
    split at he
    next hC =>
      split at he
      next s₁ hs => exact ih (.step hr (hCD _ _ hC) hs) he
      next => cases he
    next => cases he

/-- A schedule whose final state passes a test reaches such a state. -/
theorem reach_of_exec_any {C : σ → α → Bool} {f : σ → Bool} (hCD : ∀ s a, C s a = true → D s a)
    (as : List α) (h : (exec step C s₀ as).any f = true) : ∃ s, Reach step D s₀ s ∧ f s = true := by
  cases he : exec step C s₀ as with
  | none => rw [he] at h; cases h
  | some s =>
    rw [he] at h
    exact ⟨s, reach_of_exec hCD as .init he, h⟩

/-! ## Loops that may fail -/

/-- The induction rule for a loop that ends at the first failure: `I` relates the elements it has
been through to what it has computed from them. -/
theorem foldlM_inv {ε : Type} {f : β → α → Except ε β} {I : List α → β → Prop} {b b' : β}
    {l : List α} (h0 : I [] b)
    (hstep : ∀ done b a b', I done b → f b a = .ok b' → I (done ++ [a]) b')
    (h : l.foldlM f b = .ok b') : I l b' := by
  suffices ∀ done b, I done b → l.foldlM f b = .ok b' → I (done ++ l) b' from this [] b h0 h
  clear h0 h
  induction l with
  | nil =>
    intro done b hb h
    cases h
    rwa [List.append_nil]
  | cons a l ih =>
    intro done b hb h
    rw [List.foldlM_cons] at h
    cases hf : f b a with
    | error e =>
      rw [hf] at h
      cases h
    | ok b₁ =>
      rw [hf] at h
      rw [List.append_cons]
      exact ih _ b₁ (hstep done b a b₁ hb hf) h

end OpenIsr.Base
