import Mathlib.Data.List.Basic
import Mathlib.Order.WellFounded
import Mathlib.Tactic.Common

/-!
# Filters that are called with buffers

A filter takes its input in pieces and gives its output in pieces: the caller offers some
input and room for some output, and gets back how much of each was used. `process` says that
more input will come, `final` that there is none beyond what is offered; `final` answers
`again` while there is output left. `Filter.run` is a caller with a schedule: the lengths of
the pieces and the room for each call of `process`, and the room for each call of `final`.

`Filter.Keeps.run` is the rule for what holds at the end of a run. `Filter.Keeps.countP_le`
bounds the calls of `final` that can be answered with `again`, if one with room for output
makes progress. `forever` is the loop inside such a function.

`Filter.Lively` is what a caller needs that goes on until the input is used and the output is
out, with buffers that it chooses as it goes: a call that uses no input takes from what the
context holds, and the end of the output comes in finitely many stages.
-/

namespace OpenIsr.Base

variable {ρ σ α : Type}

/-- `while (1)`: the body leaves the loop with a result or goes on. The number bounds the
iterations. -/
def forever (body : σ → Option ρ × σ) (stop : ρ) : Nat → σ → ρ × σ
  | 0, s => (stop, s)
  | n + 1, s =>
    match body s with
    | (some r, s') => (r, s')
    | (none, s') => forever body stop n s'

/-- The rule for `forever`, with a measure that the bound exceeds. -/
theorem forever_rule {f : σ → Option ρ × σ} {I : σ → Prop} {P : ρ → σ → Prop} {m : σ → Nat}
    (hstep : ∀ s, I s → (∃ r s', f s = (some r, s') ∧ P r s') ∨
      ∃ s', f s = (none, s') ∧ I s' ∧ m s' < m s)
    {d : ρ} {n : Nat} {s : σ} (hs : I s) (hn : m s < n) :
    P (forever f d n s).1 (forever f d n s).2 := by
  induction n generalizing s with
  | zero => omega
  | succ n ih =>
    rcases hstep s hs with ⟨r, s', hf, hP⟩ | ⟨s', hf, hs', hlt⟩
    · rw [forever, hf]
      exact hP
    · rw [forever, hf]
      exact ih hs' (by omega)

/-- `while (1)` with a body that can fail, and that fails if the number of iterations is not
enough. -/
def foreverOpt {τ : Type} (body : τ → Option (Option ρ × τ)) : Nat → τ → Option (ρ × τ)
  | 0, _ => none
  | n + 1, t =>
    match body t with
    | none => none
    | some (some r, t') => some (r, t')
    | some (none, t') => foreverOpt body n t'

/-- A loop whose body does not fail, since it does what the body of `forever` does on a state that
stands for its own. -/
theorem foreverOpt_sim {τ : Type} {f : σ → Option ρ × σ} {g : τ → Option (Option ρ × τ)}
    {R : τ → σ → Prop} {I : σ → Prop} {m : σ → Nat}
    (hstep : ∀ s, I s → (∃ r s', f s = (some r, s') ∧ I s') ∨
      ∃ s', f s = (none, s') ∧ I s' ∧ m s' < m s)
    (hsim : ∀ t s, R t s → I s → ∃ t', g t = some ((f s).1, t') ∧ R t' (f s).2)
    {d : ρ} {n : Nat} {t : τ} {s : σ} (hR : R t s) (hs : I s) (hn : m s < n) :
    ∃ t', foreverOpt g n t = some ((forever f d n s).1, t') ∧ R t' (forever f d n s).2 ∧
      I (forever f d n s).2 := by
  induction n generalizing t s with
  | zero => omega
  | succ n ih =>
    obtain ⟨t', hg, hR'⟩ := hsim t s hR hs
    rcases hstep s hs with ⟨r, s', hf, hs'⟩ | ⟨s', hf, hs', hlt⟩
    · rw [hf] at hg hR'
      refine ⟨t', ?_, ?_⟩
      · rw [foreverOpt, hg, forever, hf]
      · rw [forever, hf]
        exact ⟨hR', hs'⟩
    · rw [hf] at hg hR'
      obtain ⟨t'', hloop, hR''⟩ := ih (s := s') hR' hs' (by omega)
      refine ⟨t'', ?_, ?_⟩
      · rw [foreverOpt, hg, forever, hf]
        exact hloop
      · rw [forever, hf]
        exact hR''

/-- What a call gives back: its status, the context after it, the input it did not use and the
output. -/
structure Reply (ρ σ α : Type) where
  status : ρ
  ctx : σ
  left : List α
  out : List α
  deriving Repr

/-- A filter with contexts in `σ`. -/
structure Filter (ρ σ α : Type) where
  process : σ → List α → Nat → Reply ρ σ α
  final : σ → List α → Nat → Reply ρ σ α
  ok : ρ
  again : ρ

namespace Filter

section schedule

variable [DecidableEq ρ]

/-- Call `final` with what is left of the input until it does not answer `again`. -/
def finish (f : Filter ρ σ α) : List Nat → σ → List α → List α → Option (ρ × List α)
  | [], _, _, _ => none
  | room :: rooms, c, rest, sofar =>
    let r := f.final c rest room
    if r.status = f.again then f.finish rooms r.ctx r.left (sofar ++ r.out)
    else some (r.status, sofar ++ r.out)

/-- Call `process` for each entry of the schedule, with a piece of what is left of the input,
and then `final`. The result is the status of the last call and the whole output; `none` if
the schedule ends before. -/
def run (f : Filter ρ σ α) (rooms : List Nat) :
    List (Nat × Nat) → σ → List α → List α → Option (ρ × List α)
  | [], c, rest, sofar => f.finish rooms c rest sofar
  | (n, room) :: calls, c, rest, sofar =>
    let r := f.process c (rest.take n) room
    if r.status = f.ok then
      f.run rooms calls r.ctx (r.left ++ rest.drop n) (sofar ++ r.out)
    else some (r.status, sofar ++ r.out)

/-- Calls keep `I`, which relates the context, the rest of the input and the output so far;
and when the caller stops, `E` holds of the status and the output. -/
structure Keeps (f : Filter ρ σ α) (I : σ → List α → List α → Prop) (E : ρ → List α → Prop) :
    Prop where
  process_ok : ∀ {c rest sofar} n room, I c rest sofar →
    (f.process c (rest.take n) room).status = f.ok →
    I (f.process c (rest.take n) room).ctx
      ((f.process c (rest.take n) room).left ++ rest.drop n)
      (sofar ++ (f.process c (rest.take n) room).out)
  process_end : ∀ {c rest sofar} n room, I c rest sofar →
    (f.process c (rest.take n) room).status ≠ f.ok →
    E (f.process c (rest.take n) room).status (sofar ++ (f.process c (rest.take n) room).out)
  final_again : ∀ {c rest sofar} room, I c rest sofar → (f.final c rest room).status = f.again →
    I (f.final c rest room).ctx (f.final c rest room).left (sofar ++ (f.final c rest room).out)
  final_end : ∀ {c rest sofar} room, I c rest sofar → (f.final c rest room).status ≠ f.again →
    E (f.final c rest room).status (sofar ++ (f.final c rest room).out)

variable {f : Filter ρ σ α} {I : σ → List α → List α → Prop} {E : ρ → List α → Prop} {c : σ}
  {rest sofar : List α} {rooms : List Nat} {calls : List (Nat × Nat)}

theorem Keeps.finish (h : f.Keeps I E) {v : ρ × List α} (hI : I c rest sofar)
    (hv : f.finish rooms c rest sofar = some v) : E v.1 v.2 := by
  induction rooms generalizing c rest sofar with
  | nil => cases hv
  | cons room rooms ih =>
    rw [Filter.finish] at hv
    split at hv
    next ha => exact ih (h.final_again room hI ha) hv
    next ha =>
      rw [← Option.some.inj hv]
      exact h.final_end room hI ha

theorem Keeps.run (h : f.Keeps I E) {v : ρ × List α} (hI : I c rest sofar)
    (hv : f.run rooms calls c rest sofar = some v) : E v.1 v.2 := by
  induction calls generalizing c rest sofar with
  | nil => exact h.finish hI hv
  | cons call calls ih =>
    rw [Filter.run] at hv
    split at hv
    next hok => exact ih (h.process_ok _ _ hI hok) hv
    next hok =>
      rw [← Option.some.inj hv]
      exact h.process_end _ _ hI hok

/-- A call of `final` that is answered with `again` gives output or takes some into the
context, where `held` counts it; without room it at least gives up nothing. -/
def Progress (f : Filter ρ σ α) (I : σ → List α → List α → Prop) (held : σ → Nat) : Prop :=
  ∀ {c rest sofar} room, I c rest sofar → (f.final c rest room).status = f.again →
    held c + (if 0 < room then 1 else 0)
      ≤ held (f.final c rest room).ctx + 2 * (f.final c rest room).out.length

theorem Keeps.finish_countP (h : f.Keeps I E) {held : σ → Nat} (hp : f.Progress I held) {N : Nat}
    (hN : ∀ {c rest sofar}, I c rest sofar → sofar.length + held c ≤ N) (hI : I c rest sofar)
    (hv : f.finish rooms c rest sofar = none) :
    2 * sofar.length + held c + rooms.countP (0 < ·) ≤ 2 * N := by
  induction rooms generalizing c rest sofar with
  | nil =>
    have := hN hI
    rw [List.countP_nil]
    omega
  | cons room rooms ih =>
    rw [Filter.finish] at hv
    split at hv
    next ha =>
      have hrest := ih (h.final_again room hI ha) hv
      have hprog := hp room hI ha
      rw [List.length_append] at hrest
      rw [List.countP_cons]
      simp only [decide_eq_true_eq]
      omega
    next => cases hv

/-- A run comes to its end if `final` is called with room for output more than twice as often
as there are elements of output. -/
theorem Keeps.countP_le (h : f.Keeps I E) {held : σ → Nat} (hp : f.Progress I held) {N : Nat}
    (hN : ∀ {c rest sofar}, I c rest sofar → sofar.length + held c ≤ N) (hI : I c rest sofar)
    (hv : f.run rooms calls c rest sofar = none) : rooms.countP (0 < ·) ≤ 2 * N := by
  induction calls generalizing c rest sofar with
  | nil =>
    have := h.finish_countP hp hN hI hv
    omega
  | cons call calls ih =>
    rw [Filter.run] at hv
    split at hv
    next hok => exact ih (h.process_ok _ _ hI hok) hv
    next => cases hv

end schedule

/-- The contexts that calls lead to. -/
inductive Reach (f : Filter ρ σ α) (c₀ : σ) : σ → Prop
  | refl : Reach f c₀ c₀
  | process {c : σ} (inp : List α) (room : Nat) (h : Reach f c₀ c) :
      Reach f c₀ (f.process c inp room).ctx
  | final {c : σ} (inp : List α) (room : Nat) (h : Reach f c₀ c) :
      Reach f c₀ (f.final c inp room).ctx

/-- A call of `process` with input and room for output that succeeds, but uses no input. -/
def Idle (f : Filter ρ σ α) (c c' : σ) : Prop :=
  ∃ inp room, inp ≠ [] ∧ 0 < room ∧ (f.process c inp room).status = f.ok ∧
    (f.process c inp room).left = inp ∧ (f.process c inp room).ctx = c'

/-- The contexts of calls of `final` without input, one after the other. -/
def finals (f : Filter ρ σ α) (room : Nat → Nat) (c : σ) : Nat → σ
  | 0 => c
  | n + 1 => (f.final (f.finals room c n) [] (room n)).ctx

/-- Calls get on: `held` counts what a context has for output, and `stage` what it still has to
do at the end. -/
structure Lively (f : Filter ρ σ α) (J : σ → Prop) (held stage : σ → Nat) : Prop where
  process : ∀ {c} inp room, J c → J (f.process c inp room).ctx
  final : ∀ {c} inp room, J c → J (f.final c inp room).ctx
  left : ∀ {c} inp room, J c → (f.process c inp room).left <:+ inp
  idle : ∀ {c inp room}, J c → inp ≠ [] → 0 < room → (f.process c inp room).status = f.ok →
    (f.process c inp room).left = inp →
    (f.process c inp room).out ≠ [] ∧ held (f.process c inp room).ctx < held c
  again : ∀ {c room}, J c → 0 < room → (f.final c [] room).status = f.again →
    Prod.Lex (· < ·) (· < ·) (stage (f.final c [] room).ctx, held (f.final c [] room).ctx)
      (stage c, held c)

namespace Lively

variable {f : Filter ρ σ α} {J : σ → Prop} {held stage : σ → Nat} {c₀ c : σ}

section

variable (h : f.Lively J held stage)
include h

theorem reach (h₀ : J c₀) (hc : f.Reach c₀ c) : J c := by
  induction hc with
  | refl => exact h₀
  | process inp room _ ih => exact h.process inp room ih
  | final inp room _ ih => exact h.final inp room ih

/-- A call with input and room fails, uses input or gives output. -/
theorem progress (hc : J c) {inp : List α} {room : Nat} (hinp : inp ≠ []) (hroom : 0 < room) :
    (f.process c inp room).status ≠ f.ok ∨ (f.process c inp room).left.length < inp.length ∨
      (f.process c inp room).out ≠ [] := by
  by_cases hok : (f.process c inp room).status = f.ok
  swap
  · exact .inl hok
  by_cases hleft : (f.process c inp room).left = inp
  · exact .inr (.inr (h.idle hc hinp hroom hok hleft).1)
  · refine .inr (.inl (Nat.lt_of_not_le fun hle => hleft ?_))
    exact (h.left inp room hc).eq_of_length_le hle

/-- Calls do not go on for ever without using input. -/
theorem not_idle (hc : J c) : ¬ ∃ g : Nat → σ, g 0 = c ∧ ∀ k, f.Idle (g k) (g (k + 1)) := by
  intro hex
  obtain ⟨g, hstart, hidle⟩ := hex
  have hJ : ∀ k, J (g k) := by
    intro k
    induction k with
    | zero => rwa [hstart]
    | succ k ih =>
      obtain ⟨inp, room, -, -, -, -, heq⟩ := hidle k
      rw [← heq]
      exact h.process inp room ih
  obtain ⟨k, hk⟩ := WellFounded.not_rel_apply_succ (r := (· < ·)) fun k => held (g k)
  obtain ⟨inp, room, hinp, hroom, hok, hleft, heq⟩ := hidle k
  have hlt := (h.idle (hJ k) hinp hroom hok hleft).2
  rw [heq] at hlt
  exact hk hlt

/-- Calls of `final` come to their end. -/
theorem final_ends (hc : J c) {room : Nat → Nat} (hroom : ∀ k, 0 < room k) :
    ∃ k, (f.final (f.finals room c k) [] (room k)).status ≠ f.again := by
  by_contra hall
  have hagain : ∀ k, (f.final (f.finals room c k) [] (room k)).status = f.again := by
    intro k
    by_contra hne
    exact hall ⟨k, hne⟩
  have hJ : ∀ k, J (f.finals room c k) := by
    intro k
    induction k with
    | zero => exact hc
    | succ k ih => exact h.final [] (room k) ih
  obtain ⟨k, hk⟩ := WellFounded.not_rel_apply_succ
    (r := Prod.Lex ((· < ·) : Nat → Nat → Prop) ((· < ·) : Nat → Nat → Prop))
    fun k => (stage (f.finals room c k), held (f.finals room c k))
  exact hk (h.again (hJ k) (hroom k) (hagain k))

end

end Lively

end Filter

end OpenIsr.Base
