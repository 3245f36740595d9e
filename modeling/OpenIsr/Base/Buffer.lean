import Mathlib.Data.List.Basic
import Mathlib.Tactic.Common

/-!
# Buffers of a fixed size

A buffer is a list whose length does not change. `peek` reads a range of it and `poke` overwrites
one; both fail if the range is not inside of the buffer.
-/

namespace OpenIsr.Base

open List

variable {α : Type} {b b' v : List α} {off n : Nat}

/-- The `n` elements from `off` on. -/
def peek (b : List α) (off n : Nat) : Option (List α) :=
  if off + n ≤ b.length then some ((b.drop off).take n) else none

/-- The buffer with `v` from `off` on. -/
def poke (b : List α) (off : Nat) (v : List α) : Option (List α) :=
  if off + v.length ≤ b.length then some (b.take off ++ v ++ b.drop (off + v.length)) else none

theorem peek_eq (h : off + n ≤ b.length) : peek b off n = some ((b.drop off).take n) :=
  if_pos h

theorem exists_poke (h : off + v.length ≤ b.length) : ∃ b', poke b off v = some b' :=
  ⟨_, if_pos h⟩

theorem poke_eq_some (h : poke b off v = some b') :
    off + v.length ≤ b.length ∧ b' = b.take off ++ v ++ b.drop (off + v.length) := by
  unfold poke at h
  split at h
  next hle => exact ⟨hle, (Option.some.inj h).symm⟩
  next => cases h

theorem length_poke (h : poke b off v = some b') : b'.length = b.length := by
  obtain ⟨hle, rfl⟩ := poke_eq_some h
  simp only [length_append, length_take, length_drop]
  omega

theorem take_poke (h : poke b off v = some b') : b'.take (off + v.length) = b.take off ++ v := by
  obtain ⟨hle, rfl⟩ := poke_eq_some h
  have hlen : (b.take off ++ v).length = off + v.length := by
    rw [length_append, length_take]
    omega
  exact take_left' hlen

/-- Two ranges, one after the other, are one range. -/
theorem poke_append (b : List α) (off : Nat) (v w : List α) :
    (poke b off v).bind (fun b' => poke b' (off + v.length) w) = poke b off (v ++ w) := by
  by_cases hle : off + v.length ≤ b.length
  swap
  · rw [poke, if_neg hle, Option.bind_none, poke, if_neg (by rw [length_append]; omega)]
  obtain ⟨b', hb'⟩ := exists_poke hle
  have hlen := length_poke hb'
  have htake := take_poke hb'
  have hdrop : b'.drop (off + v.length) = b.drop (off + v.length) := by
    obtain ⟨-, rfl⟩ := poke_eq_some hb'
    have hpos : (b.take off ++ v).length = off + v.length := by
      rw [length_append, length_take]
      omega
    exact drop_left' hpos
  rw [hb', Option.bind_some, poke, poke, hlen, length_append, ← Nat.add_assoc]
  split
  next =>
    rw [htake, ← drop_drop, hdrop, drop_drop]
    simp only [append_assoc]
  next => rfl

/-- The same, when the second range is written first. -/
theorem poke_before (b : List α) (off : Nat) (v w : List α) :
    (poke b (off + v.length) w).bind (fun b' => poke b' off v) = poke b off (v ++ w) := by
  by_cases hle : off + v.length + w.length ≤ b.length
  swap
  · rw [poke, if_neg hle, Option.bind_none, poke, if_neg (by rw [length_append]; omega)]
  obtain ⟨b', hb'⟩ := exists_poke hle
  have hlen := length_poke hb'
  obtain ⟨-, heq⟩ := poke_eq_some hb'
  rw [hb', Option.bind_some, poke, if_pos (by omega), poke,
    if_pos (by rw [length_append]; omega), heq, length_append]
  have hpos : (b.take (off + v.length)).length = off + v.length := by
    rw [length_take]
    omega
  rw [append_assoc (b.take (off + v.length)), drop_left' hpos,
    take_append_of_le_length (by omega), take_take, Nat.min_eq_left (by omega)]
  simp only [append_assoc, Nat.add_assoc]

end OpenIsr.Base
