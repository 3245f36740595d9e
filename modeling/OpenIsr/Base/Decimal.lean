import Mathlib.Algebra.Group.Int.Defs
import Mathlib.Algebra.Group.Nat.Defs
import Mathlib.Data.Char
import Mathlib.Data.List.Lex
import Mathlib.Order.Lattice
import Mathlib.Tactic.Common

/-!
# Numbers as names

`padded w n` is `n` in decimal with zeros in front of it up to a width of `w`, as `sprintf` writes
it for `%0wd`. It can be read back, so different numbers have different names, and for numbers that
fit in the width the order of the names is the order of the numbers (`padded_le_iff`). It is not
for numbers that do not: `"1000000"` comes before `"999999"`.
-/

namespace OpenIsr.Base

open List

/-- A number in decimal, with zeros in front of it. -/
def padded (w n : Nat) : List Char := (Nat.toDigits 10 n).leftpad w '0'

/-- The number that a string of digits stands for. -/
def value (s : List Char) : Nat := Nat.ofDigitChars 10 s 0

theorem ofDigitChars_zeros (k : Nat) (s : List Char) :
    Nat.ofDigitChars 10 (replicate k '0' ++ s) 0 = Nat.ofDigitChars 10 s 0 := by
  induction k with
  | zero => rfl
  | succ k ih =>
    rw [replicate_succ, cons_append, Nat.ofDigitChars_cons]
    exact ih

theorem value_padded (w n : Nat) : value (padded w n) = n := by
  rw [value, padded, List.leftpad, ofDigitChars_zeros,
    Nat.ofDigitChars_toDigits (by decide) (by decide)]

theorem padded_injective (w : Nat) : Function.Injective (padded w) := fun m n h => by
  rw [← value_padded w m, h, value_padded]

variable {w n : Nat} {c : Char}

theorem isDigit_of_mem_padded (h : c ∈ padded w n) : c.isDigit = true := by
  rw [padded, List.leftpad, mem_append] at h
  rcases h with h | h
  · rw [eq_of_mem_replicate h]
    rfl
  · exact Nat.isDigit_of_mem_toDigits (by decide) (by decide) h

theorem length_padded (hw : 0 < w) (h : n < 10 ^ w) : (padded w n).length = w := by
  have hlen := (Nat.length_toDigits_le_iff (by decide) hw).mpr h
  rw [padded, length_leftpad]
  omega

theorem padded_ne_nil (hw : 0 < w) (n : Nat) : padded w n ≠ [] := by
  intro h
  have hlen := congrArg List.length h
  rw [padded, length_leftpad, length_nil] at hlen
  omega

/-! ## The order of names -/

section order

variable {s t : List Char}

theorem digit_le (h : c.isDigit = true) : c.toNat - '0'.toNat ≤ 9 := by
  rw [Char.isDigit, Bool.and_eq_true, decide_eq_true_eq, decide_eq_true_eq] at h
  have hle : c.toNat ≤ 57 := h.2
  have h0 : '0'.toNat = 48 := rfl
  omega

theorem digit_lt {d : Char} (hc : c.isDigit = true) (h : c < d) :
    c.toNat - '0'.toNat < d.toNat - '0'.toNat := by
  rw [Char.isDigit, Bool.and_eq_true, decide_eq_true_eq, decide_eq_true_eq] at hc
  have hge : 48 ≤ c.toNat := hc.1
  have hlt : c.toNat < d.toNat := h
  have h0 : '0'.toNat = 48 := rfl
  omega

/-- Digits to the left count for more than all digits to the right. -/
theorem ofDigitChars_lt_of_lt (hs : ∀ c ∈ s, c.isDigit = true) (hlen : s.length = t.length)
    {a b : Nat} (h : a < b) : Nat.ofDigitChars 10 s a < Nat.ofDigitChars 10 t b := by
  induction s generalizing t a b with
  | nil =>
    obtain rfl : t = [] := eq_nil_of_length_eq_zero hlen.symm
    exact h
  | cons c s ih =>
    cases t with
    | nil => cases hlen
    | cons d t =>
      obtain ⟨hc, hs⟩ := forall_mem_cons.mp hs
      have hle := digit_le hc
      rw [Nat.ofDigitChars_cons, Nat.ofDigitChars_cons]
      exact ih hs (Nat.succ.inj hlen) (by omega)

theorem ofDigitChars_lt_of_lex (hs : ∀ c ∈ s, c.isDigit = true) (hlen : s.length = t.length)
    (h : s < t) (a : Nat) : Nat.ofDigitChars 10 s a < Nat.ofDigitChars 10 t a := by
  induction s generalizing t a with
  | nil =>
    obtain rfl : t = [] := eq_nil_of_length_eq_zero hlen.symm
    exact absurd h (lt_irrefl _)
  | cons c s ih =>
    cases t with
    | nil => cases hlen
    | cons d t =>
      obtain ⟨hc, hs⟩ := forall_mem_cons.mp hs
      rw [Nat.ofDigitChars_cons, Nat.ofDigitChars_cons]
      rcases cons_lt_cons_iff.mp h with hlt | ⟨rfl, hlt⟩
      · have := digit_lt hc hlt
        exact ofDigitChars_lt_of_lt hs (Nat.succ.inj hlen) (by omega)
      · exact ih hs (Nat.succ.inj hlen) hlt _

end order

theorem padded_le_iff {m : Nat} (hw : 0 < w) (hm : m < 10 ^ w) (hn : n < 10 ^ w) :
    padded w m ≤ padded w n ↔ m ≤ n := by
  have hmono : ∀ {a b : Nat}, a < 10 ^ w → b < 10 ^ w → padded w a < padded w b → a < b := by
    intro a b ha hb h
    have := ofDigitChars_lt_of_lex (fun c => isDigit_of_mem_padded)
      ((length_padded hw ha).trans (length_padded hw hb).symm) h 0
    rwa [← value, ← value, value_padded, value_padded] at this
  constructor
  · intro h
    rcases h.lt_or_eq with hlt | heq
    · exact (hmono hm hn hlt).le
    · exact (padded_injective w heq).le
  · intro h
    by_contra hlt
    exact absurd (hmono hn hm (not_le.mp hlt)) (not_lt.mpr h)

example : padded 6 1000000 < padded 6 999999 := by decide

/-! ## Negative numbers -/

/-- A number that may be negative, to a width of four. -/
def paddedInt (i : Int) : List Char :=
  if i < 0 then '-' :: padded 3 i.natAbs else padded 4 i.natAbs

theorem paddedInt_natCast (n : Nat) : paddedInt n = padded 4 n := by
  rw [paddedInt, if_neg (by omega), Int.natAbs_natCast]

theorem minus_notMem_padded (w n : Nat) : '-' ∉ padded w n := fun h => by
  have := isDigit_of_mem_padded h
  simp at this

theorem paddedInt_injective : Function.Injective paddedInt := by
  intro i j h
  unfold paddedInt at h
  split at h <;> split at h
  next hi hj =>
    have := padded_injective 3 (List.cons.inj h).2
    omega
  next => exact absurd (h ▸ mem_cons_self) (minus_notMem_padded 4 j.natAbs)
  next => exact absurd (h ▸ mem_cons_self) (minus_notMem_padded 4 i.natAbs)
  next hi hj =>
    have := padded_injective 4 h
    omega

end OpenIsr.Base
