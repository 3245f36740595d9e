import Mathlib.Data.List.DropRight
import OpenIsr.Base.Decimal

/-!
# Texts

What the C library and GLib do with strings: cutting off white space, taking a text apart, and
reading a number. A text is the list of its characters.

`numeral` says which integer a text denotes, if any. `strtoul` has only 64 bits for it: it gives
the greatest number it has for a number that is too large, and adds `2^64` to a negative one
(`strtoul_eq`).
-/

namespace OpenIsr.Base

open List

/-- A C string ends at the first NUL. -/
def cString (s : List Char) : List Char := s.takeWhile (· ≠ '\x00')

/-! ## White space -/

/-- `g_ascii_isspace`, for which a vertical tab is not white space. -/
def gAsciiIsspace (c : Char) : Bool :=
  c = ' ' || c = '\t' || c = '\n' || c = '\x0c' || c = '\r'

/-- `isspace`. -/
def isspace (c : Char) : Bool := gAsciiIsspace c || c = '\x0b'

/-- `g_strstrip`. -/
def gStrstrip (s : List Char) : List Char := (s.dropWhile gAsciiIsspace).rdropWhile gAsciiIsspace

/-! ## Taking texts apart -/

/-- `g_strsplit` without a limit. Other than for `splitOn`, the empty text has no parts. -/
def gStrsplit (sep : Char) (s : List Char) : List (List Char) :=
  if s = [] then [] else s.splitOn sep

/-- `g_strsplit` with a limit of two parts, if there are two. -/
def gStrsplitPair (sep : Char) (s : List Char) : Option (List Char × List Char) :=
  match s.dropWhile (· ≠ sep) with
  | [] => none
  | _ :: rest => some (s.takeWhile (· ≠ sep), rest)

/-- What stands before the first separator, and what stands after it, can be told apart. -/
theorem append_cons_inj {sep : Char} {s t s' t' : List Char} (hs : sep ∉ s) (hs' : sep ∉ s')
    (h : s ++ sep :: t = s' ++ sep :: t') : s = s' ∧ t = t' := by
  induction s generalizing s' with
  | nil =>
    cases s' with
    | nil => exact ⟨rfl, (List.cons.inj h).2⟩
    | cons c s' => exact absurd ((List.cons.inj h).1 ▸ mem_cons_self) hs'
  | cons c s ih =>
    cases s' with
    | nil => exact absurd ((List.cons.inj h).1 ▸ mem_cons_self) hs
    | cons c' s' =>
      obtain ⟨rfl, hrest⟩ := List.cons.inj h
      obtain ⟨rfl, rfl⟩ := ih (fun hc => hs (mem_cons_of_mem c hc))
        (fun hc => hs' (mem_cons_of_mem c hc)) hrest
      exact ⟨rfl, rfl⟩

/-! ## Numbers -/

/-- The sign in front of a number, and what follows it. -/
def sign : List Char → Bool × List Char
  | '-' :: s => (true, s)
  | '+' :: s => (false, s)
  | s => (false, s)

/-- The integer that a text denotes: white space, a sign and digits, of which only the digits have
to be there. -/
def numeral (s : List Char) : Option Int :=
  let (negative, digits) := sign (s.dropWhile isspace)
  if digits = [] ∨ digits.all Char.isDigit = false then none
  else some (if negative then -value digits else value digits)

/-- `strtoul` in base 10: the `unsigned long`, and the text at `endptr`. -/
def strtoul (s : List Char) : Nat × List Char :=
  let (negative, rest) := sign (s.dropWhile isspace)
  let digits := rest.takeWhile Char.isDigit
  -- without a digit nothing is read at all
  if digits = [] then (0, s)
  else
    let n := value digits
    let val := if 2 ^ 64 ≤ n then 2 ^ 64 - 1 else if negative then (2 ^ 64 - n) % 2 ^ 64 else n
    (val, rest.dropWhile Char.isDigit)

/-- What `strtoul` makes of an integer. -/
def toUlong (v : Int) : Nat := if 2 ^ 64 ≤ v.natAbs then 2 ^ 64 - 1 else (v % 2 ^ 64).toNat

theorem toUlong_natCast (n : Nat) : toUlong n = if 2 ^ 64 ≤ n then 2 ^ 64 - 1 else n := by
  rw [toUlong, Int.natAbs_natCast]
  split
  next => rfl
  next h => omega

theorem toUlong_neg (n : Nat) :
    toUlong (-n) = if 2 ^ 64 ≤ n then 2 ^ 64 - 1 else (2 ^ 64 - n) % 2 ^ 64 := by
  rw [toUlong, Int.natAbs_neg, Int.natAbs_natCast]
  split
  next => rfl
  next h => omega

/-- `strtoul` reads a text to its end exactly if the text denotes an integer. -/
theorem strtoul_eq {s : List Char} {u : Nat} :
    s ≠ [] ∧ strtoul s = (u, []) ↔ ∃ v, numeral s = some v ∧ u = toUlong v := by
  rw [strtoul, numeral]
  generalize hsign : sign (s.dropWhile isspace) = signed
  obtain ⟨negative, rest⟩ := signed
  dsimp only
  by_cases hdigits : rest = [] ∨ rest.all Char.isDigit = false
  · rw [if_pos hdigits]
    constructor
    · intro hread
      obtain ⟨hne, h⟩ := hread
      split at h
      next => exact absurd (congrArg Prod.snd h) hne
      next hsome =>
        have hall := dropWhile_eq_nil_iff.mp (congrArg Prod.snd h)
        rcases hdigits with rfl | hdigits
        · exact absurd rfl hsome
        · rw [all_eq_true.mpr hall] at hdigits
          cases hdigits
    · intro hread
      obtain ⟨v, hv, -⟩ := hread
      cases hv
  · rw [if_neg hdigits]
    obtain ⟨hne, hall⟩ := not_or.mp hdigits
    have hall := all_eq_true.mp (Bool.not_eq_false _ ▸ hall)
    rw [takeWhile_eq_self_iff.mpr hall, dropWhile_eq_nil_iff.mpr hall, if_neg hne]
    have hs : s ≠ [] := by
      rintro rfl
      cases hsign
      exact hne rfl
    cases negative
    · simp only [hs, ne_eq, not_false_eq_true, true_and, Prod.mk.injEq, and_true,
        Option.some.injEq, exists_eq_left', Bool.false_eq_true, if_false, toUlong_natCast]
      exact eq_comm
    · simp only [hs, ne_eq, not_false_eq_true, true_and, Prod.mk.injEq, and_true,
        Option.some.injEq, exists_eq_left', if_true, toUlong_neg]
      exact eq_comm

example : numeral "-512".toList = some (-512) := by decide

/-- A number of 32 bits comes through the conversion to an `unsigned`. -/
theorem toUlong_mod_of_lt {n : Nat} (h : n < 2 ^ 32) : toUlong n % 2 ^ 32 = n := by
  rw [toUlong_natCast, if_neg (by omega), Nat.mod_eq_of_lt h]

end OpenIsr.Base
