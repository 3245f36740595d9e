import Mathlib.Data.List.Basic
import Mathlib.Tactic.Common

/-!
# The SHA-1 compression function

`sha1Compress` follows `_isrcry_sha1_compress`: 80 sub-rounds over five registers, with the
message words expanded in place in a buffer of sixteen. The macros name the registers in a
different order in each sub-round instead of moving them; `Regs` keeps them in the order of
the macro's parameters, so that the renaming becomes the move it stands for.

`Standard.compress` is the function as the standard defines it, over the 80 words of the
message schedule. `sha1Compress_eq` says that the two agree.
-/

namespace OpenIsr.Crypto

open List

/-- `LOAD32H`: the first four bytes, most significant first. -/
def load32h (p : List UInt8) : UInt32 :=
  ((p.getD 0 0).toUInt32 <<< 24) ||| ((p.getD 1 0).toUInt32 <<< 16) |||
    ((p.getD 2 0).toUInt32 <<< 8) ||| (p.getD 3 0).toUInt32

/-- `STORE32H`. -/
def store32h (x : UInt32) : List UInt8 :=
  [(x >>> 24).toUInt8, (x >>> 16).toUInt8, (x >>> 8).toUInt8, x.toUInt8]

theorem load32h_store32h (x : UInt32) (rest : List UInt8) :
    load32h (store32h x ++ rest) = x := by
  simp only [load32h, store32h, cons_append, nil_append, getD_cons_zero, getD_cons_succ]
  apply UInt32.toBitVec_inj.mp
  simp only [UInt32.toBitVec_or, UInt32.toBitVec_shiftLeft, UInt8.toBitVec_toUInt32,
    UInt32.toBitVec_toUInt8, UInt32.toBitVec_shiftRight]
  generalize x.toBitVec = y
  -- bit by bit: each comes from one of the four bytes
  apply BitVec.eq_of_getLsbD_eq
  intro i hi
  simp [BitVec.getLsbD_or, BitVec.getLsbD_setWidth]
  by_cases h8 : i < 8
  · simp [h8, show i < 16 by omega, show i < 24 by omega, hi]
  by_cases h16 : i < 16
  · simp [h8, h16, show i < 24 by omega, hi, show i - 8 < 8 by omega, show i - 8 < 32 by omega,
      show 8 + (i - 8) = i by omega]
  by_cases h24 : i < 24
  · simp [h8, h16, h24, hi, show i - 16 < 8 by omega, show i - 16 < 32 by omega,
      show 16 + (i - 16) = i by omega, show ¬ i - 8 < 8 by omega]
  · simp [h8, h16, h24, hi, show i - 24 < 8 by omega, show i - 24 < 32 by omega,
      show 24 + (i - 24) = i by omega, show ¬ i - 8 < 8 by omega, show ¬ i - 16 < 8 by omega]

/-- `ROTL`. -/
def rotl (n x : UInt32) : UInt32 := (x <<< n) ||| (x >>> (32 - n))

/-- The registers, in the order of the parameters of `subRound`. -/
structure Regs where
  a : UInt32
  b : UInt32
  c : UInt32
  d : UInt32
  e : UInt32
  deriving DecidableEq, Repr

namespace Sha1

/-- Rounds 0-19. -/
def f1 (x y z : UInt32) : UInt32 := z ^^^ (x &&& (y ^^^ z))
/-- Rounds 20-39 and 60-79. -/
def f2 (x y z : UInt32) : UInt32 := x ^^^ y ^^^ z
/-- Rounds 40-59. -/
def f3 (x y z : UInt32) : UInt32 := (x &&& y) ||| (z &&& (x ||| y))

/-- The function of sub-round `i`. -/
def f (i : Nat) : UInt32 → UInt32 → UInt32 → UInt32 :=
  if i < 20 then f1 else if i < 40 then f2 else if i < 60 then f3 else f2

/-- The constant of sub-round `i`. -/
def k (i : Nat) : UInt32 :=
  if i < 20 then 0x5A827999 else if i < 40 then 0x6ED9EBA1
  else if i < 60 then 0x8F1BBCDC else 0xCA62C1D6

/-- `subRound`; the next one is called with the registers `e, a, b, c, d`. -/
def subRound (i : Nat) (data : UInt32) (r : Regs) : Regs :=
  { a := r.e + (rotl 5 r.a + f i r.b r.c r.d + k i + data)
    b := r.a
    c := rotl 30 r.b
    d := r.c
    e := r.d }

/-- The value of `expand`, which is also stored in `W[i & 15]`. -/
def expand (w : List UInt32) (i : Nat) : UInt32 :=
  rotl 1 (w.getD (i % 16) 0 ^^^ w.getD ((i - 14) % 16) 0 ^^^
    w.getD ((i - 8) % 16) 0 ^^^ w.getD ((i - 3) % 16) 0)

/-- Sub-round `i` and the word it uses. -/
def round (i : Nat) (s : Regs × List UInt32) : Regs × List UInt32 :=
  if i < 16 then (subRound i (s.2.getD i 0) s.1, s.2)
  else (subRound i (expand s.2 i) s.1, s.2.set (i % 16) (expand s.2 i))

/-- The sub-rounds from `i` on. -/
def rounds : Nat → Nat → Regs × List UInt32 → Regs × List UInt32
  | 0, _, s => s
  | n + 1, i, s => rounds n (i + 1) (round i s)

/-- The sixteen words of a block. -/
def words (block : List UInt8) : List UInt32 :=
  (range 16).map fun i => load32h (block.drop (4 * i))

end Sha1

/-- `state[0] += A` and so on. -/
def Regs.add (r q : Regs) : Regs := ⟨r.a + q.a, r.b + q.b, r.c + q.c, r.d + q.d, r.e + q.e⟩

/-- `_isrcry_sha1_compress`. -/
def sha1Compress (state : Regs) (block : List UInt8) : Regs :=
  state.add (Sha1.rounds 80 0 (state, Sha1.words block)).1

/-! ## The standard's definition -/

namespace Sha1.Standard

def ch (x y z : UInt32) : UInt32 := (x &&& y) ^^^ (~~~x &&& z)
def parity (x y z : UInt32) : UInt32 := x ^^^ y ^^^ z
def maj (x y z : UInt32) : UInt32 := (x &&& y) ^^^ (x &&& z) ^^^ (y &&& z)

/-- The logical function of round `t`. -/
def f (t : Nat) : UInt32 → UInt32 → UInt32 → UInt32 :=
  if t < 20 then ch else if t < 40 then parity else if t < 60 then maj else parity

/-- The message schedule. -/
def schedule (block : List UInt8) (t : Nat) : UInt32 :=
  if h : t < 16 then load32h (block.drop (4 * t))
  else rotl 1 (schedule block (t - 16) ^^^ schedule block (t - 14) ^^^
    schedule block (t - 8) ^^^ schedule block (t - 3))
  termination_by t
  decreasing_by all_goals omega

/-- Round `t`. -/
def round (block : List UInt8) (r : Regs) (t : Nat) : Regs :=
  { a := rotl 5 r.a + f t r.b r.c r.d + r.e + k t + schedule block t
    b := r.a
    c := rotl 30 r.b
    d := r.c
    e := r.d }

/-- One block. -/
def compress (state : Regs) (block : List UInt8) : Regs :=
  state.add ((range 80).foldl (round block) state)

end Sha1.Standard

namespace Sha1

theorem f1_eq (x y z : UInt32) : f1 x y z = Standard.ch x y z := by
  apply UInt32.toBitVec_inj.mp
  apply BitVec.eq_of_getLsbD_eq
  intro i hi
  simp only [f1, Standard.ch, UInt32.toBitVec_xor, UInt32.toBitVec_and, UInt32.toBitVec_not,
    BitVec.getLsbD_xor, BitVec.getLsbD_and, BitVec.getLsbD_not, hi, decide_true, Bool.true_and]
  cases x.toBitVec.getLsbD i <;> cases y.toBitVec.getLsbD i <;>
    cases z.toBitVec.getLsbD i <;> rfl

theorem f3_eq (x y z : UInt32) : f3 x y z = Standard.maj x y z := by
  apply UInt32.toBitVec_inj.mp
  apply BitVec.eq_of_getLsbD_eq
  intro i _
  simp only [f3, Standard.maj, UInt32.toBitVec_xor, UInt32.toBitVec_and, UInt32.toBitVec_or,
    BitVec.getLsbD_xor, BitVec.getLsbD_and, BitVec.getLsbD_or]
  cases x.toBitVec.getLsbD i <;> cases y.toBitVec.getLsbD i <;>
    cases z.toBitVec.getLsbD i <;> rfl

theorem f_eq (i : Nat) (x y z : UInt32) : f i x y z = Standard.f i x y z := by
  unfold f Standard.f
  split
  next => exact f1_eq x y z
  split
  next => rfl
  split
  next => exact f3_eq x y z
  next => rfl

theorem subRound_eq (block : List UInt8) (i : Nat) (r : Regs) :
    subRound i (Standard.schedule block i) r = Standard.round block r i := by
  unfold subRound Standard.round
  rw [f_eq]
  congr 1
  ac_rfl

/-- Before sub-round `i`, the buffer holds the last sixteen words of the schedule, each at its
number modulo 16; before sub-round 16 it holds the block's own words. -/
def Window (block : List UInt8) (i : Nat) (w : List UInt32) : Prop :=
  w.length = 16 ∧ ∀ t, t < max i 16 → i ≤ t + 16 → w.getD (t % 16) 0 = Standard.schedule block t

theorem window_words (block : List UInt8) : Window block 0 (words block) := by
  refine ⟨by simp [words], fun t ht _ => ?_⟩
  have ht : t < 16 := by omega
  rw [Standard.schedule, dif_pos ht, Nat.mod_eq_of_lt ht]
  simp [words, ht]

variable {block : List UInt8} {i : Nat} {w : List UInt32}

theorem Window.expand_eq (h : Window block i w) (hi : 16 ≤ i) :
    expand w i = Standard.schedule block i := by
  rw [Standard.schedule, dif_neg (by omega)]
  unfold expand
  rw [← h.2 (i - 16) (by omega) (by omega), ← h.2 (i - 14) (by omega) (by omega),
    ← h.2 (i - 8) (by omega) (by omega), ← h.2 (i - 3) (by omega) (by omega),
    show (i - 16) % 16 = i % 16 by omega]

theorem Window.step (h : Window block i w) (r : Regs) :
    (round i (r, w)).1 = Standard.round block r i ∧ Window block (i + 1) (round i (r, w)).2 := by
  unfold round
  by_cases hi : i < 16
  · rw [if_pos hi]
    have hw : w.getD i 0 = Standard.schedule block i := by
      rw [← h.2 i (by omega) (by omega), Nat.mod_eq_of_lt hi]
    refine ⟨by rw [hw, subRound_eq], h.1, fun t ht hle => h.2 t (by omega) (by omega)⟩
  · rw [if_neg hi, h.expand_eq (by omega)]
    refine ⟨subRound_eq block i r, by simp [h.1], fun t ht hle => ?_⟩
    by_cases hti : t = i
    · subst hti
      rw [getD_eq_getElem?_getD, getElem?_set_self (by rw [h.1]; omega)]
      rfl
    · have hne : i % 16 ≠ t % 16 := by omega
      rw [getD_eq_getElem?_getD, getElem?_set_ne hne,
        ← getD_eq_getElem?_getD, h.2 t (by omega) (by omega)]

theorem Window.rounds {n : Nat} {r : Regs} (h : Window block i w) :
    (Sha1.rounds n i (r, w)).1 = (List.range' i n).foldl (Standard.round block) r := by
  induction n generalizing i r w with
  | zero => rfl
  | succ n ih =>
    obtain ⟨hr, hw⟩ := h.step r
    rw [Sha1.rounds, range'_succ, foldl_cons, ← hr, ← ih hw]

end Sha1

theorem sha1Compress_eq (state : Regs) (block : List UInt8) :
    sha1Compress state block = Sha1.Standard.compress state block := by
  unfold sha1Compress Sha1.Standard.compress
  rw [(Sha1.window_words block).rounds, range_eq_range']

end OpenIsr.Crypto
