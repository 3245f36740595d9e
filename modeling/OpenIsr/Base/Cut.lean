import Mathlib.Data.List.GetD

/-!
# Cutting a stream into blocks

A stream is to be cut into blocks of a fixed length, the last of which is filled up with some `z`.
`blockAt` is the block as it should be. A reader that takes what one call gives it for a block fills
up every piece that is too short (`fillUp`), and what comes behind it is shifted.

`fillUp_eq_iff` says when the blocks are right all the same: from the first short piece on, there
is nothing but filling.
-/

namespace OpenIsr.Base

open List

variable {α : Type} {z : α} {L n : Nat} {p xs : List α}

/-- A piece, filled up to the length of a block. -/
def fillUp (z : α) (L : Nat) (p : List α) : List α := p ++ replicate (L - p.length) z

/-- The block with a number, of a stream that ends with filling. -/
def blockAt (z : α) (L : Nat) (xs : List α) (i : Nat) : List α :=
  fillUp z L ((xs.drop (i * L)).take L)

/-- The number of blocks. -/
def blockCount (L size : Nat) : Nat := (size + L - 1) / L

theorem le_blockCount_mul {L : Nat} (hL : 0 < L) (size : Nat) : size ≤ blockCount L size * L := by
  have hmod := Nat.mod_lt (size + L - 1) hL
  have hdiv := Nat.div_add_mod (size + L - 1) L
  rw [blockCount, Nat.mul_comm]
  omega

/-- Where the first piece that is too short ends, or the last one, given the lengths. -/
def firstShort (L : Nat) : List Nat → Nat
  | [] => 0
  | n :: ns => if n = L then L + firstShort L ns else n

theorem length_fillUp (h : p.length ≤ L) : (fillUp z L p).length = L := by
  rw [fillUp, length_append, length_replicate]
  omega

theorem fillUp_full (h : p.length = L) : fillUp z L p = p := by
  rw [fillUp, h, Nat.sub_self, replicate_zero, append_nil]

theorem getD_replicate_default (n i : Nat) : (replicate n z).getD i z = z := by
  rw [getD_eq_getElem?_getD, getElem?_replicate]
  split <;> rfl

theorem eq_replicate_iff_getD : xs = replicate n z ↔ xs.length = n ∧ ∀ i, xs.getD i z = z := by
  constructor
  · intro h
    rw [h]
    exact ⟨length_replicate, getD_replicate_default n⟩
  · intro ⟨hlen, hzero⟩
    refine eq_replicate_iff.mpr ⟨hlen, fun x hx => ?_⟩
    obtain ⟨i, hi, rfl⟩ := getElem_of_mem hx
    have := hzero i
    rwa [getD_eq_getElem _ _ hi] at this

theorem getD_append_replicate (xs : List α) (n i : Nat) :
    (xs ++ replicate n z).getD i z = xs.getD i z := by
  by_cases hi : i < xs.length
  · rw [getD_append _ _ _ _ hi]
  · rw [getD_append_right _ _ _ _ (Nat.le_of_not_lt hi), getD_replicate_default,
      getD_eq_default _ _ (Nat.le_of_not_lt hi)]

/-- Where a stream starts with filling, so does what a reader makes of its pieces. -/
theorem getD_fillUp_of_filling (ps : List (List α)) : ∀ {n : Nat}, (∀ p ∈ ps, p.length ≤ L) →
    (∀ i < n, ps.flatten.getD i z = z) → ∀ i < n, (ps.map (fillUp z L)).flatten.getD i z = z := by
  induction ps with
  | nil => exact fun _ _ _ _ => rfl
  | cons p ps ih =>
    intro n hle hzero i hi
    have hp := hle p mem_cons_self
    rw [map_cons, flatten_cons]
    rw [flatten_cons] at hzero
    by_cases hin : i < L
    · -- in the first block, which has the first piece and filling
      rw [getD_append _ _ _ _ (by rw [length_fillUp hp]; exact hin), fillUp, getD_append_replicate]
      by_cases hip : i < p.length
      · have := hzero i hi
        rwa [getD_append _ _ _ _ hip] at this
      · exact getD_eq_default _ _ (Nat.le_of_not_lt hip)
    · rw [getD_append_right _ _ _ _ (by rw [length_fillUp hp]; omega), length_fillUp hp]
      -- what follows the piece starts with filling that goes as far
      refine ih (n := n - p.length) (fun q hq => hle q (mem_cons_of_mem _ hq)) ?_ _ (by omega)
      intro j hj
      have := hzero (p.length + j) (by omega)
      rwa [getD_append_right _ _ _ _ (Nat.le_add_right ..), Nat.add_sub_cancel_left] at this

theorem length_map_fillUp (z : α) (ps : List (List α)) (hle : ∀ p ∈ ps, p.length ≤ L) :
    (ps.map (fillUp z L)).flatten.length = ps.length * L := by
  induction ps with
  | nil => rw [length_nil, Nat.zero_mul]; rfl
  | cons p ps ih =>
    rw [map_cons, flatten_cons, length_append, length_cons, length_fillUp (hle p mem_cons_self),
      ih fun q hq => hle q (mem_cons_of_mem _ hq), Nat.succ_mul, Nat.add_comm]

/-- A reader that fills up its pieces gives the stream, filled up at the end, if and only if
everything from the first short piece on is filling. -/
theorem flatten_fillUp_iff (ps : List (List α)) : ∀ {n : Nat}, (∀ p ∈ ps, p.length ≤ L) →
    ps.flatten.length + n = ps.length * L →
    ((ps.map (fillUp z L)).flatten = ps.flatten ++ replicate n z ↔
      ∀ x ∈ ps.flatten.drop (firstShort L (ps.map List.length)), x = z) := by
  induction ps with
  | nil =>
    intro n _ hn
    obtain rfl : n = 0 := by simpa using hn
    exact iff_of_true rfl nofun
  | cons p ps ih =>
    intro n hle hn
    have hp := hle p mem_cons_self
    have hps : ∀ q ∈ ps, q.length ≤ L := fun q hq => hle q (mem_cons_of_mem _ hq)
    rw [flatten_cons, length_append, length_cons, Nat.succ_mul] at hn
    rw [map_cons, flatten_cons, flatten_cons, map_cons, firstShort]
    by_cases hfull : p.length = L
    · have hdrop : (p ++ ps.flatten).drop (L + firstShort L (ps.map List.length)) =
          ps.flatten.drop (firstShort L (ps.map List.length)) := by
        rw [← drop_drop, drop_left' hfull]
      rw [if_pos hfull, fillUp_full hfull, append_assoc, append_cancel_left_eq,
        ih hps (by omega), hdrop]
    · rw [if_neg hfull, drop_left, fillUp, append_assoc, append_assoc, append_cancel_left_eq]
      constructor
      · intro heq
        -- byte by byte: each is one that is further to the front by the length of the filling
        have hzero : ∀ i, ps.flatten.getD i z = z := by
          intro i
          induction i using Nat.strongRecOn with
          | _ i hi =>
            have hread := congrArg (List.getD · i z) heq
            rw [getD_append_replicate] at hread
            rw [← hread]
            by_cases hlt : i < (replicate (L - p.length) z).length
            · rw [getD_append _ _ _ _ hlt, getD_replicate_default]
            · rw [getD_append_right _ _ _ _ (Nat.le_of_not_lt hlt)]
              rw [length_replicate] at hlt ⊢
              exact getD_fillUp_of_filling ps hps hi _ (by omega)
        intro x hx
        obtain ⟨i, hi, rfl⟩ := getElem_of_mem hx
        have := hzero i
        rwa [getD_eq_getElem _ _ hi] at this
      · intro hzero
        have hrest : ∀ i, (ps.map (fillUp z L)).flatten.getD i z = z := by
          intro i
          refine getD_fillUp_of_filling ps hps (n := i + 1) (fun j _ => ?_) i (Nat.lt_succ_self i)
          by_cases hj : j < ps.flatten.length
          · rw [getD_eq_getElem _ _ hj]
            exact hzero _ (getElem_mem hj)
          · exact getD_eq_default _ _ (Nat.le_of_not_lt hj)
        have hlen := length_map_fillUp z ps hps
        rw [eq_replicate_iff_getD.mpr ⟨hlen, hrest⟩, eq_replicate_of_mem hzero,
          replicate_append_replicate, replicate_append_replicate]
        congr 1
        omega

/-! ## Block by block -/

theorem eq_iff_blocks (r : Nat) : ∀ {xs ys : List α}, xs.length = r * L → ys.length = r * L →
    (xs = ys ↔ ∀ i < r, (xs.drop (i * L)).take L = (ys.drop (i * L)).take L) := by
  induction r with
  | zero =>
    intro xs ys hx hy
    rw [Nat.zero_mul, length_eq_zero_iff] at hx hy
    rw [hx, hy]
    exact iff_of_true rfl nofun
  | succ r ih =>
    intro xs ys hx hy
    rw [Nat.succ_mul] at hx hy
    refine ⟨fun h _ _ => by rw [h], fun h => ?_⟩
    have hfirst := h 0 (Nat.succ_pos r)
    rw [Nat.zero_mul, drop_zero, drop_zero] at hfirst
    have hrest : xs.drop L = ys.drop L := by
      refine (ih (by rw [length_drop]; omega) (by rw [length_drop]; omega)).mpr ?_
      intro i hi
      have hnext := h (i + 1) (Nat.succ_lt_succ hi)
      rwa [Nat.succ_mul, Nat.add_comm, ← drop_drop, ← drop_drop] at hnext
    rw [← take_append_drop L xs, ← take_append_drop L ys, hfirst, hrest]

theorem block_of_flatten (bs : List (List α)) : ∀ {i : Nat} {b : List α},
    (∀ b ∈ bs, b.length = L) → bs[i]? = some b → (bs.flatten.drop (i * L)).take L = b := by
  induction bs with
  | nil => exact fun _ h => nomatch h
  | cons c bs ih =>
    intro i b hbs hb
    have hc := hbs c mem_cons_self
    rw [flatten_cons]
    cases i with
    | zero =>
      cases hb
      rw [Nat.zero_mul, drop_zero, take_left' hc]
    | succ i =>
      rw [Nat.succ_mul, Nat.add_comm, ← drop_drop, drop_left' hc]
      exact ih (fun x hx => hbs x (mem_cons_of_mem _ hx)) hb

theorem block_of_append {i : Nat} (h : i * L + L ≤ xs.length + n) :
    ((xs ++ replicate n z).drop (i * L)).take L = blockAt z L xs i := by
  rw [blockAt, fillUp, drop_append, take_append, drop_replicate, take_replicate,
    length_take, length_drop]
  congr 2
  omega

/-- Pieces that are taken for blocks are the blocks of the stream if and only if there are as many
of them and everything from the first short piece on is filling. -/
theorem fillUp_eq_iff {ps : List (List α)} (hle : ∀ p ∈ ps, p.length ≤ L)
    (hcount : ps.flatten.length ≤ ps.length * L) :
    (∀ i p, ps[i]? = some p → fillUp z L p = blockAt z L ps.flatten i) ↔
      ∀ x ∈ ps.flatten.drop (firstShort L (ps.map List.length)), x = z := by
  obtain ⟨n, hn⟩ := Nat.exists_eq_add_of_le hcount
  have hlen := length_map_fillUp z ps hle
  rw [← flatten_fillUp_iff ps hle hn.symm, eq_iff_blocks ps.length hlen
    (by rw [length_append, length_replicate]; exact hn.symm)]
  have hblock : ∀ {i : Nat} {p : List α}, ps[i]? = some p →
      (((ps.map (fillUp z L)).flatten.drop (i * L)).take L =
        ((ps.flatten ++ replicate n z).drop (i * L)).take L ↔
        fillUp z L p = blockAt z L ps.flatten i) := by
    intro i p hp
    obtain ⟨hi, -⟩ := List.getElem?_eq_some_iff.mp hp
    have hend : i * L + L ≤ ps.flatten.length + n := by
      rw [← hn, ← Nat.succ_mul]
      exact Nat.mul_le_mul_right L hi
    rw [block_of_append hend, block_of_flatten (b := fillUp z L p) _ ?_ ?_]
    · intro b hb
      obtain ⟨q, hq, rfl⟩ := List.mem_map.mp hb
      exact length_fillUp (hle q hq)
    · rw [List.getElem?_map, hp]
      rfl
  constructor
  · intro h i hi
    have hp := List.getElem?_eq_getElem hi
    exact (hblock hp).mpr (h i _ hp)
  · intro h i p hp
    obtain ⟨hi, -⟩ := List.getElem?_eq_some_iff.mp hp
    exact (hblock hp).mp (h i hi)

end OpenIsr.Base
