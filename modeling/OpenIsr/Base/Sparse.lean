import OpenIsr.Base.Cut
import OpenIsr.Base.File

/-!
# Sparse files

A file is given a length, and then it is written from the start to the end, but what is zero may be
left out. `Written` says how far that has come: the bytes are right, if zeros are taken for those
that are missing, and the length is not yet known.
-/

namespace OpenIsr.Base

open List

variable {f data done : List UInt8} {off init : Nat}

theorem getD_drop (f : List UInt8) (n i : Nat) : (f.drop n).getD i 0 = f.getD (n + i) 0 := by
  rw [getD_eq_getElem?_getD, getElem?_drop, getD_eq_getElem?_getD]

/-- A file byte by byte, with zeros behind its end. -/
theorem getD_pwrite (h : data ≠ []) (i : Nat) : (pwrite f off data).getD i 0 =
    if off ≤ i ∧ i < off + data.length then data.getD (i - off) 0 else f.getD i 0 := by
  obtain hlt | hge := Nat.lt_or_ge i off
  · have htake : ∀ g : List UInt8, g.getD i 0 = (g.take off).getD i 0 := by
      intro g
      rw [getD_eq_getElem?_getD, getD_eq_getElem?_getD, getElem?_take_of_lt hlt]
    rw [if_neg (by omega), htake, take_pwrite h, getD_append_replicate, ← htake]
  · obtain ⟨k, rfl⟩ := Nat.exists_eq_add_of_le hge
    rw [← getD_drop, drop_pwrite h, Nat.add_sub_cancel_left]
    split
    next hin => rw [getD_append _ _ _ _ (by omega)]
    next hout =>
      rw [getD_append_right _ _ _ _ (by omega), getD_drop]
      congr 1
      omega

theorem eq_of_getD (hlen : f.length = done.length) (hbytes : ∀ i, f.getD i 0 = done.getD i 0) :
    f = done := by
  refine ext_getElem hlen fun i hi hi' => ?_
  rw [← getD_eq_getElem _ 0 hi, hbytes, getD_eq_getElem _ 0 hi']

/-- The stream up to here has been written to a file that had a length to start with. -/
structure Written (init : Nat) (done f : List UInt8) : Prop where
  bytes : ∀ i, f.getD i 0 = done.getD i 0
  init_le : init ≤ f.length
  length_le : f.length ≤ max init done.length

theorem written_nil (init : Nat) : Written init [] (replicate init 0) where
  bytes := getD_replicate_default init
  init_le := Nat.le_of_eq length_replicate.symm
  length_le := by rw [length_replicate]; exact Nat.le_max_left ..

theorem Written.write (h : Written init done f) (hdata : data ≠ []) :
    Written init (done ++ data) (pwrite f done.length data) := by
  have hlen : (pwrite f done.length data).length = max f.length (done.length + data.length) :=
    length_pwrite hdata
  refine ⟨fun i => ?_, ?_, ?_⟩
  · rw [getD_pwrite hdata, h.bytes]
    obtain hlt | hge := Nat.lt_or_ge i done.length
    · rw [if_neg (by omega), getD_append _ _ _ _ hlt]
    · rw [getD_append_right _ _ _ _ hge]
      split
      next => rfl
      next hout =>
        rw [getD_eq_default _ _ hge, getD_eq_default _ _ (by omega)]
  · have := h.init_le
    omega
  · have := h.length_le
    rw [length_append]
    omega

theorem Written.skip (h : Written init done f) (n : Nat) :
    Written init (done ++ replicate n 0) f := by
  refine ⟨fun i => ?_, h.init_le, ?_⟩
  · rw [getD_append_replicate, h.bytes]
  · have := h.length_le
    rw [length_append]
    omega

theorem Written.eq_iff (h : Written init done f) : f = done ↔ f.length = done.length :=
  ⟨congrArg List.length, fun hlen => eq_of_getD hlen h.bytes⟩

end OpenIsr.Base
