import Mathlib.Data.List.Basic

/-!
# Files

A file is the list of its bytes. `pread` gives what there is of the bytes asked for; `pwrite`
overwrites, and fills a gap behind the old end of the file with zeros. `ftruncate` cuts the file, or
fills it up with zeros.
-/

namespace OpenIsr.Base

open List

/-- The bytes from `off` on, `len` of them or as many as there are. -/
def pread (f : List UInt8) (off len : Nat) : List UInt8 :=
  (f.drop off).take len

/-- The file after `data` has been written at `off`. -/
def pwrite (f : List UInt8) (off : Nat) (data : List UInt8) : List UInt8 :=
  if data = [] then f
  else f.take off ++ replicate (off - f.length) 0 ++ data ++ f.drop (off + data.length)

/-- The file after its length has been set. -/
def ftruncate (f : List UInt8) (len : Nat) : List UInt8 :=
  f.take len ++ replicate (len - f.length) 0

theorem pread_length_le (f : List UInt8) (off len : Nat) : (pread f off len).length ≤ len :=
  length_take_le ..

theorem pread_length (f : List UInt8) (off len : Nat) :
    (pread f off len).length = min len (f.length - off) := by
  rw [pread, length_take, length_drop]

section write

variable {f data : List UInt8} {off len at' : Nat}

theorem pwrite_nil (f : List UInt8) (off : Nat) : pwrite f off [] = f :=
  if_pos rfl

theorem take_pwrite (h : data ≠ []) :
    (pwrite f off data).take off = f.take off ++ replicate (off - f.length) 0 := by
  have hlen : (f.take off ++ replicate (off - f.length) 0).length = off := by
    rw [length_append, length_take, length_replicate]
    omega
  rw [pwrite, if_neg h, append_assoc, take_left' hlen]

theorem drop_pwrite (h : data ≠ []) :
    (pwrite f off data).drop off = data ++ f.drop (off + data.length) := by
  have hlen : (f.take off ++ replicate (off - f.length) 0).length = off := by
    rw [length_append, length_take, length_replicate]
    omega
  rw [pwrite, if_neg h, append_assoc, drop_left' hlen]

theorem length_pwrite (h : data ≠ []) :
    (pwrite f off data).length = max f.length (off + data.length) := by
  simp only [pwrite, if_neg h, length_append, length_take, length_replicate, length_drop]
  omega

theorem pread_pwrite_self (hlen : len ≤ data.length) :
    pread (pwrite f off data) off len = data.take len := by
  by_cases h : data = []
  · subst h
    obtain rfl : len = 0 := Nat.le_zero.mp hlen
    rw [pread, take_zero, take_zero]
  · rw [pread, drop_pwrite h, take_append_of_le_length hlen]

/-- Behind the bytes written nothing changes. -/
theorem pread_pwrite_of_ge (hle : off + data.length ≤ at') (len : Nat) :
    pread (pwrite f off data) at' len = pread f at' len := by
  by_cases h : data = []
  · rw [h, pwrite_nil]
  · have hdrop : (pwrite f off data).drop at' = f.drop at' := by
      obtain ⟨n, rfl⟩ := Nat.exists_eq_add_of_le hle
      rw [Nat.add_assoc, ← drop_drop, drop_pwrite h, drop_append,
        drop_eq_nil_of_le (Nat.le_add_right ..), nil_append, drop_drop]
      congr 1
      omega
    rw [pread, pread, hdrop]

theorem pread_pwrite_of_le (h : data ≠ []) (hle : at' + len ≤ off) :
    pread (pwrite f off data) at' len
      = pread f at' len ++ replicate (len - (pread f at' len).length) 0 := by
  have hall : pread (pwrite f off data) at' len
      = (((pwrite f off data).take off).drop at').take len := by
    rw [drop_take, take_take, Nat.min_eq_left (by omega), pread]
  have hle' : len ≤ off - at' := by omega
  rw [hall, take_pwrite h, drop_append, take_append, drop_take, take_take,
    Nat.min_eq_left hle', drop_replicate, take_replicate, pread_length, pread]
  congr 2
  simp only [length_take, length_drop]
  omega

/-- What is there in full stays, unless some of it is overwritten. -/
theorem pread_pwrite_apart (hapart : off + data.length ≤ at' ∨ at' + len ≤ off)
    (hfull : (pread f at' len).length = len) :
    pread (pwrite f off data) at' len = pread f at' len := by
  by_cases h : data = []
  · rw [h, pwrite_nil]
  · rcases hapart with hge | hle
    · exact pread_pwrite_of_ge hge len
    · rw [pread_pwrite_of_le h hle, hfull, Nat.sub_self, replicate_zero, append_nil]

end write

section truncate

variable {f : List UInt8} {off len n : Nat}

theorem length_ftruncate (f : List UInt8) (n : Nat) : (ftruncate f n).length = n := by
  rw [ftruncate, length_append, length_take, length_replicate]
  omega

/-- What is there in full stays, unless some of it is cut off. -/
theorem pread_ftruncate (hle : off + len ≤ n) (hfull : (pread f off len).length = len) :
    pread (ftruncate f n) off len = pread f off len := by
  rw [pread_length] at hfull
  have htake : off ≤ (f.take n).length ∨ len = 0 := by
    rw [length_take]
    omega
  rcases htake with htake | rfl
  · have hlen : len ≤ ((f.take n).drop off).length := by
      rw [length_drop, length_take]
      omega
    rw [pread, ftruncate, drop_append_of_le_length htake, take_append_of_le_length hlen,
      drop_take, take_take, Nat.min_eq_left (by omega), pread]
  · rw [pread, pread, take_zero, take_zero]

end truncate

end OpenIsr.Base
