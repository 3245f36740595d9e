import Mathlib.Data.Fintype.Basic
import Mathlib.Algebra.Order.Group.Nat
import Mathlib.Tactic.Ring

/-!
# Requests and the I/O cursor

`image_read` and `image_write` cut a request into per-chunk pieces with
`io_start`/`io_chunk`. The cursor's public fields are `unsigned` (32 bits),
`start` is an `off_t` and `count` a `size_t`, so the model keeps every
truncation of the C code: `chunk`, `offset` and `length` are taken modulo `2^32`.

`ioChunk_spec` is what the callers use: a piece `io_chunk` announces lies inside one
chunk of the disk and inside the caller's buffer, whatever the request was.
-/

namespace OpenIsr.Fuse

/-- The parcel parameters, with what `parse_parcel_cfg` checks of them: the chunk
size is a power of two and at least 512, and both fit an `unsigned`. -/
structure Parcel where
  chunksize : Nat
  chunks : Nat
  log : Nat
  chunksize_eq : chunksize = 2 ^ log
  chunksize_ge : 512 ≤ chunksize
  chunksize_lt : chunksize < 2 ^ 32
  chunks_lt : chunks < 2 ^ 32

theorem Parcel.chunksize_pos (P : Parcel) : 0 < P.chunksize := by
  have := P.chunksize_ge
  omega

theorem Parcel.mod_chunksize_lt (P : Parcel) (p : Nat) : p % P.chunksize < P.chunksize :=
  Nat.mod_lt p P.chunksize_pos

/-- Two chunks of 512 bytes. -/
def tinyParcel : Parcel :=
  { chunksize := 512, chunks := 2, log := 9, chunksize_eq := rfl, chunksize_ge := le_refl _,
    chunksize_lt := by decide, chunks_lt := by decide }

/-- The contents of one chunk. -/
abbrev Data (P : Parcel) : Type := Fin P.chunksize → UInt8

/-- A per-chunk write: `bytes` at `off`. -/
structure Write where
  off : Nat
  bytes : List UInt8
  deriving DecidableEq, Repr

/-- `memcpy(data + off, bytes, length)`. -/
def Write.apply {P : Parcel} (w : Write) (d : Data P) : Data P := fun i =>
  if w.off ≤ i.val ∧ i.val < w.off + w.bytes.length then w.bytes.getD (i.val - w.off) 0
  else d i

/-- `memcpy(buf, data + off, len)`. -/
def slice {P : Parcel} (d : Data P) (off len : Nat) : List UInt8 :=
  (List.range len).map fun j =>
    if h : off + j < P.chunksize then d ⟨off + j, h⟩ else 0

theorem Write.apply_whole {P : Parcel} {w : Write} (hoff : w.off = 0)
    (hlen : w.bytes.length = P.chunksize) (d d' : Data P) : w.apply d = w.apply d' := by
  funext i
  have hi : w.off ≤ i.val ∧ i.val < w.off + w.bytes.length := by
    have := i.isLt
    omega
  unfold Write.apply
  rw [if_pos hi, if_pos hi]

/-- A request handed to `do_read`, `do_write` or `do_fsync` on the image. -/
inductive Req
  | read (start count : Nat)
  | write (start : Nat) (buf : List UInt8)
  | fsync
  deriving DecidableEq, Repr

def Req.start : Req → Nat
  | .read start _ => start
  | .write start _ => start
  | .fsync => 0

/-- The `count` argument. -/
def Req.count : Req → Nat
  | .read _ count => count
  | .write _ buf => buf.length
  | .fsync => 0

def Req.isWrite : Req → Bool
  | .write _ _ => true
  | _ => false

/-- `struct io_cursor`. -/
structure IoCursor where
  chunk : Nat
  offset : Nat
  length : Nat
  bufOffset : Nat
  eof : Bool
  start : Nat
  count : Nat
  deriving DecidableEq, Repr

def ioStart (start count : Nat) : IoCursor :=
  { chunk := 0, offset := 0, length := 0, bufOffset := 0, eof := false, start, count }

/-- `io_chunk`: the first component is its return value. -/
def ioChunk (P : Parcel) (cur : IoCursor) : Bool × IoCursor :=
  let bufOffset := (cur.bufOffset + cur.length) % 2 ^ 32
  if cur.count ≤ bufOffset then (false, { cur with bufOffset })
  else
    let chunk := (cur.start + bufOffset) / P.chunksize % 2 ^ 32
    if P.chunks ≤ chunk then (false, { cur with bufOffset, chunk, eof := true })
    else
      -- `unsigned` arithmetic: the product wraps, and so does the difference
      let offset := (cur.start + bufOffset + 2 ^ 32 - chunk * P.chunksize % 2 ^ 32) % 2 ^ 32
      let length := min ((P.chunksize + 2 ^ 32 - offset) % 2 ^ 32) (cur.count - bufOffset) % 2 ^ 32
      (true, { cur with bufOffset, chunk, offset, length })

/-- What the cursor promises about the piece it stands on. -/
structure CurOk (P : Parcel) (cur : IoCursor) : Prop where
  chunk_lt : cur.chunk < P.chunks
  inside : cur.offset + cur.length ≤ P.chunksize
  in_buf : cur.bufOffset + cur.length ≤ cur.count
  length_pos : 0 < cur.length

/-- Reducing the chunk number modulo `2^32` does not move the offset: what is lost
is a multiple of `2^32`. -/
theorem offset_eq (P : Parcel) (x : Nat) :
    (x + 2 ^ 32 - x / P.chunksize % 2 ^ 32 * P.chunksize % 2 ^ 32) % 2 ^ 32
      = x % P.chunksize := by
  have hs := P.chunksize_lt
  have hmod : x % P.chunksize < 2 ^ 32 :=
    lt_trans (Nat.mod_lt _ P.chunksize_pos) hs
  have hq : x / P.chunksize % 2 ^ 32 * P.chunksize % 2 ^ 32
      = x / P.chunksize * P.chunksize % 2 ^ 32 := by
    rw [Nat.mod_mul_mod]
  have hx : x = x / P.chunksize * P.chunksize + x % P.chunksize := by
    rw [Nat.mul_comm]
    exact (Nat.div_add_mod x P.chunksize).symm
  rw [hq]
  generalize hm : x / P.chunksize * P.chunksize = m at hx ⊢
  generalize x % P.chunksize = r at hx hmod ⊢
  omega

/-- Every piece `io_chunk` announces lies inside a chunk of the disk and inside the
caller's buffer. -/
theorem ioChunk_spec {P : Parcel} {cur cur' : IoCursor} (h : ioChunk P cur = (true, cur')) :
    CurOk P cur' ∧ cur'.start = cur.start ∧ cur'.count = cur.count := by
  unfold ioChunk at h
  simp only at h
  split at h
  next => simp at h
  next hcount =>
    split at h
    next => simp at h
    next hchunk =>
      have hs := P.chunksize_lt
      have hoff := offset_eq P (cur.start + (cur.bufOffset + cur.length) % 2 ^ 32)
      have hlt := Nat.mod_lt (cur.start + (cur.bufOffset + cur.length) % 2 ^ 32) P.chunksize_pos
      rw [hoff, Prod.mk.injEq] at h
      obtain ⟨-, rfl⟩ := h
      generalize (cur.start + (cur.bufOffset + cur.length) % 2 ^ 32) % P.chunksize = o at hlt
      refine ⟨⟨by simpa using hchunk, ?_, ?_, ?_⟩, rfl, rfl⟩
      all_goals
        simp only
        have hlen : (P.chunksize + 2 ^ 32 - o) % 2 ^ 32 = P.chunksize - o := by omega
        rw [hlen]
        omega

theorem ioChunk_bufOffset (P : Parcel) (cur : IoCursor) :
    (ioChunk P cur).2.bufOffset = (cur.bufOffset + cur.length) % 2 ^ 32 := by
  unfold ioChunk
  simp only
  split
  next => rfl
  next => split <;> rfl

/-- The next piece starts where the last one ended, if neither the position in the buffer nor
the chunk number wraps. -/
theorem ioChunk_placed {P : Parcel} {cur cur' : IoCursor} (h : ioChunk P cur = (true, cur'))
    (hbuf : cur.bufOffset + cur.length < 2 ^ 32)
    (hchunk : (cur.start + (cur.bufOffset + cur.length)) / P.chunksize < 2 ^ 32) :
    cur'.chunk * P.chunksize + cur'.offset = cur.start + (cur.bufOffset + cur.length) := by
  unfold ioChunk at h
  simp only [Nat.mod_eq_of_lt hbuf] at h
  split at h
  next => simp at h
  split at h
  next => simp at h
  rw [offset_eq, Prod.mk.injEq] at h
  obtain ⟨-, rfl⟩ := h
  simp only
  rw [Nat.mod_eq_of_lt hchunk, Nat.mul_comm]
  exact Nat.div_add_mod _ _

end OpenIsr.Fuse
