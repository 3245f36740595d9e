import OpenIsr.Fuse.InvStep

/-!
# The pieces of a request

`image_read` and `image_write` start a cursor with `io_start` and call `io_chunk` until it
returns `FALSE`. `ioLoop` is that loop: the pieces it goes through and the cursor it ends with.

The pieces tile the part of the request that lies on the disk, one chunk at a time
(`SplitExact`), if the first chunk number fits an `unsigned`. A request that starts `2^32` chunks
or more behind the beginning of the disk is taken for one on the disk if its chunk number, cut
down to 32 bits, is one (`Wraps`). No later piece can wrap: the one before it is on the disk.
-/

namespace OpenIsr.Fuse

variable {P : Parcel} {cur last : IoCursor} {n x : Nat}

/-- The calls of `io_chunk` in the loop of a request; `none` if it has not ended. -/
def ioLoop (P : Parcel) : Nat → IoCursor → Option (List IoCursor × IoCursor)
  | 0, _ => none
  | n + 1, cur =>
    match ioChunk P cur with
    | (false, cur') => some ([], cur')
    | (true, cur') => (ioLoop P n cur').map fun r => (cur' :: r.1, r.2)

theorem ioLoop_done (h : ioChunk P cur = (false, last)) :
    ioLoop P (n + 1) cur = some ([], last) := by
  simp only [ioLoop, h]

theorem ioLoop_more {next : IoCursor} {pieces : List IoCursor} (h : ioChunk P cur = (true, next))
    (hloop : ioLoop P n next = some (pieces, last)) :
    ioLoop P (n + 1) cur = some (next :: pieces, last) := by
  simp only [ioLoop, h, hloop, Option.map_some]

/-- The disk ends here. -/
def Parcel.size (P : Parcel) : Nat := P.chunks * P.chunksize

/-- The pieces of a request that starts at `start` cover the positions from `lo` to `hi`, in
order, and each of them lies in one chunk of the disk. -/
def Tiles (P : Parcel) (start : Nat) : Nat → List IoCursor → Nat → Prop
  | lo, [], hi => lo = hi
  | lo, cur :: rest, hi =>
    cur.chunk * P.chunksize + cur.offset = lo ∧ start + cur.bufOffset = lo ∧
      cur.chunk < P.chunks ∧ cur.offset + cur.length ≤ P.chunksize ∧ 0 < cur.length ∧
      Tiles P start (lo + cur.length) rest hi

/-- The request is split exactly: the loop ends, its pieces tile what lies on the disk, and
`eof` says whether some of the request does not. -/
def SplitExact (P : Parcel) (start count : Nat) : Prop :=
  ∃ pieces last, ioLoop P (count + 1) (ioStart start count) = some (pieces, last) ∧
    Tiles P start start pieces (max start (min (start + count) P.size)) ∧
    (last.eof = true ↔ 0 < count ∧ P.size < start + count) ∧
    (P.size ≤ start → pieces = [])

/-- A nonempty request far behind the end of the disk whose chunk number, cut down to 32 bits, is
that of a chunk of the disk. -/
def Wraps (P : Parcel) (start count : Nat) : Prop :=
  0 < count ∧ 2 ^ 32 ≤ start / P.chunksize ∧ start / P.chunksize % 2 ^ 32 < P.chunks

/-- `io_chunk` at position `x` of the disk, `b` bytes into the buffer. -/
theorem ioChunk_eq {b : Nat} (hb : cur.bufOffset + cur.length = b) (hx : cur.start + b = x)
    (hlt : b < 2 ^ 32) (hcount : cur.count < 2 ^ 32) :
    ioChunk P cur =
      if cur.count ≤ b then (false, { cur with bufOffset := b })
      else if P.chunks ≤ x / P.chunksize % 2 ^ 32 then
        (false, { cur with bufOffset := b, chunk := x / P.chunksize % 2 ^ 32, eof := true })
      else (true, { cur with
        bufOffset := b, chunk := x / P.chunksize % 2 ^ 32, offset := x % P.chunksize,
        length := min (P.chunksize - x % P.chunksize) (cur.count - b) }) := by
  have hoff := offset_eq P x
  have hmod := Nat.mod_lt x P.chunksize_pos
  have hsize := P.chunksize_lt
  have hrest : (P.chunksize + 2 ^ 32 - x % P.chunksize) % 2 ^ 32
      = P.chunksize - x % P.chunksize := by
    rw [Nat.sub_add_comm (le_of_lt hmod), Nat.add_mod_right]
    exact Nat.mod_eq_of_lt (lt_of_le_of_lt (Nat.sub_le _ _) hsize)
  have hlen : min (P.chunksize - x % P.chunksize) (cur.count - b) % 2 ^ 32
      = min (P.chunksize - x % P.chunksize) (cur.count - b) :=
    Nat.mod_eq_of_lt (lt_of_le_of_lt (min_le_right _ _)
      (lt_of_le_of_lt (Nat.sub_le _ _) hcount))
  simp only [ioChunk, hb, Nat.mod_eq_of_lt hlt, hx, hoff, hrest, hlen]

theorem chunk_le_div : P.size ≤ x ↔ P.chunks ≤ x / P.chunksize := by
  rw [Parcel.size, Nat.le_div_iff_mul_le P.chunksize_pos]

/-- The loop from a position whose chunk number fits. The induction is on the bytes that are left;
a piece that is announced lies on the disk, so that the next chunk number fits, too. -/
theorem ioLoop_tiles (n : Nat) : ∀ (cur : IoCursor) (b x : Nat),
    cur.bufOffset + cur.length = b → cur.start + b = x → b ≤ cur.count → cur.count < 2 ^ 31 →
    cur.count - b < n → (b < cur.count → x / P.chunksize < 2 ^ 32) → cur.eof = false →
    ∃ pieces last, ioLoop P n cur = some (pieces, last) ∧
      Tiles P cur.start x pieces (max x (min (cur.start + cur.count) P.size)) ∧
      (last.eof = true ↔ b < cur.count ∧ P.size < cur.start + cur.count) := by
  induction n with
  | zero =>
    intro cur b x hb hx hle hcount hn
    exact absurd hn (Nat.not_lt_zero _)
  | succ n ih =>
    intro cur b x hb hx hle hcount hn hfits heof
    have hstep := ioChunk_eq (P := P) hb hx (by omega) (by omega)
    by_cases hdone : cur.count ≤ b
    · rw [if_pos hdone] at hstep
      refine ⟨[], _, ioLoop_done hstep, ?_, ?_⟩
      · simp only [Tiles]
        omega
      · simp only [heof]
        constructor
        · exact nofun
        · rintro ⟨hlt, -⟩
          omega
    have hwrap := hfits (Nat.lt_of_not_le hdone)
    rw [if_neg hdone, Nat.mod_eq_of_lt hwrap] at hstep
    by_cases hend : P.chunks ≤ x / P.chunksize
    · have hsize := chunk_le_div.mpr hend
      rw [if_pos hend] at hstep
      refine ⟨[], _, ioLoop_done hstep, ?_, ?_⟩
      · simp only [Tiles]
        omega
      · simp only [true_iff]
        omega
    · rw [if_neg hend] at hstep
      have hmod := Nat.mod_lt x P.chunksize_pos
      have hpos : x / P.chunksize * P.chunksize + x % P.chunksize = x := by
        rw [Nat.mul_comm]
        exact Nat.div_add_mod x P.chunksize
      -- the chunk of the piece ends on the disk
      have hchunk : (x / P.chunksize + 1) * P.chunksize ≤ P.size :=
        Nat.mul_le_mul_right _ (Nat.lt_of_not_le hend)
      rw [Nat.succ_mul] at hchunk
      generalize hlen : min (P.chunksize - x % P.chunksize) (cur.count - b) = len at hstep
      have hlt := P.chunks_lt
      have hnext : (x + len) / P.chunksize < 2 ^ 32 := by
        rw [Nat.div_lt_iff_lt_mul P.chunksize_pos]
        have hmul : (x / P.chunksize + 1 + 1) * P.chunksize ≤ 2 ^ 32 * P.chunksize :=
          Nat.mul_le_mul_right _ (by omega)
        rw [Nat.succ_mul, Nat.succ_mul] at hmul
        have := P.chunksize_pos
        omega
      obtain ⟨pieces, last, hloop, htiles, hlast⟩ := ih
        { cur with
          bufOffset := b, chunk := x / P.chunksize, offset := x % P.chunksize, length := len }
        (b + len) (x + len) rfl (by simp only; omega) (by simp only; omega) hcount
        (by simp only; omega) (fun _ => hnext) heof
      refine ⟨_, last, ioLoop_more hstep hloop, ?_, ?_⟩
      · refine ⟨hpos, hx, Nat.lt_of_not_le hend, by simp only; omega, by simp only; omega, ?_⟩
        simp only at htiles ⊢
        have hstop : max (x + len) (min (cur.start + cur.count) P.size)
            = max x (min (cur.start + cur.count) P.size) := by
          omega
        rwa [hstop] at htiles
      · rw [hlast]
        simp only
        omega

/-- A request is split exactly, unless its first chunk number wraps into the disk. -/
theorem split_exact_iff (P : Parcel) (start count : Nat) (hcount : count < 2 ^ 31) :
    SplitExact P start count ↔ ¬ Wraps P start count := by
  have hfirst : ioChunk P (ioStart start count) = _ :=
    ioChunk_eq (b := 0) (x := start) rfl rfl (by decide) (Nat.lt_trans hcount (by decide))
  constructor
  · rintro ⟨pieces, last, hloop, htiles, -, -⟩ ⟨hpos, hbig, hin⟩
    -- the first piece has a chunk number below `2^32`, but the request starts behind that
    rw [if_neg (by simp only [ioStart]; omega), if_neg (Nat.not_le.mpr hin)] at hfirst
    unfold ioLoop at hloop
    rw [hfirst] at hloop
    simp only [Option.map_eq_some_iff, Prod.mk.injEq] at hloop
    obtain ⟨rest, -, rfl, -⟩ := hloop
    obtain ⟨hat, -⟩ := htiles
    simp only at hat
    have hmod := Nat.mod_lt start P.chunksize_pos
    have hstart := (Nat.le_div_iff_mul_le P.chunksize_pos).mp hbig
    have hwrapped : (start / P.chunksize % 2 ^ 32 + 1) * P.chunksize ≤ 2 ^ 32 * P.chunksize :=
      Nat.mul_le_mul_right _ (Nat.mod_lt _ (by decide))
    rw [Nat.succ_mul] at hwrapped
    omega
  · intro hno
    by_cases hwrap : 0 < count ∧ 2 ^ 32 ≤ start / P.chunksize
    · -- the wrapped chunk number is behind the end of the disk, as is the request
      have hchunk : P.chunks ≤ start / P.chunksize % 2 ^ 32 :=
        Nat.le_of_not_lt fun hin => hno ⟨hwrap.1, hwrap.2, hin⟩
      have hsize : P.size ≤ start :=
        chunk_le_div.mpr (Nat.le_trans hchunk (Nat.mod_le _ _))
      rw [if_neg (by simp only [ioStart]; omega), if_pos hchunk] at hfirst
      refine ⟨[], _, ioLoop_done hfirst, ?_, ?_, fun _ => rfl⟩
      · simp only [Tiles]
        omega
      · simp only [true_iff]
        omega
    · obtain ⟨pieces, last, hloop, htiles, hlast⟩ :=
        ioLoop_tiles (P := P) (count + 1) (ioStart start count) 0 start rfl rfl
          (Nat.zero_le _) hcount (by simp only [ioStart]; omega)
          (fun hpos => Nat.lt_of_not_le fun hbig => hwrap ⟨hpos, hbig⟩) rfl
      refine ⟨pieces, last, hloop, htiles, hlast, fun hsize => ?_⟩
      cases pieces with
      | nil => rfl
      | cons cur rest =>
        -- a piece would lie on the disk
        obtain ⟨hat, -, hin, hle, hlen, -⟩ := htiles
        have := Nat.mul_le_mul_right P.chunksize hin
        rw [Nat.succ_mul] at this
        unfold Parcel.size at hsize
        omega

/-- A request of three bytes, the last of which is on the next chunk. -/
theorem split_exact_across : 3 < 2 ^ 31 ∧ ¬ Wraps tinyParcel 510 3 ∧
    SplitExact tinyParcel 510 3 := by
  have hno : ¬ Wraps tinyParcel 510 3 := by
    rintro ⟨-, hbig, -⟩
    exact absurd hbig (by decide)
  exact ⟨by decide, hno, (split_exact_iff tinyParcel 510 3 (by decide)).mpr hno⟩

/-- One byte at position `2^32 * 512` is taken for the first byte of the disk. -/
theorem split_wraps : 2 ^ 41 < 2 ^ 63 ∧ 1 < 2 ^ 31 ∧ tinyParcel.size ≤ 2 ^ 41 ∧
    ¬ SplitExact tinyParcel (2 ^ 41) 1 := by
  refine ⟨by decide, by decide, by decide, ?_⟩
  rintro ⟨pieces, last, hloop, -, -, hnone⟩
  rw [hnone (by decide)] at hloop
  have htouched : (ioLoop tinyParcel 2 (ioStart (2 ^ 41) 1)).map (fun r => r.1.map IoCursor.chunk)
      = some [0] := by
    decide
  rw [hloop] at htouched
  cases htouched

end OpenIsr.Fuse
