import Mathlib.Logic.Equiv.Basic
import OpenIsr.Util.Chunk

/-!
# The round trip of a chunk

`RoundTrips`: `iu_chunk_encode` succeeds, its result is not longer than the chunk, and
`iu_chunk_decode` gives the chunk back. `chunk_roundTrip_iff` says when that is so. What can
go wrong is the length: `lzf_decompress` returns it as an `int`, and a length from `2 ^ 31`
on, which is negative then, is no error code either. Such a chunk is compressed with LZF if
that saves more than a cipher block, and can then not be decoded.

`lzfCompress_zeros` follows the compressor through a chunk of zeros, of which there is one
match after another of the greatest length.
-/

namespace OpenIsr.Util

open Crypto Base List Option

/-- The chunk survives being encoded and decoded. -/
def RoundTrips (lib : Lib) (s : Scratch) (beyond : UInt8) (compress : ChunkCompress)
    (plain : List UInt8) : Prop :=
  ∃ enc, iuChunkEncode lib s .aesSha1 plain compress = some enc ∧
    enc.out.length ≤ plain.length ∧
    iuChunkDecode lib beyond .aesSha1 enc.compress enc.out enc.key plain.length = .ok plain

/-- LZF saves more than a cipher block on the chunk. -/
def lzfSaves (s : Scratch) (plain : List UInt8) : Prop :=
  ∃ c, lzfCompress (mem plain) plain.length plain.length s.base s.htab = some c ∧
    c.length + 16 < plain.length

theorem subUnsigned_block {n : Nat} (h : 16 ≤ n) (hlt : n < 2 ^ 32) :
    subUnsigned n 16 = n - 16 := by
  unfold subUnsigned
  omega

section

variable {lib : Lib} {s : Scratch} {plain c : List UInt8} {compress : ChunkCompress}
  {beyond : UInt8}

theorem compressed?_eq_some (h16 : 16 ≤ plain.length) (hlt : plain.length < 2 ^ 32) :
    compressed? lib s plain compress = some c ↔
      compress ≠ .none ∧ compressFinal lib s compress plain plain.length = .ok c ∧
        c.length + 16 < plain.length := by
  unfold compressed?
  by_cases hc : compress = .none
  · simp [hc]
  · rw [if_neg hc, subUnsigned_block h16 hlt]
    cases hf : compressFinal lib s compress plain plain.length with
    | error e => simp
    | ok d =>
      simp only
      split
      next hle =>
        simp only [reduceCtorEq, false_iff, Except.ok.injEq]
        rintro ⟨-, rfl, hlen⟩
        omega
      next hgt =>
        simp only [some.injEq, Except.ok.injEq]
        constructor
        · rintro rfl
          exact ⟨hc, rfl, by omega⟩
        · exact fun h => h.2.1

theorem compressed?_lzf (h16 : 16 ≤ plain.length) (hlt : plain.length < 2 ^ 32) :
    compressed? lib s plain .lzf = some c ↔
      lzfCompress (mem plain) plain.length plain.length s.base s.htab = some c ∧
        c.length + 16 < plain.length := by
  rw [compressed?_eq_some h16 hlt]
  simp only [compressFinal, lzfDoCompress, if_neg (show plain.length ≠ 0 by omega)]
  cases lzfCompress (mem plain) plain.length plain.length s.base s.htab <;> simp

theorem lzfDoDecompress_eq {n : Nat}
    (h : lzfCompress (mem plain) plain.length n s.base s.htab = some c)
    (hlt : plain.length < 2 ^ 32) (h7 : plain.length % 16 = 0) :
    lzfDoDecompress beyond c plain.length
      = if plain.length < 2 ^ 31 then some (.ok plain) else none := by
  have hback := lzfDecompress_lzfCompress h beyond (le_refl plain.length)
  rw [pre_mem] at hback
  simp only [lzfDoDecompress, hback, toInt, Lzf.Error.code]
  split
  next hs => rw [if_neg (by omega)]
  next hs => rw [if_pos (by omega), if_neg (by omega), if_neg (by omega)]

section

variable (hcomp : compress ≠ .unknown)
include hcomp

theorem iuChunkEncode_eq :
    iuChunkEncode lib s .aesSha1 plain compress
      = encrypt? lib plain (compressed? lib s plain compress)
        (if (compressed? lib s plain compress).isSome then compress else .none) := by
  simp [iuChunkEncode, hcomp]

theorem roundTrips_stored (hpos : 0 < plain.length) (h16 : plain.length % 16 = 0)
    (hc : compressed? lib s plain compress = none) : RoundTrips lib s beyond compress plain := by
  obtain ⟨enc, he, hec, hlen, hdec⟩ := encrypt?_none lib h16 (by omega) beyond
  refine ⟨enc, ?_, le_of_eq hlen, hec ▸ hdec⟩
  rw [iuChunkEncode_eq hcomp, hc]
  exact he

theorem roundTrips_compressed (h16 : 16 ≤ plain.length) (hlt : plain.length < 2 ^ 32)
    (hc : compressed? lib s plain compress = some c) :
    RoundTrips lib s beyond compress plain ↔
      decompressFinal lib beyond compress c plain.length = some (.ok plain) := by
  obtain ⟨hnone, -, hsave⟩ := (compressed?_eq_some h16 hlt).mp hc
  obtain ⟨enc, he, hec, hlen, hdec⟩ := encrypt?_some lib hnone hcomp hsave hlt beyond
  have hwhole : RoundTrips lib s beyond compress plain ↔
      iuChunkDecode lib beyond .aesSha1 compress enc.out enc.key plain.length = .ok plain := by
    unfold RoundTrips
    rw [iuChunkEncode_eq hcomp, hc, isSome_some, if_pos rfl, he]
    simp only [some.injEq, exists_eq_left', hec, hlen, true_and]
  rw [hwhole, hdec]
  constructor
  · intro h
    split at h
    next => cases h
    next => cases h
    next out heq =>
      split at h
      next => cases h
      next => rw [heq, Decoded.ok.inj h]
  · intro h
    simp [h]

end

theorem roundTrips_lzf (hpos : 0 < plain.length) (h16 : plain.length % 16 = 0)
    (hlt : plain.length < 2 ^ 32) (hc : compressed? lib s plain .lzf = some c) :
    RoundTrips lib s beyond .lzf plain ↔ plain.length < 2 ^ 31 := by
  have hge : 16 ≤ plain.length := by omega
  obtain ⟨hlzf, -⟩ := (compressed?_lzf hge hlt).mp hc
  have hne : ChunkCompress.lzf ≠ .unknown := nofun
  rw [roundTrips_compressed hne hge hlt hc, decompressFinal, lzfDoDecompress_eq hlzf hlt h16]
  split
  next hs => exact ⟨fun _ => hs, fun _ => rfl⟩
  next hs => exact ⟨nofun, fun h => absurd h hs⟩

theorem roundTrips_zlib (h16 : 16 ≤ plain.length) (hlt : plain.length < 2 ^ 32)
    (hc : compressed? lib s plain .zlib = some c) : RoundTrips lib s beyond .zlib plain := by
  obtain ⟨-, hfinal, -⟩ := (compressed?_eq_some h16 hlt).mp hc
  have hne : ChunkCompress.zlib ≠ .unknown := nofun
  refine (roundTrips_compressed hne h16 hlt hc).mpr ?_
  exact congrArg some (zlibDecompressFinal_zlibCompressFinal hfinal (le_refl plain.length))

theorem roundTrips_of_lt (hcomp : compress ≠ .unknown) (hpos : 0 < plain.length)
    (h16 : plain.length % 16 = 0) (hlt : plain.length < 2 ^ 31) :
    RoundTrips lib s beyond compress plain := by
  have hge : 16 ≤ plain.length := by omega
  have hlt' : plain.length < 2 ^ 32 := by omega
  cases hc : compressed? lib s plain compress with
  | none => exact roundTrips_stored hcomp hpos h16 hc
  | some c =>
    obtain ⟨hnone, -, -⟩ := (compressed?_eq_some hge hlt').mp hc
    cases compress with
    | unknown => exact absurd rfl hcomp
    | none => exact absurd rfl hnone
    | zlib => exact roundTrips_zlib hge hlt' hc
    | lzf => exact (roundTrips_lzf hpos h16 hlt' hc).mpr hlt

/-- A chunk whose length is a positive multiple of the cipher block survives, unless it is of
`2 ^ 31` bytes or more and is compressed with LZF. -/
theorem chunk_roundTrip_iff (lib : Lib) (s : Scratch) (beyond : UInt8) (compress : ChunkCompress)
    (hcomp : compress ≠ .unknown) (plain : List UInt8) (hpos : 0 < plain.length)
    (h16 : plain.length % 16 = 0) (hlt : plain.length < 2 ^ 32) :
    RoundTrips lib s beyond compress plain ↔
      ¬ (compress = .lzf ∧ 2 ^ 31 ≤ plain.length ∧ lzfSaves s plain) := by
  have hge : 16 ≤ plain.length := by omega
  cases hc : compressed? lib s plain compress with
  | none =>
    refine ⟨?_, fun _ => roundTrips_stored hcomp hpos h16 hc⟩
    rintro - ⟨rfl, -, c, hsave⟩
    rw [(compressed?_lzf hge hlt).mpr hsave] at hc
    cases hc
  | some c =>
    obtain ⟨hnone, -, -⟩ := (compressed?_eq_some hge hlt).mp hc
    cases compress with
    | unknown => exact absurd rfl hcomp
    | none => exact absurd rfl hnone
    | zlib => exact iff_of_true (roundTrips_zlib hge hlt hc) fun h => nomatch h.1
    | lzf =>
      have hsave : lzfSaves s plain := ⟨c, (compressed?_lzf hge hlt).mp hc⟩
      simp only [roundTrips_lzf hpos h16 hlt hc, hsave, and_true, true_and, not_le]

end

/-! ## A chunk of zeros -/

section zeros

open Lzf

/-- Memory full of zeros. -/
def zeros : Mem := fun _ => 0

theorem mem_replicate_zero (n : Nat) : mem (replicate n 0) = zeros := by
  funext i
  simp only [mem, zeros, getD_eq_getElem?_getD, getElem?_replicate]
  split <;> rfl

theorem doWhile_zeros {r ip maxlen n len : Nat} (h : len < maxlen) (hn : maxlen ≤ len + n) :
    doWhile zeros r ip maxlen n len = maxlen := by
  induction n generalizing len with
  | zero => omega
  | succ n ih =>
    rw [doWhile]
    split
    next hc => exact ih hc.1 (by omega)
    next hc =>
      have hne : ¬ len + 1 < maxlen := fun hlt => hc ⟨hlt, rfl⟩
      omega

theorem matchLen_zeros {r ip maxlen : Nat} (h : 19 ≤ maxlen) :
    matchLen zeros r ip maxlen = maxlen := by
  have hu : unrolled zeros r ip 16 2 = (18, false) := by simp [unrolled, zeros]
  rw [matchLen, if_pos (by omega), hu]
  exact doWhile_zeros (by omega) (by omega)

/-- A reference fits if there are four bytes more than the output so far. -/
theorem room_of_stopRun {s : State} {n : Nat} (h : s.stopRun.length + 4 < n) :
    ¬ (n ≤ s.op + 3 + 1 ∧ n ≤ s.op - s.noLit + 3 + 1) := by
  unfold State.op State.noLit
  unfold State.stopRun at h
  split at h
  next h0 =>
    rw [if_pos h0]
    omega
  next h0 =>
    rw [length_append, length_cons] at h
    rw [if_neg h0]
    omega

theorem hval_zeros (p : Nat) : Lzf.next 0 zeros p = 0 ∧ Lzf.next (frst zeros p) zeros p = 0 := by
  unfold Lzf.next frst zeros
  decide

variable {base n : Nat}

/-- In front of position `k`, with `m` bytes of output; the table leads to the last byte. -/
structure InZeros (base k m : Nat) (s : State) : Prop where
  ip : s.ip = k
  stopRun : s.stopRun.length = m
  htab : s.htab 0 = base + (k - 1)
  hval : s.hval = 0

theorem InZeros.step {k m : Nat} {s : State} (h : InZeros base k m s) (hk : 2 ≤ k)
    (hn : k + 21 ≤ n) (hm : m + 4 < n) :
    ∃ s', step zeros n base n s = some s' ∧ s'.ip = k + min (n - k - 2) 264 ∧
      s'.out.length = m + 3 ∧ s'.lits = [] ∧
      (k + min (n - k - 2) 264 + 2 < n → InZeros base (k + min (n - k - 2) 264) (m + 3) s') := by
  obtain ⟨rfl, hrun, htab, hval⟩ := h
  have hidx : idx 0 = 0 := rfl
  have hmatch : isMatch zeros n base (base + (s.ip - 1)) s.ip = true := by
    simp only [isMatch, zeros, beq_self_eq_true, Bool.and_true, Bool.and_eq_true, decide_eq_true_eq]
    omega
  have hlen : matchLen zeros (base + (s.ip - 1) - base) s.ip (min (n - s.ip - 2) 264)
      = min (n - s.ip - 2) 264 := matchLen_zeros (by omega)
  have hbytes : ∀ off, (refBytes off (min (n - s.ip - 2) 264 - 2)).length = 3 := fun off => by
    rw [refBytes, if_neg (by omega)]
    rfl
  simp only [Lzf.step, hval, (hval_zeros s.ip).1, hidx, htab, hmatch, if_true]
  have hroom := room_of_stopRun (n := n)
    (s := ⟨s.ip, s.out, s.lits, Function.update s.htab 0 (base + s.ip), 0⟩)
    (show s.stopRun.length + 4 < n by omega)
  rw [emitRef, if_neg hroom]
  simp only [hlen]
  have hip : s.ip + 1 + (min (n - s.ip - 2) 264 - 2 + 1) = s.ip + min (n - s.ip - 2) 264 := by
    omega
  rw [hip]
  have hout : ∀ off, (s.stopRun ++ refBytes off (min (n - s.ip - 2) 264 - 2)).length = m + 3 :=
    fun off => by rw [length_append, hrun, hbytes]
  split
  next hend => exact ⟨_, rfl, rfl, hout _, rfl, fun h => absurd h (by omega)⟩
  next hend =>
    rw [(hval_zeros _).2, hidx]
    exact ⟨_, rfl, rfl, hout _, rfl, fun _ => ⟨rfl, hout _, by simp, rfl⟩⟩

/-- From position `k` on there are `q` matches of the greatest length, one up to the last two
bytes, and these. -/
theorem InZeros.run {k m q t fuel : Nat} {s : State} (h : InZeros base k m s) (hk : 2 ≤ k)
    (hn : k + 264 * q + t = n) (ht : 21 ≤ t) (ht' : t ≤ 266) (hm : m + 3 * q + 7 ≤ n)
    (hfuel : q < fuel) :
    ∃ out, (loop zeros n base n fuel s).bind (finish zeros n n) = some out ∧
      out.length = m + 3 * q + 6 := by
  induction q generalizing k m s fuel with
  | zero =>
    obtain ⟨f, rfl⟩ : ∃ f, fuel = f + 1 := ⟨fuel - 1, by omega⟩
    obtain ⟨s', hs, hip, hout, hlits, -⟩ := h.step (n := n) hk (by omega) (by omega)
    have hend : s'.ip = n - 2 := by omega
    have hloop : loop zeros n base n f s' = some s' := by
      cases f with
      | zero => rfl
      | succ f => rw [loop, if_neg (by omega)]
    rw [loop, if_pos (by rw [h.ip]; omega), hs, bind_some, hloop, bind_some, finish,
      if_neg (by simp only [State.op, hout, hlits, length_nil]; omega)]
    refine ⟨_, rfl, ?_⟩
    obtain ⟨f, hf⟩ : ∃ f, n = f + 3 := ⟨n - 3, by omega⟩
    have h1 : s'.ip < n := by omega
    have h2 : s'.ip + 1 < n := by omega
    have h3 : ¬ s'.ip + 1 + 1 < n := by omega
    have hlast : lastLits zeros n n s' = (s'.pushLit 0).pushLit 0 := by
      conv_lhs => rw [hf]
      simp only [lastLits, pushLit_ip, zeros, ← hf, if_pos h1, if_pos h2, if_neg h3]
    rw [hlast]
    simp [State.pushLit, hlits, State.stopRun, hout]
  | succ q ih =>
    obtain ⟨f, rfl⟩ : ∃ f, fuel = f + 1 := ⟨fuel - 1, by omega⟩
    have hmin : min (n - k - 2) 264 = 264 := by omega
    obtain ⟨s', hs, -, -, -, hnext⟩ := h.step (n := n) hk (by omega) (by omega)
    rw [hmin] at hnext
    obtain ⟨out, hrun, hlen⟩ := ih (hnext (by omega)) (by omega) (by omega) (by omega)
      (show q < f by omega)
    refine ⟨out, ?_, by omega⟩
    rw [loop, if_pos (by rw [h.ip]; omega), hs, bind_some, hrun]

theorem lzfCompress_zeros (htab : Nat → Nat) {q t : Nat}
    (hn : 2 + 264 * q + t = n) (ht : 21 ≤ t) (ht' : t ≤ 266) :
    ∃ out, lzfCompress zeros n n base htab = some out ∧ out.length = 3 * q + 9 := by
  obtain ⟨f, rfl⟩ : ∃ f, n = f + 2 := ⟨n - 2, by omega⟩
  -- the first two bytes are literals: the table leads nowhere, then to the first byte
  have hidx : idx 0 = 0 := rfl
  have hno : ∀ ip ref, ref ≤ base → isMatch zeros (f + 2) base ref ip = false := by
    intro ip ref href
    simp [isMatch, Nat.not_lt.mpr href]
  have h₁ : ∃ htab₁, htab₁ 0 = base ∧ Lzf.step zeros (f + 2) base (f + 2) (start zeros htab)
      = some ⟨1, [], [0], htab₁, 0⟩ := by
    refine ⟨Function.update (Function.update htab 0 0) 0 base, Function.update_self .., ?_⟩
    have hop : ¬ f + 2 ≤ 1 := by omega
    simp [Lzf.step, start, (hval_zeros 0).2, hidx, hno 0 0 (Nat.zero_le _), State.op, hop,
      State.pushLit, zeros]
  obtain ⟨htab₁, h0, h₁⟩ := h₁
  have h₂ : Lzf.step zeros (f + 2) base (f + 2) ⟨1, [], [0], htab₁, 0⟩
      = some ⟨2, [], [0, 0], Function.update htab₁ 0 (base + 1), 0⟩ := by
    have hop : ¬ f + 2 ≤ 2 := by omega
    simp [Lzf.step, (hval_zeros 1).1, hidx, h0, hno 1 base (Nat.le_refl _), State.op, hop,
      State.pushLit, zeros]
  have hz : InZeros base 2 3 ⟨2, [], [0, 0], Function.update htab₁ 0 (base + 1), 0⟩ :=
    ⟨rfl, rfl, by simp, rfl⟩
  obtain ⟨out, hrun, hlen⟩ := hz.run (Nat.le_refl 2) hn ht ht' (by omega) (show q < f by omega)
  refine ⟨out, ?_, by omega⟩
  rw [lzfCompress, if_neg (by omega), loop, if_pos (by simp [start]; omega), h₁, bind_some,
    loop, if_pos (show 1 + 2 < f + 2 by omega), h₂, bind_some, hrun]

end zeros

/-- No chunk of `2 ^ 31` zeros survives LZF. -/
theorem chunk_zeros_lost : ∃ plain : List UInt8, plain.length = 2 ^ 31 ∧
    ∀ lib s beyond, ¬ RoundTrips lib s beyond .lzf plain := by
  refine ⟨replicate (2 ^ 31) 0, length_replicate, fun lib s beyond => ?_⟩
  have hlen : (replicate (2 ^ 31) (0 : UInt8)).length = 2 ^ 31 := length_replicate
  obtain ⟨out, hout, hsize⟩ := lzfCompress_zeros (q := 8134407) (t := 198) s.htab rfl
    (by omega) (by omega)
  have hc : compressed? lib s (replicate (2 ^ 31) 0) .lzf = some out := by
    rw [compressed?_lzf (by omega) (by omega), mem_replicate_zero, hlen]
    exact ⟨hout, by omega⟩
  rw [roundTrips_lzf (by omega) (by omega) (by omega) hc, hlen]
  omega

/-! ## A short chunk -/

/-- What LZF makes of 64 zeros, padded, and its encryption with AES under the key that belongs
to it. -/
def tinyBlock : List UInt8 × List UInt8 :=
  ([1, 0, 0, 224, 51, 0, 1, 0, 0, 7, 7, 7, 7, 7, 7, 7],
    [0xf1, 0xf8, 0x43, 0x74, 0x97, 0x51, 0x6e, 0x03, 0xad, 0xb1, 0xfb, 0x86, 0xeb, 0x58, 0x3d,
      0xec])

/-- A cipher that agrees with AES on that block, and a zlib that is not used. -/
def tinyLib : Lib where
  aes :=
    { encrypt := fun _ => Equiv.swap tinyBlock.1 tinyBlock.2
      decrypt := fun _ => Equiv.swap tinyBlock.1 tinyBlock.2
      encrypt_length := fun _ b hb => by
        rw [Equiv.swap_apply_def]
        split
        next => rfl
        next =>
          split
          next => rfl
          next => exact hb
      decrypt_encrypt := fun _ b _ => Equiv.swap_apply_self .. }
  zlib := unusedZlib

/-- 64 zeros are compressed and survive. -/
theorem chunk_roundTrip_tiny :
    (iuChunkEncode tinyLib ⟨1, Nat.one_pos, fun _ => 0⟩ .aesSha1 (replicate 64 0) .lzf).map
        (fun enc => (enc.compress, enc.out)) = some (.lzf, tinyBlock.2) ∧
      RoundTrips tinyLib ⟨1, Nat.one_pos, fun _ => 0⟩ 0 .lzf (replicate 64 0) :=
  ⟨by decide +kernel, (chunk_roundTrip_iff _ _ _ .lzf nofun _ (by decide) (by decide)
    (by decide)).mpr fun h => absurd h.2.1 (by decide)⟩

end OpenIsr.Util
