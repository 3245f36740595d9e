import OpenIsr.Cache.Get
import OpenIsr.Util.RoundTrip

/-!
# Putting a chunk and getting it back

`cache_update` writes the slot of the chunk and changes one row of the index and one of the
keyring. `Extends` is what that does to the rest of the file: nothing behind the slot, and in
front of it, where the file ended before it, there are zeros now.

`putGet_iff` says when the chunk comes back and other chunks are as before. Two things can go
wrong. The `UPDATE` of the keyring does nothing if there is no row for the chunk, and nobody
looks at the number of rows. And where the file was too short for a chunk that the index has,
so that `cache_get` failed, it is now filled up with zeros, and if those are what is missing
`cache_get` succeeds.
-/

namespace OpenIsr.Cache

open Base Crypto Util List

/-! ## Slots and the file -/

/-- What is read with zeros for what is missing. -/
def zeroFill (f : List UInt8) (at' len : Nat) : List UInt8 :=
  pread f at' len ++ replicate (len - (pread f at' len).length) 0

theorem zeroFill_length (f : List UInt8) (at' len : Nat) : (zeroFill f at' len).length = len := by
  have := pread_length_le f at' len
  rw [zeroFill, length_append, length_replicate]
  omega

variable {f : List UInt8}

theorem zeroFill_eq {at' len : Nat} (h : (pread f at' len).length = len) :
    zeroFill f at' len = pread f at' len := by
  rw [zeroFill, h, Nat.sub_self, replicate_zero, append_nil]

/-- `f'` is `f` after nothing or something has been written between `off` and `off + size`. -/
structure Extends (f f' : List UInt8) (off size : Nat) : Prop where
  behind : ∀ at' len, off + size ≤ at' → pread f' at' len = pread f at' len
  before : f' = f ∨ (off < f'.length ∧
    ∀ at' len, at' + len ≤ off → pread f' at' len = zeroFill f at' len)

theorem Extends.refl (f : List UInt8) (off size : Nat) : Extends f f off size :=
  ⟨fun _ _ _ => rfl, .inl rfl⟩

variable {f' : List UInt8}

theorem Extends.pwrite {data : List UInt8} {off size : Nat} (h : Extends f f' off size)
    (hdata : data.length ≤ size) : Extends f (pwrite f' off data) off size := by
  refine ⟨fun at' len hle => ?_, ?_⟩
  · rw [pread_pwrite_of_ge (by omega), h.behind at' len hle]
  by_cases hnil : data = []
  · rw [hnil, pwrite_nil]
    exact h.before
  · refine .inr ⟨?_, fun at' len hle => ?_⟩
    · have hpos := length_pos_iff.mpr hnil
      rw [length_pwrite hnil]
      omega
    · rw [pread_pwrite_of_le hnil hle, ← zeroFill]
      rcases h.before with rfl | ⟨-, hfill⟩
      · rfl
      · have hlen : (pread f' at' len).length = len := by
          rw [hfill at' len hle, zeroFill_length]
        rw [zeroFill_eq hlen, hfill at' len hle]

/-- Once the file reaches behind `off`, everything before it can be read. -/
theorem Extends.fills {off size : Nat} (h : Extends f f' off size) (hlt : off < f'.length)
    {at' len : Nat} (hle : at' + len ≤ off) : pread f' at' len = zeroFill f at' len := by
  rcases h.before with rfl | ⟨-, hfill⟩
  · rw [zeroFill_eq]
    rw [pread_length]
    omega
  · exact hfill at' len hle

theorem slot_le (P : Parcel) (st : Store) {a b : Nat} (h : a < b) :
    cacheChunkToOffset P st a + P.chunksize ≤ cacheChunkToOffset P st b := by
  have := Nat.mul_le_mul_left P.chunksize h
  rw [Nat.mul_succ] at this
  unfold cacheChunkToOffset
  omega

/-! ## One call of cache_update -/

/-- What a call for `chunk` leaves as it is. -/
structure Updated (P : Parcel) (st st' : Store) (chunk : Nat) : Prop where
  offset : st'.offset = st.offset
  file : Extends st.file st'.file (cacheChunkToOffset P st chunk) P.chunksize
  keys : ∀ i, i ≠ toInt chunk → st'.keys.lookup i = st.keys.lookup i
  chunks : ∀ i, i ≠ toInt chunk → st'.chunks.lookup i = st.chunks.lookup i

/-- The number of bytes that the last attempt writes. -/
def UpdateEnv.last (P : Parcel) (env : UpdateEnv) : Nat :=
  (env.fault.map (Fault.written P)).getD P.chunksize

/-- The chunk is encoded, and something is written before the call ends. -/
def Writes (P : Parcel) (lib : Lib) (compress : ChunkCompress) (env : UpdateEnv)
    (buf : List UInt8) : Prop :=
  (∃ enc, iuChunkEncode lib env.scratch .aesSha1 buf compress = some enc ∧
    enc.out.length ≤ P.chunksize) ∧ (env.retries ≠ 0 ∨ env.last P ≠ 0)

section update

variable {P : Parcel} {lib : Lib} {compress : ChunkCompress} {env : UpdateEnv} {st st' : Store}
  {chunk : Nat} {buf : List UInt8}

theorem slotData_length (h : buf.length ≤ P.chunksize) : (slotData P buf).length = P.chunksize := by
  rw [slotData, length_append, length_replicate]
  omega

theorem Updated.refl (P : Parcel) (st : Store) (chunk : Nat) : Updated P st st chunk :=
  ⟨rfl, .refl .., fun _ _ => rfl, fun _ _ => rfl⟩

section

variable (h : Updated P st st' chunk)
include h

theorem Updated.toOffset (c : Nat) : cacheChunkToOffset P st' c = cacheChunkToOffset P st c := by
  rw [cacheChunkToOffset, cacheChunkToOffset, h.offset]

theorem Updated.write (hbuf : buf.length ≤ P.chunksize) (n : Nat) :
    Updated P st (st'.write P chunk buf n) chunk := by
  refine ⟨h.offset, ?_, h.keys, h.chunks⟩
  rw [Store.write, h.toOffset]
  refine h.file.pwrite ?_
  rw [length_take, slotData_length hbuf]
  exact min_le_right ..

theorem Updated.iterate (hbuf : buf.length ≤ P.chunksize) (n k : Nat) :
    Updated P st ((fun st => Store.write P st chunk buf n)^[k] st') chunk := by
  induction k with
  | zero => exact h
  | succ k ih =>
    rw [Function.iterate_succ_apply']
    exact ih.write hbuf n

theorem Updated.commit (enc : Encoded) : Updated P st (st'.commit chunk enc) chunk := by
  refine ⟨h.offset, h.file, fun i hi => ?_, fun i hi => ?_⟩
  · rw [← h.keys i hi, Store.commit]
    dsimp only
    split
    next => exact AList.lookup_insert_ne hi
    next => rfl
  · rw [← h.chunks i hi]
    exact AList.lookup_insert_ne hi

end

theorem lt_length_write (st : Store) (chunk : Nat) (hbuf : buf.length ≤ P.chunksize) {n : Nat}
    (h : n ≠ 0 ∨ cacheChunkToOffset P st chunk < st.file.length) :
    cacheChunkToOffset P st chunk < (st.write P chunk buf n).file.length := by
  have hpos := P.chunksize_pos
  by_cases hn : n = 0
  · rw [hn, Store.write, take_zero, pwrite_nil]
    exact h.resolve_left (not_not.mpr hn)
  · have hlen : ((slotData P buf).take n).length ≠ 0 := by
      rw [length_take, slotData_length hbuf]
      omega
    have hnil : (slotData P buf).take n ≠ [] := fun h => hlen (by rw [h]; rfl)
    rw [Store.write, length_pwrite hnil]
    omega

theorem lt_length_iterate (st : Store) (chunk : Nat) (hbuf : buf.length ≤ P.chunksize) {k : Nat}
    (hk : k ≠ 0) :
    cacheChunkToOffset P st chunk
      < ((fun st => Store.write P st chunk buf P.chunksize)^[k] st).file.length := by
  obtain ⟨k, rfl⟩ := Nat.exists_eq_succ_of_ne_zero hk
  rw [Function.iterate_succ_apply',
    ← ((Updated.refl P st chunk).iterate hbuf P.chunksize k).toOffset chunk]
  exact lt_length_write _ chunk hbuf (.inl P.chunksize_pos.ne')

theorem cacheUpdate_cases (P : Parcel) (lib : Lib) (compress : ChunkCompress) (env : UpdateEnv)
    (st : Store) (chunk : Nat) (buf : List UInt8) :
    (¬ Writes P lib compress env buf ∧ cacheUpdate P lib compress env st chunk buf = (.ioerr, st)) ∨
    ∃ enc st', iuChunkEncode lib env.scratch .aesSha1 buf compress = some enc ∧
      enc.out.length ≤ P.chunksize ∧
      st' = ((fun st => Store.write P st chunk enc.out P.chunksize)^[env.retries] st).write P chunk
        enc.out (env.last P) ∧
      (cacheUpdate P lib compress env st chunk buf = (.ioerr, st') ∨
        (env.last P = P.chunksize ∧ (P.chunksize : Int) = toInt P.chunksize ∧
          cacheUpdate P lib compress env st chunk buf = (.success, st'.commit chunk enc))) := by
  unfold cacheUpdate
  cases henc : iuChunkEncode lib env.scratch .aesSha1 buf compress with
  | none =>
    refine .inl ⟨?_, rfl⟩
    rintro ⟨⟨enc, henc', -⟩, -⟩
    exact absurd (henc.symm.trans henc') nofun
  | some enc =>
    dsimp only
    by_cases hlen : P.chunksize < enc.out.length
    · refine .inl ⟨?_, if_pos hlen⟩
      rintro ⟨⟨enc', henc', hle⟩, -⟩
      cases henc.symm.trans henc'
      omega
    · refine .inr ⟨enc, _, rfl, Nat.le_of_not_lt hlen, rfl, ?_⟩
      rw [if_neg hlen]
      cases hfault : env.fault with
      | some f =>
        left
        simp only [UpdateEnv.last, hfault, Option.map_some, Option.getD_some]
      | none =>
        simp only [UpdateEnv.last, hfault, Option.map_none, Option.getD_none]
        by_cases hint : (P.chunksize : Int) = toInt P.chunksize
        · exact .inr ⟨trivial, hint, if_neg (not_not.mpr hint)⟩
        · exact .inl (if_pos hint)

theorem updated_cacheUpdate (P : Parcel) (lib : Lib) (compress : ChunkCompress) (env : UpdateEnv)
    (st : Store) (chunk : Nat) (buf : List UInt8) :
    Updated P st (cacheUpdate P lib compress env st chunk buf).2 chunk := by
  rcases cacheUpdate_cases P lib compress env st chunk buf with
    ⟨-, heq⟩ | ⟨enc, st', -, hlen, rfl, heq | ⟨-, -, heq⟩⟩ <;> rw [heq]
  · exact .refl ..
  · exact ((Updated.refl P st chunk).iterate hlen _ _).write hlen _
  · exact (((Updated.refl P st chunk).iterate hlen _ _).write hlen _).commit enc

theorem file_cacheUpdate (h : ¬ Writes P lib compress env buf) :
    (cacheUpdate P lib compress env st chunk buf).2.file = st.file := by
  rcases cacheUpdate_cases P lib compress env st chunk buf with
    ⟨-, heq⟩ | ⟨enc, st', henc, hlen, rfl, heq⟩
  · rw [heq]
  · have hno : ¬ (env.retries ≠ 0 ∨ env.last P ≠ 0) := fun hor => h ⟨⟨enc, henc, hlen⟩, hor⟩
    obtain ⟨hretries, hlast⟩ := not_or.mp hno
    rw [not_not] at hretries hlast
    rcases heq with heq | ⟨hfull, -, -⟩
    · rw [heq, hretries, hlast, Function.iterate_zero_apply, Store.write, take_zero, pwrite_nil]
    · exact absurd (hfull.symm.trans hlast) P.chunksize_pos.ne'

theorem lt_length_cacheUpdate (h : Writes P lib compress env buf) :
    cacheChunkToOffset P st chunk
      < (cacheUpdate P lib compress env st chunk buf).2.file.length := by
  rcases cacheUpdate_cases P lib compress env st chunk buf with
    ⟨hno, -⟩ | ⟨enc, st', henc, hlen, rfl, heq⟩
  · exact absurd h hno
  · have hup := (Updated.refl P st chunk).iterate hlen P.chunksize env.retries
    have hlt : cacheChunkToOffset P st chunk
        < (Store.write P ((fun st => Store.write P st chunk enc.out P.chunksize)^[env.retries] st)
          chunk enc.out (env.last P)).file.length := by
      rw [← hup.toOffset chunk]
      refine lt_length_write _ chunk hlen ?_
      rw [hup.toOffset chunk]
      exact h.2.symm.imp_right (lt_length_iterate st chunk hlen)
    rcases heq with heq | ⟨-, -, heq⟩ <;> rw [heq] <;> exact hlt

end update

/-! ## Other chunks -/

section other

variable {P : Parcel} {lib : Lib} {beyond : UInt8} {st st' : Store} {chunk c : Nat} {out : Outside}

/-- The length that `cache_get` finds in the index, or 0. -/
def Store.length (st : Store) (c : Nat) : Nat :=
  ((st.chunks.lookup (toInt c)).map columnUnsigned).getD 0

/-- The file ends before the data of the chunk does (or, if the index has a length that is more
than a chunk, before there is more than a chunk to read), and with zeros for what is missing
`iu_chunk_decode` would not fail. -/
def Revived (P : Parcel) (lib : Lib) (beyond : UInt8) (st : Store) (c : Nat) : Prop :=
  ∃ row, st.keys.lookup (toInt c) = some row ∧ row.valid P = true ∧ st.length c ≠ 0 ∧
    st.file.length < cacheChunkToOffset P st c + min (st.length c) (P.chunksize + 1) ∧
    (st.length c ≤ P.chunksize → (st.length c : Int) = toInt (st.length c) ∧
      decodeChunk P lib beyond row (zeroFill st.file (cacheChunkToOffset P st c) (st.length c))
        ≠ .err .ioerr)

theorem cacheGet_congr (hkeys : st'.keys.lookup (toInt c) = st.keys.lookup (toInt c))
    (hread : ∀ row, st.keys.lookup (toInt c) = some row → row.valid P = true →
      (match readChunk P out st' c row with
        | .ok buf => decodeChunk P lib beyond row buf
        | r => r) = match readChunk P out st c row with
        | .ok buf => decodeChunk P lib beyond row buf
        | r => r) : cacheGet P lib beyond out st' c = cacheGet P lib beyond out st c := by
  unfold cacheGet
  rw [hkeys]
  split
  next => rfl
  split
  next => rfl
  next row hrow =>
    split
    next => rfl
    next hvalid =>
      split
      next => rfl
      next => exact hread row hrow (by simpa using hvalid)

theorem readChunk_congr {row : KeyRow}
    (hchunks : st'.chunks.lookup (toInt c) = st.chunks.lookup (toInt c))
    (hread : st.length c ≠ 0 →
      cacheReadChunk P st' out.readFails c (st.length c) none
        = cacheReadChunk P st out.readFails c (st.length c) none) :
    readChunk P out st' c row = readChunk P out st c row := by
  simp only [readChunk, hchunks]
  split
  next hne => rw [← Store.length, hread hne]
  next => rfl

theorem readChunk_local {row : KeyRow}
    (hchunks : st.chunks.lookup (toInt c) = st'.chunks.lookup (toInt c)) (hne : st.length c ≠ 0) :
    readChunk P out st' c row = match cacheReadChunk P st' out.readFails c (st.length c) none with
      | .ok buf => if P.chunksize < st.length c then .err .invalid else .ok buf
      | r => r := by
  unfold Store.length at hne ⊢
  rw [hchunks] at hne ⊢
  exact if_pos hne

theorem cacheReadChunk_eq {len : Nat} (hlen : len ≤ P.chunksize) :
    cacheReadChunk P st false c len none
      = if ((pread st.file (cacheChunkToOffset P st c) len).length : Int) ≠ toInt len
        then .err .ioerr else .ok (pread st.file (cacheChunkToOffset P st c) len) := by
  have hle := pread_length_le st.file (cacheChunkToOffset P st c) len
  simp only [cacheReadChunk, Bool.false_eq_true, if_false]
  rw [if_neg (by omega)]

theorem cacheReadChunk_long {len : Nat} (hlen : P.chunksize < len) (hlt : len < 2 ^ 32) :
    cacheReadChunk P st false c len none
      = if cacheChunkToOffset P st c + P.chunksize < st.file.length then .crash
        else .err .ioerr := by
  have hread := pread_length st.file (cacheChunkToOffset P st c) len
  have hint : ∀ n : Nat, n ≤ P.chunksize → (n : Int) ≠ toInt len := by
    intro n hn
    unfold toInt
    split <;> omega
  simp only [cacheReadChunk, Bool.false_eq_true, if_false]
  split
  next => rw [if_pos (by omega)]
  next hshort => rw [if_pos (hint _ (Nat.le_of_not_lt hshort)), if_neg (by omega)]

theorem Store.length_lt (st : Store) (c : Nat) : st.length c < 2 ^ 32 := by
  unfold Store.length
  cases st.chunks.lookup (toInt c) with
  | none => exact Nat.two_pow_pos 32
  | some n => exact columnUnsigned_lt n

theorem Updated.get_of_lt (h : Updated P st st' chunk) (hne : toInt c ≠ toInt chunk)
    (hlt : chunk < c) (out : Outside) :
    cacheGet P lib beyond out st' c = cacheGet P lib beyond out st c := by
  have hslot := slot_le P st hlt
  refine cacheGet_congr (h.keys _ hne) fun row _ _ => ?_
  rw [readChunk_congr (h.chunks _ hne) fun _ => ?_]
  simp only [cacheReadChunk, h.toOffset, h.file.behind _ _ hslot]

section before

variable (h : Updated P st st' chunk) (hne : toInt c ≠ toInt chunk) (hlt : c < chunk)
  (hfile : cacheChunkToOffset P st chunk < st'.file.length)
include h hlt hfile

theorem Updated.read_of_le
    (hle : cacheChunkToOffset P st c + min (st.length c) (P.chunksize + 1) ≤ st.file.length)
    (fails : Bool) :
    cacheReadChunk P st' fails c (st.length c) none
      = cacheReadChunk P st fails c (st.length c) none := by
  have hslot := slot_le P st hlt
  cases fails with
  | true => rfl
  | false =>
    by_cases hlen : st.length c ≤ P.chunksize
    · have hfull : (pread st.file (cacheChunkToOffset P st c) (st.length c)).length
          = st.length c := by
        rw [pread_length]
        omega
      rw [cacheReadChunk_eq hlen, cacheReadChunk_eq hlen, h.toOffset,
        h.file.fills hfile (by omega), zeroFill_eq hfull]
    · have hlong : P.chunksize < st.length c := Nat.lt_of_not_le hlen
      rw [cacheReadChunk_long hlong (st.length_lt c), cacheReadChunk_long hlong (st.length_lt c),
        h.toOffset, if_pos (by omega), if_pos (by omega)]

theorem Updated.read_of_lt (hpos : st.length c ≠ 0)
    (hshort : st.file.length
      < cacheChunkToOffset P st c + min (st.length c) (P.chunksize + 1)) :
    (∀ fails, cacheReadChunk P st fails c (st.length c) none = .err .ioerr) ∧
    cacheReadChunk P st' false c (st.length c) none
      = if P.chunksize < st.length c then .crash
        else if (st.length c : Int) ≠ toInt (st.length c) then .err .ioerr
        else .ok (zeroFill st.file (cacheChunkToOffset P st c) (st.length c)) := by
  have hslot := slot_le P st hlt
  have hlt32 := st.length_lt c
  by_cases hlen : st.length c ≤ P.chunksize
  · refine ⟨fun fails => ?_, ?_⟩
    · cases fails with
      | true => rfl
      | false =>
        rw [cacheReadChunk_eq hlen, if_pos]
        rw [pread_length]
        unfold toInt
        split <;> omega
    · rw [cacheReadChunk_eq hlen, h.toOffset, h.file.fills hfile (by omega), zeroFill_length,
        if_neg (not_lt.mpr hlen)]
  · have hlong : P.chunksize < st.length c := Nat.lt_of_not_le hlen
    refine ⟨fun fails => ?_, ?_⟩
    · cases fails with
      | true => rfl
      | false => rw [cacheReadChunk_long hlong hlt32, if_neg (by omega)]
    · rw [cacheReadChunk_long hlong hlt32, h.toOffset, if_pos (by omega), if_pos hlong]

include hne

theorem Updated.get_iff :
    (∀ out, cacheGet P lib beyond out st' c = cacheGet P lib beyond out st c) ↔
      ¬ Revived P lib beyond st c := by
  have hkeys := h.keys _ hne
  have hchunks := h.chunks _ hne
  constructor
  · rintro hsame ⟨row, hrow, hvalid, hpos, hshort, hdec⟩
    obtain ⟨hbefore, hafter⟩ := h.read_of_lt hlt hfile hpos hshort
    -- no fault and no error when the file is read
    have hget := hsame ⟨none, false, false, [], fun _ => .error⟩
    rw [cacheGet_eq rfl hrow hvalid, cacheGet_eq rfl (hkeys.trans hrow) hvalid,
      readChunk_local hchunks.symm hpos, readChunk_local rfl hpos, hbefore, hafter] at hget
    by_cases hlong : P.chunksize < st.length c
    · rw [if_pos hlong] at hget
      cases hget
    · obtain ⟨hint, hdec⟩ := hdec (Nat.le_of_not_lt hlong)
      rw [if_neg hlong, if_neg (not_not.mpr hint)] at hget
      dsimp only at hget
      rw [if_neg hlong] at hget
      exact hdec hget
  · intro hno out
    by_cases hle : cacheChunkToOffset P st c + min (st.length c) (P.chunksize + 1)
        ≤ st.file.length
    · refine cacheGet_congr hkeys fun row _ _ => ?_
      rw [readChunk_congr hchunks fun _ => h.read_of_le hlt hfile hle out.readFails]
    by_cases hpos : st.length c = 0
    · refine cacheGet_congr hkeys fun row _ _ => ?_
      rw [readChunk_congr hchunks fun hne => absurd hpos hne]
    obtain ⟨hbefore, hafter⟩ := h.read_of_lt hlt hfile hpos (Nat.lt_of_not_le hle)
    refine cacheGet_congr hkeys fun row hrow hvalid => ?_
    rw [readChunk_local hchunks.symm hpos, readChunk_local rfl hpos, hbefore]
    cases out.readFails with
    | true => rfl
    | false =>
      rw [hafter]
      by_contra hdiff
      refine hno ⟨row, hrow, hvalid, hpos, Nat.lt_of_not_le hle, fun hlong => ?_⟩
      have hlong : ¬ P.chunksize < st.length c := not_lt.mpr hlong
      rw [if_neg hlong] at hdiff
      by_cases hint : (st.length c : Int) = toInt (st.length c)
      · rw [if_neg (not_not.mpr hint)] at hdiff
        dsimp only at hdiff
        rw [if_neg hlong] at hdiff
        exact ⟨hint, hdiff⟩
      · rw [if_pos hint] at hdiff
        exact absurd rfl hdiff

end before

theorem toInt_ne {a b : Nat} (ha : a < 2 ^ 32) (hb : b < 2 ^ 32) (hne : a ≠ b) :
    toInt a ≠ toInt b :=
  fun h => hne (toInt_inj ha hb h)

end other

/-! ## The chunk itself -/

section stored

variable {P : Parcel} {lib : Lib} {beyond : UInt8} {compress : ChunkCompress} {st st' : Store}
  {chunk c : Nat} {enc : Encoded}

/-- The row of the keyring for a chunk that has been encoded. -/
def Encoded.row (enc : Encoded) : KeyRow := ⟨enc.tag, enc.key, compressCode enc.compress⟩

theorem encode_spec {s : Scratch} {buf : List UInt8}
    (h : iuChunkEncode lib s .aesSha1 buf compress = some enc) :
    enc.tag.length = hashlen ∧ enc.key.length = hashlen ∧
      (enc.compress = compress ∨ enc.compress = .none) := by
  unfold iuChunkEncode at h
  split at h
  next => cases h
  dsimp only [encrypt?] at h
  rw [hashFinal_update] at h
  dsimp only at h
  split at h
  next => cases h
  split at h
  next => cases h
  cases h
  refine ⟨?_, ?_, ?_⟩
  · dsimp only
    rw [hashFinal_update]
    exact sha1_length _
  · exact sha1_length _
  · dsimp only
    split
    next => exact .inl rfl
    next => exact .inr rfl

theorem columnUnsigned_compressCode (c : ChunkCompress) :
    columnUnsigned (compressCode c) = compressCode c := by
  cases c <;> rfl

theorem compressOfCode_compressCode (c : ChunkCompress) : compressOfCode (compressCode c) = c := by
  cases c <;> rfl

/-- The local cache has the chunk as it has been encoded. -/
structure Stored (P : Parcel) (st : Store) (chunk : Nat) (enc : Encoded) : Prop where
  keys : st.keys.lookup (toInt chunk) = some (Encoded.row enc)
  chunks : st.chunks.lookup (toInt chunk) = some (enc.out.length : Int)
  len : enc.out.length ≤ P.chunksize
  len_pos : enc.out.length ≠ 0
  len_int : (enc.out.length : Int) = toInt enc.out.length
  data : pread st.file (cacheChunkToOffset P st chunk) enc.out.length = enc.out

theorem Stored.updated (h : Stored P st chunk enc) (hup : Updated P st st' c)
    (hne : toInt chunk ≠ toInt c) : Stored P st' chunk enc := by
  refine ⟨(hup.keys _ hne).trans h.keys, (hup.chunks _ hne).trans h.chunks, h.len, h.len_pos,
    h.len_int, ?_⟩
  rw [hup.toOffset]
  have hlen := h.len
  rcases Nat.lt_trichotomy c chunk with hlt | heq | hlt
  · rw [hup.file.behind _ _ (slot_le P st hlt), h.data]
  · exact absurd (congrArg toInt heq.symm) hne
  · have hslot := slot_le P st hlt
    rcases hup.file.before with hfile | ⟨-, hfill⟩
    · rw [hfile, h.data]
    · rw [hfill _ _ (by omega), zeroFill_eq (by rw [h.data]), h.data]

theorem Stored.get (h : Stored P st chunk enc) {out : Outside} (hfault : out.fault = none)
    (hreads : out.readFails = false) (hvalid : (Encoded.row enc).valid P = true)
    {buf : List UInt8}
    (hcodec : iuChunkDecode lib beyond .aesSha1 enc.compress enc.out enc.key P.chunksize
      = .ok buf) :
    cacheGet P lib beyond out st chunk = .ok buf := by
  have hlen : st.length chunk = enc.out.length := by
    have hlt := P.chunksize_lt
    have hle := h.len
    rw [Store.length, h.chunks]
    exact columnUnsigned_natCast (by omega)
  rw [cacheGet_eq hfault h.keys hvalid, readChunk_local rfl (hlen ▸ h.len_pos), hlen, hreads,
    cacheReadChunk_eq h.len, h.data, if_neg (not_not.mpr h.len_int)]
  dsimp only
  rw [if_neg (not_lt.mpr h.len)]
  dsimp only [decodeChunk, Encoded.row]
  rw [columnUnsigned_compressCode, compressOfCode_compressCode, hcodec]

theorem pread_write (st : Store) (chunk : Nat) {buf : List UInt8}
    (hlen : buf.length ≤ P.chunksize) :
    pread (st.write P chunk buf P.chunksize).file (cacheChunkToOffset P st chunk) buf.length
      = buf := by
  rw [Store.write, take_of_length_le (slotData_length hlen).le, pread_pwrite_self]
  · exact take_left
  · rw [slotData_length hlen]
    exact hlen

theorem keys_iterate (st : Store) (chunk : Nat) (buf : List UInt8) (n k : Nat) :
    ((fun st => Store.write P st chunk buf n)^[k] st).keys = st.keys := by
  induction k with
  | zero => rfl
  | succ k ih => rw [Function.iterate_succ_apply', Store.write, ih]

theorem stored_cacheUpdate {env : UpdateEnv} {buf : List UInt8}
    (h : cacheUpdate P lib compress env st chunk buf = (.success, st'))
    (hmem : toInt chunk ∈ st.keys)
    (hpos : ∀ enc, iuChunkEncode lib env.scratch .aesSha1 buf compress = some enc →
      enc.out.length ≠ 0) :
    ∃ enc, iuChunkEncode lib env.scratch .aesSha1 buf compress = some enc ∧
      Stored P st' chunk enc := by
  rcases cacheUpdate_cases P lib compress env st chunk buf with
    ⟨-, heq⟩ | ⟨enc, st₁, henc, hlen, hst₁, heq | ⟨hlast, hint, heq⟩⟩
  · cases heq.symm.trans h
  · cases heq.symm.trans h
  · obtain rfl := (Prod.mk.inj (heq.symm.trans h)).2
    have hkeys : st₁.keys = st.keys := by rw [hst₁, Store.write, keys_iterate]
    refine ⟨enc, henc, ?_, AList.lookup_insert .., hlen, hpos enc henc, ?_, ?_⟩
    · dsimp only [Store.commit]
      rw [if_pos (hkeys ▸ hmem), AList.lookup_insert, Encoded.row]
    · have hlt := P.chunksize_lt
      unfold toInt at hint ⊢
      split at hint <;> split <;> omega
    · rw [hst₁, hlast]
      exact pread_write _ chunk hlen

theorem lookup_of_not_mem {env : UpdateEnv} {buf : List UInt8} (h : toInt chunk ∉ st.keys) :
    (cacheUpdate P lib compress env st chunk buf).2.keys.lookup (toInt chunk) = none := by
  rcases cacheUpdate_cases P lib compress env st chunk buf with
    ⟨-, heq⟩ | ⟨enc, st₁, -, -, hst₁, hret⟩
  · rw [heq]
    exact AList.lookup_eq_none.mpr h
  · have hkeys : st₁.keys = st.keys := by rw [hst₁, Store.write, keys_iterate]
    rcases hret with heq | ⟨-, -, heq⟩ <;> rw [heq]
    · rw [hkeys]
      exact AList.lookup_eq_none.mpr h
    · dsimp only [Store.commit]
      rw [hkeys, if_neg h]
      exact AList.lookup_eq_none.mpr h

end stored

/-! ## The law -/

/-- One successful call for a chunk other than `chunk`; `cache_get` leaves the local cache as it
is. -/
inductive OtherCall (P : Parcel) (lib : Lib) (compress : ChunkCompress) (beyond : UInt8)
    (chunk : Nat) : Store → Store → Prop
  | update {st st' : Store} {env : UpdateEnv} {c : Nat} {buf : List UInt8} (hc : c < 2 ^ 32)
    (hne : c ≠ chunk) (h : cacheUpdate P lib compress env st c buf = (.success, st')) :
    OtherCall P lib compress beyond chunk st st'
  | get {st : Store} {out : Outside} {c : Nat} {buf : List UInt8} (hc : c < 2 ^ 32)
    (hne : c ≠ chunk) (h : cacheGet P lib beyond out st c = .ok buf) :
    OtherCall P lib compress beyond chunk st st

/-- If `cache_update` succeeds, `cache_get` returns the chunk after any number of calls for other
chunks, and other chunks are as before in any case. -/
def PutGetLaw (P : Parcel) (lib : Lib) (compress : ChunkCompress) (beyond : UInt8)
    (env : UpdateEnv) (st : Store) (chunk : Nat) (buf : List UInt8) : Prop :=
  (∀ st', cacheUpdate P lib compress env st chunk buf = (.success, st') →
    ∀ st'', Relation.ReflTransGen (OtherCall P lib compress beyond chunk) st' st'' →
      ∀ out : Outside, out.fault = none → out.readFails = false →
        cacheGet P lib beyond out st'' chunk = .ok buf) ∧
  ∀ c < 2 ^ 32, c ≠ chunk → ∀ out,
    cacheGet P lib beyond out (cacheUpdate P lib compress env st chunk buf).2 c
      = cacheGet P lib beyond out st c

section law

variable {P : Parcel} {lib : Lib} {beyond : UInt8} {compress : ChunkCompress} {env : UpdateEnv}
  {st st' : Store} {chunk : Nat} {buf : List UInt8} {enc : Encoded}

theorem Stored.calls (h : Stored P st chunk enc) (hchunk : chunk < 2 ^ 32)
    (hcalls : Relation.ReflTransGen (OtherCall P lib compress beyond chunk) st st') :
    Stored P st' chunk enc := by
  induction hcalls with
  | refl => exact h
  | tail _ hcall ih =>
    cases hcall with
    | get => exact ih
    | update hc hne hup =>
      obtain rfl := congrArg Prod.snd hup
      exact ih.updated (updated_cacheUpdate ..) (toInt_ne hchunk hc hne.symm)

theorem row_valid {s : Scratch} (henc : iuChunkEncode lib s .aesSha1 buf compress = some enc)
    (hcompress : iuChunkCompressIsEnabled P.requiredCompress (compressCode compress) = true) :
    (Encoded.row enc).valid P = true := by
  obtain ⟨htag, hkey, hcomp⟩ := encode_spec henc
  have henabled : iuChunkCompressIsEnabled P.requiredCompress (compressCode enc.compress)
      = true := by
    rcases hcomp with heq | heq <;> rw [heq]
    · exact hcompress
    · exact P.none_enabled
  simp only [KeyRow.valid, Encoded.row, htag, hkey, columnUnsigned_compressCode, henabled,
    beq_self_eq_true, Bool.and_true]

theorem out_length_ne_zero {n : Nat}
    (hcodec : iuChunkDecode lib beyond .aesSha1 enc.compress enc.out enc.key n = .ok buf) :
    enc.out.length ≠ 0 := by
  intro hlen
  simp [iuChunkDecode, hlen] at hcodec

theorem other_iff (hchunk : chunk < 2 ^ 32) :
    (∀ c < 2 ^ 32, c ≠ chunk → ∀ out,
      cacheGet P lib beyond out (cacheUpdate P lib compress env st chunk buf).2 c
        = cacheGet P lib beyond out st c) ↔
      (Writes P lib compress env buf → ∀ c < chunk, ¬ Revived P lib beyond st c) := by
  have hup := updated_cacheUpdate P lib compress env st chunk buf
  constructor
  · intro h hwrites c hlt
    have hc : c < 2 ^ 32 := by omega
    exact (hup.get_iff (toInt_ne hc hchunk hlt.ne) hlt (lt_length_cacheUpdate hwrites)).mp
      (h c hc hlt.ne)
  · intro h c hc hne out
    rcases Nat.lt_or_gt_of_ne hne with hlt | hlt
    · by_cases hwrites : Writes P lib compress env buf
      · exact (hup.get_iff (toInt_ne hc hchunk hne) hlt (lt_length_cacheUpdate hwrites)).mpr
          (h hwrites c hlt) out
      · have hkeys := hup.keys _ (toInt_ne hc hchunk hne)
        refine cacheGet_congr hkeys fun row _ _ => ?_
        rw [readChunk_congr (hup.chunks _ (toInt_ne hc hchunk hne)) fun _ => ?_]
        simp only [cacheReadChunk, hup.toOffset, file_cacheUpdate hwrites]
    · exact hup.get_of_lt (toInt_ne hc hchunk hne) hlt out

/-- The chunk is encoded, nothing fails, and an `int` holds the size of a chunk. -/
def Succeeds (P : Parcel) (lib : Lib) (compress : ChunkCompress) (env : UpdateEnv)
    (buf : List UInt8) : Prop :=
  (∃ enc, iuChunkEncode lib env.scratch .aesSha1 buf compress = some enc ∧
    enc.out.length ≤ P.chunksize) ∧ env.fault = none ∧ P.chunksize < 2 ^ 31

theorem cacheUpdate_success_iff (st : Store) (chunk : Nat) :
    (cacheUpdate P lib compress env st chunk buf).1 = .success ↔
      Succeeds P lib compress env buf := by
  have hint : (P.chunksize : Int) = toInt P.chunksize ↔ P.chunksize < 2 ^ 31 := by
    have := P.chunksize_lt
    unfold toInt
    split <;> omega
  unfold cacheUpdate Succeeds
  cases iuChunkEncode lib env.scratch .aesSha1 buf compress with
  | none => simp
  | some enc =>
    dsimp only
    by_cases hlen : P.chunksize < enc.out.length
    · simp [hlen]
    · rw [if_neg hlen]
      cases env.fault with
      | some f => simp
      | none =>
        dsimp only
        split
        next h => exact iff_of_false nofun fun hs => h (hint.mpr hs.2.2)
        next h => exact iff_of_true rfl ⟨⟨enc, rfl, not_lt.mp hlen⟩, rfl, hint.mp (not_not.mp h)⟩

/-- The law holds exactly if the keyring has the chunk, whenever the call succeeds, and no chunk
before it, that could not be read because the file was too short, can be decoded with zeros in the
place of what was missing, whenever the call writes anything. -/
theorem putGet_iff (hchunk : chunk < P.chunks)
    (hcompress : iuChunkCompressIsEnabled P.requiredCompress (compressCode compress) = true)
    (hcodec : ∀ enc, iuChunkEncode lib env.scratch .aesSha1 buf compress = some enc →
      iuChunkDecode lib beyond .aesSha1 enc.compress enc.out enc.key P.chunksize = .ok buf) :
    PutGetLaw P lib compress beyond env st chunk buf ↔
      (Succeeds P lib compress env buf → toInt chunk ∈ st.keys) ∧
        (Writes P lib compress env buf → ∀ c < chunk, ¬ Revived P lib beyond st c) := by
  rw [← cacheUpdate_success_iff st chunk]
  have hchunk : chunk < 2 ^ 32 := hchunk.trans P.chunks_lt
  refine and_congr ⟨fun h hret => ?_, fun h st' hret st'' hcalls out hfault hreads => ?_⟩
    (other_iff hchunk)
  · by_contra hmem
    have hget := h _ (Prod.ext hret rfl) _ .refl ⟨none, false, false, [], fun _ => .error⟩ rfl rfl
    obtain ⟨row, -, hrow, -⟩ := cacheGet_ok hget
    rw [lookup_of_not_mem hmem] at hrow
    cases hrow
  · obtain ⟨enc, henc, hstored⟩ := stored_cacheUpdate hret (h (congrArg Prod.fst hret))
      fun enc henc => out_length_ne_zero (hcodec enc henc)
    exact (hstored.calls hchunk hcalls).get hfault hreads (row_valid henc hcompress)
      (hcodec enc henc)

end law

/-- A header for one chunk, with the data 512 bytes after the start of the file. -/
def tinyHeader : List UInt8 :=
  [0x51, 0x52, 0x80, 0x38, 0, 0, 0, 1, 0, 0, 0, 1, 0, 0, 0, 0, 0, 0, 0, 0, 1, 0, 0, 0]

/-- What `cache_init` makes of it. -/
def tinyStore (keys : Keyring) : Store := ⟨keys, ∅, tinyHeader, 512, 0⟩

def quietEnv : UpdateEnv := ⟨⟨1, Nat.one_pos, fun _ => 0⟩, 0, none⟩

theorem zeroChunk_length : zeroChunk.length = 512 := length_replicate

theorem zeroChunk_roundTrips : RoundTrips plainLib quietEnv.scratch 0 .none zeroChunk := by
  refine roundTrips_stored nofun ?_ ?_ rfl <;> rw [zeroChunk_length]
  · exact Nat.zero_lt_succ 511

theorem codec_zero {enc : Encoded}
    (henc : iuChunkEncode plainLib quietEnv.scratch .aesSha1 zeroChunk .none = some enc) :
    iuChunkDecode plainLib 0 .aesSha1 enc.compress enc.out enc.key tinyParcel.chunksize
      = .ok zeroChunk := by
  obtain ⟨enc', henc', -, hdec⟩ := zeroChunk_roundTrips
  cases henc'.symm.trans henc
  rw [zeroChunk_length] at hdec
  exact hdec

theorem succeeds_zero {P : Parcel} (h : P.chunksize = 512) :
    Succeeds P plainLib .none quietEnv zeroChunk := by
  obtain ⟨enc, henc, hlen, -⟩ := zeroChunk_roundTrips
  rw [zeroChunk_length] at hlen
  exact ⟨⟨enc, henc, h ▸ hlen⟩, rfl, by omega⟩

/-- With an empty keyring `cache_update` succeeds, and no `cache_get` after it does. -/
theorem put_lost :
    cacheInit tinyParcel ∅ ∅ tinyHeader = .ok (tinyStore ∅) ∧
      (∀ enc, iuChunkEncode plainLib quietEnv.scratch .aesSha1 zeroChunk .none = some enc →
        iuChunkDecode plainLib 0 .aesSha1 enc.compress enc.out enc.key tinyParcel.chunksize
          = .ok zeroChunk) ∧
      (cacheUpdate tinyParcel plainLib .none quietEnv (tinyStore ∅) 0 zeroChunk).1 = .success ∧
      ∀ out b, cacheGet tinyParcel plainLib 0 out
        (cacheUpdate tinyParcel plainLib .none quietEnv (tinyStore ∅) 0 zeroChunk).2 0 ≠ .ok b := by
  refine ⟨rfl, fun _ => codec_zero, (cacheUpdate_success_iff _ 0).mpr (succeeds_zero rfl),
    fun out b hget => ?_⟩
  obtain ⟨row, -, hrow, -⟩ := cacheGet_ok hget
  rw [lookup_of_not_mem (AList.notMem_empty _)] at hrow
  cases hrow

/-- A parcel with two chunks of 512 bytes. -/
def twoParcel : Parcel := tinyParcel.withChunks 2 Fuse.tinyParcel.chunks_lt

/-- Both chunks are zeros. -/
def twoKeys : Keyring := AList.insert 0 zeroRow (AList.insert 1 zeroRow ∅)

/-- The local cache has the first of them. -/
def halfStore : Store := { fullStore with keys := twoKeys }

/-- With a row for the second chunk, and a file that is long enough for the first, the law holds. -/
theorem putGet_second :
    (cacheUpdate twoParcel plainLib .none quietEnv halfStore 1 zeroChunk).1 = .success ∧
      PutGetLaw twoParcel plainLib .none 0 quietEnv halfStore 1 zeroChunk := by
  refine ⟨(cacheUpdate_success_iff _ 1).mpr (succeeds_zero rfl), ?_⟩
  refine (putGet_iff (P := twoParcel) (by decide) rfl fun _ => codec_zero).mpr
    ⟨fun _ => ?_, fun _ c hc => ?_⟩
  · exact (AList.mem_insert _).mpr (.inr ((AList.mem_insert _).mpr (.inl rfl)))
  · obtain rfl : c = 0 := by omega
    rintro ⟨-, -, -, -, hshort, -⟩
    have hfile : halfStore.file.length = 1024 := length_replicate
    have hlength : halfStore.length 0 = 512 := by decide
    rw [hfile, hlength] at hshort
    exact absurd hshort (by decide)

end OpenIsr.Cache
