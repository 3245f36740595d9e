import OpenIsr.Cache.PutGet
import OpenIsr.Crypto.Pkcs5

/-!
# A cache_update that fails

`cache_update` overwrites the slot of the chunk and then changes the two tables, in one
transaction. When it fails the transaction is rolled back, so that the tables are as before, and
the slot is not: `file_failedUpdate` says what is in it.

So the chunk can still be read if nothing has been written, or the bytes that were there
(`failed_update_iff`). Other bytes are decrypted to something else (`decrypted?_inj`), and unless
SHA-1 has a collision there the check of the key finds out.
-/

namespace OpenIsr.Cache

open Base Crypto Util List

variable {P : Parcel} {lib : Lib} {beyond : UInt8} {compress : ChunkCompress} {env : UpdateEnv}
  {st : Store} {chunk n : Nat} {buf data inp key : List UInt8} {enc : Encoded} {out : Outside}
  {row : KeyRow}

/-- The number of bytes of the slot that a call that fails has overwritten. An attempt that ends
because the database is busy has written all of them. -/
def UpdateEnv.overwritten (P : Parcel) (env : UpdateEnv) : Nat :=
  if env.retries = 0 then env.last P else P.chunksize

/-- What a call that fails has put into the slot. It is nothing if the new data can not be encoded,
or takes more than a chunk. -/
def overwriting (P : Parcel) (lib : Lib) (compress : ChunkCompress) (env : UpdateEnv)
    (buf : List UInt8) : List UInt8 :=
  match iuChunkEncode lib env.scratch .aesSha1 buf compress with
  | some enc =>
    if enc.out.length ≤ P.chunksize then (slotData P enc.out).take (env.overwritten P) else []
  | none => []

/-- What `cache_get` reads after `new` has been put into the slot: the new bytes, and the old ones
behind them. -/
def leftInSlot (P : Parcel) (st : Store) (chunk : Nat) (new : List UInt8) : List UInt8 :=
  (new ++ (st.file.drop (cacheChunkToOffset P st chunk)).drop new.length).take (st.length chunk)

/-- What the slot is decrypted to with `new` in it does not have the digest of what it is decrypted
to without it, unless it is the same. -/
def NoCollision (P : Parcel) (lib : Lib) (st : Store) (chunk : Nat) (new : List UInt8) : Prop :=
  ∀ row d d', st.keys.lookup (toInt chunk) = some row →
    decrypted? lib (compressOfCode (columnUnsigned row.compression)) (leftInSlot P st chunk [])
      row.key P.chunksize = some d →
    decrypted? lib (compressOfCode (columnUnsigned row.compression)) (leftInSlot P st chunk new)
      row.key P.chunksize = some d' →
    iuChunkCryptoDigest d = iuChunkCryptoDigest d' → d = d'

/-! ## What is in the slot -/

theorem last_le (P : Parcel) (env : UpdateEnv) : env.last P ≤ P.chunksize := by
  unfold UpdateEnv.last
  cases env.fault with
  | none => exact Nat.le_refl _
  | some f => cases f with
    | begin => exact Nat.zero_le _
    | write n =>
      show min n (P.chunksize - 1) ≤ P.chunksize
      omega
    | statement => exact Nat.le_refl _

theorem drop_write (st : Store) (chunk : Nat) (hlen : buf.length ≤ P.chunksize)
    (hn : n ≤ P.chunksize) :
    (st.write P chunk buf n).file.drop (cacheChunkToOffset P st chunk)
      = (slotData P buf).take n ++ (st.file.drop (cacheChunkToOffset P st chunk)).drop n := by
  have htake : ((slotData P buf).take n).length = n := by
    rw [length_take, slotData_length hlen, Nat.min_eq_left hn]
  by_cases hzero : n = 0
  · subst hzero
    rw [Store.write, take_zero, pwrite_nil, drop_zero, nil_append]
  · have hnil : (slotData P buf).take n ≠ [] := by
      intro h
      rw [h] at htake
      exact hzero htake.symm
    rw [Store.write, drop_pwrite hnil, htake, drop_drop]

theorem drop_iterate (st : Store) (chunk : Nat) (hlen : buf.length ≤ P.chunksize) {k : Nat}
    (hk : k ≠ 0) :
    ((fun st => Store.write P st chunk buf P.chunksize)^[k] st).file.drop
        (cacheChunkToOffset P st chunk)
      = slotData P buf ++ (st.file.drop (cacheChunkToOffset P st chunk)).drop P.chunksize := by
  have hslot := slotData_length hlen
  have hall : (slotData P buf).take P.chunksize = slotData P buf :=
    take_of_length_le hslot.le
  induction k with
  | zero => exact absurd rfl hk
  | succ k ih =>
    have hup := (Updated.refl P st chunk).iterate hlen P.chunksize k
    rw [Function.iterate_succ_apply', ← hup.toOffset chunk, drop_write _ chunk hlen (le_refl _),
      hall, hup.toOffset chunk]
    by_cases hzero : k = 0
    · subst hzero
      rfl
    · rw [ih hzero, drop_left' hslot]

theorem file_failedUpdate (env : UpdateEnv) (st : Store) (chunk : Nat)
    (hlen : buf.length ≤ P.chunksize) :
    (((fun st => Store.write P st chunk buf P.chunksize)^[env.retries] st).write P chunk buf
        (env.last P)).file.drop (cacheChunkToOffset P st chunk)
      = (slotData P buf).take (env.overwritten P) ++
        (st.file.drop (cacheChunkToOffset P st chunk)).drop (env.overwritten P) := by
  have hup := (Updated.refl P st chunk).iterate hlen P.chunksize env.retries
  rw [← hup.toOffset chunk, drop_write _ chunk hlen (last_le P env), hup.toOffset chunk]
  unfold UpdateEnv.overwritten
  by_cases hretries : env.retries = 0
  · rw [if_pos hretries, hretries, Function.iterate_zero_apply]
  · have hslot := slotData_length hlen
    -- the last attempt writes the same bytes once more
    rw [if_neg hretries, drop_iterate st chunk hlen hretries,
      drop_append_of_le_length (by rw [hslot]; exact last_le P env), ← append_assoc,
      take_append_drop, take_of_length_le hslot.le]

/-! ## Reading it -/

/-- The chunk is in the local cache, as far as the tables and the length of the file say. -/
structure Held (P : Parcel) (st : Store) (chunk : Nat) (row : KeyRow) : Prop where
  keys : st.keys.lookup (toInt chunk) = some row
  valid : row.valid P = true
  pos : st.length chunk ≠ 0
  le : st.length chunk ≤ P.chunksize
  int : (st.length chunk : Int) = toInt (st.length chunk)
  there : st.length chunk ≤ (st.file.drop (cacheChunkToOffset P st chunk)).length

theorem Held.get (h : Held P st chunk row) (hfault : out.fault = none)
    (hreads : out.readFails = false) :
    cacheGet P lib beyond out st chunk = decodeChunk P lib beyond row
      ((st.file.drop (cacheChunkToOffset P st chunk)).take (st.length chunk)) := by
  have hfull : (pread st.file (cacheChunkToOffset P st chunk) (st.length chunk)).length
      = st.length chunk := by
    rw [pread, length_take, Nat.min_eq_left h.there]
  rw [cacheGet_eq hfault h.keys h.valid, readChunk_local rfl h.pos, hreads, cacheReadChunk_eq h.le,
    hfull, if_neg (not_not.mpr h.int)]
  dsimp only
  rw [if_neg (not_lt.mpr h.le)]
  rfl

theorem cacheGet_reads (h : cacheGet P lib beyond out st chunk = .ok data) :
    out.fault = none ∧ ∃ row b, st.keys.lookup (toInt chunk) = some row ∧ row.valid P = true ∧
      readChunk P out st chunk row = .ok b := by
  unfold cacheGet at h
  split at h
  next => cases h
  next hkeys =>
    split at h
    next => cases h
    next row hrow =>
      split at h
      next => cases h
      next hvalid =>
        split at h
        next => cases h
        next hchunks =>
          split at h
          next b hread =>
            refine ⟨?_, row, b, hrow, by simpa using hvalid, hread⟩
            cases hf : out.fault with
            | none => rfl
            | some f => cases f with
              | keys => exact absurd hf hkeys
              | chunks => exact absurd hf hchunks
          next hne => exact absurd h (hne data)

theorem cacheReadChunk_ok {fails : Bool} {len : Nat} {b : List UInt8}
    (h : cacheReadChunk P st fails chunk len none = .ok b) :
    fails = false ∧
      ((pread st.file (cacheChunkToOffset P st chunk) len).length : Int) = toInt len := by
  unfold cacheReadChunk at h
  dsimp only at h
  split at h
  next => cases h
  next hreads =>
    split at h
    next => cases h
    split at h
    next => cases h
    next hlen => exact ⟨by simpa using hreads, not_not.mp hlen⟩

theorem held_of_get (hpos : st.length chunk ≠ 0)
    (hget : cacheGet P lib beyond out st chunk = .ok data) :
    out.fault = none ∧ out.readFails = false ∧ ∃ row, Held P st chunk row := by
  obtain ⟨hfault, row, b, hrow, hvalid, hread⟩ := cacheGet_reads hget
  rw [readChunk_local rfl hpos] at hread
  split at hread
  next b' hlocal =>
    split at hread
    next => cases hread
    next hle =>
      obtain ⟨hreads, hlen⟩ := cacheReadChunk_ok hlocal
      have hlt := st.length_lt chunk
      rw [pread_length] at hlen
      have hfull : min (st.length chunk) (st.file.length - cacheChunkToOffset P st chunk)
          = st.length chunk := by
        unfold toInt at hlen
        split at hlen <;> omega
      rw [hfull] at hlen
      refine ⟨hfault, hreads, row, hrow, hvalid, hpos, Nat.le_of_not_lt hle, hlen, ?_⟩
      rw [length_drop]
      omega
  next hne => exact absurd hread (hne b)

theorem chunks_iterate (st : Store) (chunk : Nat) (buf : List UInt8) (n k : Nat) :
    ((fun st => Store.write P st chunk buf n)^[k] st).chunks = st.chunks := by
  induction k with
  | zero => rfl
  | succ k ih => rw [Function.iterate_succ_apply', Store.write, ih]

theorem overwritten_le (P : Parcel) (env : UpdateEnv) : env.overwritten P ≤ P.chunksize := by
  unfold UpdateEnv.overwritten
  split
  next => exact last_le P env
  next => exact le_refl _

theorem get_failedUpdate {after : Outside} (hheld : Held P st chunk row)
    (hfails : (cacheUpdate P lib compress env st chunk buf).1 ≠ .success)
    (hfault : after.fault = none) (hreads : after.readFails = false) :
    cacheGet P lib beyond after (cacheUpdate P lib compress env st chunk buf).2 chunk
      = decodeChunk P lib beyond row
          (leftInSlot P st chunk (overwriting P lib compress env buf)) := by
  rcases cacheUpdate_cases P lib compress env st chunk buf with
    ⟨hno, heq⟩ | ⟨enc, st', henc, hlen, hst', heq | ⟨-, -, heq⟩⟩
  · have hnil : overwriting P lib compress env buf = [] := by
      unfold overwriting
      split
      next enc henc =>
        split
        next hlen =>
          have hnot : ¬ (env.retries ≠ 0 ∨ env.last P ≠ 0) := fun h => hno ⟨⟨enc, henc, hlen⟩, h⟩
          have hzero : env.overwritten P = 0 := by
            unfold UpdateEnv.overwritten
            split <;> omega
          rw [hzero, take_zero]
        next => rfl
      next => rfl
    rw [heq, hheld.get hfault hreads, hnil]
    rfl
  · have hfile := file_failedUpdate env st chunk hlen
    have hoff := (((Updated.refl P st chunk).iterate hlen P.chunksize env.retries).write hlen
      (env.last P)).toOffset chunk
    have hn := overwritten_le P env
    have hover : overwriting P lib compress env buf
        = (slotData P enc.out).take (env.overwritten P) := by
      rw [overwriting, henc]
      exact if_pos hlen
    rw [← hst'] at hfile hoff
    -- both tables are as before
    have hkeys : st'.keys = st.keys := by rw [hst', Store.write, keys_iterate]
    have hlength : st'.length chunk = st.length chunk := by
      rw [hst', Store.length, Store.length, Store.write, chunks_iterate]
    have hheld' : Held P st' chunk row := by
      refine ⟨hkeys ▸ hheld.keys, hheld.valid, hlength ▸ hheld.pos, hlength ▸ hheld.le,
        hlength ▸ hheld.int, ?_⟩
      have hthere := hheld.there
      rw [hoff, hlength, hfile, length_append, length_take, slotData_length hlen, length_drop]
      omega
    rw [heq, hheld'.get hfault hreads, hoff, hfile, hlength, leftInSlot, hover, length_take,
      slotData_length hlen, Nat.min_eq_left hn]
  · exact absurd (congrArg Prod.fst heq) hfails

/-! ## What is decrypted -/

theorem cbcEncrypt_of_process {aes : Aes} {cctx : CipherCtx} (hdir : cctx.encrypting = false)
    (hiv : cctx.iv.length = 16) (h : cipherProcess aes cctx inp = .ok data) :
    (cbcEncrypt aes cctx data).map Prod.fst = .ok inp := by
  by_cases h16 : inp.length % 16 = 0
  · obtain ⟨out, iv, hdec, -, -, henc⟩ := cbcDecrypt_spec aes cctx inp hiv h16
    rw [cipherProcess, hdir, if_neg Bool.false_ne_true, hdec] at h
    cases h
    rw [henc]
    rfl
  · rw [cipherProcess, hdir, if_neg Bool.false_ne_true, cbcDecrypt, if_pos h16] at h
    cases h

/-- Two strings that are decrypted to the same with one key are the same. -/
theorem decrypted?_inj {inp' : List UInt8} (hlt : inp.length < 2 ^ 32)
    (hlt' : inp'.length < 2 ^ 32) (h : decrypted? lib compress inp key n = some data)
    (h' : decrypted? lib compress inp' key n = some data) : inp = inp' := by
  unfold decrypted? at h h'
  cases hinit : cipherInit false (key.take 16) with
  | error e =>
    rw [hinit] at h
    cases h
  | ok cctx =>
    obtain ⟨hdir, hiv⟩ := cipherInit_ok hinit
    have hok : ∀ x : Except Result (List UInt8), x.toOption = some data → x = .ok data := by
      rintro (e | a) hx
      · cases hx
      · exact congrArg _ (Option.some.inj hx)
    rw [hinit] at h h'
    replace h := hok _ h
    replace h' := hok _ h'
    by_cases hnone : compress = .none
    · rw [if_pos hnone] at h h'
      exact Except.ok.inj ((cbcEncrypt_of_process hdir hiv h).symm.trans
        (cbcEncrypt_of_process hdir hiv h'))
    · rw [if_neg hnone] at h h'
      exact Except.ok.inj ((cipherFinal_of_decrypt lib.aes cctx hdir hiv hlt h le_rfl).symm.trans
        (cipherFinal_of_decrypt lib.aes cctx hdir hiv hlt' h' le_rfl))

theorem decodeChunk_ok (h : decodeChunk P lib beyond row inp = .ok data) :
    ∃ d, decrypted? lib (compressOfCode (columnUnsigned row.compression)) inp row.key P.chunksize
      = some d ∧ iuChunkCryptoDigest d = row.key := by
  unfold decodeChunk at h
  split at h
  next => cases h
  next => cases h
  next out hout =>
    obtain ⟨d, hd, hdigest, -⟩ := iuChunkDecode_ok hout
    exact ⟨d, hd, hdigest⟩

theorem leftInSlot_eq_iff (P : Parcel) (st : Store) (chunk : Nat) (new : List UInt8) :
    leftInSlot P st chunk new = leftInSlot P st chunk [] ↔
      new.take (st.length chunk) <+: st.file.drop (cacheChunkToOffset P st chunk) := by
  unfold leftInSlot
  generalize st.file.drop (cacheChunkToOffset P st chunk) = old
  rw [nil_append, length_nil, drop_zero]
  rcases Nat.le_total (st.length chunk) new.length with hle | hle
  · rw [prefix_iff_eq_take, length_take, Nat.min_eq_left hle, take_append_of_le_length hle]
  · rw [take_of_length_le hle]
    constructor
    · intro h
      have htake := congrArg (List.take new.length) h
      rw [take_take, take_take, Nat.min_eq_left hle, take_left] at htake
      exact prefix_iff_eq_take.mpr htake
    · rintro ⟨t, rfl⟩
      rw [drop_left]

/-- A chunk that could be read from the local cache before a call of `cache_update` that fails can
be read afterwards, and is the same, iff the call has put nothing into the slot or the bytes that
were there. -/
theorem failed_update_iff (P : Parcel) (lib : Lib) (beyond : UInt8) (compress : ChunkCompress)
    (env : UpdateEnv) (st : Store) (chunk : Nat) (buf data : List UInt8) (before after : Outside)
    (hlocal : st.length chunk ≠ 0) (hbefore : cacheGet P lib beyond before st chunk = .ok data)
    (hfails : (cacheUpdate P lib compress env st chunk buf).1 ≠ .success)
    (hfault : after.fault = none) (hreads : after.readFails = false)
    (hsha : NoCollision P lib st chunk (overwriting P lib compress env buf)) :
    cacheGet P lib beyond after (cacheUpdate P lib compress env st chunk buf).2 chunk = .ok data ↔
      (overwriting P lib compress env buf).take (st.length chunk) <+:
        st.file.drop (cacheChunkToOffset P st chunk) := by
  obtain ⟨hfault₀, hreads₀, row, hheld⟩ := held_of_get hlocal hbefore
  rw [hheld.get hfault₀ hreads₀] at hbefore
  rw [get_failedUpdate hheld hfails hfault hreads, ← leftInSlot_eq_iff]
  constructor
  · intro hafter
    obtain ⟨d, hd, hdigest⟩ := decodeChunk_ok hbefore
    obtain ⟨d', hd', hdigest'⟩ := decodeChunk_ok hafter
    obtain rfl := hsha row d d' hheld.keys hd hd' (hdigest.trans hdigest'.symm)
    have hlt : ∀ new, (leftInSlot P st chunk new).length < 2 ^ 32 := fun new =>
      lt_of_le_of_lt (length_take_le ..) (st.length_lt chunk)
    exact decrypted?_inj (hlt _) (hlt _) hd' hd
  · intro heq
    rw [heq]
    exact hbefore

/-! ## A chunk of zeros and a chunk of ones -/

def onesChunk : List UInt8 := replicate 512 1

/-- The store after the chunk of zeros has been put. -/
def zeroPut : Store :=
  (cacheUpdate tinyParcel plainLib .none quietEnv (tinyStore zeroKeys) 0 zeroChunk).2

/-- An attempt with a fault. -/
def faultEnv (f : Fault) : UpdateEnv := { quietEnv with fault := some f }

theorem length_of_decode_none {out : List UInt8}
    (h : iuChunkDecode lib beyond .aesSha1 .none inp key n = .ok out) : inp.length = n := by
  by_contra hne
  simp [iuChunkDecode, hne] at h

theorem compress_of_encode_none {s : Scratch}
    (h : iuChunkEncode lib s .aesSha1 buf .none = some enc) : enc.compress = .none := by
  obtain ⟨-, -, hcomp⟩ := encode_spec h
  exact hcomp.elim id id

theorem zeroPut_spec :
    zeroPut.length 0 = 512 ∧ cacheGet tinyParcel plainLib 0 zeroServer zeroPut 0 = .ok zeroChunk ∧
      ∃ row, Held tinyParcel zeroPut 0 row ∧ row.key.length = hashlen ∧
        compressOfCode (columnUnsigned row.compression) = .none := by
  have hmem : toInt 0 ∈ (tinyStore zeroKeys).keys := (AList.mem_insert _).mpr (.inl rfl)
  have hput : cacheUpdate tinyParcel plainLib .none quietEnv (tinyStore zeroKeys) 0 zeroChunk
      = (.success, zeroPut) := by
    rw [zeroPut, ← (cacheUpdate_success_iff _ 0).mpr (succeeds_zero (P := tinyParcel) rfl)]
  obtain ⟨enc, henc, hstored⟩ := stored_cacheUpdate hput hmem
    fun enc henc => out_length_ne_zero (codec_zero henc)
  have hcomp := compress_of_encode_none henc
  have hout : enc.out.length = 512 := length_of_decode_none (hcomp ▸ codec_zero henc)
  have hlen : zeroPut.length 0 = 512 := by
    rw [Store.length, hstored.chunks, hout]
    rfl
  have hget : cacheGet tinyParcel plainLib 0 zeroServer zeroPut 0 = .ok zeroChunk :=
    hstored.get rfl rfl (row_valid henc rfl) (codec_zero henc)
  obtain ⟨-, -, row, hheld⟩ := held_of_get (by rw [hlen]; decide) hget
  cases hstored.keys.symm.trans hheld.keys
  refine ⟨hlen, hget, _, hheld, (encode_spec henc).2.1, ?_⟩
  rw [Encoded.row, columnUnsigned_compressCode, compressOfCode_compressCode, hcomp]

theorem cbcDecryptBlocks_plain (key key' : List UInt8) (n : Nat) : ∀ iv inp : List UInt8,
    cbcDecryptBlocks plainLib.aes key n iv inp = cbcDecryptBlocks plainLib.aes key' n iv inp := by
  induction n with
  | zero => exact fun _ _ => rfl
  | succ n ih =>
    intro iv inp
    simp only [cbcDecryptBlocks, ih]
    rfl

theorem decrypted?_plain {key' : List UInt8} (hkey : key.length = hashlen)
    (hkey' : key'.length = hashlen) :
    decrypted? plainLib .none inp key n = decrypted? plainLib .none inp key' n := by
  have hinit : ∀ k : List UInt8, k.length = hashlen →
      cipherInit false (k.take 16) = .ok ⟨k.take 16, zeroIv, false⟩ := by
    intro k hk
    unfold cipherInit
    rw [length_take, hk]
    rfl
  simp only [decrypted?, hinit key hkey, hinit key' hkey', if_true, cipherProcess, cbcDecrypt,
    Bool.false_eq_true, if_false, cbcDecryptBlocks_plain (key.take 16) (key'.take 16)]
  split <;> rfl

/-- The database fails after the ones have been written over the zeros, and then what is left is
decrypted to ones, whatever the key. -/
theorem failed_update_loses :
    cacheInit tinyParcel zeroKeys ∅ tinyHeader = .ok (tinyStore zeroKeys) ∧
      zeroPut.length 0 ≠ 0 ∧ cacheGet tinyParcel plainLib 0 zeroServer zeroPut 0 = .ok zeroChunk ∧
      (cacheUpdate tinyParcel plainLib .none (faultEnv .statement) zeroPut 0 onesChunk).1
        = .ioerr ∧
      cacheGet tinyParcel plainLib 0 zeroServer
        (cacheUpdate tinyParcel plainLib .none (faultEnv .statement) zeroPut 0 onesChunk).2 0
        ≠ .ok zeroChunk := by
  obtain ⟨hlen₀, hget, row, hheld, hkey, hcode⟩ := zeroPut_spec
  have hones : onesChunk.length = 512 := length_replicate
  obtain ⟨enc, henc, hlen, hdec⟩ :
      RoundTrips plainLib (faultEnv .statement).scratch 0 .none onesChunk :=
    roundTrips_stored nofun (Nat.lt_of_lt_of_eq (by decide) hones.symm) (by rw [hones]) rfl
  rw [hones, compress_of_encode_none henc] at hdec
  have hout : enc.out.length = 512 := length_of_decode_none hdec
  have hfits : enc.out.length ≤ tinyParcel.chunksize := le_of_eq hout
  have hfails : (cacheUpdate tinyParcel plainLib .none (faultEnv .statement) zeroPut 0 onesChunk).1
      = .ioerr := by
    unfold cacheUpdate
    rw [henc]
    exact congrArg Prod.fst (if_neg (not_lt.mpr hfits))
  refine ⟨rfl, by rw [hlen₀]; decide, hget, hfails, fun hafter => ?_⟩
  rw [get_failedUpdate hheld (by rw [hfails]; exact nofun) rfl rfl] at hafter
  -- the whole slot has been overwritten
  have hover : overwriting tinyParcel plainLib .none (faultEnv .statement) onesChunk = enc.out := by
    have hslot : slotData tinyParcel enc.out = enc.out := by
      rw [slotData, hout]
      exact append_nil _
    rw [overwriting, henc]
    refine (if_pos hfits).trans ?_
    rw [hslot]
    exact take_of_length_le hout.le
  have hleft : leftInSlot tinyParcel zeroPut 0 enc.out = enc.out := by
    rw [leftInSlot, hlen₀, take_left' hout]
  rw [hover, hleft] at hafter
  unfold decodeChunk at hafter
  rw [hcode] at hafter
  split at hafter
  next => cases hafter
  next => cases hafter
  next data hdata =>
    obtain rfl := Got.ok.inj hafter
    obtain ⟨d, hd, -, -, hplain⟩ := iuChunkDecode_ok hdata
    obtain ⟨d', hd', -, -, hplain'⟩ := iuChunkDecode_ok hdec
    rw [if_pos rfl] at hplain hplain'
    rw [decrypted?_plain hkey (encode_spec henc).2.1] at hd
    have heq : zeroChunk = onesChunk := by
      rw [hplain, hplain']
      exact Option.some.inj (hd.symm.trans hd')
    exact absurd (congrArg (fun l => l.headD 0) heq) (by decide)

/-- The database fails before anything has been written. -/
theorem failed_update_kept :
    cacheGet tinyParcel plainLib 0 zeroServer
      (cacheUpdate tinyParcel plainLib .none (faultEnv .begin) zeroPut 0 onesChunk).2 0
      = .ok zeroChunk := by
  obtain ⟨hlen₀, hget, -⟩ := zeroPut_spec
  have hfails : (cacheUpdate tinyParcel plainLib .none (faultEnv .begin) zeroPut 0 onesChunk).1
      ≠ .success := by
    rcases cacheUpdate_cases tinyParcel plainLib .none (faultEnv .begin) zeroPut 0 onesChunk with
      ⟨-, heq⟩ | ⟨enc, st', -, -, -, heq | ⟨hlast, -, -⟩⟩
    · rw [heq]
      exact nofun
    · rw [heq]
      exact nofun
    · exact absurd hlast (by decide)
  have hnil : overwriting tinyParcel plainLib .none (faultEnv .begin) onesChunk = [] := by
    unfold overwriting
    split
    next => split <;> rfl
    next => rfl
  refine (failed_update_iff tinyParcel plainLib 0 .none (faultEnv .begin) zeroPut 0 onesChunk
    zeroChunk zeroServer zeroServer (by rw [hlen₀]; decide) hget hfails rfl rfl ?_).mpr ?_
  · rw [hnil]
    exact fun _ _ _ _ hd hd' _ => Option.some.inj (hd.symm.trans hd')
  · rw [hnil, take_nil]
    exact nil_prefix

end OpenIsr.Cache
