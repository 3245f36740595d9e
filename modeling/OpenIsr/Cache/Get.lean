import OpenIsr.Cache.Store

/-!
# Getting a chunk (parcelkeeper/cache.c, hoard.c, transport.c)

`cache_get` looks up the keyring and then takes the ciphertext from the local cache, from the
hoard cache or from the server, in that order, and decodes it. The three ways make different
checks: the hoard cache and the server have to give data with the right tag, the local cache
does not. What the hoard cache and the server answer is up to other processes and is in
`Outside`, as is every failure. Left out are messages, and the waiting for a busy database.

`get_agree`: the keyring row determines what a successful call returns. The one check that
this rests on is that of the key, which is made between decryption and decompression.
-/

namespace OpenIsr.Cache

open Base Crypto Util

/-! ## The hoard cache -/

/-- An integer column that is fetched into an `int`. -/
def columnInt (i : Int) : Int := toInt (columnUnsigned i)

/-- What one iteration of the loop in `hoard_get_chunk` finds: the rows for the tag in the slot
cache and in the table of chunks, and the hoard file. -/
structure HoardTry where
  /-- A statement or the `commit` fails, and not because the database is busy. -/
  fault : Bool
  /-- Offset and length of the row with the tag. -/
  slot : Option (Int × Int)
  chunk : Option (Int × Int)
  file : List UInt8
  /-- `pread` fails. -/
  readFails : Bool

/-- `_hoard_read_chunk` with a tag of the right length. -/
def hoardReadChunk (P : Parcel) (t : HoardTry) (offset length : Int) (tag : List UInt8) :
    Except PkErr (List UInt8) :=
  if offset < 0 ∨ length ≤ 0 ∨ (P.chunksize : Int) < length then .error .badformat
  else
    let buf := pread t.file (offset.toNat <<< 9) length.toNat
    if t.readFails ∨ (buf.length : Int) ≠ length then .error .ioerr
    else if tag ≠ iuChunkCryptoDigest buf then .error .tagfail
    else .ok buf

/-- `hoard_get_chunk`: a chunk that can not be read is invalidated, and the loop goes on with
what it finds then. `none` if the iterations given do not come to an end. -/
def hoardGetChunk (P : Parcel) (tag : List UInt8) : List HoardTry →
    Option (Except PkErr (List UInt8))
  | [] => none
  | t :: ts =>
    if t.fault then some (.error .ioerr)
    else
      match t.slot.or t.chunk with
      | none => some (.error .notfound)
      | some (offset, length) =>
        match hoardReadChunk P t (columnInt offset) (columnInt length) tag with
        | .ok buf => some (.ok buf)
        | .error _ => hoardGetChunk P tag ts

/-! ## The server -/

/-- How `curl_easy_perform` ends. -/
inductive Response
  | ok (body : List UInt8)
  /-- An error for which `transport_get` returns `PK_NETFAIL`. -/
  | netfail
  | error
  deriving DecidableEq, Repr

/-- `transport_get`: `curl_callback` stops a transfer that is longer than a chunk. -/
def transportGet (P : Parcel) : Response → Except PkErr (List UInt8)
  | .ok body => if P.chunksize < body.length then .error .ioerr else .ok body
  | .netfail => .error .netfail
  | .error => .error .ioerr

/-- The loop of `transport_fetch_chunk`: `TRANSPORT_TRIES` attempts at most. -/
def transportTries (P : Parcel) (responses : Nat → Response) : Nat → Nat → Except PkErr (List UInt8)
  | 0, _ => .error .netfail
  | n + 1, i =>
    match transportGet P (responses i) with
    | .error .netfail => transportTries P responses n (i + 1)
    | r => r

/-- `transport_fetch_chunk`, but for the `hoard_put_chunk` at its end. -/
def transportFetchChunk (P : Parcel) (responses : Nat → Response) (tag : List UInt8) :
    Except PkErr (List UInt8) :=
  match transportTries P responses 5 0 with
  | .error e => .error e
  | .ok buf => if tag ≠ iuChunkCryptoDigest buf then .error .tagfail else .ok buf

/-! ## cache_get -/

/-- Where the transaction of `cache_get` fails. -/
inductive GetFault
  /-- `begin` or the query of the keyring. -/
  | keys
  /-- The query of the index or the `commit`. -/
  | chunks
  deriving DecidableEq, Repr

/-- What `cache_get` meets outside the local cache. -/
structure Outside where
  fault : Option GetFault
  /-- `pread` of the cache file fails. -/
  readFails : Bool
  /-- `state->conf->hoard_dir != NULL`. -/
  hoardDir : Bool
  hoard : List HoardTry
  server : Nat → Response

/-- The ciphertext from the hoard cache or from the server. -/
def fetchChunk (P : Parcel) (out : Outside) (tag : List UInt8) : Got :=
  let fromServer := match transportFetchChunk P out.server tag with
    | .ok buf => .ok buf
    | .error e => .err e
  if !out.hoardDir then fromServer
  else
    match hoardGetChunk P tag out.hoard with
    | none => .waiting
    | some (.ok buf) => .ok buf
    | some (.error _) => fromServer

/-- The checks that `cache_get` makes on the row of the keyring. -/
def KeyRow.valid (P : Parcel) (row : KeyRow) : Bool :=
  row.tag.length == hashlen && row.key.length == hashlen &&
    iuChunkCompressIsEnabled P.requiredCompress (columnUnsigned row.compression)

/-- The ciphertext: the local cache has the chunk if the index has a length for it. -/
def readChunk (P : Parcel) (out : Outside) (st : Store) (chunk : Nat) (row : KeyRow) : Got :=
  let len := ((st.chunks.lookup (toInt chunk)).map columnUnsigned).getD 0
  if len ≠ 0 then
    match cacheReadChunk P st out.readFails chunk len none with
    | .ok buf => if P.chunksize < len then .err .invalid else .ok buf
    | r => r
  else fetchChunk P out row.tag

/-- `iu_chunk_decode` as `cache_get` uses it. -/
def decodeChunk (P : Parcel) (lib : Lib) (beyond : UInt8) (row : KeyRow) (buf : List UInt8) : Got :=
  match iuChunkDecode lib beyond .aesSha1 (compressOfCode (columnUnsigned row.compression)) buf
      row.key P.chunksize with
  | .abort => .crash
  | .failed => .err .ioerr
  | .ok data => .ok data

/-- `cache_get`. -/
def cacheGet (P : Parcel) (lib : Lib) (beyond : UInt8) (out : Outside) (st : Store) (chunk : Nat) :
    Got :=
  if out.fault = some .keys then .err .ioerr
  else
    match st.keys.lookup (toInt chunk) with
    | none => .err .ioerr
    | some row =>
      if !row.valid P then .err .invalid
      else if out.fault = some .chunks then .err .ioerr
      else
        match readChunk P out st chunk row with
        | .ok buf => decodeChunk P lib beyond row buf
        | r => r

/-! ## What a successful call returns -/

/-- What `iu_chunk_decode` decrypts, before it checks the key. -/
def decrypted? (lib : Lib) (compress : ChunkCompress) (inp key : List UInt8) (outLen : Nat) :
    Option (List UInt8) :=
  match cipherInit false (key.take 16) with
  | .error _ => none
  | .ok cctx =>
    (if compress = .none then cipherProcess lib.aes cctx inp
      else cipherFinal lib.aes cctx inp outLen).toOption

variable {key : List UInt8}

theorem cipherInit_ok {cctx : CipherCtx} (h : cipherInit false key = .ok cctx) :
    cctx.encrypting = false ∧ cctx.iv.length = 16 := by
  unfold cipherInit at h
  split at h
  next => cases h
  cases h
  exact ⟨rfl, rfl⟩

theorem iuChunkDecode_ok {lib : Lib} {beyond : UInt8} {crypto : ChunkCrypto}
    {compress : ChunkCompress} {inp out : List UInt8} {outLen : Nat}
    (h : iuChunkDecode lib beyond crypto compress inp key outLen = .ok out) :
    ∃ data, decrypted? lib compress inp key outLen = some data ∧
      iuChunkCryptoDigest data = key ∧ out.length = outLen ∧
      (if compress = .none then out = data
        else decompressFinal lib beyond compress data outLen = some (.ok out)) := by
  unfold iuChunkDecode at h
  unfold decrypted?
  split at h
  next => cases h
  split at h
  next => cases h
  rename_i hlen
  cases hinit : cipherInit false (key.take 16) with
  | error e => rw [hinit] at h; cases h
  | ok cctx =>
    rw [hinit] at h
    dsimp only at h ⊢
    have hproc : compress = .none → ∀ data, (if compress = .none then cipherProcess lib.aes cctx inp
        else cipherFinal lib.aes cctx inp outLen) = .ok data → data.length = outLen := by
      intro hnone data hdata
      obtain ⟨hdir, hiv⟩ := cipherInit_ok hinit
      rw [if_pos hnone] at hdata
      rw [cipherProcess_length lib.aes hdir hiv hdata]
      exact not_not.mp fun hne => hlen (.inl ⟨hnone, hne⟩)
    generalize (if compress = .none then cipherProcess lib.aes cctx inp
      else cipherFinal lib.aes cctx inp outLen) = ret at h hproc ⊢
    cases ret with
    | error e => cases h
    | ok data =>
      dsimp only at h
      split at h
      next => cases h
      next hkey =>
        refine ⟨data, rfl, not_not.mp hkey, ?_⟩
        split at h
        next hnone =>
          obtain rfl := Decoded.ok.inj h
          rw [if_pos hnone]
          exact ⟨hproc hnone _ rfl, rfl⟩
        next hnone =>
          rw [if_neg hnone]
          split at h
          next => cases h
          next => cases h
          next out' hout =>
            split at h
            next => cases h
            next hout' =>
              obtain rfl := Decoded.ok.inj h
              exact ⟨not_not.mp hout', hout⟩

/-- What a call of `cache_get` takes the digest of to check it against the key. -/
def Hashed (P : Parcel) (lib : Lib) (out : Outside) (st : Store) (chunk : Nat)
    (data : List UInt8) : Prop :=
  ∃ row buf, st.keys.lookup (toInt chunk) = some row ∧ readChunk P out st chunk row = .ok buf ∧
    decrypted? lib (compressOfCode (columnUnsigned row.compression)) buf row.key P.chunksize
      = some data

variable {P : Parcel} {lib : Lib} {beyond : UInt8} {st : Store} {out : Outside} {chunk : Nat}
  {row : KeyRow} {buf data : List UInt8}

theorem cacheGet_ok {b : List UInt8} (h : cacheGet P lib beyond out st chunk = .ok b) :
    ∃ row data, st.keys.lookup (toInt chunk) = some row ∧ Hashed P lib out st chunk data ∧
      iuChunkCryptoDigest data = row.key ∧ b.length = P.chunksize ∧
      (if compressOfCode (columnUnsigned row.compression) = .none then b = data
        else decompressFinal lib beyond (compressOfCode (columnUnsigned row.compression)) data
          P.chunksize = some (.ok b)) := by
  unfold cacheGet at h
  split at h
  next => cases h
  split at h
  next => cases h
  next row hrow =>
    split at h
    next => cases h
    split at h
    next => cases h
    split at h
    next buf hbuf =>
      unfold decodeChunk at h
      split at h
      next => cases h
      next => cases h
      next data hdec =>
        obtain rfl := Got.ok.inj h
        obtain ⟨d, hd, hkey, hout⟩ := iuChunkDecode_ok hdec
        exact ⟨row, d, hrow, ⟨row, buf, hrow, hbuf, hd⟩, hkey, hout⟩
    next hne => exact absurd h (hne b)

/-- Two successful calls of `cache_get` for a chunk with the same row in the keyring return the
same chunk, whatever is in the local cache and in the hoard cache and whatever the server sends, as
long as what the two hash is no collision. -/
theorem get_agree {out₁ out₂ : Outside} {st₁ st₂ : Store} {chunk : Nat} {b₁ b₂ : List UInt8}
    (hrow : st₁.keys.lookup (toInt chunk) = st₂.keys.lookup (toInt chunk))
    (h₁ : cacheGet P lib beyond out₁ st₁ chunk = .ok b₁)
    (h₂ : cacheGet P lib beyond out₂ st₂ chunk = .ok b₂)
    (hsha : ∀ d₁ d₂, Hashed P lib out₁ st₁ chunk d₁ → Hashed P lib out₂ st₂ chunk d₂ →
      Sha1.Standard.sha1 d₁ = Sha1.Standard.sha1 d₂ → d₁ = d₂) :
    b₁ = b₂ ∧ b₁.length = P.chunksize := by
  obtain ⟨row, d₁, hrow₁, hhash₁, hkey₁, hlen, hout₁⟩ := cacheGet_ok h₁
  obtain ⟨row₂, d₂, hrow₂, hhash₂, hkey₂, -, hout₂⟩ := cacheGet_ok h₂
  obtain rfl : row = row₂ := Option.some.inj (hrow₁.symm.trans (hrow.trans hrow₂))
  obtain rfl : d₁ = d₂ := by
    refine hsha d₁ d₂ hhash₁ hhash₂ ?_
    rw [← iuChunkCryptoDigest_eq, ← iuChunkCryptoDigest_eq, hkey₁, hkey₂]
  refine ⟨?_, hlen⟩
  split at hout₁
  next hnone =>
    rw [if_pos hnone] at hout₂
    exact hout₁.trans hout₂.symm
  next hnone =>
    rw [if_neg hnone] at hout₂
    exact Except.ok.inj (Option.some.inj (hout₁.symm.trans hout₂))

theorem readChunk_server (hchunk : st.chunks.lookup (toInt chunk) = none)
    (hdir : out.hoardDir = false) (hserver : out.server 0 = .ok buf)
    (hlen : buf.length ≤ P.chunksize) (htag : row.tag = iuChunkCryptoDigest buf) :
    readChunk P out st chunk row = .ok buf := by
  have hle : ¬ P.chunksize < buf.length := not_lt.mpr hlen
  have htries : transportTries P out.server 5 0 = .ok buf := by
    simp only [transportTries, hserver, transportGet, if_neg hle]
  have hfetch : transportFetchChunk P out.server row.tag = .ok buf := by
    simp only [transportFetchChunk, htries, ne_eq, htag, not_true_eq_false, if_false]
  simp only [readChunk, hchunk, Option.map_none, Option.getD_none, ne_eq, not_true_eq_false,
    if_false, fetchChunk, hdir, Bool.not_false, if_true, hfetch]

theorem iuChunkDecode_none (hbuf : buf ≠ [])
    (hproc : cipherProcess lib.aes ⟨(Sha1.Standard.sha1 data).take 16, zeroIv, false⟩ buf
      = .ok data) :
    iuChunkDecode lib beyond .aesSha1 .none buf (Sha1.Standard.sha1 data) buf.length
      = .ok data := by
  have hpos : buf.length ≠ 0 := fun h => hbuf (List.eq_nil_of_length_eq_zero h)
  simp only [iuChunkDecode, hpos, cipherInit_digest, hproc, hashFinal_update, lt_irrefl,
    reduceCtorEq, or_self, and_false, if_false, if_true, ne_eq, not_true_eq_false]

theorem decodeChunk_none (hcode : compressOfCode (columnUnsigned row.compression) = .none)
    (hlen : buf.length = P.chunksize) (hkey : row.key = Sha1.Standard.sha1 data)
    (hproc : cipherProcess lib.aes ⟨(Sha1.Standard.sha1 data).take 16, zeroIv, false⟩ buf
      = .ok data) : decodeChunk P lib beyond row buf = .ok data := by
  have hbuf : buf ≠ [] := List.ne_nil_of_length_pos (hlen ▸ P.chunksize_pos)
  rw [decodeChunk, hcode, hkey, ← hlen, iuChunkDecode_none hbuf hproc]

theorem cacheGet_eq (hfault : out.fault = none) (hrow : st.keys.lookup (toInt chunk) = some row)
    (hvalid : row.valid P = true) :
    cacheGet P lib beyond out st chunk = match readChunk P out st chunk row with
      | .ok buf => decodeChunk P lib beyond row buf
      | r => r := by
  simp only [cacheGet, hfault, hrow, hvalid, reduceCtorEq, Bool.not_true, Bool.false_eq_true,
    if_false]

/-- A parcel with one chunk of 512 bytes. -/
def tinyParcel : Parcel where
  chunksize := 512
  chunks := 1
  log := 9
  chunksize_eq := Fuse.tinyParcel.chunksize_eq
  chunksize_ge := Fuse.tinyParcel.chunksize_ge
  chunksize_lt := Fuse.tinyParcel.chunksize_lt
  chunks_lt := by decide
  requiredCompress := 2
  chunksPerDir := 1
  chunksPerDir_lt := by decide
  none_enabled := rfl

/-- The parcel with another number of chunks. -/
def Parcel.withChunks (P : Parcel) (chunks : Nat) (h : chunks < 2 ^ 32) : Parcel :=
  { P with chunks, chunks_lt := h }

/-- A cipher that changes nothing, and a zlib that is not used. -/
def plainLib : Lib where
  aes := identityAes
  zlib := unusedZlib

def zeroChunk : List UInt8 := List.replicate 512 0

/-- The row for a chunk of zeros, which that cipher leaves as it is. -/
def zeroRow : KeyRow := ⟨iuChunkCryptoDigest zeroChunk, iuChunkCryptoDigest zeroChunk, 1⟩

def zeroKeys : Keyring := AList.insert 0 zeroRow ∅

theorem lookup_zeroKeys : zeroKeys.lookup (toInt 0) = some zeroRow := by
  have h0 : toInt 0 = 0 := rfl
  rw [h0, zeroKeys, AList.lookup_insert]

/-- A store that has the chunk, with a header of 512 bytes, and one that does not. -/
def fullStore : Store := ⟨zeroKeys, AList.insert 0 512 ∅, List.replicate 1024 0, 512, 0⟩

def emptyStore : Store := ⟨zeroKeys, ∅, [], 512, 0⟩

def zeroServer : Outside := ⟨none, false, false, [], fun _ => .ok zeroChunk⟩

theorem zeroRow_valid : zeroRow.valid tinyParcel = true := by
  simp only [KeyRow.valid, zeroRow, iuChunkCryptoDigest_eq, sha1_length]
  decide

theorem readChunk_zero :
    readChunk tinyParcel zeroServer fullStore 0 zeroRow = .ok zeroChunk ∧
      readChunk tinyParcel zeroServer emptyStore 0 zeroRow = .ok zeroChunk :=
  ⟨by decide +kernel, readChunk_server rfl rfl rfl (le_of_eq List.length_replicate) rfl⟩

theorem cacheGet_zero (hkeys : st.keys = zeroKeys)
    (hread : readChunk tinyParcel zeroServer st 0 zeroRow = .ok zeroChunk) :
    cacheGet tinyParcel plainLib 0 zeroServer st 0 = .ok zeroChunk := by
  rw [cacheGet_eq rfl (hkeys ▸ lookup_zeroKeys) zeroRow_valid, hread]
  exact decodeChunk_none rfl List.length_replicate (iuChunkCryptoDigest_eq zeroChunk)
    (by decide +kernel)

/-- The chunk is the same from the local cache and from the server. -/
theorem get_agree_zero :
    ∃ b, cacheGet tinyParcel plainLib 0 zeroServer fullStore 0 = .ok b ∧
      cacheGet tinyParcel plainLib 0 zeroServer emptyStore 0 = .ok b ∧
      b.length = tinyParcel.chunksize := by
  have h₁ := cacheGet_zero rfl readChunk_zero.1
  have h₂ := cacheGet_zero rfl readChunk_zero.2
  have hsha : ∀ d₁ d₂, Hashed tinyParcel plainLib zeroServer fullStore 0 d₁ →
      Hashed tinyParcel plainLib zeroServer emptyStore 0 d₂ →
      Sha1.Standard.sha1 d₁ = Sha1.Standard.sha1 d₂ → d₁ = d₂ := by
    rintro d₁ d₂ ⟨row₁, buf₁, hr₁, hb₁, hd₁⟩ ⟨row₂, buf₂, hr₂, hb₂, hd₂⟩ -
    cases lookup_zeroKeys.symm.trans hr₁
    cases lookup_zeroKeys.symm.trans hr₂
    obtain rfl := Got.ok.inj (readChunk_zero.1.symm.trans hb₁)
    obtain rfl := Got.ok.inj (readChunk_zero.2.symm.trans hb₂)
    exact Option.some.inj (hd₁.symm.trans hd₂)
  have hrow : fullStore.keys.lookup (toInt 0) = emptyStore.keys.lookup (toInt 0) := rfl
  obtain ⟨-, hlen⟩ := get_agree hrow h₁ h₂ hsha
  exact ⟨zeroChunk, h₁, h₂, hlen⟩

end OpenIsr.Cache
