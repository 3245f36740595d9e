import Mathlib.Data.List.AList
import OpenIsr.Base.File
import OpenIsr.Fuse.Cursor
import OpenIsr.Util.Chunk

/-!
# The local cache (parcelkeeper/cache.c)

The local cache is a file with one slot for each chunk, an index that has the length of every
chunk that is there, and the keyring. The two tables are SQLite tables whose integer primary
key is the chunk number: a column is a 64-bit integer, a parameter `d` of a statement is an
`int`, and a column that is fetched with `d` is cut down to 32 bits.

An SQL statement, a `begin` or a `commit` may fail, and so may reading and writing the file.
A transaction that fails is rolled back, which brings back both tables and not the file.
-/

namespace OpenIsr.Cache

open Base Crypto Util

/-- `pk_err_t`. -/
inductive PkErr
  | success
  | overflow
  | ioerr
  | notfound
  | invalid
  | nomem
  | nokey
  | tagfail
  | badformat
  | callfail
  | protofail
  | netfail
  | busy
  | sqlerr
  | interrupt
  deriving DecidableEq, Repr

/-! ## The parcel -/

/-- The values of `enum iu_chunk_compress`. -/
def compressCode : ChunkCompress → Nat
  | .unknown => 0
  | .none => 1
  | .zlib => 2
  | .lzf => 3

/-- A value as `enum iu_chunk_compress`; none of the switches on it has a case for another. -/
def compressOfCode : Nat → ChunkCompress
  | 1 => .none
  | 2 => .zlib
  | 3 => .lzf
  | _ => .unknown

/-- `iu_chunk_compress_is_enabled`. -/
def iuChunkCompressIsEnabled (enabledMap type : Nat) : Bool :=
  if type ≤ compressCode .unknown ∨ 8 * 4 ≤ type then false else enabledMap.testBit type

/-- `struct pk_parcel` as `parse_parcel_cfg` makes it. The one crypto suite that it accepts is
AES with SHA-1, and no compression is always enabled. -/
structure Parcel extends Fuse.Parcel where
  requiredCompress : Nat
  chunksPerDir : Nat
  chunksPerDir_lt : chunksPerDir < 2 ^ 32
  none_enabled : iuChunkCompressIsEnabled requiredCompress (compressCode .none) = true

/-- `iu_chunk_crypto_hashlen`. -/
def hashlen : Nat := 20

/-- `iu_chunk_crypto_digest`. -/
def iuChunkCryptoDigest (data : List UInt8) : List UInt8 :=
  (hashFinal (hashUpdate hashAlloc data)).1

theorem iuChunkCryptoDigest_eq (data : List UInt8) :
    iuChunkCryptoDigest data = Sha1.Standard.sha1 data := by
  rw [iuChunkCryptoDigest, hashFinal_update]

/-! ## Tables and the file -/

/-- An integer column that is fetched into an `unsigned`. -/
def columnUnsigned (i : Int) : Nat := (i % 2 ^ 32).toNat

theorem columnUnsigned_lt (i : Int) : columnUnsigned i < 2 ^ 32 := by
  unfold columnUnsigned
  omega

theorem columnUnsigned_natCast {n : Nat} (h : n < 2 ^ 32) : columnUnsigned n = n := by
  unfold columnUnsigned
  omega

theorem toInt_inj {m n : Nat} (hm : m < 2 ^ 32) (hn : n < 2 ^ 32) (h : toInt m = toInt n) :
    m = n := by
  unfold toInt at h
  split at h <;> split at h <;> omega

/-- A row of `keys`. -/
structure KeyRow where
  tag : List UInt8
  key : List UInt8
  compression : Int
  deriving DecidableEq, Repr

/-- The table `keys` of a keyring. -/
abbrev Keyring : Type := AList fun _ : Int => KeyRow

/-- The table `chunks` of the cache index: the lengths. -/
abbrev Index : Type := AList fun _ : Int => Int

/-- What `cache_init` has opened. -/
structure Store where
  keys : Keyring
  chunks : Index
  file : List UInt8
  /-- `state->offset`. -/
  offset : Nat
  /-- `state->cache_flags`. -/
  flags : Nat

/-- The bytes of the header as a number in network byte order. -/
def ntohl (file : List UInt8) (at' : Nat) : Nat := (load32h (file.drop at')).toNat

theorem ntohl_pwrite (file : List UInt8) (at' : Nat) (x : UInt32) :
    ntohl (pwrite file at' (store32h x)) at' = x.toNat := by
  have hne : store32h x ≠ [] := List.cons_ne_nil _ _
  rw [ntohl, drop_pwrite hne, load32h_store32h]

/-- `open_cache_file`: what it reads from the header of `struct ca_header`, which has 24
bytes. -/
def openCacheFile (P : Parcel) (file : List UInt8) : Except PkErr (Nat × Nat) :=
  if (pread file 0 24).length ≠ 24 then .error .ioerr
  else if ntohl file 0 ≠ 0x51528038 then .error .badformat
  else if file.getD 20 0 ≠ 1 then .error .badformat
  else if ntohl file 4 ≠ P.chunks then .error .badformat
  else .ok ((ntohl file 8 <<< 9) % 2 ^ 32, ntohl file 12)

/-- The store that `cache_init` makes of the three files. -/
def cacheInit (P : Parcel) (keys : Keyring) (chunks : Index) (file : List UInt8) :
    Except PkErr Store :=
  (openCacheFile P file).map fun (offset, flags) => { keys, chunks, file, offset, flags }

/-- `cache_chunk_to_offset`. -/
def cacheChunkToOffset (P : Parcel) (st : Store) (chunk : Nat) : Nat :=
  P.chunksize * chunk + st.offset

/-- How a function with a buffer ends. -/
inductive Got
  | ok (buf : List UInt8)
  | err (e : PkErr)
  /-- The buffer is overrun, or an assertion fails. -/
  | crash
  /-- It is still waiting or trying again. -/
  | waiting
  deriving DecidableEq, Repr

/-- `_cache_read_chunk` with a buffer for one chunk; `fails` if `pread` does. -/
def cacheReadChunk (P : Parcel) (st : Store) (fails : Bool) (chunk chunklen : Nat)
    (tag : Option (List UInt8)) : Got :=
  let buf := pread st.file (cacheChunkToOffset P st chunk) chunklen
  if fails then .err .ioerr
  else if P.chunksize < buf.length then .crash
  else if (buf.length : Int) ≠ toInt chunklen then .err .ioerr
  else
    match tag with
    | none => .ok buf
    | some tag => if tag ≠ iuChunkCryptoDigest buf then .err .tagfail else .ok buf

/-! ## Writing -/

/-- What is written to the slot of a chunk. -/
def slotData (P : Parcel) (buf : List UInt8) : List UInt8 :=
  buf ++ List.replicate (P.chunksize - buf.length) 0

/-- Where an attempt of `cache_update` fails. -/
inductive Fault
  | begin
  /-- The chunk is written in part. -/
  | write (n : Nat)
  /-- A statement after that, or the `commit`. -/
  | statement
  deriving DecidableEq, Repr

/-- The number of bytes of the slot that are written before the fault. -/
def Fault.written (P : Parcel) : Fault → Nat
  | .begin => 0
  | .write n => min n (P.chunksize - 1)
  | .statement => P.chunksize

/-- The first `n` bytes of the slot are written. -/
def Store.write (P : Parcel) (st : Store) (chunk : Nat) (buf : List UInt8) (n : Nat) : Store :=
  { st with file := pwrite st.file (cacheChunkToOffset P st chunk) ((slotData P buf).take n) }

/-- The transaction of `cache_update`. The `UPDATE` changes a row if there is one. -/
def Store.commit (st : Store) (chunk : Nat) (enc : Encoded) : Store :=
  { st with
    chunks := st.chunks.insert (toInt chunk) (enc.out.length : Int)
    keys :=
      if toInt chunk ∈ st.keys then
        st.keys.insert (toInt chunk) ⟨enc.tag, enc.key, compressCode enc.compress⟩
      else st.keys }

/-- What `cache_update` meets: what is in memory, the number of attempts that end because the
database is busy, and the fault of the last attempt, if it has one. -/
structure UpdateEnv where
  scratch : Scratch
  retries : Nat
  fault : Option Fault

/-- `cache_update`; `compress` is `state->conf->compress`. -/
def cacheUpdate (P : Parcel) (lib : Lib) (compress : ChunkCompress) (env : UpdateEnv) (st : Store)
    (chunk : Nat) (buf : List UInt8) : PkErr × Store :=
  match iuChunkEncode lib env.scratch .aesSha1 buf compress with
  | none => (.ioerr, st)
  | some enc =>
    -- PK_INVALID of _cache_write_chunk
    if P.chunksize < enc.out.length then (.ioerr, st)
    else
      let st := (fun st => Store.write P st chunk enc.out P.chunksize)^[env.retries] st
      match env.fault with
      | some f => (.ioerr, st.write P chunk enc.out (f.written P))
      | none =>
        let st := st.write P chunk enc.out P.chunksize
        -- the result of `pwrite` is compared with an `int`
        if (P.chunksize : Int) ≠ toInt P.chunksize then (.ioerr, st)
        else (.success, st.commit chunk enc)

/-! ## The flags in the header -/

/-- How `cache_set_flags` gets on with the file. -/
inductive FlagWrite
  | ok
  | writeFails
  | syncFails
  deriving DecidableEq, Repr

/-- `CA_F_DIRTY`. -/
def caDirty : Nat := 1

/-- `CA_F_DAMAGED`. -/
def caDamaged : Nat := 2

/-- `cache_set_flags` with the lock held. -/
def cacheSetFlags (w : FlagWrite) (st : Store) (flags : Nat) : PkErr × Store :=
  let written := pwrite st.file 12 (store32h (UInt32.ofNat flags))
  match w with
  | .writeFails => (.ioerr, st)
  | .syncFails => (.ioerr, { st with file := written })
  | .ok => (.success, { st with file := written, flags })

/-- `cache_set_flag`. -/
def cacheSetFlag (w : FlagWrite) (st : Store) (flag : Nat) : PkErr × Store :=
  cacheSetFlags w st (st.flags ||| flag)

/-- `cache_clear_flag`. -/
def cacheClearFlag (w : FlagWrite) (st : Store) (flag : Nat) : PkErr × Store :=
  cacheSetFlags w st (st.flags &&& (2 ^ 32 - 1 - flag))

/-- `cache_test_flag`. -/
def cacheTestFlag (st : Store) (flag : Nat) : Bool := st.flags &&& flag = flag

end OpenIsr.Cache
