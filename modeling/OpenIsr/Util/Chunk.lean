import OpenIsr.Crypto.Hash
import OpenIsr.Crypto.LzfRun
import OpenIsr.Crypto.Zlib

/-!
# The chunk codec

`iu_chunk_encode` compresses a chunk, unless that saves too little, derives the key from the
result and encrypts it; `iu_chunk_decode` goes back. Both are translated with all their
checks. The messages they log are left out, and of the algorithms LZMA and the crypto suites other
than AES-128 with SHA-1.

What a call of `iu_chunk_encode` finds in memory is in `Scratch`: the address of the input
buffer, and the contents of the hash table that `lzf_alloc` has just allocated and not
initialised.
-/

namespace OpenIsr.Util

open Crypto Base

/-- `enum iu_chunk_crypto`; `unknown` stands for every value without algorithms. -/
inductive ChunkCrypto
  | unknown
  | aesSha1
  deriving DecidableEq, Repr

/-- `enum iu_chunk_compress`. -/
inductive ChunkCompress
  | unknown
  | none
  | zlib
  | lzf
  deriving DecidableEq, Repr

/-- The libraries under the codec. -/
structure Lib where
  aes : Aes
  zlib : Zlib

/-- What is in memory when `iu_chunk_encode` is called. -/
structure Scratch where
  base : Nat
  base_pos : 0 < base
  htab : Nat → Nat

/-- `isrcry_compress_final` in the encoding direction. -/
def compressFinal (lib : Lib) (s : Scratch) (compress : ChunkCompress) (inp : List UInt8)
    (outLen : Nat) : Except Result (List UInt8) :=
  match compress with
  | .zlib => zlibCompressFinal lib.zlib inp outLen
  | .lzf => lzfDoCompress (mem inp) inp.length outLen s.base s.htab
  | _ => .error .invalidArgument

/-- `isrcry_compress_final` in the decoding direction; `none` is a failed assertion. -/
def decompressFinal (lib : Lib) (beyond : UInt8) (compress : ChunkCompress) (inp : List UInt8)
    (outLen : Nat) : Option (Except Result (List UInt8)) :=
  match compress with
  | .zlib => some (zlibDecompressFinal lib.zlib inp outLen)
  | .lzf => lzfDoDecompress beyond inp outLen
  | _ => some (.error .invalidArgument)

/-- What `iu_chunk_encode` gives its caller. -/
structure Encoded where
  out : List UInt8
  tag : List UInt8
  key : List UInt8
  compress : ChunkCompress
  deriving DecidableEq, Repr

/-- The first part of `iu_chunk_encode`: the compressed chunk, unless compression is not asked
for, fails or does not save enough. -/
def compressed? (lib : Lib) (s : Scratch) (inp : List UInt8) (compress : ChunkCompress) :
    Option (List UInt8) :=
  if compress = .none then none
  else
    match compressFinal lib s compress inp inp.length with
    | .error _ => none
    | .ok c => if subUnsigned inp.length 16 ≤ c.length then none else some c

/-- The second part: derive the key, encrypt and derive the tag. -/
def encrypt? (lib : Lib) (inp : List UInt8) (compressed : Option (List UInt8))
    (compress : ChunkCompress) : Option Encoded :=
  let (key, hctx) := hashFinal (hashUpdate hashAlloc (compressed.getD inp))
  match cipherInit true (key.take 16) with
  | .error _ => none
  | .ok cctx =>
    let ret := match compressed with
      | some c => cipherFinal lib.aes cctx c inp.length
      | none => cipherProcess lib.aes cctx inp
    match ret with
    | .error _ => none
    | .ok out => some { out, tag := (hashFinal (hashUpdate hctx out)).1, key, compress }

/-- `iu_chunk_encode`; `none` if it returns `FALSE`. -/
def iuChunkEncode (lib : Lib) (s : Scratch) (crypto : ChunkCrypto) (inp : List UInt8)
    (compress : ChunkCompress) : Option Encoded :=
  if crypto = .unknown ∨ compress = .unknown then none
  else
    let compressed := compressed? lib s inp compress
    encrypt? lib inp compressed (if compressed.isSome then compress else .none)

/-- How `iu_chunk_decode` ends: a failed assertion, `FALSE`, or `TRUE` with the chunk. -/
inductive Decoded
  | abort
  | failed
  | ok (out : List UInt8)
  deriving DecidableEq, Repr

/-- `iu_chunk_decode`. -/
def iuChunkDecode (lib : Lib) (beyond : UInt8) (crypto : ChunkCrypto) (compress : ChunkCompress)
    (inp key : List UInt8) (outLen : Nat) : Decoded :=
  if crypto = .unknown ∨ compress = .unknown then .failed
  else if (compress = .none ∧ inp.length ≠ outLen) ∨ inp.length = 0 ∨ outLen < inp.length then
    .failed
  else
    match cipherInit false (key.take 16) with
    | .error _ => .failed
    | .ok cctx =>
      let ret := if compress = .none then cipherProcess lib.aes cctx inp
        else cipherFinal lib.aes cctx inp outLen
      match ret with
      | .error _ => .failed
      | .ok data =>
        if (hashFinal (hashUpdate hashAlloc data)).1 ≠ key then .failed
        else if compress = .none then .ok data
        else
          match decompressFinal lib beyond compress data outLen with
          | none => .abort
          | some (.error _) => .failed
          | some (.ok out) => if out.length ≠ outLen then .failed else .ok out

/-! ## Encryption -/

theorem cipherInit_digest (encrypting : Bool) (m : List UInt8) :
    cipherInit encrypting ((Sha1.Standard.sha1 m).take 16)
      = .ok ⟨(Sha1.Standard.sha1 m).take 16, zeroIv, encrypting⟩ := by
  rw [cipherInit, if_neg]
  rw [List.length_take, sha1_length]
  decide

variable {plain c : List UInt8}

theorem encrypt?_none (lib : Lib) (h16 : plain.length % 16 = 0) (h0 : plain.length ≠ 0)
    (beyond : UInt8) :
    ∃ enc, encrypt? lib plain none .none = some enc ∧ enc.compress = .none ∧
      enc.out.length = plain.length ∧
      iuChunkDecode lib beyond .aesSha1 .none enc.out enc.key plain.length = .ok plain := by
  obtain ⟨out, iv, henc, -, hlen, hdec⟩ := cbcEncrypt_spec lib.aes
    ⟨(Sha1.Standard.sha1 plain).take 16, zeroIv, true⟩ plain rfl h16
  refine ⟨⟨out, Sha1.Standard.sha1 out, Sha1.Standard.sha1 plain, .none⟩, ?_, rfl, hlen, ?_⟩
  · simp [encrypt?, hashFinal_update, cipherInit_digest, cipherProcess, henc, Except.map]
  · simp [iuChunkDecode, hashFinal_update, cipherInit_digest, cipherProcess, hdec, Except.map,
      hlen, h0]

theorem encrypt?_some_eq (lib : Lib) (compress : ChunkCompress)
    (hlen : c.length + 16 < plain.length) (hlt : plain.length < 2 ^ 32) :
    ∃ out, encrypt? lib plain (some c) compress
        = some ⟨out, Sha1.Standard.sha1 out, Sha1.Standard.sha1 c, compress⟩ ∧
      out.length = c.length - c.length % 16 + 16 ∧
      cipherFinal lib.aes ⟨(Sha1.Standard.sha1 c).take 16, zeroIv, false⟩ out plain.length
        = .ok c := by
  obtain ⟨out, henc, hout, hdec⟩ := cipherFinal_spec lib.aes
    ⟨(Sha1.Standard.sha1 c).take 16, zeroIv, true⟩ c rfl rfl (by omega)
    (show c.length - c.length % 16 + 16 ≤ plain.length by omega)
  refine ⟨out, ?_, hout, hdec plain.length (by omega)⟩
  simp [encrypt?, hashFinal_update, cipherInit_digest, henc]

theorem encrypt?_some (lib : Lib) {compress : ChunkCompress} (hc : compress ≠ .none)
    (hc' : compress ≠ .unknown) (hlen : c.length + 16 < plain.length)
    (hlt : plain.length < 2 ^ 32) (beyond : UInt8) :
    ∃ enc, encrypt? lib plain (some c) compress = some enc ∧ enc.compress = compress ∧
      enc.out.length ≤ plain.length ∧
      iuChunkDecode lib beyond .aesSha1 compress enc.out enc.key plain.length
        = match decompressFinal lib beyond compress c plain.length with
          | none => .abort
          | some (.error _) => .failed
          | some (.ok out) => if out.length ≠ plain.length then .failed else .ok out := by
  obtain ⟨out, henc, hout, hback⟩ := encrypt?_some_eq lib compress hlen hlt
  refine ⟨_, henc, rfl, show out.length ≤ _ by omega, ?_⟩
  have hle : ¬ ((compress = .none ∧ out.length ≠ plain.length) ∨ out.length = 0 ∨
      plain.length < out.length) := by
    simp only [hc, false_and, false_or]
    omega
  simp only [iuChunkDecode, hc', hashFinal_update, cipherInit_digest, hback, if_neg hle,
    if_neg hc, reduceCtorEq, false_or, if_false, ne_eq, not_true_eq_false]

end OpenIsr.Util
