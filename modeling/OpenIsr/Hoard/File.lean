import OpenIsr.Cache.Store
import OpenIsr.Hoard.Index

/-!
# The hoard file

The functions of `hoard.c` that read and write the hoard file, and what they need of
`libutil/chunk.c`. There is one crypto suite, AES with SHA-1, and its number is 2. Tags are byte
strings here, as the code compares them with what it computes.

`hoard_init` lets a parcel use the hoard cache only if its chunks have 128 KB, and the size of a
slot is fixed in `_hoard_write_chunk`. A process that was not started for a parcel has no chunk size
to compare with.
-/

namespace OpenIsr.Hoard

open Base (pread pwrite)
open Cache (PkErr iuChunkCryptoDigest)

/-- `IU_CHUNK_CRY_AES_SHA1` -/
def aesSha1 : Int := 2

/-- `iu_chunk_crypto_is_valid` -/
def cryptoIsValid (crypto : Int) : Bool := crypto = aesSha1

/-- `iu_chunk_crypto_hashlen` -/
def cryptoHashlen (crypto : Int) : Nat := if cryptoIsValid crypto then Cache.hashlen else 0

/-- `iu_chunk_crypto_digest` -/
def cryptoDigest (crypto : Int) (data : List UInt8) : Option Tag :=
  if cryptoIsValid crypto then some (iuChunkCryptoDigest data) else none

/-- The bytes of a slot. -/
def slotBytes : Nat := 131072

/-- The hoard file. `broken` tells where a `pread` fails though there is data. -/
structure HoardFile where
  data : List UInt8
  broken : Int → Bool

/-- `_hoard_read_chunk`; `chunksize` is that of the parcel, if there is one. -/
def hoardReadChunk (f : HoardFile) (chunksize : Option Nat) (offset length crypto : Int)
    (tag : Tag) : Except PkErr (List UInt8) :=
  if tag.length ≠ cryptoHashlen crypto then .error .badformat
  else if offset < 0 ∨ length ≤ 0 ∨ ∃ n ∈ chunksize, (n : Int) < length then .error .badformat
  else
    let buf := pread f.data (offset.toNat * 512) length.toNat
    if f.broken offset ∨ buf.length ≠ length.toNat then .error .ioerr
    else
      match cryptoDigest crypto buf with
      | none => .error .callfail
      | some calctag => if tag ≠ calctag then .error .tagfail else .ok buf

theorem hoardReadChunk_eq_ok {f : HoardFile} {chunksize : Option Nat} {offset length crypto : Int}
    {tag : Tag} {buf : List UInt8} :
    hoardReadChunk f chunksize offset length crypto tag = .ok buf ↔
      tag.length = cryptoHashlen crypto ∧ 0 ≤ offset ∧ 0 < length ∧
      (∀ n ∈ chunksize, length ≤ (n : Int)) ∧ f.broken offset = false ∧
      pread f.data (offset.toNat * 512) length.toNat = buf ∧ buf.length = length.toNat ∧
      cryptoDigest crypto buf = some tag := by
  unfold hoardReadChunk
  constructor
  · intro h
    split at h
    · cases h
    next htag =>
      split at h
      · cases h
      next hsane =>
        simp only [not_or, not_lt, not_le, not_exists, not_and] at hsane
        simp only at h
        split at h
        · cases h
        next hread =>
          simp only [not_or, Bool.not_eq_true, ne_eq, Decidable.not_not] at hread
          split at h
          · cases h
          next calctag hdigest =>
            split at h
            · cases h
            next heq =>
              cases h
              refine ⟨not_not.mp htag, hsane.1, hsane.2.1, hsane.2.2, hread.1, rfl, hread.2, ?_⟩
              rw [hdigest, not_not.mp heq]
  · rintro ⟨htag, hoff, hpos, hsize, hbroken, rfl, hlen, hdigest⟩
    have hsane : ¬ (offset < 0 ∨ length ≤ 0 ∨ ∃ n ∈ chunksize, (n : Int) < length) := by
      simp only [not_or, not_lt, not_le, not_exists, not_and]
      exact ⟨hoff, hpos, hsize⟩
    have hread : ¬ (f.broken offset = true ∨
        (pread f.data (offset.toNat * 512) length.toNat).length ≠ length.toNat) := by
      simp only [hbroken, Bool.false_eq_true, false_or, ne_eq, Decidable.not_not]
      exact hlen
    rw [if_neg (not_not.mpr htag), if_neg hsane]
    simp only [if_neg hread, hdigest, ne_eq, not_true_eq_false, if_false]

/-- What `_hoard_write_chunk` writes: the chunk, filled up with zeros to the length of a slot. -/
def slotData (buf : List UInt8) : List UInt8 := buf ++ List.replicate (slotBytes - buf.length) 0

/-- `_hoard_write_chunk`, of whose bytes `pwrite` writes the first `written`; `offset` is
unsigned. -/
def hoardWriteChunk (file : List UInt8) (offset : Int) (buf : List UInt8) (written : Nat) :
    PkErr × List UInt8 :=
  if slotBytes < buf.length then (.invalid, file)
  else
    let file := pwrite file ((offset % 2 ^ 32).toNat * 512) ((slotData buf).take written)
    (if written < slotBytes then .ioerr else .success, file)

end OpenIsr.Hoard
