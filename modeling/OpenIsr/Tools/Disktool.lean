import Mathlib.Data.Nat.Digits.Defs
import OpenIsr.Base.Cut
import OpenIsr.Base.Decimal
import OpenIsr.Cache.Store

/-!
# Import and export of disk images (tools/disktool.c)

`import_image` cuts an image into chunks, encodes them and stores them in a directory and a
keyring. `export_image` goes back.

The buffers are modelled with their addresses, which `is_zero` and the LZF compressor look at:
`encrypt_chunk` swaps the buffer of a chunk with `tmpdata`. A call of `read` gives a piece of the
image, of any length up to that of a chunk. No other system call fails, and the directories of the
chunks are there when a file is made in them.

`none` stands for the end of the program without a commit.
-/

namespace OpenIsr.Tools

open Base Util Cache List

/-! ## Zeros -/

/-- `sizeof(long)` -/
def sizeofLong : Nat := 8

/-- `*lp` -/
def loadLong (bytes : List UInt8) : Nat := Nat.ofDigits 256 (bytes.map UInt8.toNat)

/-- The loop over the words. -/
def wordsZero : Nat → List UInt8 → Bool
  | 0, _ => true
  | n + 1, bytes =>
    if loadLong (bytes.take sizeofLong) ≠ 0 then false else wordsZero n (bytes.drop sizeofLong)

/-- `is_zero` for a buffer at an address. -/
def isZero (addr : Nat) (buf : List UInt8) (len : Nat) : Bool :=
  let unalignedMask := sizeofLong - 1
  let countHead := min ((sizeofLong - (addr &&& unalignedMask)) &&& unalignedMask) len
  let countBody := (len - countHead) / sizeofLong
  let countTail := len - countHead - sizeofLong * countBody
  (buf.take countHead).all (· = 0) && wordsZero countBody (buf.drop countHead) &&
    ((buf.drop (countHead + sizeofLong * countBody)).take countTail).all (· = 0)

/-! ## Parameters and state -/

/-- The parameters of the program, as `main` lets them pass. The length of a chunk is computed as
an `int`. -/
structure Params where
  chunksize : Nat
  chunksize_pos : 0 < chunksize
  chunksize_lt : chunksize * 1024 < 2 ^ 31
  chunksperdir : Nat
  chunksperdir_pos : 0 < chunksperdir
  wantLzf : Bool

def Params.chunklen (P : Params) : Nat := P.chunksize * 1024

theorem Params.chunklen_pos (P : Params) : 0 < P.chunklen :=
  Nat.mul_pos P.chunksize_pos (by decide)

def Params.compressor (P : Params) : ChunkCompress := if P.wantLzf then .lzf else .zlib

/-- Chunks of one kilobyte, with LZF. -/
def smallChunks : Params where
  chunksize := 1
  chunksize_pos := Nat.one_pos
  chunksize_lt := by decide
  chunksperdir := 512
  chunksperdir_pos := by decide
  wantLzf := true

/-- The files under `hdk`, by directory and name. -/
abbrev ChunkFiles : Type := List Char × List Char → Option (List UInt8)

/-- `form_chunk_path`, from `hdk` on. -/
def chunkPath (P : Params) (idx : Nat) : List Char × List Char :=
  (padded 4 (idx / P.chunksperdir), padded 4 (idx % P.chunksperdir))

theorem chunkPath_injective (P : Params) : Function.Injective (chunkPath P) := by
  intro i j h
  have hdir := padded_injective 4 (congrArg Prod.fst h)
  have hfile := padded_injective 4 (congrArg Prod.snd h)
  rw [← Nat.div_add_mod i P.chunksperdir, hdir, hfile, Nat.div_add_mod]

/-- An allocated buffer. -/
structure Buf where
  addr : Nat
  addr_pos : 0 < addr
  bytes : List UInt8

/-- `struct chunk_desc` -/
structure ChunkDesc where
  tag : List UInt8
  key : List UInt8
  data : Buf
  len : Nat
  compression : ChunkCompress

/-- The libraries, and what the compressor finds in its hash table at each call. -/
structure Sys where
  lib : Lib
  htab : Nat → Nat → Nat

section import_image

variable (P : Params) (sys : Sys)

/-- `encrypt_chunk`: the chunk, and the buffer that is `tmpdata` afterwards. -/
def encryptChunk (call : Nat) (chunk : ChunkDesc) (tmpdata : Buf) : Option (ChunkDesc × Buf) :=
  (iuChunkEncode sys.lib ⟨chunk.data.addr, chunk.data.addr_pos, sys.htab call⟩ .aesSha1
    (chunk.data.bytes.take chunk.len) P.compressor).map fun enc =>
      ({ tag := enc.tag
         key := enc.key
         data := { tmpdata with bytes := enc.out ++ tmpdata.bytes.drop enc.out.length }
         len := enc.out.length
         compression := enc.compress }, chunk.data)

/-- What has been stored. -/
structure ChunkStore where
  keys : Keyring
  files : ChunkFiles

/-- `write_chunk`. The chunk number is a parameter `d`, and a primary key. -/
def writeChunk (st : ChunkStore) (idx : Nat) (chunk : ChunkDesc) : Option ChunkStore :=
  if toInt idx ∈ st.keys then none
  else
    some { keys := st.keys.insert (toInt idx) ⟨chunk.tag, chunk.key, compressCode chunk.compression⟩
           files := Function.update st.files (chunkPath P idx)
             (some (chunk.data.bytes.take chunk.len)) }

/-- The state of the loop in `import_image`. -/
structure ImportSt where
  chunk : ChunkDesc
  tmpdata : Buf
  stored : ChunkStore

/-- The body of the loop, for what `read` has given it. -/
def importChunk (zerochunk : ChunkDesc) (st : ImportSt) (idx : Nat) (piece : List UInt8) :
    Option ImportSt :=
  let n := piece.length
  let bytes := piece ++ st.chunk.data.bytes.drop n
  -- zero tail of a partial (last) chunk
  let bytes := if n < P.chunklen then bytes.take n ++ replicate (P.chunklen - n) 0 else bytes
  let chunk := { st.chunk with data := { st.chunk.data with bytes }, len := P.chunklen }
  if isZero chunk.data.addr bytes P.chunklen then
    (writeChunk P st.stored idx zerochunk).map fun stored => { st with chunk, stored }
  else
    match encryptChunk P sys (idx + 1) chunk st.tmpdata with
    | none => none
    | some (chunk, tmpdata) =>
      (writeChunk P st.stored idx chunk).map fun stored => { chunk, tmpdata, stored }

/-- The loop, which ends when `read` gives nothing. -/
def importLoop (zerochunk : ChunkDesc) : List (List UInt8) → Nat → ImportSt → Option ImportSt
  | [], _, st => some st
  | piece :: pieces, idx, st =>
    match importChunk P sys zerochunk st idx piece with
    | none => none
    | some st => importLoop zerochunk pieces ((idx + 1) % 2 ^ 32) st

/-- `import_image` into a new parcel, for the pieces that `read` gives; `chunk` and `tmpdata` are
as they were allocated. -/
def importImage (chunk : ChunkDesc) (zero tmpdata : Buf) (pieces : List (List UInt8)) :
    Option ChunkStore :=
  match encryptChunk P sys 0
      { chunk with data := { zero with bytes := replicate P.chunklen 0 }, len := P.chunklen }
      tmpdata with
  | none => none
  | some (zerochunk, tmpdata) =>
    (importLoop P sys zerochunk pieces 0 ⟨chunk, tmpdata, ⟨∅, fun _ => none⟩⟩).map (·.stored)

end import_image

section export_image

variable (P : Params) (lib : Lib) (beyond : UInt8)

/-- `read_chunk` -/
def readChunk (files : ChunkFiles) (idx : Nat) (row : KeyRow) : Option (List UInt8) :=
  match files (chunkPath P idx) with
  | none => none
  | some file =>
    match iuChunkDecode lib beyond .aesSha1 (compressOfCode (columnUnsigned row.compression))
        (file.take P.chunklen) row.key P.chunklen with
    | .ok data => some data
    | _ => none

/-- The image as far as it is written, and the position in it. -/
structure Out where
  contents : List UInt8
  pos : Nat
  deriving DecidableEq, Repr

/-- A chunk is written, or left out if the file is zero there anyway. -/
def putChunk (addr : Nat) (writeZeros : Bool) (out : Out) (data : List UInt8) : Out :=
  if !writeZeros && isZero addr data P.chunklen then { out with pos := out.pos + P.chunklen }
  else ⟨pwrite out.contents out.pos data, out.pos + P.chunklen⟩

/-- The loop of `export_image`. -/
def exportLoop (addr : Nat) (writeZeros : Bool) (files : ChunkFiles) :
    List (Sigma fun _ : Int => KeyRow) → Nat → Out → Option Out
  | [], _, out => some out
  | row :: rows, idx, out =>
    if columnUnsigned row.1 ≠ idx then none
    else if row.2.tag.length ≠ hashlen ∨ row.2.key.length ≠ hashlen then none
    else
      match readChunk P lib beyond files idx row.2 with
      | none => none
      | some data =>
        exportLoop addr writeZeros files rows ((idx + 1) % 2 ^ 32)
          (putChunk P addr writeZeros out data)

/-- `export_image` to a new file, or to a stream if there is no `ftruncate` for it (`writeZeros`);
`addr` is the address of the data buffer. -/
def exportImage (addr : Nat) (writeZeros : Bool) (keys : Keyring) (files : ChunkFiles) :
    Option (List UInt8) :=
  let nchunk := columnUnsigned keys.entries.length
  let contents := if writeZeros then [] else ftruncate (ftruncate [] 0) (nchunk * P.chunklen)
  (exportLoop P lib beyond addr writeZeros files
    (keys.entries.mergeSort fun r r' => r.1 ≤ r'.1) 0 ⟨contents, 0⟩).map (·.contents)

end export_image

/-! ## What `is_zero` tests -/

theorem loadLong_eq_zero (bytes : List UInt8) : loadLong bytes = 0 ↔ ∀ b ∈ bytes, b = 0 := by
  unfold loadLong
  constructor
  · intro h b hb
    have hdigit := Nat.digits_zero_of_eq_zero (by decide) h b.toNat (mem_map_of_mem hb)
    exact UInt8.toNat_inj.mp hdigit
  · intro h
    rw [eq_replicate_of_mem h, map_replicate]
    exact Nat.ofDigits_replicate_zero ..

theorem wordsZero_eq_true (n : Nat) : ∀ {bytes : List UInt8},
    wordsZero n bytes = true ↔ ∀ b ∈ bytes.take (sizeofLong * n), b = 0 := by
  induction n with
  | zero =>
    intro bytes
    rw [Nat.mul_zero, take_zero]
    exact iff_of_true rfl nofun
  | succ n ih =>
    intro bytes
    rw [wordsZero, Nat.mul_succ, Nat.add_comm, take_add, forall_mem_append, ← ih,
      ← loadLong_eq_zero]
    split
    next hne => exact iff_of_false nofun fun h => hne h.1
    next heq => exact (and_iff_right (not_not.mp heq)).symm

/-- `is_zero` finds out whether the first bytes of a buffer are zero, wherever the buffer is. -/
theorem isZero_eq_true {addr len : Nat} {buf : List UInt8} (h : len ≤ buf.length) :
    isZero addr buf len = true ↔ buf.take len = replicate len 0 := by
  unfold isZero
  dsimp only
  have hle : min ((sizeofLong - (addr &&& (sizeofLong - 1))) &&& (sizeofLong - 1)) len ≤ len :=
    min_le_right ..
  generalize min ((sizeofLong - (addr &&& (sizeofLong - 1))) &&& (sizeofLong - 1)) len = head
    at hle ⊢
  have hbody : sizeofLong * ((len - head) / sizeofLong) ≤ len - head := Nat.mul_div_le ..
  generalize (len - head) / sizeofLong = body at hbody ⊢
  -- head, body and tail are what is to be tested
  have hparts : buf.take len = buf.take head ++ ((buf.drop head).take (sizeofLong * body) ++
      (buf.drop (head + sizeofLong * body)).take (len - head - sizeofLong * body)) := by
    rw [← drop_drop, ← take_add, ← take_add]
    congr 1
    omega
  rw [eq_replicate_iff, length_take_of_le h, eq_self_iff_true, true_and, hparts,
    forall_mem_append, forall_mem_append, Bool.and_eq_true, Bool.and_eq_true,
    wordsZero_eq_true, all_eq_true, all_eq_true, and_assoc]
  simp only [decide_eq_true_eq]

end OpenIsr.Tools
