import Mathlib.Data.List.SplitLengths
import OpenIsr.Cache.PutGet
import OpenIsr.Tools.Disktool

/-!
# What import_image stores

Each call of `read` makes a chunk. What is stored for it is the piece that was read, filled up with
zeros, whether it went through `encrypt_chunk` or the chunk of zeros was taken (`importLoop_cases`).
So the chunks are those of the image if every call but the last one gives a whole chunk; a pipe
may give less. The number of a chunk is entered as an `int`, and there are 2^31 of those from 0 on.
-/

namespace OpenIsr.Tools

open Base Util Cache List

/-- The chunk with a number is there, and its row of the keyring decodes it. -/
def ChunkStore.Holds (P : Params) (lib : Lib) (st : ChunkStore) (c : Int) (idx : Nat)
    (plain : List UInt8) : Prop :=
  ∃ row file, st.keys.lookup c = some row ∧ st.files (chunkPath P idx) = some file ∧
    ∀ beyond, iuChunkDecode lib beyond .aesSha1 (compressOfCode (columnUnsigned row.compression))
      file row.key P.chunklen = .ok plain

/-- The image is stored, in as many chunks as it takes. -/
def Imports (P : Params) (sys : Sys) (chunk : ChunkDesc) (zero tmpdata : Buf) (image : List UInt8)
    (pieces : List (List UInt8)) : Prop :=
  ∃ st, importImage P sys chunk zero tmpdata pieces = some st ∧
    (∀ c : Int, c ∈ st.keys ↔ 0 ≤ c ∧ c < blockCount P.chunklen image.length) ∧
    ∀ i < blockCount P.chunklen image.length, st.Holds P sys.lib i i (blockAt 0 P.chunklen image i)

variable {P : Params} {sys : Sys} {plain : List UInt8} {st : ChunkStore} {idx n : Nat}
  {plains pieces : List (List UInt8)}

theorem Params.compressor_ne (P : Params) : P.compressor ≠ .unknown := by
  unfold Params.compressor
  split <;> exact nofun

/-! ## Chunks -/

/-- The chunk has been encoded. -/
def ChunkDesc.Encodes (P : Params) (lib : Lib) (chunk : ChunkDesc) (plain : List UInt8) : Prop :=
  ∀ beyond, iuChunkDecode lib beyond .aesSha1 chunk.compression (chunk.data.bytes.take chunk.len)
    chunk.key P.chunklen = .ok plain

theorem encryptChunk_spec (sys : Sys) (call : Nat) (chunk : ChunkDesc) (tmpdata : Buf)
    (hplain : chunk.data.bytes.take chunk.len = plain) (hlen : plain.length = P.chunklen) :
    ∃ chunk', encryptChunk P sys call chunk tmpdata = some (chunk', chunk.data) ∧
      chunk'.Encodes P sys.lib plain := by
  have hround : ∀ beyond, RoundTrips sys.lib
      ⟨chunk.data.addr, chunk.data.addr_pos, sys.htab call⟩ beyond P.compressor plain := by
    intro beyond
    have hpos := P.chunklen_pos
    have hlt := P.chunksize_lt
    refine roundTrips_of_lt P.compressor_ne (hlen ▸ hpos) ?_ (hlen ▸ hlt)
    rw [hlen]
    unfold Params.chunklen
    omega
  obtain ⟨enc, henc, -, -⟩ := hround 0
  have hrun : encryptChunk P sys call chunk tmpdata =
      some (⟨enc.tag, enc.key, ⟨tmpdata.addr, tmpdata.addr_pos,
        enc.out ++ tmpdata.bytes.drop enc.out.length⟩, enc.out.length, enc.compress⟩,
        chunk.data) := by
    unfold encryptChunk
    rw [hplain, henc]
    rfl
  refine ⟨_, hrun, fun beyond => ?_⟩
  -- the encoder does not know what comes behind the buffer
  obtain ⟨enc', henc', -, hdec⟩ := hround beyond
  cases henc.symm.trans henc'
  dsimp only
  rw [take_left, ← hlen]
  exact hdec

theorem writeChunk_spec {chunk : ChunkDesc} (hnew : toInt idx ∉ st.keys)
    (hchunk : chunk.Encodes P sys.lib plain) :
    ∃ row file, writeChunk P st idx chunk = some ⟨st.keys.insert (toInt idx) row,
        Function.update st.files (chunkPath P idx) (some file)⟩ ∧
      ∀ beyond, iuChunkDecode sys.lib beyond .aesSha1
        (compressOfCode (columnUnsigned row.compression)) file row.key P.chunklen = .ok plain := by
  refine ⟨_, _, if_neg hnew, fun beyond => ?_⟩
  dsimp only
  rw [columnUnsigned_compressCode, compressOfCode_compressCode]
  exact hchunk beyond

variable {zerochunk : ChunkDesc}

theorem importChunk_spec {st : ImportSt} {piece : List UInt8}
    (hzero : zerochunk.Encodes P sys.lib (replicate P.chunklen 0))
    (hle : piece.length ≤ P.chunklen) (hnew : toInt idx ∉ st.stored.keys) :
    ∃ st' row file, importChunk P sys zerochunk st idx piece = some st' ∧
      st'.stored = ⟨st.stored.keys.insert (toInt idx) row,
        Function.update st.stored.files (chunkPath P idx) (some file)⟩ ∧
      ∀ beyond, iuChunkDecode sys.lib beyond .aesSha1
        (compressOfCode (columnUnsigned row.compression)) file row.key P.chunklen =
          .ok (fillUp 0 P.chunklen piece) := by
  unfold importChunk
  dsimp only
  generalize hbytes : (if piece.length < P.chunklen then
    (piece ++ st.chunk.data.bytes.drop piece.length).take piece.length ++
      replicate (P.chunklen - piece.length) 0
    else piece ++ st.chunk.data.bytes.drop piece.length) = bytes
  have htake : bytes.take P.chunklen = fillUp 0 P.chunklen piece := by
    rw [← hbytes]
    split
    next hlt =>
      rw [take_left, ← fillUp, take_of_length_le (length_fillUp hle).le]
    next hge =>
      have hfull : piece.length = P.chunklen := by omega
      rw [take_left' hfull, fillUp_full hfull]
  have hlong : P.chunklen ≤ bytes.length := by
    have hlen := congrArg List.length htake
    rw [length_fillUp hle, length_take] at hlen
    omega
  split
  next hz =>
    rw [isZero_eq_true hlong, htake] at hz
    rw [hz]
    obtain ⟨row, file, hwrite, hdec⟩ := writeChunk_spec hnew hzero
    rw [hwrite]
    exact ⟨_, row, file, rfl, rfl, hdec⟩
  next =>
    obtain ⟨chunk', henc, hchunk'⟩ := encryptChunk_spec sys (idx + 1)
      { st.chunk with data := { st.chunk.data with bytes }, len := P.chunklen }
      st.tmpdata htake (length_fillUp hle)
    obtain ⟨row, file, hwrite, hdec⟩ := writeChunk_spec hnew hchunk'
    rw [henc]
    dsimp only
    rw [hwrite]
    exact ⟨_, row, file, rfl, rfl, hdec⟩

theorem importChunk_none {st : ImportSt} (hmem : toInt idx ∈ st.stored.keys) (piece : List UInt8) :
    importChunk P sys zerochunk st idx piece = none := by
  have hwrite : ∀ chunk, writeChunk P st.stored idx chunk = none := fun _ => if_pos hmem
  unfold importChunk
  simp only [hwrite, Option.map_none]
  rw [ite_eq_left_iff]
  intro _
  generalize encryptChunk P sys (idx + 1) _ _ = encrypted
  cases encrypted <;> rfl

/-! ## The loop -/

/-- The chunks that have been stored, in order. -/
structure Imported (P : Params) (lib : Lib) (plains : List (List UInt8)) (st : ChunkStore) :
    Prop where
  keys : ∀ c, c ∈ st.keys ↔ ∃ j < plains.length, c = toInt j
  holds : ∀ j plain, plains[j]? = some plain → st.Holds P lib (toInt j) j plain

theorem imported_nil : Imported P sys.lib [] ⟨∅, fun _ => none⟩ where
  keys c := iff_of_false (AList.notMem_empty c) nofun
  holds _ _ h := nomatch h

theorem Imported.snoc {row : KeyRow} {file : List UInt8} (h : Imported P sys.lib plains st)
    (hlt : plains.length < 2 ^ 32)
    (hdec : ∀ beyond, iuChunkDecode sys.lib beyond .aesSha1
      (compressOfCode (columnUnsigned row.compression)) file row.key P.chunklen = .ok plain) :
    Imported P sys.lib (plains ++ [plain]) ⟨st.keys.insert (toInt plains.length) row,
      Function.update st.files (chunkPath P plains.length) (some file)⟩ := by
  constructor
  · intro c
    rw [AList.mem_insert, h.keys, length_append, length_singleton]
    constructor
    · intro hc
      obtain rfl | ⟨j, hj, rfl⟩ := hc
      · exact ⟨_, Nat.lt_succ_self _, rfl⟩
      · exact ⟨j, Nat.lt_succ_of_lt hj, rfl⟩
    · intro ⟨j, hj, hc⟩
      obtain hj | rfl := Nat.lt_succ_iff_lt_or_eq.mp hj
      · exact .inr ⟨j, hj, hc⟩
      · exact .inl hc
  · intro j p hp
    obtain ⟨hj, -⟩ := List.getElem?_eq_some_iff.mp hp
    rw [length_append, length_singleton] at hj
    obtain hj | rfl := Nat.lt_succ_iff_lt_or_eq.mp hj
    · -- a chunk from before has another number and another path
      rw [List.getElem?_append_left hj] at hp
      obtain ⟨row', file', hrow, hfile, hdec'⟩ := h.holds j p hp
      have hne : toInt j ≠ toInt plains.length := fun heq =>
        hj.ne (toInt_inj (hj.trans hlt) hlt heq)
      refine ⟨row', file', ?_, ?_, hdec'⟩
      · rw [AList.lookup_insert_ne hne]
        exact hrow
      · exact (Function.update_of_ne ((chunkPath_injective P).ne hj.ne) ..).trans hfile
    · rw [List.getElem?_concat_length] at hp
      cases hp
      exact ⟨row, file, AList.lookup_insert _, Function.update_self .., hdec⟩

theorem importLoop_cases (hzero : zerochunk.Encodes P sys.lib (replicate P.chunklen 0))
    (pieces : List (List UInt8)) :
    ∀ {plains : List (List UInt8)} (st : ImportSt),
    Imported P sys.lib plains st.stored → plains.length ≤ 2 ^ 32 →
    (∀ piece ∈ pieces, piece.length ≤ P.chunklen) →
    (plains.length + pieces.length ≤ 2 ^ 32 ∧ ∃ st',
      importLoop P sys zerochunk pieces (plains.length % 2 ^ 32) st = some st' ∧
        Imported P sys.lib (plains ++ pieces.map (fillUp 0 P.chunklen)) st'.stored) ∨
      (2 ^ 32 < plains.length + pieces.length ∧
        importLoop P sys zerochunk pieces (plains.length % 2 ^ 32) st = none) := by
  induction pieces with
  | nil =>
    intro plains st h hplains _
    rw [map_nil, append_nil]
    exact .inl ⟨hplains, st, rfl, h⟩
  | cons piece pieces ih =>
    intro plains st h hplains hle
    rw [length_cons, importLoop]
    obtain hlt | hall := lt_or_eq_of_le hplains
    · -- there is a number for the piece
      have hnew : toInt plains.length ∉ st.stored.keys := by
        intro hmem
        obtain ⟨j, hj, heq⟩ := (h.keys _).mp hmem
        exact hj.ne (toInt_inj (hj.trans hlt) hlt heq.symm)
      obtain ⟨st', row, file, hrun, hst', hdec⟩ :=
        importChunk_spec hzero (hle piece mem_cons_self) hnew
      have hnext := h.snoc hlt hdec
      rw [← hst'] at hnext
      have hlen : (plains ++ [fillUp 0 P.chunklen piece]).length = plains.length + 1 :=
        length_append
      have hrest := ih st' hnext (hlen.trans_le hlt) fun p hp => hle p (mem_cons_of_mem _ hp)
      rw [hlen, append_assoc, singleton_append, ← map_cons, Nat.add_assoc, Nat.add_comm 1] at hrest
      rw [Nat.mod_eq_of_lt hlt, hrun]
      exact hrest
    · -- the numbers start again
      have hmem : toInt (plains.length % 2 ^ 32) ∈ st.stored.keys := by
        rw [hall]
        exact (h.keys _).mpr ⟨0, by omega, rfl⟩
      rw [importChunk_none hmem]
      exact .inr ⟨by omega, rfl⟩

theorem importImage_cases (P : Params) (sys : Sys) (chunk : ChunkDesc) (zero tmpdata : Buf)
    (hle : ∀ piece ∈ pieces, piece.length ≤ P.chunklen) :
    (pieces.length ≤ 2 ^ 32 ∧ ∃ st, importImage P sys chunk zero tmpdata pieces = some st ∧
      Imported P sys.lib (pieces.map (fillUp 0 P.chunklen)) st) ∨
      (2 ^ 32 < pieces.length ∧ importImage P sys chunk zero tmpdata pieces = none) := by
  obtain ⟨zerochunk, henc, hzero⟩ := encryptChunk_spec sys 0
    { chunk with data := { zero with bytes := replicate P.chunklen 0 }, len := P.chunklen }
    tmpdata (take_of_length_le (length_replicate.le)) length_replicate
  have hloop := importLoop_cases hzero pieces
    ⟨chunk, { zero with bytes := replicate P.chunklen 0 }, ⟨∅, fun _ => none⟩⟩
    imported_nil (Nat.zero_le _) hle
  rw [length_nil, Nat.zero_add, nil_append] at hloop
  unfold importImage
  rw [henc]
  obtain ⟨hlen, st', hrun, hst'⟩ | ⟨hlen, hrun⟩ := hloop
  · exact .inl ⟨hlen, st'.stored, congrArg (Option.map _) hrun, hst'⟩
  · exact .inr ⟨hlen, congrArg (Option.map _) hrun⟩

/-! ## The image -/

theorem toInt_eq (h : n < 2 ^ 31) : toInt n = n := if_pos h

theorem ChunkStore.Holds.unique {lib : Lib} {c : Int} {plain' : List UInt8}
    (h : st.Holds P lib c idx plain) (h' : st.Holds P lib c idx plain') : plain = plain' := by
  obtain ⟨row, file, hrow, hfile, hdec⟩ := h
  obtain ⟨row', file', hrow', hfile', hdec'⟩ := h'
  cases hrow.symm.trans hrow'
  cases hfile.symm.trans hfile'
  cases (hdec 0).symm.trans (hdec' 0)
  rfl

theorem Imported.numbered_iff (h : Imported P sys.lib plains st) :
    (∀ c : Int, c ∈ st.keys ↔ 0 ≤ c ∧ c < n) ↔ plains.length = n ∧ plains.length ≤ 2 ^ 31 := by
  constructor
  · intro hkeys
    have hle : plains.length ≤ 2 ^ 31 := by
      by_contra hlt
      have hmem := (hkeys _).mp ((h.keys _).mpr ⟨2 ^ 31, Nat.lt_of_not_le hlt, rfl⟩)
      exact absurd hmem.1 (by decide)
    have hkeys' : ∀ j, j < plains.length ↔ j < n := by
      intro j
      have hj := (h.keys j).symm.trans (hkeys j)
      constructor
      · intro hlt
        have := hj.mp ⟨j, hlt, (toInt_eq (hlt.trans_le hle)).symm⟩
        omega
      · intro hlt
        obtain ⟨i, hi, heq⟩ := hj.mpr (by omega)
        rw [toInt_eq (hi.trans_le hle)] at heq
        omega
    have h1 := hkeys' n
    have h2 := hkeys' plains.length
    exact ⟨by omega, hle⟩
  · intro ⟨hlen, hle⟩ c
    rw [h.keys, ← hlen]
    constructor
    · intro ⟨j, hj, hc⟩
      rw [hc, toInt_eq (hj.trans_le hle)]
      omega
    · intro ⟨h0, hc⟩
      refine ⟨c.toNat, by omega, ?_⟩
      rw [toInt_eq (by omega)]
      omega

theorem imports_iff (P : Params) (sys : Sys) (chunk : ChunkDesc) (zero tmpdata : Buf)
    (hle : ∀ piece ∈ pieces, piece.length ≤ P.chunklen) :
    Imports P sys chunk zero tmpdata pieces.flatten pieces ↔
      pieces.length = blockCount P.chunklen pieces.flatten.length ∧ pieces.length ≤ 2 ^ 31 ∧
        ∀ i p, pieces[i]? = some p →
          fillUp 0 P.chunklen p = blockAt 0 P.chunklen pieces.flatten i := by
  unfold Imports
  obtain ⟨-, st, hrun, hst⟩ | ⟨hlt, hrun⟩ := importImage_cases P sys chunk zero tmpdata hle
  · have hnum := hst.numbered_iff (n := blockCount P.chunklen pieces.flatten.length)
    rw [length_map] at hnum
    rw [hrun, ← and_assoc, ← hnum]
    constructor
    · intro himports
      obtain ⟨st', heq, hkeys, hblocks⟩ := himports
      cases heq
      refine ⟨hkeys, fun i p hp => ?_⟩
      obtain ⟨hlen, hle31⟩ := hnum.mp hkeys
      obtain ⟨hi, -⟩ := List.getElem?_eq_some_iff.mp hp
      have hheld := hst.holds i (fillUp 0 P.chunklen p) (by rw [List.getElem?_map, hp]; rfl)
      rw [toInt_eq (hi.trans_le hle31)] at hheld
      exact hheld.unique (hblocks i (hlen ▸ hi))
    · intro hright
      obtain ⟨hkeys, hblocks⟩ := hright
      refine ⟨st, rfl, hkeys, fun i hi => ?_⟩
      obtain ⟨hlen, hle31⟩ := hnum.mp hkeys
      rw [← hlen] at hi
      have hp := List.getElem?_eq_getElem hi
      have hheld := hst.holds i (fillUp 0 P.chunklen pieces[i]) (by rw [List.getElem?_map, hp]; rfl)
      rw [toInt_eq (hi.trans_le hle31), hblocks i _ hp] at hheld
      exact hheld
  · rw [hrun]
    constructor
    · intro himports
      obtain ⟨st, hst, -⟩ := himports
      cases hst
    · intro hright
      have := hright.2.1
      omega

theorem imports_splitLengths_iff (P : Params) (sys : Sys) (chunk : ChunkDesc) (zero tmpdata : Buf)
    {image : List UInt8} {sizes : List Nat} (hsizes : ∀ n ∈ sizes, 0 < n ∧ n ≤ P.chunklen)
    (hsum : sizes.sum = image.length) :
    Imports P sys chunk zero tmpdata image (sizes.splitLengths image) ↔
      sizes.length = blockCount P.chunklen image.length ∧ sizes.length ≤ 2 ^ 31 ∧
        ∀ i p, (sizes.splitLengths image)[i]? = some p →
          fillUp 0 P.chunklen p = blockAt 0 P.chunklen image i := by
  have himports := imports_iff P sys chunk zero tmpdata
    (length_mem_splitLengths image sizes _ fun n hn => (hsizes n hn).2)
  rwa [flatten_splitLengths _ _ hsum.ge, length_splitLengths] at himports

/-- The image is stored if and only if it is read in as many calls as it has chunks, the numbers of
which are `int`s, and everything from the first short piece on is zero. -/
theorem import_image_iff (P : Params) (sys : Sys) (chunk : ChunkDesc) (zero tmpdata : Buf)
    (image : List UInt8) (sizes : List Nat) (hsizes : ∀ n ∈ sizes, 0 < n ∧ n ≤ P.chunklen)
    (hsum : sizes.sum = image.length) :
    Imports P sys chunk zero tmpdata image (sizes.splitLengths image) ↔
      sizes.length = blockCount P.chunklen image.length ∧ sizes.length ≤ 2 ^ 31 ∧
        ∀ b ∈ image.drop (firstShort P.chunklen sizes), b = 0 := by
  rw [imports_splitLengths_iff P sys chunk zero tmpdata hsizes hsum]
  refine and_congr_right fun hcount => and_congr_right fun _ => ?_
  have hflat : (sizes.splitLengths image).flatten = image :=
    flatten_splitLengths _ _ hsum.ge
  have hroom : (sizes.splitLengths image).flatten.length ≤
      (sizes.splitLengths image).length * P.chunklen := by
    rw [hflat, length_splitLengths, hcount]
    exact le_blockCount_mul P.chunklen_pos _
  have hfill := fillUp_eq_iff (z := 0)
    (length_mem_splitLengths image sizes _ fun n hn => (hsizes n hn).2) hroom
  rw [hflat, map_splitLengths_length _ _ hsum.le] at hfill
  exact hfill

/-! ## A file and a pipe -/

def plainSys : Sys := ⟨plainLib, fun _ _ => 0⟩

/-- Buffers as they are allocated. -/
def newBuf (addr : Nat) (h : 0 < addr) : Buf := ⟨addr, h, replicate 1024 0⟩

def newChunk : ChunkDesc := ⟨[], [], newBuf 8192 (by decide), 0, .none⟩

/-- A file of 1500 bytes is stored in two chunks. -/
theorem import_image_file :
    Imports smallChunks plainSys newChunk (newBuf 16384 (by decide)) (newBuf 4096 (by decide))
      (replicate 1500 7) ([1024, 476].splitLengths (replicate 1500 7)) := by
  refine (import_image_iff smallChunks plainSys newChunk _ _ (replicate 1500 7) [1024, 476]
    (by decide) (by rw [length_replicate]; rfl)).mpr ⟨?_, by decide, ?_⟩
  · rw [length_replicate]
    rfl
  · rw [drop_replicate]
    exact nofun

/-- A pipe gives the first byte of 1025 on its own, and the others follow 1023 zeros. -/
theorem import_image_pipe :
    (∀ n ∈ [1, 1024], 0 < n ∧ n ≤ smallChunks.chunklen) ∧
      [1, 1024].sum = (replicate 1025 (1 : UInt8)).length ∧
      ¬Imports smallChunks plainSys newChunk (newBuf 16384 (by decide)) (newBuf 4096 (by decide))
        (replicate 1025 1) ([1, 1024].splitLengths (replicate 1025 1)) := by
  have hsum : [1, 1024].sum = (replicate 1025 (1 : UInt8)).length := by
    rw [length_replicate]
    rfl
  have hsizes : ∀ n ∈ [1, 1024], 0 < n ∧ n ≤ smallChunks.chunklen := by decide
  refine ⟨hsizes, hsum, fun h => ?_⟩
  obtain ⟨-, -, hblocks⟩ := (imports_splitLengths_iff _ _ _ _ _ hsizes hsum).mp h
  -- the second byte of the first chunk
  have hfirst := congrArg (List.getD · 1 0) (hblocks 0 [1] rfl)
  exact absurd hfirst (by decide)

end OpenIsr.Tools
