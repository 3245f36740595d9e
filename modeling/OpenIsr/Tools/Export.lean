import OpenIsr.Base.Sparse
import OpenIsr.Cache.Keyring
import OpenIsr.Tools.Disktool

/-!
# What export_image writes

The rows come in order, and each chunk is written behind the one before it. If the file can be
given its length at the start, chunks of zeros are left out, which changes no byte: only the length
could be wrong in the end (`written_outAfter`). It is wrong if the last chunk is left out and there
are more rows than an `unsigned` can count.
-/

namespace OpenIsr.Tools

open Base Crypto Util Cache List

/-- The file of a chunk decodes, with the row of a keyring, to its plaintext. A path has the number
of the chunk as an `unsigned`. -/
def Decodes (P : Params) (lib : Lib) (beyond : UInt8) (keys : Keyring) (files : ChunkFiles)
    (i : Nat) (plain : List UInt8) : Prop :=
  ∃ row file, keys.lookup (i : Int) = some row ∧
    files (chunkPath P (i % 2 ^ 32)) = some file ∧
    iuChunkDecode lib beyond .aesSha1 (compressOfCode (columnUnsigned row.compression)) file row.key
      P.chunklen = .ok plain

variable {P : Params} {lib : Lib} {beyond : UInt8} {addr i : Nat} {writeZeros : Bool}
  {keys : Keyring} {files : ChunkFiles} {plain : Nat → List UInt8} {n : Nat} {data : List UInt8}
  {row : KeyRow}

/-! ## The rows -/

theorem length_le_of_decode {compress : ChunkCompress} {inp key out : List UInt8} {outLen : Nat}
    (h : iuChunkDecode lib beyond .aesSha1 compress inp key outLen = .ok out) :
    inp.length ≤ outLen := by
  unfold iuChunkDecode at h
  split at h
  next => cases h
  split at h
  next => cases h
  next hlen => omega

section

variable (h : Decodes P lib beyond keys files i data)
include h

theorem Decodes.length : data.length = P.chunklen := by
  obtain ⟨row, file, -, -, hdec⟩ := h
  obtain ⟨-, -, -, hlen, -⟩ := iuChunkDecode_ok hdec
  exact hlen

theorem Decodes.key_length (hrow : keys.lookup (i : Int) = some row) :
    row.key.length = hashlen := by
  obtain ⟨row', file, hrow', -, hdec⟩ := h
  cases hrow.symm.trans hrow'
  obtain ⟨data, -, hkey, -, -⟩ := iuChunkDecode_ok hdec
  rw [← hkey, iuChunkCryptoDigest_eq]
  exact sha1_length data

theorem Decodes.readChunk (hrow : keys.lookup (i : Int) = some row) :
    readChunk P lib beyond files (i % 2 ^ 32) row = some data := by
  obtain ⟨row', file, hrow', hfile, hdec⟩ := h
  cases hrow.symm.trans hrow'
  unfold Tools.readChunk
  rw [hfile]
  dsimp only
  rw [take_of_length_le (length_le_of_decode hdec), hdec]

end

theorem exportLoop_eq (addr : Nat) (writeZeros : Bool) (m : Nat) :
    ∀ {k : Nat} {rows : List NumberedRow} (out : Out),
    rows.map Sigma.fst = (List.range' k m).map (Nat.cast : Nat → Int) →
    (∀ r ∈ rows, keys.lookup r.1 = some r.2 ∧ r.2.tag.length = hashlen) →
    (∀ i < k + m, Decodes P lib beyond keys files i (plain i)) →
    exportLoop P lib beyond addr writeZeros files rows (k % 2 ^ 32) out =
      some ((List.range' k m).foldl (fun out i => putChunk P addr writeZeros out (plain i))
        out) := by
  induction m with
  | zero =>
    intro k rows out hnum _ _
    rw [map_eq_nil_iff.mp hnum]
    rfl
  | succ m ih =>
    intro k rows out hnum hrows hdec
    cases rows with
    | nil => cases hnum
    | cons r rows =>
      obtain ⟨c, row⟩ := r
      rw [range'_succ, map_cons, map_cons] at hnum
      obtain ⟨hc, hnums⟩ := List.cons.inj hnum
      obtain rfl : c = (k : Int) := hc
      obtain ⟨hrow, htag⟩ := hrows _ mem_cons_self
      have hk := hdec k (by omega)
      have hcol : columnUnsigned (k : Int) = k % 2 ^ 32 := by
        unfold columnUnsigned
        omega
      rw [exportLoop, if_neg (not_not.mpr hcol),
        if_neg (fun h => h.elim (fun h => h htag) fun h => h (hk.key_length hrow)),
        hk.readChunk hrow]
      dsimp only
      rw [Nat.mod_add_mod]
      exact ih _ hnums (fun r hr => hrows r (mem_cons_of_mem _ hr))
        fun i hi => hdec i (by omega)

theorem tag_of_exportLoop (rows : List NumberedRow) : ∀ {idx : Nat} {out out' : Out},
    exportLoop P lib beyond addr writeZeros files rows idx out = some out' →
    ∀ r ∈ rows, r.2.tag.length = hashlen := by
  induction rows with
  | nil => exact fun _ _ h => nomatch h
  | cons r rows ih =>
    intro idx out out' h
    rw [exportLoop] at h
    split at h
    next => cases h
    split at h
    next => cases h
    next hlens =>
      split at h
      next => cases h
      refine forall_mem_cons.mpr ⟨?_, ih h⟩
      exact not_not.mp fun htag => hlens (.inl htag)

/-! ## The file -/

theorem putChunk_written (out : Out) (hlen : data.length = P.chunklen)
    (h : writeZeros = true ∨ data ≠ replicate P.chunklen 0) :
    putChunk P addr writeZeros out data =
      ⟨pwrite out.contents out.pos data, out.pos + P.chunklen⟩ := by
  refine if_neg fun hskip => ?_
  rw [Bool.and_eq_true, Bool.not_eq_true', isZero_eq_true hlen.ge,
    take_of_length_le hlen.le] at hskip
  obtain hdense | hdata := h
  · rw [hdense] at hskip
    exact nomatch hskip.1
  · exact hdata hskip.2

theorem putChunk_skipped (out : Out) :
    putChunk P addr false out (replicate P.chunklen 0) =
      ⟨out.contents, out.pos + P.chunklen⟩ := by
  refine if_pos ?_
  rw [Bool.not_false, Bool.true_and, isZero_eq_true (by rw [length_replicate]),
    take_of_length_le (by rw [length_replicate])]

theorem length_putChunk (out : Out) (hlen : data.length = P.chunklen) :
    (putChunk P addr writeZeros out data).contents.length =
      if writeZeros = true ∨ data ≠ replicate P.chunklen 0
      then max out.contents.length (out.pos + P.chunklen) else out.contents.length := by
  split
  next hput =>
    rw [putChunk_written out hlen hput, ← hlen]
    exact length_pwrite (ne_nil_of_length_pos (hlen ▸ P.chunklen_pos))
  next hskip =>
    rw [not_or, Bool.not_eq_true, not_not] at hskip
    rw [hskip.1, hskip.2, putChunk_skipped]

/-- The output after the first chunks. -/
def outAfter (P : Params) (addr : Nat) (writeZeros : Bool) (plain : Nat → List UInt8)
    (init n : Nat) : Out :=
  (range n).foldl (fun out i => putChunk P addr writeZeros out (plain i))
    ⟨replicate init 0, 0⟩

theorem outAfter_succ (init n : Nat) : outAfter P addr writeZeros plain init (n + 1) =
    putChunk P addr writeZeros (outAfter P addr writeZeros plain init n) (plain n) := by
  rw [outAfter, range_succ, foldl_append]
  rfl

theorem written_outAfter (P : Params) (addr : Nat) (writeZeros : Bool) (init : Nat)
    (hlen : ∀ i < n, (plain i).length = P.chunklen) :
    (outAfter P addr writeZeros plain init n).pos = n * P.chunklen ∧
      ((range n).flatMap plain).length = n * P.chunklen ∧
      Written init ((range n).flatMap plain)
        (outAfter P addr writeZeros plain init n).contents := by
  induction n with
  | zero => exact ⟨(Nat.zero_mul _).symm, (Nat.zero_mul _).symm, written_nil init⟩
  | succ n ih =>
    obtain ⟨hpos, hdone, hwritten⟩ := ih fun i hi => hlen i (Nat.lt_succ_of_lt hi)
    have hn := hlen n (Nat.lt_succ_self n)
    have hne : plain n ≠ [] := ne_nil_of_length_pos (hn ▸ P.chunklen_pos)
    rw [outAfter_succ, range_succ, flatMap_append, flatMap_singleton,
      length_append, hdone, hn, ← Nat.succ_mul]
    by_cases hput : writeZeros = true ∨ plain n ≠ replicate P.chunklen 0
    · rw [putChunk_written _ hn hput, hpos, ← Nat.succ_mul]
      rw [← hdone]
      exact ⟨rfl, rfl, hwritten.write hne⟩
    · rw [not_or, Bool.not_eq_true, not_not] at hput
      rw [hput.1, hput.2]
      rw [hput.1] at hpos hwritten
      rw [putChunk_skipped, hpos, ← Nat.succ_mul]
      exact ⟨rfl, rfl, hwritten.skip _⟩

theorem outAfter_eq_iff {init : Nat} (hinit : init ≤ n * P.chunklen)
    (hlen : ∀ i < n, (plain i).length = P.chunklen) :
    (outAfter P addr writeZeros plain init n).contents = (range n).flatMap plain ↔
      init = n * P.chunklen ∨ writeZeros = true ∨ plain (n - 1) ≠ replicate P.chunklen 0 := by
  cases n with
  | zero =>
    rw [Nat.zero_mul] at hinit ⊢
    exact iff_of_true (by rw [Nat.le_zero.mp hinit]; rfl) (.inl (Nat.le_zero.mp hinit))
  | succ n =>
    obtain ⟨-, hdone, hwritten⟩ := written_outAfter P addr writeZeros init hlen
    obtain ⟨hat, hbefore, hsofar⟩ :=
      written_outAfter P addr writeZeros init fun i hi => hlen i (Nat.lt_succ_of_lt hi)
    have hle := hsofar.length_le
    have hpos := P.chunklen_pos
    rw [hbefore] at hle
    rw [hwritten.eq_iff, hdone, outAfter_succ, length_putChunk _ (hlen n (Nat.lt_succ_self n)), hat,
      Nat.add_sub_cancel]
    rw [Nat.succ_mul] at hinit ⊢
    split
    next hput => exact iff_of_true (by omega) (.inr hput)
    next hskip =>
      -- nothing has been written behind the chunk before
      have hge := hsofar.init_le
      rw [or_iff_left hskip]
      omega

/-! ## The image -/

/-- The length that the file is given at the start. -/
def startLength (P : Params) (writeZeros : Bool) (n : Nat) : Nat :=
  if writeZeros then 0 else n % 2 ^ 32 * P.chunklen

theorem exportImage_eq (addr : Nat) (writeZeros : Bool)
    (hkeys : ∀ c : Int, c ∈ keys ↔ 0 ≤ c ∧ c < n)
    (hfiles : ∀ i < n, Decodes P lib beyond keys files i (plain i))
    (htags : ∀ r ∈ keys.entries, r.2.tag.length = hashlen) :
    exportImage P lib beyond addr writeZeros keys files =
      some (outAfter P addr writeZeros plain (startLength P writeZeros n) n).contents := by
  have hnum := map_mergeSort_eq_range hkeys
  have hcount : keys.entries.length = n := by
    have := congrArg List.length hnum
    rwa [length_map, length_map, length_range, length_mergeSort] at this
  have hcol : columnUnsigned (n : Int) = n % 2 ^ 32 := by
    unfold columnUnsigned
    omega
  have hstart : (if writeZeros then [] else ftruncate (ftruncate [] 0) (n % 2 ^ 32 * P.chunklen)) =
      replicate (startLength P writeZeros n) (0 : UInt8) := by
    unfold startLength
    cases writeZeros with
    | true => rfl
    | false => simp [ftruncate]
  have hrows : ∀ r ∈ keys.entries.mergeSort fun r r' => r.1 ≤ r'.1,
      keys.lookup r.1 = some r.2 ∧ r.2.tag.length = hashlen := by
    intro r hr
    have hmem := mem_mergeSort.mp hr
    exact ⟨AList.mem_lookup_iff.mpr hmem, htags r hmem⟩
  rw [range_eq_range'] at hnum
  have hloop := exportLoop_eq addr writeZeros n ⟨replicate (startLength P writeZeros n) 0, 0⟩
    hnum hrows (by rwa [Nat.zero_add])
  unfold exportImage
  dsimp only
  rw [hcount, hcol, hstart]
  rw [← range_eq_range'] at hloop
  exact congrArg (Option.map _) hloop

theorem startLength_eq_iff : startLength P false n = n * P.chunklen ↔ n < 2 ^ 32 := by
  rw [startLength, if_neg Bool.false_ne_true, Nat.mul_left_inj P.chunklen_pos.ne']
  omega

theorem exportImage_eq_iff (addr : Nat) (writeZeros : Bool)
    (hkeys : ∀ c : Int, c ∈ keys ↔ 0 ≤ c ∧ c < n)
    (hfiles : ∀ i < n, Decodes P lib beyond keys files i (plain i))
    (htags : ∀ r ∈ keys.entries, r.2.tag.length = hashlen) :
    exportImage P lib beyond addr writeZeros keys files = some ((range n).flatMap plain) ↔
      writeZeros = true ∨ n < 2 ^ 32 ∨ plain (n - 1) ≠ replicate P.chunklen 0 := by
  have hstart : startLength P writeZeros n ≤ n * P.chunklen := by
    unfold startLength
    split
    next => exact Nat.zero_le _
    next => exact Nat.mul_le_mul_right _ (Nat.mod_le ..)
  rw [exportImage_eq addr writeZeros hkeys hfiles htags, Option.some_inj,
    outAfter_eq_iff hstart fun i hi => (hfiles i hi).length]
  cases writeZeros with
  | true => exact iff_of_true (.inr (.inl rfl)) (.inl rfl)
  | false =>
    rw [startLength_eq_iff]
    simp only [Bool.false_eq_true, false_or]

/-- The chunks are written one after the other if and only if the tags have the right length and,
where chunks are left out, either there are no more rows than can be counted or the last chunk is
not zero. -/
theorem export_image_iff (P : Params) (lib : Lib) (beyond : UInt8) (addr : Nat) (writeZeros : Bool)
    (keys : Keyring) (files : ChunkFiles) (n : Nat) (plain : Nat → List UInt8)
    (hkeys : ∀ c : Int, c ∈ keys ↔ 0 ≤ c ∧ c < n)
    (hfiles : ∀ i < n, Decodes P lib beyond keys files i (plain i)) :
    exportImage P lib beyond addr writeZeros keys files = some ((range n).flatMap plain) ↔
      (∀ r ∈ keys.entries, r.2.tag.length = hashlen) ∧
        (writeZeros = true ∨ n < 2 ^ 32 ∨ plain (n - 1) ≠ replicate P.chunklen 0) := by
  constructor
  · intro h
    have htags : ∀ r ∈ keys.entries, r.2.tag.length = hashlen := by
      intro r hr
      obtain ⟨out, hout, -⟩ := Option.map_eq_some_iff.mp h
      exact tag_of_exportLoop _ hout r (mem_mergeSort.mpr hr)
    exact ⟨htags, (exportImage_eq_iff addr writeZeros hkeys hfiles htags).mp h⟩
  · intro ⟨htags, h⟩
    exact (exportImage_eq_iff addr writeZeros hkeys hfiles htags).mpr h

/-! ## Chunks of zeros and others -/

variable {full : Nat → Bool}

/-- A chunk of zeros, or one that begins with sixteen bytes 7. -/
def plainChunk (b : Bool) : List UInt8 := replicate 16 (if b then 7 else 0) ++ replicate 1008 0

/-- What it is encrypted to; the cipher leaves each block as it is. -/
def cipherChunk (b : Bool) : List UInt8 := replicate 1024 (if b then 7 else 0)

def plainRow (b : Bool) : KeyRow :=
  ⟨iuChunkCryptoDigest (cipherChunk b), iuChunkCryptoDigest (plainChunk b), 1⟩

def plainNumbered (full : Nat → Bool) (i : Nat) : NumberedRow := ⟨i, plainRow (full i)⟩

/-- A keyring for such chunks. -/
def plainRows (full : Nat → Bool) (n : Nat) : Keyring where
  entries := (range n).map (plainNumbered full)
  nodupKeys := by
    have hinj : Function.Injective (Nat.cast : Nat → Int) := Nat.cast_injective
    rw [List.NodupKeys, List.keys, map_map]
    exact nodup_range.map hinj

theorem mem_plainRows {r : NumberedRow} :
    r ∈ (plainRows full n).entries ↔ ∃ i < n, plainNumbered full i = r := by
  rw [plainRows, mem_map]
  simp only [mem_range]

theorem mem_keys_plainRows (full : Nat → Bool) (n : Nat) (c : Int) :
    c ∈ plainRows full n ↔ 0 ≤ c ∧ c < n := by
  constructor
  · intro h
    obtain ⟨r, hr, rfl⟩ := mem_map.mp h
    obtain ⟨i, hi, rfl⟩ := mem_plainRows.mp hr
    dsimp only [plainNumbered]
    omega
  · intro ⟨h0, hlt⟩
    refine mem_map.mpr ⟨_, mem_plainRows.mpr ⟨c.toNat, by omega, rfl⟩, ?_⟩
    dsimp only [plainNumbered]
    omega

theorem tag_plainRows (full : Nat → Bool) (n : Nat) :
    ∀ r ∈ (plainRows full n).entries, r.2.tag.length = hashlen := by
  intro r hr
  obtain ⟨i, -, rfl⟩ := mem_plainRows.mp hr
  dsimp only [plainNumbered, plainRow]
  rw [iuChunkCryptoDigest_eq]
  exact sha1_length _

theorem decodes_plainRows {files : ChunkFiles} {i : Nat} (hi : i < n)
    (hfile : files (chunkPath smallChunks (i % 2 ^ 32)) = some (cipherChunk (full i))) :
    Decodes smallChunks plainLib 0 (plainRows full n) files i (plainChunk (full i)) := by
  refine ⟨plainRow (full i), _, ?_, hfile, ?_⟩
  · exact AList.mem_lookup_iff.mpr (mem_plainRows.mpr ⟨i, hi, rfl⟩)
  · generalize full i = b
    have hlen : (cipherChunk b).length = smallChunks.chunklen := length_replicate
    have hne : cipherChunk b ≠ [] := ne_nil_of_length_pos (hlen ▸ smallChunks.chunklen_pos)
    rw [plainRow, iuChunkCryptoDigest_eq (plainChunk b), ← hlen]
    exact iuChunkDecode_none hne (by cases b <;> decide +kernel)

/-- Three chunks, of which the first and the last are zeros and left out. -/
theorem export_image_three :
    exportImage smallChunks plainLib 0 4096 false (plainRows (· = 1) 3)
        (fun path => some (cipherChunk (path = chunkPath smallChunks 1))) =
      some ((range 3).flatMap fun i => plainChunk (i = 1)) := by
  have hpath : ∀ i < 3, chunkPath smallChunks (i % 2 ^ 32) = chunkPath smallChunks 1 ↔ i = 1 := by
    decide
  refine (export_image_iff smallChunks plainLib 0 4096 false _ _ 3 _ (mem_keys_plainRows _ 3)
    fun i hi => decodes_plainRows hi ?_).mpr ⟨tag_plainRows _ 3, .inr (.inl (by decide))⟩
  simp only [hpath i hi]

/-- With 2^32 rows the file is given no length, and the last chunk is left out. -/
theorem export_image_uncounted :
    let keys := plainRows (fun _ => false) (2 ^ 32)
    let files : ChunkFiles := fun _ => some (cipherChunk false)
    (∀ c : Int, c ∈ keys ↔ 0 ≤ c ∧ c < (2 ^ 32 : Nat)) ∧
      (∀ i < 2 ^ 32, Decodes smallChunks plainLib 0 keys files i (plainChunk false)) ∧
      (∀ r ∈ keys.entries, r.2.tag.length = hashlen) ∧
      exportImage smallChunks plainLib 0 4096 false keys files ≠
        some ((range (2 ^ 32)).flatMap fun _ => plainChunk false) := by
  intro keys files
  have hfiles : ∀ i < 2 ^ 32, Decodes smallChunks plainLib 0 keys files i (plainChunk false) :=
    fun i hi => decodes_plainRows hi rfl
  refine ⟨mem_keys_plainRows _ _, hfiles, tag_plainRows _ _, fun h => ?_⟩
  obtain hdense | hcount | hplain := (exportImage_eq_iff 4096 false (mem_keys_plainRows _ _)
    hfiles (tag_plainRows _ _)).mp h
  · exact nomatch hdense
  · exact lt_irrefl _ hcount
  · exact hplain rfl

end OpenIsr.Tools
