import OpenIsr.Cache.ParcelCfg
import OpenIsr.Cache.Upload

/-!
# What is computed from the parameters of a parcel

The chunk size, the number of chunks and the number of chunks per directory come from `parcel.cfg`
and the size of the chunk cache from the command line. `form_chunk_path`, `make_upload_dirs`,
`examine_cache` and `image_init` compute with them in 32 bits, and two of the numbers are divided
by. `parse_parcel_cfg` checks neither that they are not zero nor that they are small enough.

`Safe` is what one expects of all of it: the parameters are the numbers in the file and the
results are what they would be without a limit. `Sized` has the bounds that it takes, and
`parameters_safe_iff` says that it takes all of them.
-/

namespace OpenIsr.Cache

open Base

/-! ## The users -/

/-- The path of a file in a numbered directory, as `"%s/%.4u/%.4u"` has it. -/
def pathText (pre : List Char) (dir file : Nat) : List Char :=
  pre ++ '/' :: (padded 4 dir ++ '/' :: padded 4 file)

/-- `form_chunk_path`, unless it divides by zero. -/
def PkParcel.formChunkPath (p : PkParcel) (pre : List Char) (chunk : Nat) : Option (List Char) :=
  if p.chunksPerDir = 0 then none
  else some (pathText pre (chunk / p.chunksPerDir) (chunk % p.chunksPerDir))

/-- The number of directories that `make_upload_dirs` makes, unless it divides by zero. -/
def PkParcel.numdirs (p : PkParcel) : Option Nat :=
  if p.chunksPerDir = 0 then none
  else some ((p.chunks + p.chunksPerDir - 1) % 2 ^ 32 / p.chunksPerDir)

/-- The numbers that `examine_cache` prints. -/
structure CacheUsage where
  validPct : Nat
  validMb : Nat
  maxMb : Nat
  dirtyPct : Nat
  dirtyMb : Nat
  deriving DecidableEq, Repr

/-- The size of a number of chunks in megabytes; the product is a 64-bit one. -/
def PkParcel.megabytes (p : PkParcel) (chunks : Nat) : Nat :=
  (chunks * p.chunksize) >>> 20 % 2 ^ 32

/-- `examine_cache` with the counts of `cache_count_chunks`, unless it divides by zero. -/
def PkParcel.examineCache (p : PkParcel) (validchunks dirtychunks : Nat) : Option CacheUsage :=
  if p.chunks = 0 then none
  else some
    { validPct := 100 * validchunks % 2 ^ 32 / p.chunks
      validMb := p.megabytes validchunks
      maxMb := p.megabytes p.chunks
      dirtyPct := if validchunks = 0 then 0 else 100 * dirtychunks % 2 ^ 32 / validchunks
      dirtyMb := p.megabytes dirtychunks }

/-- The bound on the chunk cache, a tenth of the memory. -/
def maxMb (physPages pageSize : Nat) : Nat :=
  1 * physPages * pageSize % 2 ^ 64 / (10 <<< 20) % 2 ^ 32

/-- `image_init` as far as the number of chunk buffers goes. `created` is whether the cleaner
thread could be created. -/
def PkParcel.imageInit (p : PkParcel) (physPages pageSize chunkCache : Nat) (created : Bool) :
    Except PkErr Nat :=
  if chunkCache = 0 then .error .invalid
  else if maxMb physPages pageSize < chunkCache then .error .invalid
  else if created then .ok (chunkCache * (1 <<< 20 / p.chunksize) % 2 ^ 32)
  else .error .callfail

theorem PkParcel.imageInit_ok {p : PkParcel} {physPages pageSize chunkCache buffers : Nat}
    {created : Bool} (h : p.imageInit physPages pageSize chunkCache created = .ok buffers) :
    buffers = chunkCache * (2 ^ 20 / p.chunksize) % 2 ^ 32 := by
  unfold PkParcel.imageInit at h
  split at h
  next => cases h
  split at h
  next => cases h
  split at h
  next => exact (Except.ok.inj h).symm
  next => cases h

/-! ## In an accepted parcel

The upload is modelled for a parcel that has been accepted. -/

theorem uploadDirs_toParcel {p : PkParcel} (h : p.Checked) :
    uploadDirs (p.toParcel h) = p.numdirs.map fun n => (List.range n).map dirName := by
  unfold uploadDirs PkParcel.numdirs PkParcel.toParcel
  dsimp only
  split <;> rfl

theorem formChunkPath_toParcel {p : PkParcel} (h : p.Checked) (hne : p.chunksPerDir ≠ 0)
    (pre : List Char) (chunk : Nat) :
    p.formChunkPath pre chunk
      = some (pre ++ '/' :: ((formChunkPath (p.toParcel h) chunk).1 ++
          '/' :: (formChunkPath (p.toParcel h) chunk).2)) :=
  if_neg hne

/-! ## Safe parameters -/

/-- The stored parameters are the numbers in the file, and what is computed from them is exact. -/
structure PkParcel.Safe (p : PkParcel) (text : List Char) (buffers : Nat) : Prop where
  chunksize : cfgNumeral text "CHUNKSIZE".toList = some (p.chunksize : Int)
  chunks : cfgNumeral text "NUMCHUNKS".toList = some (p.chunks : Int)
  chunksPerDir : cfgNumeral text "CHUNKSPERDIR".toList = some (p.chunksPerDir : Int)
  -- no division by zero
  makesDirs : p.numdirs ≠ none
  formsPath : ∀ pre chunk, p.formChunkPath pre chunk ≠ none
  -- a chunk of the parcel has a path of its own, in a directory that is made
  distinct : ∀ pre, ∀ c < p.chunks, ∀ c' < p.chunks,
    p.formChunkPath pre c = p.formChunkPath pre c' → c = c'
  inDir : ∀ pre, ∀ c < p.chunks, ∃ numdirs dir file, p.numdirs = some numdirs ∧ dir < numdirs ∧
    p.formChunkPath pre c = some (pathText pre dir file)
  -- the percentages
  usage : ∀ valid ≤ p.chunks, ∀ dirty ≤ valid, ∃ u, p.examineCache valid dirty = some u ∧
    u.validPct = 100 * valid / p.chunks ∧ u.dirtyPct = 100 * dirty / valid
  buffer : 1 ≤ buffers

/-- The bounds on the numbers in the file and on the size of the chunk cache. -/
def Sized (text : List Char) (chunkCache : Nat) : Prop :=
  ∃ chunksize chunks chunksPerDir : Nat,
    cfgNumeral text "CHUNKSIZE".toList = some (chunksize : Int) ∧
    cfgNumeral text "NUMCHUNKS".toList = some (chunks : Int) ∧
    cfgNumeral text "CHUNKSPERDIR".toList = some (chunksPerDir : Int) ∧
    chunksize < 2 ^ 32 ∧ 0 < chunks ∧ 100 * chunks < 2 ^ 32 ∧
    0 < chunksPerDir ∧ chunks + chunksPerDir ≤ 2 ^ 32 ∧
    chunkCache * (2 ^ 20 / chunksize) % 2 ^ 32 ≠ 0

section lemmas

variable {p : PkParcel} {pre : List Char} {c : Nat}

theorem slash_notMem_padded (w n : Nat) : '/' ∉ padded w n := fun h => by
  have := isDigit_of_mem_padded h
  simp at this

theorem pathText_inj {dir file dir' file' : Nat}
    (h : pathText pre dir file = pathText pre dir' file') : dir = dir' ∧ file = file' := by
  have htail := (List.cons.inj (List.append_cancel_left h)).2
  obtain ⟨hdir, hfile⟩ := append_cons_inj (slash_notMem_padded 4 dir)
    (slash_notMem_padded 4 dir') htail
  exact ⟨padded_injective 4 hdir, padded_injective 4 hfile⟩

theorem formChunkPath_inj (hne : p.chunksPerDir ≠ 0) {c' : Nat}
    (h : p.formChunkPath pre c = p.formChunkPath pre c') : c = c' := by
  rw [PkParcel.formChunkPath, PkParcel.formChunkPath, if_neg hne, if_neg hne] at h
  obtain ⟨hdir, hfile⟩ := pathText_inj (Option.some.inj h)
  rw [← Nat.div_add_mod c p.chunksPerDir, hdir, hfile, Nat.div_add_mod]

/-- The directory of a chunk is made if the sum of the two numbers does not wrap around. -/
theorem div_lt_numdirs (hne : p.chunksPerDir ≠ 0) (hsum : p.chunks + p.chunksPerDir ≤ 2 ^ 32)
    (hc : c < p.chunks) :
    c / p.chunksPerDir < (p.chunks + p.chunksPerDir - 1) % 2 ^ 32 / p.chunksPerDir := by
  have hpos := pos_of_ne_zero hne
  rw [Nat.mod_eq_of_lt (by omega), Nat.lt_iff_add_one_le, ← Nat.add_div_right c hpos]
  exact Nat.div_le_div_right (by omega)

/-- If it does, no directory is made. -/
theorem numdirs_wrap (h : p.Checked) (hsum : 2 ^ 32 < p.chunks + p.chunksPerDir) :
    (p.chunks + p.chunksPerDir - 1) % 2 ^ 32 / p.chunksPerDir = 0 := by
  have hchunks := h.chunks_lt
  have hperDir := h.chunksPerDir_lt
  exact Nat.div_eq_of_lt (by omega)

/-- A hundred times a number that is no more than the chunks is divided right if it does not wrap
around for all chunks. -/
theorem percent_eq {n : Nat} (h : 100 * p.chunks < 2 ^ 32) (hn : n ≤ p.chunks) (d : Nat) :
    100 * n % 2 ^ 32 / d = 100 * n / d := by
  rw [Nat.mod_eq_of_lt (by omega)]

/-- If it does, the percentage is too low for a cache that is full. -/
theorem percent_full (hpos : 0 < p.chunks)
    (h : 100 * p.chunks % 2 ^ 32 / p.chunks = 100 * p.chunks / p.chunks) :
    100 * p.chunks < 2 ^ 32 := by
  rw [Nat.mul_div_cancel 100 hpos] at h
  by_contra hwrap
  have hlt : 100 * p.chunks % 2 ^ 32 < p.chunks * 100 := by omega
  have := Nat.div_lt_of_lt_mul hlt
  omega

end lemmas

/-- For a file and a size of the chunk cache that have been accepted, the parameters are safe
exactly if they are within the bounds. -/
theorem parameters_safe_iff {canonicalizeUuid : List Char → Option (List Char)}
    {text : List Char} {p : PkParcel}
    (hp : parseParcelCfg canonicalizeUuid (.ok text) = .ok p)
    {physPages pageSize chunkCache buffers : Nat} {created : Bool}
    (hinit : p.imageInit physPages pageSize chunkCache created = .ok buffers) :
    p.Safe text buffers ↔ Sized text chunkCache := by
  have hchecked := parseParcelCfg_checked hp
  have hbuffers := PkParcel.imageInit_ok hinit
  obtain ⟨⟨size, hsize, hsize'⟩, ⟨count, hcount, hcount'⟩, ⟨perDir, hperDir, hperDir'⟩⟩ :=
    parseParcelCfg_numeral hp
  constructor
  · intro h
    have hne : p.chunksPerDir ≠ 0 := fun h0 => h.makesDirs (if_pos h0)
    have hchunks : p.chunks ≠ 0 := by
      intro h0
      obtain ⟨u, hu, -⟩ := h.usage 0 (Nat.zero_le _) 0 (Nat.le_refl 0)
      rw [PkParcel.examineCache, if_pos h0] at hu
      cases hu
    have hpos := Nat.pos_of_ne_zero hchunks
    refine ⟨p.chunksize, p.chunks, p.chunksPerDir, h.chunksize, h.chunks, h.chunksPerDir,
      hchecked.chunksize_lt, hpos, ?_, Nat.pos_of_ne_zero hne, ?_, ?_⟩
    · -- a full cache
      obtain ⟨u, hu, hvalid, -⟩ := h.usage p.chunks (Nat.le_refl _) 0 (Nat.zero_le _)
      rw [PkParcel.examineCache, if_neg hchunks] at hu
      cases hu
      exact percent_full hpos hvalid
    · -- the first chunk
      by_contra hwrap
      obtain ⟨numdirs, dir, file, hdirs, hdir, -⟩ := h.inDir [] 0 hpos
      rw [PkParcel.numdirs, if_neg hne, numdirs_wrap hchecked (by omega)] at hdirs
      cases hdirs
      exact absurd hdir (Nat.not_lt_zero dir)
    · have := h.buffer
      omega
  · rintro ⟨n, chunks, dirs, hn, hchunks, hdirs, hlt, hpos, hpercent, hdpos, hsum, hbuf⟩
    -- the three numbers are stored as they are
    cases hsize.symm.trans hn
    cases hcount.symm.trans hchunks
    cases hperDir.symm.trans hdirs
    rw [toUlong_mod_of_lt hlt] at hsize'
    rw [toUlong_mod_of_lt (by omega)] at hcount' hperDir'
    subst hsize' hcount' hperDir'
    have hne : p.chunksPerDir ≠ 0 := by omega
    have hnumdirs : p.numdirs = some _ := if_neg hne
    refine ⟨hn, hchunks, hdirs, ?_, ?_, ?_, ?_, ?_, ?_⟩
    · rw [hnumdirs]
      exact Option.some_ne_none _
    · intro pre chunk
      rw [PkParcel.formChunkPath, if_neg hne]
      exact Option.some_ne_none _
    · intro pre c _ c' _ heq
      exact formChunkPath_inj hne heq
    · intro pre c hc
      exact ⟨_, _, _, hnumdirs, div_lt_numdirs hne hsum hc, if_neg hne⟩
    · intro valid hvalid dirty hdirty
      refine ⟨_, if_neg (Nat.ne_of_gt hpos), percent_eq hpercent hvalid _, ?_⟩
      dsimp only
      split
      next h0 => rw [h0, Nat.div_zero]
      next => exact percent_eq hpercent (hdirty.trans hvalid) _
    · omega

/-- A UUID, as `uuid_unparse_lower` writes it. -/
def sampleUuid : List Char :=
  List.intercalate ['-'] ["00000000".toList, "0000".toList, "0000".toList, "0000".toList,
    "000000000001".toList]

/-- A `parcel.cfg` in which only the number of chunks per directory is open. -/
def sampleCfg (chunksPerDir : List Char) : List Char :=
  List.intercalate ['\n'] ["VERSION = 4".toList, "CHUNKSIZE = 131072".toList,
    "NUMCHUNKS = 8".toList, "CHUNKSPERDIR = ".toList ++ chunksPerDir, "CRYPTO = aes-sha1".toList,
    "COMPRESS = none,zlib".toList, "UUID = ".toList ++ sampleUuid, "SERVER = localhost".toList,
    "USER = user".toList, "PARCEL = parcel".toList, "RPATH = /isr".toList]

/-- What it is parsed to. -/
def sampleParcel (chunksPerDir : Nat) : PkParcel where
  crypto := .aesSha1
  requiredCompress := 6
  chunks := 8
  chunksize := 131072
  chunksPerDir := chunksPerDir
  hashlen := hashlen
  uuid := sampleUuid
  server := "localhost".toList
  user := "user".toList
  parcel := "parcel".toList
  master := "/isr/user/parcel/last/hdk".toList

theorem parameters_safe_sample : (sampleParcel 512).Safe (sampleCfg "512".toList) 256 := by
  have hp : parseParcelCfg some (.ok (sampleCfg "512".toList)) = .ok (sampleParcel 512) := by
    decide +kernel
  have hinit : (sampleParcel 512).imageInit (2 ^ 20) 4096 32 true = .ok 256 := by decide +kernel
  exact (parameters_safe_iff hp hinit).mpr ⟨131072, 8, 512, by decide +kernel⟩

/-- A file with no chunks per directory is accepted, and `make_upload_dirs` divides by zero. -/
theorem parameters_divide_by_zero :
    parseParcelCfg some (.ok (sampleCfg "0".toList)) = .ok (sampleParcel 0) ∧
      (sampleParcel 0).imageInit (2 ^ 20) 4096 32 true = .ok 256 ∧
      ¬ (sampleParcel 0).Safe (sampleCfg "0".toList) 256 :=
  ⟨by decide +kernel, by decide +kernel, fun h => h.makesDirs rfl⟩

end OpenIsr.Cache
