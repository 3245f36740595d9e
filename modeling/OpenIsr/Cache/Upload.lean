import OpenIsr.Cache.Get
import OpenIsr.Server.CheckParcel

/-!
# The upload (copy_for_upload in parcelkeeper/cache_modes.c)

Before a commit the chunks that have changed are copied to a directory, from which they are
uploaded. `copy_for_upload` takes the numbers of the chunks from a table with 64-bit integers into
an `unsigned`, so that it can only be right for numbers that fit; `upload_iff` says that it then is,
and that the upload passes `srv_checkparcel`.
-/

namespace OpenIsr.Cache

open Base Crypto Util List Option
open Server (Name Dir Hdk content subdir)

/-! ## The table to_upload -/

/-- A row of `to_upload`. -/
structure UploadRow where
  chunk : Int
  tag : List UInt8
  /-- `NULL` if the chunk is not in the cache index. -/
  length : Option Int

def toUpload (main prev : Keyring) (chunks : Index) : List UploadRow :=
  main.entries.filterMap fun e =>
    if Server.keydiff main prev e.1 then some ⟨e.1, e.2.tag, chunks.lookup e.1⟩ else none

/-! ## Directories and files -/

/-- `%.4d` for an `unsigned`. -/
def dirName (dir : Nat) : Name :=
  if dir < 2 ^ 31 then padded 4 dir else '-' :: padded 4 (2 ^ 32 - dir)

/-- The directories that `make_upload_dirs` makes, unless it divides by zero. -/
def uploadDirs (P : Parcel) : Option (List Name) :=
  if P.chunksPerDir = 0 then none
  else
    let numdirs := (P.chunks + P.chunksPerDir - 1) % 2 ^ 32 / P.chunksPerDir
    some ((range numdirs).map dirName)

/-- `mkdir` unless the directory exists. -/
def makeDir (dest : Hdk) (d : Name) : Hdk := if d ∈ dest then dest else dest.insert d ∅

/-- `form_chunk_path`. -/
def formChunkPath (P : Parcel) (chunk : Nat) : Name × Name :=
  (padded 4 (chunk / P.chunksPerDir), padded 4 (chunk % P.chunksPerDir))

/-- The file is created or replaced, if there is its directory. -/
def writeFile (dest : Hdk) (path : Name × Name) (data : List UInt8) : Option Hdk :=
  (dest.lookup path.1).map fun dir => dest.insert path.1 (dir.insert path.2 data)

/-! ## The loop -/

/-- Where the copy of a chunk fails. -/
inductive CopyFault
  | read
  | open
  /-- The file is written in part. -/
  | write (n : Nat)
  | close
  deriving DecidableEq, Repr

/-- Where the body of the loop goes from one row. -/
inductive CopyEnd
  | next
  | out
  | damaged
  | crash
  deriving DecidableEq, Repr

/-- The body of the loop. -/
def copyChunk (P : Parcel) (st : Store) (fault : Option CopyFault) (dest : Hdk) (row : UploadRow) :
    Hdk × CopyEnd :=
  let chunk := columnUnsigned row.chunk
  let length := columnUnsigned (row.length.getD 0)
  if P.chunks < chunk then (dest, .damaged)
  else if row.tag.length ≠ hashlen then (dest, .damaged)
  else if length = 0 then (dest, .damaged)
  else if P.chunksize < length then (dest, .damaged)
  else
    match cacheReadChunk P st (fault = some .read) chunk length (some row.tag) with
    | .err .tagfail => (dest, .damaged)
    | .err _ => (dest, .out)
    | .crash => (dest, .crash)
    | .waiting => (dest, .crash)
    | .ok buf =>
      let path := formChunkPath P chunk
      if fault = some .open then (dest, .out)
      else
        -- how much of it is written
        let data := match fault with
          | some (.write n) => buf.take n
          | _ => buf
        match writeFile dest path data with
        | none => (dest, .out)
        | some dest => (dest, if fault = none then .next else .out)

/-- The loop over the rows; `faults` has the fault for each of them. -/
def copyRows (P : Parcel) (st : Store) (faults : Int → Option CopyFault) :
    List UploadRow → Hdk → Hdk × CopyEnd
  | [], dest => (dest, .next)
  | row :: rows, dest =>
    match copyChunk P st (faults row.chunk) dest row with
    | (dest, .next) => copyRows P st faults rows dest
    | (dest, e) => (dest, e)

/-- What the database does in one attempt. -/
inductive UploadAttempt
  /-- `begin` fails. -/
  | begin
  /-- A statement before the loop fails, because the database is busy or otherwise. -/
  | statement (busy : Bool)
  /-- The loop runs over all rows, or over some of them until the query fails. -/
  | rows (faults : Int → Option CopyFault) (stop : Option (Nat × Bool))

/-- What `copy_for_upload` meets. -/
structure UploadEnv where
  /-- `mkdir` of `dest_dir` and of the directories in it. -/
  destFails : Bool
  mkdirFails : Name → Bool
  hoardSyncFails : Bool
  vacuumFails : Bool
  attempts : List UploadAttempt
  flag : FlagWrite

/-- How `copy_for_upload` ends. -/
inductive UploadEnd
  | returned (ret : Nat)
  | crash
  /-- It is still trying again. -/
  | waiting
  deriving DecidableEq, Repr

/-- The result of `copy_for_upload`. -/
structure Upload where
  ended : UploadEnd
  store : Store
  dest : Hdk

/-- From the label `again` on. -/
def uploadAttempts (P : Parcel) (st : Store) (rows : List UploadRow) (flag : FlagWrite) :
    List UploadAttempt → Hdk → Upload
  | [], dest => ⟨.waiting, st, dest⟩
  | .begin :: _, dest => ⟨.returned 1, st, dest⟩
  | .statement busy :: attempts, dest =>
    if busy then uploadAttempts P st rows flag attempts dest else ⟨.returned 1, st, dest⟩
  | .rows faults stop :: attempts, dest =>
    let seen := match stop with
      | none => rows
      | some (n, _) => rows.take n
    match copyRows P st faults seen dest with
    | (dest, .crash) => ⟨.crash, st, dest⟩
    | (dest, .out) => ⟨.returned 1, st, dest⟩
    | (dest, .damaged) => ⟨.returned 1, (cacheSetFlag flag st caDamaged).2, dest⟩
    | (dest, .next) =>
      match stop with
      | none => ⟨.returned 0, st, dest⟩
      | some (_, true) => uploadAttempts P st rows flag attempts dest
      | some (_, false) => ⟨.returned 1, st, dest⟩

/-- `copy_for_upload`; `dest` is what `dest_dir` has in it, if there is that directory. -/
def copyForUpload (P : Parcel) (env : UploadEnv) (st : Store) (prev : Keyring) (dest : Option Hdk) :
    Upload :=
  let start := dest.getD ∅
  if cacheTestFlag st caDamaged then ⟨.returned 1, st, start⟩
  else if cacheTestFlag st caDirty then ⟨.returned 1, st, start⟩
  else if dest.isNone && env.destFails then ⟨.returned 1, st, start⟩
  else
    match uploadDirs P with
    | none => ⟨.crash, st, start⟩
    | some dirs =>
      -- it stops at the first `mkdir` that fails
      let made := (dirs.takeWhile fun d => d ∈ start ∨ env.mkdirFails d = false).foldl makeDir start
      if dirs.any fun d => d ∉ start ∧ env.mkdirFails d = true then ⟨.returned 1, st, made⟩
      else if env.hoardSyncFails then ⟨.returned 1, st, made⟩
      else if env.vacuumFails then ⟨.returned 1, st, made⟩
      else uploadAttempts P st (toUpload st.keys prev st.chunks) env.flag env.attempts made

/-! ## Rows -/

section rows

variable {P : Parcel} {st : Store} {rows : List UploadRow} {dest dest' : Hdk} {row : UploadRow}

theorem mem_toUpload {main prev : Keyring} {chunks : Index} :
    row ∈ toUpload main prev chunks ↔ Server.keydiff main prev row.chunk = true ∧
      (∃ k, main.lookup row.chunk = some k ∧ k.tag = row.tag) ∧
      row.length = chunks.lookup row.chunk := by
  rw [toUpload, mem_filterMap]
  constructor
  · rintro ⟨⟨i, k⟩, hmem, hrow⟩
    split at hrow
    next hdiff =>
      cases hrow
      exact ⟨hdiff, ⟨k, AList.mem_lookup_iff.mpr hmem, rfl⟩, rfl⟩
    next => cases hrow
  · obtain ⟨i, tag, length⟩ := row
    rintro ⟨hdiff, ⟨k, hk, rfl⟩, hlength⟩
    obtain rfl : length = chunks.lookup i := hlength
    exact ⟨⟨i, k⟩, AList.mem_lookup_iff.mp hk, if_pos hdiff⟩

theorem content_writeFile {path : Name × Name} {data : List UInt8}
    (h : writeFile dest path data = some dest') (d f : Name) :
    content (some dest') d f = if (d, f) = path then some data else content (some dest) d f := by
  obtain ⟨dir, hdir, rfl⟩ := map_eq_some_iff.mp h
  obtain ⟨d', f'⟩ := path
  rw [Server.content_eq, Server.content_eq, Server.subdir_insert]
  by_cases hd : d = d'
  · subst hd
    rw [if_pos rfl, bind_some, Server.lookup_insert_file, subdir, bind_some, hdir]
    simp only [Prod.mk.injEq, true_and, bind_some]
  · rw [if_neg hd, if_neg fun h => hd (congrArg Prod.fst h)]

theorem digest_of_read {fails : Bool} {chunk len : Nat} {tag buf : List UInt8}
    (h : cacheReadChunk P st fails chunk len (some tag) = .ok buf) :
    iuChunkCryptoDigest buf = tag := by
  unfold cacheReadChunk at h
  dsimp only at h
  split at h
  next => cases h
  split at h
  next => cases h
  split at h
  next => cases h
  split at h
  next => cases h
  next htag =>
    obtain rfl := Got.ok.inj h
    exact (not_not.mp htag).symm

theorem copyChunk_next {fault : Option CopyFault}
    (h : copyChunk P st fault dest row = (dest', .next)) :
    ∃ data, iuChunkCryptoDigest data = row.tag ∧ ∀ d f, content (some dest') d f
      = if (d, f) = formChunkPath P (columnUnsigned row.chunk) then some data
        else content (some dest) d f := by
  unfold copyChunk at h
  dsimp only at h
  iterate 4
    split at h
    next => cases h
  split at h
  next => cases h
  next => cases h
  next => cases h
  next => cases h
  next buf hread =>
    split at h
    next => cases h
    split at h
    next => cases h
    next dest₁ hwrite =>
      split at h
      next hfault =>
        subst hfault
        obtain rfl := (Prod.mk.inj h).1
        exact ⟨buf, digest_of_read hread, content_writeFile hwrite⟩
      next => cases h

/-- The files are copies of chunks. -/
def Sound (P : Parcel) (rows : List UploadRow) (dest : Hdk) : Prop :=
  ∀ d f data, content (some dest) d f = some data →
    ∃ row ∈ rows, (d, f) = formChunkPath P (columnUnsigned row.chunk) ∧
      iuChunkCryptoDigest data = row.tag

/-- The chunk has been copied. -/
def Present (P : Parcel) (dest : Hdk) (row : UploadRow) : Prop :=
  (content (some dest) (formChunkPath P (columnUnsigned row.chunk)).1
    (formChunkPath P (columnUnsigned row.chunk)).2).isSome

theorem copyRows_next {faults : Int → Option CopyFault} {l : List UploadRow}
    (hl : ∀ row ∈ l, row ∈ rows) (hsound : Sound P rows dest)
    (h : copyRows P st faults l dest = (dest', .next)) :
    Sound P rows dest' ∧ (∀ row, Present P dest row → Present P dest' row) ∧
      ∀ row ∈ l, Present P dest' row := by
  induction l generalizing dest with
  | nil =>
    obtain rfl := (Prod.mk.inj h).1
    exact ⟨hsound, fun _ h => h, fun _ h => absurd h not_mem_nil⟩
  | cons row l ih =>
    obtain ⟨hrow, hl⟩ := forall_mem_cons.mp hl
    unfold copyRows at h
    split at h
    next dest₁ hcopy =>
      obtain ⟨data, hdigest, hcontent⟩ := copyChunk_next hcopy
      have hsound₁ : Sound P rows dest₁ := by
        intro d f data' hdata'
        rw [hcontent] at hdata'
        split at hdata'
        next hpath =>
          cases hdata'
          exact ⟨row, hrow, hpath, hdigest⟩
        next => exact hsound d f data' hdata'
      have hkept : ∀ row', Present P dest row' → Present P dest₁ row' := by
        intro row' h
        rw [Present, hcontent]
        split
        next => rfl
        next => exact h
      have hnew : Present P dest₁ row := by
        rw [Present, hcontent, if_pos rfl]
        rfl
      obtain ⟨hsound', hkept', hall⟩ := ih hl hsound₁ h
      refine ⟨hsound', fun row' h => hkept' row' (hkept row' h), ?_⟩
      exact forall_mem_cons.mpr ⟨hkept' row hnew, hall⟩
    next e hne hcopy =>
      obtain rfl := (Prod.mk.inj h).2
      exact (hne rfl).elim

theorem uploadAttempts_zero {flag : FlagWrite} {attempts : List UploadAttempt}
    (hsound : Sound P rows dest)
    (h : (uploadAttempts P st rows flag attempts dest).ended = .returned 0) :
    Sound P rows (uploadAttempts P st rows flag attempts dest).dest ∧
      ∀ row ∈ rows, Present P (uploadAttempts P st rows flag attempts dest).dest row := by
  induction attempts generalizing dest with
  | nil => cases h
  | cons a attempts ih =>
    cases a with
    | begin => cases h
    | statement busy =>
      unfold uploadAttempts at h ⊢
      split at h
      next hbusy =>
        rw [if_pos hbusy]
        exact ih hsound h
      next => cases h
    | rows faults stop =>
      unfold uploadAttempts at h ⊢
      dsimp only at h ⊢
      cases stop with
      | none =>
        dsimp only at h ⊢
        rcases hcopy : copyRows P st faults rows dest with ⟨dest₁, e⟩
        rw [hcopy] at h
        cases e with
        | next =>
          obtain ⟨hsound', -, hall⟩ := copyRows_next (fun _ h => h) hsound hcopy
          exact ⟨hsound', hall⟩
        | _ => cases h
      | some stop =>
        obtain ⟨n, busy⟩ := stop
        dsimp only at h ⊢
        rcases hcopy : copyRows P st faults (rows.take n) dest with ⟨dest₁, e⟩
        rw [hcopy] at h
        cases e with
        | next =>
          -- the files of this attempt stay
          cases busy with
          | true => exact ih (copyRows_next (fun _ => mem_of_mem_take) hsound hcopy).1 h
          | false => cases h
        | _ => cases h

end rows

/-! ## The upload -/

/-- The directory and the file of a chunk, as `srv_checkparcel` forms their names. -/
def chunkPath (P : Parcel) (i : Int) : Name × Name :=
  (paddedInt (i / P.chunksPerDir), paddedInt (i % P.chunksPerDir))

/-- There is one file for each chunk whose tags differ, it has the right data, and the upload passes
`srv_checkparcel` if `prev` is the keyring of the last version there. -/
structure UploadOk (P : Parcel) (main prev : Keyring) (dest : Hdk) : Prop where
  files : ∀ d f, (content (some dest) d f).isSome ↔
    ∃ i, Server.keydiff main prev i = true ∧ (d, f) = chunkPath P i
  tags : ∀ i, Server.keydiff main prev i = true → ∃ k data, main.lookup i = some k ∧
    content (some dest) (chunkPath P i).1 (chunkPath P i).2 = some data ∧
    iuChunkCryptoDigest data = k.tag
  check : ∀ hpos, Server.hdkErrors ⟨P.chunks, P.chunksPerDir, hpos⟩ (Server.keydiff prev main)
    (some dest) = 0

section upload

variable {P : Parcel} {st : Store} {main prev : Keyring} {dest : Hdk} {env : UploadEnv}

theorem formChunkPath_eq (P : Parcel) (n : Nat) : formChunkPath P n = chunkPath P n := by
  rw [formChunkPath, chunkPath, ← Int.natCast_ediv, ← Int.natCast_emod, paddedInt_natCast,
    paddedInt_natCast]

theorem chunkPath_injective (P : Parcel) : Function.Injective (chunkPath P) := by
  intro i j h
  have hdir := paddedInt_injective (congrArg Prod.fst h)
  have hfile := paddedInt_injective (congrArg Prod.snd h)
  rw [← Int.mul_ediv_add_emod i P.chunksPerDir, hdir, hfile, Int.mul_ediv_add_emod]

theorem lookup_of_keydiff {i : Int} (h : Server.keydiff main prev i = true) :
    ∃ k, main.lookup i = some k := by
  unfold Server.keydiff at h
  split at h
  next k _ hk _ => exact ⟨k, hk⟩
  next => cases h

theorem keydiff_comm (a b : Keyring) (i : Int) : Server.keydiff a b i = Server.keydiff b a i := by
  unfold Server.keydiff
  cases a.lookup i <;> cases b.lookup i <;> simp only [ne_eq, eq_comm]

theorem content_makeDir {d f : Name} (h : content (some dest) d f = none) (d' : Name) :
    content (some (makeDir dest d')) d f = none := by
  unfold makeDir
  split
  next => exact h
  rw [Server.content_eq, Server.subdir_insert]
  split
  next => rfl
  next => exact h

theorem content_foldl_makeDir {d f : Name} (dirs : List Name)
    (h : content (some dest) d f = none) : content (some (dirs.foldl makeDir dest)) d f = none := by
  induction dirs generalizing dest with
  | nil => exact h
  | cons d' dirs ih => exact ih (content_makeDir h d')

theorem copyForUpload_started {dest : Option Hdk}
    (hret : (copyForUpload P env st prev dest).ended = .returned 0) :
    ∃ dirs : List Name, copyForUpload P env st prev dest
      = uploadAttempts P st (toUpload st.keys prev st.chunks) env.flag env.attempts
          (dirs.foldl makeDir (dest.getD ∅)) := by
  generalize hr : copyForUpload P env st prev dest = r at hret ⊢
  unfold copyForUpload at hr
  dsimp only at hr
  iterate 3
    split at hr
    next => subst hr; cases hret
  split at hr
  next => subst hr; cases hret
  next dirs hdirs =>
    iterate 3
      split at hr
      next => subst hr; cases hret
    exact ⟨_, hr.symm⟩

theorem copyForUpload_zero {dest : Option Hdk} (hdest : dest.getD ∅ = ∅)
    (hret : (copyForUpload P env st prev dest).ended = .returned 0) :
    Sound P (toUpload st.keys prev st.chunks) (copyForUpload P env st prev dest).dest ∧
      ∀ row ∈ toUpload st.keys prev st.chunks,
        Present P (copyForUpload P env st prev dest).dest row := by
  obtain ⟨dirs, heq⟩ := copyForUpload_started hret
  rw [heq] at hret ⊢
  refine uploadAttempts_zero (fun d f data hdata => ?_) hret
  rw [hdest, content_foldl_makeDir _ rfl] at hdata
  cases hdata

/-- The numbers of all chunks whose tags differ fit into an `unsigned`. -/
def Fits (main prev : Keyring) : Prop :=
  ∀ i, Server.keydiff main prev i = true → 0 ≤ i ∧ i < 2 ^ 32

theorem Fits.path (hfits : Fits main prev) {i : Int} (hdiff : Server.keydiff main prev i = true) :
    formChunkPath P (columnUnsigned i) = chunkPath P i := by
  obtain ⟨hpos, hlt⟩ := hfits i hdiff
  rw [formChunkPath_eq]
  congr 1
  unfold columnUnsigned
  omega

theorem Fits.uploadOk {chunks : Index} (hfits : Fits main prev)
    (hsound : Sound P (toUpload main prev chunks) dest)
    (hpresent : ∀ row ∈ toUpload main prev chunks, Present P dest row) :
    UploadOk P main prev dest := by
  have htags : ∀ i, Server.keydiff main prev i = true → ∃ k data, main.lookup i = some k ∧
      content (some dest) (chunkPath P i).1 (chunkPath P i).2 = some data ∧
      iuChunkCryptoDigest data = k.tag := by
    intro i hdiff
    obtain ⟨k, hk⟩ := lookup_of_keydiff hdiff
    have hrow := hpresent ⟨i, k.tag, chunks.lookup i⟩ (mem_toUpload.mpr ⟨hdiff, ⟨k, hk, rfl⟩, rfl⟩)
    rw [Present, hfits.path hdiff] at hrow
    obtain ⟨data, hdata⟩ := isSome_iff_exists.mp hrow
    -- the file may have been written for another row, but no other row has the same path
    obtain ⟨row, hmem, hpath, htag⟩ := hsound _ _ _ hdata
    obtain ⟨hdiff', ⟨k', hk', hktag⟩, -⟩ := mem_toUpload.mp hmem
    rw [hfits.path hdiff'] at hpath
    obtain rfl := chunkPath_injective P hpath
    cases hk.symm.trans hk'
    exact ⟨k, data, hk, hdata, htag.trans hktag.symm⟩
  have hfiles : ∀ d f, (content (some dest) d f).isSome ↔
      ∃ i, Server.keydiff main prev i = true ∧ (d, f) = chunkPath P i := by
    intro d f
    constructor
    · intro hsome
      obtain ⟨data, hdata⟩ := isSome_iff_exists.mp hsome
      obtain ⟨row, hmem, hpath, -⟩ := hsound d f data hdata
      obtain ⟨hdiff, -⟩ := mem_toUpload.mp hmem
      exact ⟨row.chunk, hdiff, hpath.trans (hfits.path hdiff)⟩
    · rintro ⟨i, hdiff, hpath⟩
      obtain ⟨k, data, -, hdata, -⟩ := htags i hdiff
      rw [← hpath] at hdata
      rw [hdata]
      rfl
  refine ⟨hfiles, htags, fun hpos => Server.hdkErrors_eq_zero.mpr fun c hc => ?_⟩
  rw [keydiff_comm, Bool.eq_iff_iff]
  refine (hfiles _ _).trans ⟨?_, fun h => ⟨c, h, formChunkPath_eq P c⟩⟩
  rintro ⟨i, hdiff, hpath⟩
  obtain rfl := chunkPath_injective P ((formChunkPath_eq P c).symm.trans hpath)
  exact hdiff

theorem UploadOk.fits {rows : List UploadRow} (hok : UploadOk P main prev dest)
    (hsound : Sound P rows dest) : Fits main prev := by
  intro i hdiff
  -- the file for the chunk is that of a number which fits
  obtain ⟨data, hdata⟩ := isSome_iff_exists.mp ((hok.files _ _).mpr ⟨i, hdiff, rfl⟩)
  obtain ⟨row, -, hpath, -⟩ := hsound _ _ _ hdata
  rw [formChunkPath_eq] at hpath
  obtain rfl := chunkPath_injective P hpath
  have := columnUnsigned_lt row.chunk
  omega

/-- If `copy_for_upload` returns 0, the upload is right exactly if the numbers of all chunks whose
tags differ fit into an `unsigned`. -/
theorem upload_iff {env : UploadEnv} {dest : Option Hdk} (hdest : dest.getD ∅ = ∅)
    (hret : (copyForUpload P env st prev dest).ended = .returned 0) :
    UploadOk P st.keys prev (copyForUpload P env st prev dest).dest ↔ Fits st.keys prev := by
  obtain ⟨hsound, hpresent⟩ := copyForUpload_zero hdest hret
  exact ⟨fun hok => hok.fits hsound, fun hfits => hfits.uploadOk hsound hpresent⟩

end upload

/-- A store of the parcel with one chunk, in whose tables the chunk has the number `i`. -/
def oneChunk (i : Int) (tag : List UInt8) : Store where
  keys := AList.insert i ⟨tag, [], 1⟩ ∅
  chunks := AList.insert i 1 ∅
  file := [0]
  offset := 0
  flags := 0

def quietUpload : UploadEnv where
  destFails := false
  mkdirFails _ := false
  hoardSyncFails := false
  vacuumFails := false
  attempts := [.rows (fun _ => none) none]
  flag := .ok

theorem keydiff_oneChunk (i j : Int) {tag : List UInt8} (htag : tag ≠ []) :
    Server.keydiff (oneChunk i tag).keys (oneChunk i []).keys j = decide (j = i) := by
  unfold Server.keydiff oneChunk
  by_cases hj : j = i
  · subst hj
    simp only [AList.lookup_insert, ne_eq, htag, not_false_eq_true, decide_true]
  · simp only [AList.lookup_insert_ne hj, AList.lookup_empty, hj, decide_false]

theorem digest_zero_ne : iuChunkCryptoDigest [0] ≠ [] := by
  have hlen : (iuChunkCryptoDigest [0]).length = 20 := by
    rw [iuChunkCryptoDigest_eq]
    exact sha1_length _
  intro h
  rw [h] at hlen
  cases hlen

theorem upload_oneChunk {i : Int} (hi : columnUnsigned i = 0) :
    (copyForUpload tinyParcel quietUpload (oneChunk i (iuChunkCryptoDigest [0]))
      (oneChunk i []).keys none).ended = .returned 0 := by
  have hlen : (iuChunkCryptoDigest [0]).length = hashlen := by
    rw [iuChunkCryptoDigest_eq]
    exact sha1_length _
  generalize htag : iuChunkCryptoDigest [0] = tag at *
  have hne : tag ≠ [] := htag ▸ digest_zero_ne
  have hrows : toUpload (oneChunk i tag).keys (oneChunk i []).keys (oneChunk i tag).chunks
      = [⟨i, tag, some 1⟩] := by
    have hentries : (oneChunk i tag).keys.entries = [⟨i, ⟨tag, [], 1⟩⟩] := rfl
    have hlookup : (oneChunk i tag).chunks.lookup i = some 1 := AList.lookup_insert _
    rw [toUpload, hentries, filterMap_cons, if_pos (by rw [keydiff_oneChunk i _ hne]; simp),
      hlookup]
    rfl
  have hread : cacheReadChunk tinyParcel (oneChunk i tag) false 0 1 (some tag) = .ok [0] := by
    have hpread : pread (oneChunk i tag).file (cacheChunkToOffset tinyParcel (oneChunk i tag) 0) 1
        = [0] := rfl
    unfold cacheReadChunk
    rw [hpread]
    dsimp only
    rw [htag, if_neg Bool.false_ne_true, if_neg (by decide), if_neg (by decide), if_neg (by simp)]
  have hcopy : copyChunk tinyParcel (oneChunk i tag) none (makeDir ∅ (padded 4 0)) ⟨i, tag, some 1⟩
      = ((makeDir ∅ (padded 4 0)).insert (padded 4 0) (AList.insert (padded 4 0) [0] ∅),
        .next) := by
    unfold copyChunk
    dsimp only
    rw [hi, hlen, if_neg (by decide), if_neg (by decide), if_neg (by decide), if_neg (by decide)]
    rw [show decide (none = some CopyFault.read) = false from rfl, getD_some,
      show columnUnsigned 1 = 1 from rfl, hread]
    rfl
  have hstart : copyForUpload tinyParcel quietUpload (oneChunk i tag) (oneChunk i []).keys none
      = uploadAttempts tinyParcel (oneChunk i tag)
          (toUpload (oneChunk i tag).keys (oneChunk i []).keys (oneChunk i tag).chunks) .ok
          [.rows (fun _ => none) none] (makeDir ∅ (padded 4 0)) := by
    have hdirs : uploadDirs tinyParcel = some [padded 4 0] := by decide
    have hflags : ∀ flag, 0 < flag → cacheTestFlag (oneChunk i tag) flag = false := by
      intro flag hflag
      simp only [cacheTestFlag, oneChunk, Nat.zero_and, decide_eq_false_iff_not]
      omega
    unfold copyForUpload
    rw [hdirs, hflags _ (by decide), hflags _ (by decide)]
    rfl
  rw [hstart, hrows]
  simp only [uploadAttempts, copyRows, hcopy]

/-- The chunk with the number 4294967296 is taken for the first chunk. -/
theorem upload_wraps :
    let st := oneChunk (2 ^ 32) (iuChunkCryptoDigest [0])
    let prev := (oneChunk (2 ^ 32) []).keys
    (copyForUpload tinyParcel quietUpload st prev none).ended = .returned 0 ∧
      ¬ UploadOk tinyParcel st.keys prev
        (copyForUpload tinyParcel quietUpload st prev none).dest := by
  have hret := upload_oneChunk (i := 2 ^ 32) rfl
  refine ⟨hret, fun hok => ?_⟩
  have hdiff : Server.keydiff (oneChunk (2 ^ 32) (iuChunkCryptoDigest [0])).keys
      (oneChunk (2 ^ 32) []).keys (2 ^ 32) = true := by
    rw [keydiff_oneChunk _ _ digest_zero_ne, decide_eq_true_eq]
  exact lt_irrefl _ (hok.fits (copyForUpload_zero rfl hret).1 _ hdiff).2

/-- The first chunk. -/
theorem upload_zero :
    let st := oneChunk 0 (iuChunkCryptoDigest [0])
    let prev := (oneChunk 0 []).keys
    (copyForUpload tinyParcel quietUpload st prev none).ended = .returned 0 ∧
      UploadOk tinyParcel st.keys prev
        (copyForUpload tinyParcel quietUpload st prev none).dest := by
  have hret := upload_oneChunk (i := 0) rfl
  refine ⟨hret, (upload_iff rfl hret).mpr fun i hdiff => ?_⟩
  rw [keydiff_oneChunk _ _ digest_zero_ne, decide_eq_true_eq] at hdiff
  subst hdiff
  decide

end OpenIsr.Cache
