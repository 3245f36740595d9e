import OpenIsr.Cache.Keyring
import OpenIsr.Cache.Upload

/-!
# The chunk map in shared memory

While a parcel is in use there is a map in shared memory with one byte for each of its chunks.
`shm_init` makes it, with `parcel->chunks` bytes, and enters what the cache index and the keyrings
say; after that the byte of a chunk is updated whenever something happens to it.

Chunk numbers come from the databases, so `shm_update` checks them before it uses one as an index,
and so do `copy_for_upload` and `validate_cachefile`. All three let the number `parcel->chunks`
pass. It is the first number that is not one of a chunk, and its byte is the first one behind the
map.

A chunk number is a 64-bit integer in the tables and is cut down to 32 bits before it is checked.
`validate_keyring` does not notice this either, so that a table may pass all checks although its
numbers are too large. `confined_iff` has both.
-/

namespace OpenIsr.Cache

open Base Crypto Util List

/-! ## The map -/

/-- `enum shm_chunk_status` -/
def shmPresent : UInt8 := 0x01

@[inherit_doc shmPresent]
def shmDirty : UInt8 := 0x02

@[inherit_doc shmPresent]
def shmAccessedSession : UInt8 := 0x04

@[inherit_doc shmPresent]
def shmDirtySession : UInt8 := 0x08

@[inherit_doc shmPresent]
def shmCached : UInt8 := 0x10

@[inherit_doc shmPresent]
def shmCacheDirty : UInt8 := 0x20

/-- `shm_update`; `none` if it writes behind the map. -/
def shmUpdate (P : Parcel) (base : List UInt8) (chunk : Nat) (set clear : UInt8) :
    Option (List UInt8) :=
  if P.chunks < chunk then some base
  else if chunk < base.length then some (base.modify chunk fun b => (b ||| set) &&& ~~~clear)
  else none

/-- The body of both loops of `shm_init`. -/
def shmRow (P : Parcel) (bit : UInt8) (base : List UInt8) (i : Int) : Option (List UInt8) :=
  shmUpdate P base (columnUnsigned i) bit 0

/-- `SELECT main.keys.chunk FROM main.keys JOIN prev.keys ... WHERE main.keys.tag != prev.keys.tag`
-/
def modifiedRows (prev main : Keyring) : List Int := main.keys.filter (Server.keydiff main prev)

/-- One attempt of `shm_init` to fill the map. -/
structure ShmAttempt where
  beginFails : Bool
  /-- The query of the cache index fails after that many rows. -/
  chunksStops : Option Nat
  /-- The query for modified chunks does. -/
  modifiedStops : Option Nat
  /-- It fails because the database is busy. -/
  busy : Bool

/-- How `shm_init` ends. -/
inductive ShmEnd
  | mapped (base : List UInt8)
  | failed (e : PkErr)
  /-- It has written behind the map. -/
  | outside
  /-- It is still trying again. -/
  | waiting
  deriving DecidableEq, Repr

/-- `shm_init` from the label `again` on. -/
def shmFill (P : Parcel) (prev : Keyring) (st : Store) : List ShmAttempt → List UInt8 → ShmEnd
  | [], _ => .waiting
  | a :: attempts, base =>
    if a.beginFails then .failed .ioerr
    else
      match (seen st.chunks.keys a.chunksStops).foldlM (shmRow P shmPresent) base with
      | none => .outside
      | some base =>
        if a.chunksStops.isSome then
          if a.busy then shmFill P prev st attempts base else .failed .sqlerr
        else
          match (seen (modifiedRows prev st.keys) a.modifiedStops).foldlM (shmRow P shmDirty)
            base with
          | none => .outside
          | some base =>
            if a.modifiedStops.isSome then
              if a.busy then shmFill P prev st attempts base else .failed .sqlerr
            else .mapped base

/-- `shm_init`, once there is the segment. -/
def shmInit (P : Parcel) (prev : Keyring) (st : Store) (attempts : List ShmAttempt) : ShmEnd :=
  shmFill P prev st attempts (replicate P.chunks 0)

/-! ## While the parcel is in use -/

/-- What happens to a chunk. -/
inductive ShmEvent
  /-- `cache_shm_set_dirty`, and the end of `cache_update`. -/
  | dirty
  /-- `cache_shm_set_cached`. -/
  | cached (b : Bool)
  /-- `cache_shm_set_cache_dirty`. -/
  | cacheDirty (b : Bool)
  /-- The end of `cache_get`. -/
  | accessed
  deriving DecidableEq, Repr

def ShmEvent.update (P : Parcel) (base : List UInt8) (chunk : Nat) : ShmEvent → Option (List UInt8)
  | .dirty =>
    shmUpdate P base chunk (shmPresent ||| shmAccessedSession ||| shmDirty ||| shmDirtySession) 0
  | .cached b => shmUpdate P base chunk (if b then shmCached else 0) (if b then 0 else shmCached)
  | .cacheDirty b =>
    shmUpdate P base chunk (if b then shmCacheDirty else 0) (if b then 0 else shmCacheDirty)
  | .accessed => shmUpdate P base chunk shmAccessedSession 0

/-- The chunks that the image code asks for are those of the pieces that `io_chunk` announces. -/
def Announced (P : Parcel) (chunk : Nat) : Prop :=
  ∃ cur cur' : Fuse.IoCursor, Fuse.ioChunk P.toParcel cur = (true, cur') ∧ cur'.chunk = chunk

theorem Announced.lt {P : Parcel} {chunk : Nat} (h : Announced P chunk) : chunk < P.chunks := by
  obtain ⟨cur, cur', hio, rfl⟩ := h
  exact (Fuse.ioChunk_spec hio).1.chunk_lt

/-- A sequence of updates. -/
def statusUpdates (P : Parcel) (events : List (Nat × ShmEvent)) (base : List UInt8) :
    Option (List UInt8) :=
  events.foldlM (fun base e => e.2.update P base e.1) base

/-! ## Inside the map -/

section updates

variable {P : Parcel} {base base' : List UInt8} {chunk : Nat} {rows : List Int}

theorem length_shmUpdate {set clear : UInt8} (h : shmUpdate P base chunk set clear = some base') :
    base'.length = base.length := by
  unfold shmUpdate at h
  split at h
  next =>
    cases h
    rfl
  next =>
    split at h
    next =>
      cases h
      exact length_modify ..
    next => cases h

/-- An update stays inside unless the chunk number is `parcel->chunks`. -/
theorem shmUpdate_eq_none_iff (hbase : base.length = P.chunks) (chunk : Nat) (set clear : UInt8) :
    shmUpdate P base chunk set clear = none ↔ chunk = P.chunks := by
  unfold shmUpdate
  split
  next hbig => exact iff_of_false nofun (by omega)
  next hbig =>
    split
    next hlt => exact iff_of_false nofun (by omega)
    next hlt => exact iff_of_true rfl (by omega)

theorem shmUpdate_of_ne (hbase : base.length = P.chunks) (h : chunk ≠ P.chunks)
    (set clear : UInt8) :
    ∃ base', shmUpdate P base chunk set clear = some base' ∧ base'.length = P.chunks := by
  have hsome := mt (shmUpdate_eq_none_iff hbase chunk set clear).mp h
  obtain ⟨base', hbase'⟩ := Option.ne_none_iff_exists'.mp hsome
  exact ⟨base', hbase', (length_shmUpdate hbase').trans hbase⟩

theorem length_shmRows {bit : UInt8} :
    ∀ {base : List UInt8},
    rows.foldlM (shmRow P bit) base = some base' → base'.length = base.length := by
  induction rows with
  | nil =>
    intro base h
    cases h
    rfl
  | cons i rows ih =>
    intro base h
    rw [foldlM_cons] at h
    obtain ⟨base₁, hrow, hrest⟩ := Option.bind_eq_some_iff.mp h
    exact (ih hrest).trans (length_shmUpdate hrow)

/-- A loop of `shm_init` stays inside exactly if no row has that number. -/
theorem shmRows_ne_none_iff (bit : UInt8) (rows : List Int) : ∀ {base : List UInt8},
    base.length = P.chunks →
    (rows.foldlM (shmRow P bit) base ≠ none ↔ ∀ i ∈ rows, columnUnsigned i ≠ P.chunks) := by
  induction rows with
  | nil =>
    intro base hbase
    exact iff_of_true nofun nofun
  | cons i rows ih =>
    intro base hbase
    rw [forall_mem_cons, foldlM_cons]
    by_cases hi : columnUnsigned i = P.chunks
    · have hnone : shmRow P bit base i = none := (shmUpdate_eq_none_iff hbase _ _ _).mpr hi
      rw [hnone]
      exact iff_of_false (fun h => h rfl) fun h => h.1 hi
    · obtain ⟨base₁, hrow, hbase₁⟩ := shmUpdate_of_ne hbase hi bit 0
      rw [shmRow, hrow]
      exact (ih hbase₁).trans ⟨fun h => ⟨hi, h⟩, fun h => h.2⟩

/-- So it comes to its end, with a map of the same length. -/
theorem shmRows_of_ne (bit : UInt8) (hbase : base.length = P.chunks)
    (h : ∀ i ∈ rows, columnUnsigned i ≠ P.chunks) :
    ∃ base', rows.foldlM (shmRow P bit) base = some base' ∧ base'.length = P.chunks := by
  obtain ⟨base', hbase'⟩ :=
    Option.ne_none_iff_exists'.mp ((shmRows_ne_none_iff bit rows hbase).mpr h)
  exact ⟨base', hbase', (length_shmRows hbase').trans hbase⟩

theorem ShmEvent.update_of_lt (hbase : base.length = P.chunks) (h : chunk < P.chunks)
    (e : ShmEvent) : ∃ base', e.update P base chunk = some base' ∧ base'.length = P.chunks := by
  cases e with
  | dirty | cached b | cacheDirty b | accessed => exact shmUpdate_of_ne hbase h.ne _ _

theorem statusUpdates_inside (events : List (Nat × ShmEvent)) : ∀ {base : List UInt8},
    base.length = P.chunks → (∀ e ∈ events, e.1 < P.chunks) →
    statusUpdates P events base ≠ none := by
  induction events with
  | nil => exact fun _ _ => nofun
  | cons e events ih =>
    intro base hbase hall
    obtain ⟨he, hrest⟩ := forall_mem_cons.mp hall
    obtain ⟨base₁, hone, hbase₁⟩ := e.2.update_of_lt hbase he
    rw [statusUpdates, foldlM_cons, hone]
    exact ih hbase₁ hrest

end updates

section fill

variable {P : Parcel} {prev : Keyring} {st : Store}

theorem mem_modifiedRows {main : Keyring} {i : Int} :
    i ∈ modifiedRows prev main ↔ Server.keydiff main prev i = true := by
  refine mem_filter.trans ⟨fun h => h.2, fun h => ⟨?_, h⟩⟩
  unfold Server.keydiff at h
  split at h
  next x y hx hy =>
    refine AList.mem_keys.mp (AList.lookup_isSome.mp ?_)
    rw [hx]
    rfl
  next => cases h

theorem mem_of_mem_seen {α : Type} {rows : List α} {stops : Option Nat} {x : α}
    (h : x ∈ seen rows stops) : x ∈ rows := by
  cases stops with
  | none => exact h
  | some n => exact mem_of_mem_take h

/-- `shm_init` stays inside if no row has the number `parcel->chunks`, and it leaves a map of that
length. -/
theorem shmFill_inside (hcached : ∀ i ∈ st.chunks, columnUnsigned i ≠ P.chunks)
    (hmodified : ∀ i, Server.keydiff st.keys prev i = true → columnUnsigned i ≠ P.chunks)
    (attempts : List ShmAttempt) : ∀ {base : List UInt8}, base.length = P.chunks →
    shmFill P prev st attempts base ≠ .outside ∧
      ∀ base', shmFill P prev st attempts base = .mapped base' → base'.length = P.chunks := by
  induction attempts with
  | nil => exact fun _ => ⟨nofun, nofun⟩
  | cons a attempts ih =>
    intro base hbase
    have hrows : ∀ i ∈ seen st.chunks.keys a.chunksStops, columnUnsigned i ≠ P.chunks := by
      intro i hi
      exact hcached i (AList.mem_keys.mpr (mem_of_mem_seen hi))
    have hrows' : ∀ i ∈ seen (modifiedRows prev st.keys) a.modifiedStops,
        columnUnsigned i ≠ P.chunks := by
      intro i hi
      exact hmodified i (mem_modifiedRows.mp (mem_of_mem_seen hi))
    obtain ⟨base₁, hloop₁, hbase₁⟩ := shmRows_of_ne shmPresent hbase hrows
    obtain ⟨base₂, hloop₂, hbase₂⟩ := shmRows_of_ne shmDirty hbase₁ hrows'
    have hfailed : ∀ e, ShmEnd.failed e ≠ .outside ∧
        ∀ base', ShmEnd.failed e = .mapped base' → base'.length = P.chunks :=
      fun _ => ⟨nofun, nofun⟩
    rw [shmFill]
    simp only [hloop₁, hloop₂]
    split
    next => exact hfailed _
    split
    next =>
      split
      next => exact ih hbase₁
      next => exact hfailed _
    next =>
      split
      next =>
        split
        next => exact ih hbase₂
        next => exact hfailed _
      next =>
        refine ⟨nofun, fun base' h => ?_⟩
        rw [← ShmEnd.mapped.inj h]
        exact hbase₂

/-- An attempt in which nothing fails. -/
def quietShm : ShmAttempt := ⟨false, none, none, false⟩

/-- If it stays inside when nothing fails, no row has that number. -/
theorem rows_of_inside (h : shmInit P prev st [quietShm] ≠ .outside) :
    (∀ i ∈ st.chunks, columnUnsigned i ≠ P.chunks) ∧
      ∀ i, Server.keydiff st.keys prev i = true → columnUnsigned i ≠ P.chunks := by
  have hbase : (replicate P.chunks (0 : UInt8)).length = P.chunks := length_replicate
  rw [shmInit, shmFill] at h
  dsimp only [quietShm, seen] at h
  cases hloop₁ : st.chunks.keys.foldlM (shmRow P shmPresent) (replicate P.chunks 0) with
  | none =>
    rw [hloop₁] at h
    exact absurd rfl h
  | some base₁ =>
    rw [hloop₁] at h
    have hrows := (shmRows_ne_none_iff shmPresent _ hbase).mp (by rw [hloop₁]; nofun)
    have hbase₁ := (length_shmRows hloop₁).trans hbase
    cases hloop₂ : (modifiedRows prev st.keys).foldlM (shmRow P shmDirty) base₁ with
    | none =>
      dsimp only [Option.isSome_none] at h
      rw [hloop₂] at h
      exact absurd rfl h
    | some base₂ =>
      have hrows' := (shmRows_ne_none_iff shmDirty _ hbase₁).mp (by rw [hloop₂]; nofun)
      exact ⟨fun i hi => hrows i (AList.mem_keys.mp hi),
        fun i hi => hrows' i (mem_modifiedRows.mpr hi)⟩

end fill

/-! ## Validation -/

section validated

variable {P : Parcel} {conf : Conf} {env : ValidateEnv} {prev : Keyring} {st : Store}

/-- If everything is good, the numbers of the cache index are those of chunks as far as 32 bits
tell. -/
theorem Passed.columnUnsigned_lt {a : Attempt} (h : Passed P conf env prev st a) {i : Int}
    (hi : i ∈ st.chunks) : columnUnsigned i < P.chunks := by
  obtain ⟨length, row, hsane, -⟩ := h.rows i hi
  have hcounts := countsUp_of_validateKeyring h.keyring
  have hmem : (⟨i, row⟩ : NumberedRow) ∈ st.keys.entries.mergeSort fun r r' => r.1 ≤ r'.1 :=
    mem_mergeSort.mpr (AList.mem_lookup_iff.mp hsane.keys)
  have hrange : columnUnsigned i ∈ (st.keys.entries.mergeSort fun r r' => r.1 ≤ r'.1).map
      fun r => columnUnsigned r.1 := mem_map.mpr ⟨⟨i, row⟩, hmem, rfl⟩
  rw [hcounts.counts, mem_range] at hrange
  exact lt_of_lt_of_le hrange hcounts.length_le

/-- So a number that is too large is one that has been cut down. -/
theorem Passed.lt_iff {a : Attempt} (h : Passed P conf env prev st a) {i : Int}
    (hi : i ∈ st.chunks) : i < P.chunks ↔ i < 2 ^ 32 := by
  have hlt := h.columnUnsigned_lt hi
  have hchunks := P.chunks_lt
  unfold columnUnsigned at hlt
  constructor
  · intro hle
    omega
  · intro hfits
    omega

end validated

/-! ## Confinement -/

/-- The chunk numbers of the tables are confined to the parcel. -/
structure Confined (P : Parcel) (prev : Keyring) (st : Store) : Prop where
  /-- The check of `shm_update` in the first loop of `shm_init`, and that of
  `validate_cachefile`. -/
  cached : ∀ i ∈ st.chunks, columnUnsigned i ≤ P.chunks → columnUnsigned i < P.chunks
  /-- The check of `shm_update` in the second loop, and that of `copy_for_upload`. -/
  modified : ∀ row ∈ toUpload st.keys prev st.chunks, columnUnsigned row.chunk ≤ P.chunks →
    columnUnsigned row.chunk < P.chunks
  init : ∀ attempts, shmInit P prev st attempts ≠ .outside
  later : ∀ attempts base, shmInit P prev st attempts = .mapped base →
    ∀ events : List (Nat × ShmEvent), (∀ e ∈ events, Announced P e.1) →
      statusUpdates P events base ≠ none
  validated : ∀ conf env st', conf.check = false → conf.fullCheck = true →
    validateCache P conf env prev st = some (0, st') → ∀ i ∈ st.chunks, i < P.chunks

/-- The chunk numbers are confined to the parcel exactly if none of them is `parcel->chunks`, as far
as 32 bits tell, and none of those that validation accepts has more than 32 bits. -/
theorem confined_iff (P : Parcel) (prev : Keyring) (st : Store) :
    Confined P prev st ↔
      (∀ i ∈ st.chunks, columnUnsigned i ≠ P.chunks) ∧
      (∀ i, Server.keydiff st.keys prev i = true → columnUnsigned i ≠ P.chunks) ∧
      ∀ conf env a, conf.check = false → conf.fullCheck = true → Passed P conf env prev st a →
        ∀ i ∈ st.chunks, i < 2 ^ 32 := by
  constructor
  · intro h
    obtain ⟨hcached, hmodified⟩ := rows_of_inside (h.init [quietShm])
    refine ⟨hcached, hmodified, fun conf env a hcheck hfull ha i hi => ?_⟩
    have hret := (validateCache_zero_iff hcheck hfull).mpr ⟨a, ha, rfl⟩
    exact (ha.lt_iff hi).mp (h.validated conf env _ hcheck hfull hret i hi)
  · rintro ⟨hcached, hmodified, hfits⟩
    have hbase : (replicate P.chunks (0 : UInt8)).length = P.chunks := length_replicate
    have hinside := fun attempts => shmFill_inside hcached hmodified attempts hbase
    refine ⟨fun i hi hle => Nat.lt_of_le_of_ne hle (hcached i hi), fun row hrow hle => ?_,
      fun attempts => (hinside attempts).1, fun attempts base hmap events hann => ?_,
      fun conf env st' hcheck hfull hret i hi => ?_⟩
    · exact Nat.lt_of_le_of_ne hle (hmodified _ (mem_toUpload.mp hrow).1)
    · exact statusUpdates_inside events ((hinside attempts).2 base hmap) fun e he => (hann e he).lt
    · obtain ⟨a, ha, -⟩ := (validateCache_zero_iff hcheck hfull).mp hret
      exact (ha.lt_iff hi).mpr (hfits conf env a hcheck hfull ha i hi)

/-- The cache index has a row for chunk 1 of a parcel that has only chunk 0. -/
theorem shm_overruns : ∃ st, cacheInit tinyParcel zeroKeys (AList.insert 1 512 ∅) tinyHeader
    = .ok st ∧ shmInit tinyParcel zeroKeys st [quietShm] = .outside ∧
      ¬ Confined tinyParcel zeroKeys st :=
  ⟨_, rfl, rfl, fun h => h.init [quietShm] rfl⟩

end OpenIsr.Cache
