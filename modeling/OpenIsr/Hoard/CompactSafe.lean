import OpenIsr.Base.Run
import OpenIsr.Hoard.Compact
import OpenIsr.Hoard.Hoarding

/-!
# Compaction and hoarded data

A move copies a chunk to a free slot before the index says so, and the transaction may still be
rolled back after up to 16 of them. This is safe because the chunks are taken from the end: whatever
the batch has freed so far lies behind the chunk that is moved next, and a chunk is moved to the
front only. So the slot it goes to is also free in the index as it was last committed (`Work.free`).
The file is cut before the `DELETE` is committed, but behind all allocated slots.

All that takes offsets that fit an `int` and chunks that fit a slot (`FitsSlots`). A free slot at
2^31 is fetched as a negative offset; it counts as a slot in front of the chunk, whose row is
cleared, and no row gets its tag (`compaction_loses`). If there is a free slot in front of it, it is
never asked for.
-/

namespace OpenIsr.Hoard

open List Option
open Base (updateWhere mem_updateWhere mem_updateWhere_of mem_updateWhere_of_not
  updateWhere_eq_self wrapInt wrapInt_eq pread pwrite ftruncate pread_pwrite_apart pread_pwrite_self
  pread_ftruncate Reach)
open Cache (PkErr)

/-- The bytes a row points to. -/
def Chunk.data (file : List UInt8) (c : Chunk Tag) : List UInt8 :=
  pread file (c.offset.toNat * 512) c.length.toNat

/-- If the row has a tag, it points to data that hashes to it. -/
def Chunk.Stored (file : List UInt8) (c : Chunk Tag) : Prop :=
  ∀ tag ∈ c.tag, 0 ≤ c.offset ∧ 0 ≤ c.length ∧ (c.data file).length = c.length.toNat ∧
    cryptoDigest c.crypto (c.data file) = some tag

/-- Slots are aligned, and those with a tag are allocated and hold its data. -/
structure Hoarded (file : List UInt8) (chunks : List (Chunk Tag)) : Prop where
  nodup : (chunkOffsets chunks).Nodup
  aligned : ∀ c ∈ chunks, slotSectors ∣ c.offset
  allocated : ∀ c ∈ chunks, c.tag ≠ none → c.allocated = 1
  stored : ∀ c ∈ chunks, c.Stored file

/-- Offsets of allocated slots fit an `int`, and so does that of the first free slot. Chunks fit
their slots. -/
structure FitsSlots (chunks : List (Chunk Tag)) : Prop where
  nonneg : ∀ c ∈ chunks, 0 ≤ c.offset
  offset : ∀ c ∈ chunks, c.allocated = 1 → c.offset < 2 ^ 31
  free : ∀ c ∈ chunks, c.allocated = 0 → ∃ d ∈ chunks, d.allocated = 0 ∧ d.offset < 2 ^ 31
  length : ∀ c ∈ chunks, c.tag ≠ none → c.length ≤ slotBytes

structure Sound (file : List UInt8) (chunks : List (Chunk Tag)) : Prop
  extends Hoarded file chunks, FitsSlots chunks

/-! ## Garbage collection -/

section gc

variable {T : Type} [DecidableEq T] {chunks : List (Chunk T)} {refs : List (Ref T)} {tag : T}

theorem hoardGc_eq (chunks : List (Chunk T)) (refs : List (Ref T)) :
    ∃ p : Chunk T → Bool, hoardGc chunks refs = updateWhere chunks p Chunk.clear ∧
      ∀ c, p c = true → c.tag ≠ none := by
  refine ⟨_, rfl, fun c hp => ?_⟩
  obtain ⟨tag, htag, -⟩ := of_decide_eq_true hp
  exact ne_none_iff_exists'.mpr ⟨tag, htag⟩

theorem hoardGc_eq_self (h : ∀ c ∈ chunks, ∀ tag ∈ c.tag, tag ∈ refs.map (·.tag)) :
    hoardGc chunks refs = chunks := by
  refine updateWhere_eq_self fun c hc => decide_eq_false ?_
  rintro ⟨tag, htag, hnot⟩
  exact hnot (h c hc tag htag)

theorem HasTag.of_gc (h : HasTag (hoardGc chunks refs) tag) : HasTag chunks tag := by
  obtain ⟨c, hc, hct⟩ := h
  obtain ⟨d, hd, ⟨-, rfl⟩ | ⟨-, rfl⟩⟩ := mem_updateWhere.mp hc
  · cases hct
  · exact ⟨c, hd, hct⟩

end gc

/-! ## The file -/

section file

variable {file data : List UInt8} {chunks : List (Chunk Tag)} {c : Chunk Tag} {offset : Int}
  {p : Chunk Tag → Bool}

theorem Chunk.stored_of_none (h : c.tag = none) : c.Stored file := by
  intro tag htag
  rw [h] at htag
  cases htag

theorem Chunk.Stored.write (h : c.Stored file) {dest : Int}
    (hlen : c.tag ≠ none → c.length ≤ slotBytes) (hc : slotSectors ∣ c.offset)
    (hdest : slotSectors ∣ dest) (hpos : 0 ≤ dest) (hne : c.offset ≠ dest)
    (hdata : data.length ≤ slotBytes) : c.Stored (pwrite file (dest.toNat * 512) data) := by
  intro tag htag
  obtain ⟨hoff, hlen0, hfull, hdigest⟩ := h tag htag
  have hle := hlen (by rw [mem_def.mp htag]; exact some_ne_none tag)
  have hsame : c.data (pwrite file (dest.toNat * 512) data) = c.data file := by
    refine pread_pwrite_apart ?_ hfull
    obtain ⟨k, hk⟩ := hc
    obtain ⟨j, hj⟩ := hdest
    unfold slotSectors at hk hj
    unfold slotBytes at hle hdata
    omega
  rw [hsame]
  exact ⟨hoff, hlen0, hfull, hdigest⟩

theorem Chunk.Stored.cut (h : c.Stored file) (hlen : c.tag ≠ none → c.length ≤ slotBytes)
    (hle : c.tag ≠ none → c.offset + slotSectors ≤ offset) :
    c.Stored (ftruncate file (offset.toNat * 512)) := by
  intro tag htag
  have hsome : c.tag ≠ none := by
    rw [mem_def.mp htag]
    exact some_ne_none tag
  obtain ⟨hoff, hlen0, hfull, hdigest⟩ := h tag htag
  have hsame : c.data (ftruncate file (offset.toNat * 512)) = c.data file := by
    refine pread_ftruncate ?_ hfull
    have hend := hle hsome
    have hslot := hlen hsome
    unfold slotSectors at hend
    unfold slotBytes at hslot
    omega
  rw [hsame]
  exact ⟨hoff, hlen0, hfull, hdigest⟩

section

variable (h : Sound file chunks)
include h

theorem Sound.write {dest : Int} (hdest : slotSectors ∣ dest) (hpos : 0 ≤ dest)
    (hfree : ∀ c ∈ chunks, c.offset = dest → c.tag = none) (hdata : data.length ≤ slotBytes) :
    Sound (pwrite file (dest.toNat * 512) data) chunks := by
  refine { h with stored := fun c hc => ?_ }
  by_cases heq : c.offset = dest
  · exact Chunk.stored_of_none (hfree c hc heq)
  · exact (h.stored c hc).write (h.length c hc) (h.aligned c hc) hdest hpos heq hdata

theorem Sound.cut (hle : ∀ c ∈ chunks, c.tag ≠ none → c.offset + slotSectors ≤ offset) :
    Sound (ftruncate file (offset.toNat * 512)) chunks :=
  { h with stored := fun c hc => (h.stored c hc).cut (h.length c hc) (hle c hc) }

theorem Sound.update {f : Chunk Tag → Chunk Tag} (hkey : ∀ c, (f c).offset = c.offset)
    (hrow : ∀ c ∈ chunks, p c = true → ((f c).allocated = 1 → c.offset < 2 ^ 31) ∧
      ((f c).tag ≠ none → (f c).allocated = 1 ∧ (f c).length ≤ slotBytes) ∧ (f c).Stored file)
    (hfree : ∀ c ∈ updateWhere chunks p f, c.allocated = 0 →
      ∃ d ∈ updateWhere chunks p f, d.allocated = 0 ∧ d.offset < 2 ^ 31) :
    Sound file (updateWhere chunks p f) := by
  have hrows : ∀ c ∈ updateWhere chunks p f, ∃ d ∈ chunks, c.offset = d.offset ∧
      (c.allocated = 1 → c.offset < 2 ^ 31) ∧
      (c.tag ≠ none → c.allocated = 1 ∧ c.length ≤ slotBytes) ∧ c.Stored file := by
    intro c hc
    obtain ⟨d, hd, ⟨hp, rfl⟩ | ⟨-, rfl⟩⟩ := mem_updateWhere.mp hc
    · refine ⟨d, hd, hkey d, ?_⟩
      rw [hkey d]
      exact hrow d hd hp
    · exact ⟨c, hd, rfl, h.offset c hd, fun htag => ⟨h.allocated c hd htag, h.length c hd htag⟩,
        h.stored c hd⟩
  refine { nodup := ?_, aligned := fun c hc => ?_, allocated := fun c hc htag => ?_,
           stored := fun c hc => ?_, nonneg := fun c hc => ?_, offset := fun c hc => ?_,
           free := hfree, length := fun c hc htag => ?_ }
  · rw [chunkOffsets_update hkey]
    exact h.nodup
  · obtain ⟨d, hd, heq, -⟩ := hrows c hc
    rw [heq]
    exact h.aligned d hd
  · obtain ⟨d, -, -, -, hok, -⟩ := hrows c hc
    exact (hok htag).1
  · obtain ⟨d, -, -, -, -, hok⟩ := hrows c hc
    exact hok
  · obtain ⟨d, hd, heq, -⟩ := hrows c hc
    rw [heq]
    exact h.nonneg d hd
  · obtain ⟨d, -, -, hok, -⟩ := hrows c hc
    exact hok
  · obtain ⟨d, -, -, -, hok, -⟩ := hrows c hc
    exact (hok htag).2

theorem Sound.clear (hp : ∀ c ∈ chunks, p c = true → c.allocated = 1) :
    Sound file (updateWhere chunks p Chunk.clear) := by
  refine h.update (fun _ => rfl) (fun c _ _ => ⟨nofun, fun htag => absurd rfl htag,
    Chunk.stored_of_none rfl⟩) fun c hc hz => ?_
  obtain ⟨d, hd, ⟨hpd, rfl⟩ | ⟨-, rfl⟩⟩ := mem_updateWhere.mp hc
  · exact ⟨d.clear, hc, rfl, h.offset d hd (hp d hd hpd)⟩
  · obtain ⟨e, he, hez, hlt⟩ := h.free c hd hz
    refine ⟨e, mem_updateWhere_of_not he (Bool.eq_false_iff.mpr fun hpe => ?_), hez, hlt⟩
    exact absurd ((hp e he hpe).symm.trans hez) (by decide)

theorem Sound.hoardGc (refs : List (Ref Tag)) : Sound file (hoardGc chunks refs) := by
  obtain ⟨p, heq, hp⟩ := hoardGc_eq chunks refs
  rw [heq]
  exact h.clear fun c hc hpc => h.allocated c hc (hp c hpc)

theorem Sound.filter (hle : offset ≤ 2 ^ 31) : Sound file (chunks.filter (·.offset < offset)) :=
  { nodup := h.nodup.sublist (filter_sublist.map _)
    aligned := fun c hc => h.aligned c (mem_of_mem_filter hc)
    allocated := fun c hc => h.allocated c (mem_of_mem_filter hc)
    stored := fun c hc => h.stored c (mem_of_mem_filter hc)
    nonneg := fun c hc => h.nonneg c (mem_of_mem_filter hc)
    offset := fun c hc => h.offset c (mem_of_mem_filter hc)
    free := fun c hc hz =>
      ⟨c, hc, hz, (of_decide_eq_true (mem_filter.mp hc).2).trans_le hle⟩
    length := fun c hc => h.length c (mem_of_mem_filter hc) }

theorem Sound.untagged (hc : c ∈ chunks) (hz : c.allocated = 0) : c.tag = none := by
  by_contra htag
  exact absurd ((h.allocated c hc htag).symm.trans hz) (by decide)

end

end file

/-! ## The invariant -/

/-- The row that was fetched. -/
def Fetched.row (src : Fetched) : Chunk Tag :=
  { tag := some src.tag, offset := src.offset, length := src.length, crypto := src.crypto,
    allocated := 1 }

variable {refs : List (Ref Tag)} {tags : Tag → Prop} {s s' : Compact} {a : CompactAct}
  {src : Fetched} {dest : Int} {data buf : List UInt8}

/-- The index as it was last committed, with all that must not be lost. -/
structure Kept (tags : Tag → Prop) (s : Compact) : Prop where
  sound : Sound s.file s.chunks
  tags : ∀ tag, tags tag → HasTag s.chunks tag

/-- What the transaction sees. Below the row it has fetched last, what is free has been so before
the transaction. -/
structure Work (tags : Tag → Prop) (s : Compact) : Prop where
  sound : Sound s.file s.work
  tags : ∀ tag, tags tag → HasTag s.work tag
  free : ∀ w ∈ s.work, w.allocated = 0 → (∀ b ∈ s.below, w.offset < b) →
    ∃ c ∈ s.chunks, c.offset = w.offset ∧ c.allocated = 0

/-- The chunk that is moved, -/
structure Source (s : Compact) (src : Fetched) : Prop where
  row : src.row ∈ s.work
  below : s.below = some src.offset

/-- and the slot it goes to. -/
structure Dest (s : Compact) (src : Fetched) (dest : Int) : Prop where
  lt : dest < src.offset
  slot : ∃ w ∈ s.work, w.offset = dest ∧ w.allocated = 0

/-- Between the two updates, the slot of the chunk is free as well. -/
structure Cleared (s : Compact) (src : Fetched) : Prop where
  row : ∃ c ∈ s.work, c.offset = src.offset ∧ c.allocated = 0
  offset : src.offset < 2 ^ 31
  length : src.length ≤ slotBytes

/-- What holds before each statement. -/
def CompactOk (refs : List (Ref Tag)) (tags : Tag → Prop) (s : Compact) : Prop :=
  Kept tags s ∧
  match s.pc with
  | .gc => ∀ tag, tags tag → HasTag (hoardGc s.chunks refs) tag
  | .chunk => Work tags s
  | .slot src => Work tags s ∧ Source s src
  | .read src dest => Work tags s ∧ Source s src ∧ Dest s src dest
  | .write src dest buf => Work tags s ∧ Source s src ∧ Dest s src dest ∧
      buf.length = src.length.toNat ∧ cryptoDigest src.crypto buf = some src.tag
  | .clear src dest => Work tags s ∧ Source s src ∧ Dest s src dest ∧
      Chunk.Stored s.file { src.row with offset := dest }
  | .fill src dest =>
    -- for the moment no row has the tag
    Work (fun tag => tags tag ∧ tag ≠ src.tag) s ∧ Cleared s src ∧ Dest s src dest ∧
      Chunk.Stored s.file { src.row with offset := dest }
  | .commit | .truncCommit => Sound s.file s.work ∧ ∀ tag, tags tag → HasTag s.work tag
  | .truncLast | .truncAllocated => s.work = s.chunks
  | .truncDelete offset => s.work = s.chunks ∧ offset = truncateOffset s.chunks
  | .truncFile offset =>
    s.work = s.chunks.filter (·.offset < offset) ∧ offset = truncateOffset s.chunks
  | _ => True

/-! ## Steps -/

theorem Kept.moveFails (h : Kept tags s) (e : PkErr) (retry : Bool) :
    CompactOk refs tags (s.moveFails e retry) := ⟨⟨h.sound, h.tags⟩, trivial⟩

theorem Kept.begun (h : Kept tags s) : CompactOk refs tags s.begun :=
  ⟨⟨h.sound, h.tags⟩, h.sound, h.tags, fun w hw hz _ => ⟨w, hw, rfl, hz⟩⟩

theorem crypto_of_digest {crypto : Int} {tag : Tag} (h : cryptoDigest crypto data = some tag) :
    crypto = aesSha1 := by
  unfold cryptoDigest cryptoIsValid at h
  split at h
  next hx => exact of_decide_eq_true hx
  next => cases h

theorem Sound.fetch_row {file : List UInt8} {chunks : List (Chunk Tag)} {c : Chunk Tag}
    (h : Sound file chunks) (hc : c ∈ chunks) (htag : c.tag ≠ none) : c.fetch.row = c := by
  obtain ⟨tag, htag'⟩ := ne_none_iff_exists'.mp htag
  obtain ⟨-, hlen0, -, hdigest⟩ := h.stored c hc tag htag'
  have hallocated := h.allocated c hc htag
  have hnonneg := h.nonneg c hc
  have hlen := h.length c hc htag
  have hcrypto : wrapInt c.crypto = c.crypto := by
    rw [crypto_of_digest hdigest]
    rfl
  have hoff : wrapInt c.offset = c.offset := 
    wrapInt_eq (by omega) (h.offset c hc hallocated)
  have hlength : wrapInt c.length = c.length := by
    unfold slotBytes at hlen
    exact wrapInt_eq (by omega) (by omega)
  obtain ⟨t, o, l, k, al⟩ := c
  cases htag'
  obtain rfl : al = 1 := hallocated
  simp only [Fetched.row, Chunk.fetch, getD_some, hoff, hlength, hcrypto]

theorem Work.fetchChunk (hk : Kept tags s) (h : Work tags s) :
    CompactOk refs tags s.fetchChunk := by
  unfold Compact.fetchChunk
  split
  next => exact ⟨⟨hk.sound, hk.tags⟩, h.sound, h.tags⟩
  next c hnext =>
    obtain ⟨hc, htag, hbelow⟩ := nextChunk_spec (ite_none_right_eq_some.mp hnext).2
    have hrow : c.fetch.row = c := h.sound.fetch_row hc htag
    refine ⟨⟨hk.sound, hk.tags⟩, ⟨h.sound, h.tags, fun w hw hz hlt => ?_⟩, hrow.symm ▸ hc, ?_⟩
    · exact h.free w hw hz fun b hb => (hlt c.offset rfl).trans (hbelow b hb)
    · exact congrArg (some ∘ Chunk.offset) hrow.symm

/-- There is a free slot that fits an `int`, and the query finds the first one. -/
theorem Sound.wrapInt_slot {file : List UInt8} {chunks : List (Chunk Tag)} {slot : Chunk Tag}
    (h : Sound file chunks) (hslot : lowestFree chunks = some slot) :
    wrapInt slot.offset = slot.offset := by
  obtain ⟨hmem, hz⟩ := lowestFree_spec hslot
  have hnonneg := h.nonneg slot hmem
  obtain ⟨d, hd, hdz, hlt⟩ := h.free slot hmem hz
  exact wrapInt_eq (by omega) ((lowestFree_le hslot hd hdz).trans_lt hlt)

section

variable (hk : Kept tags s) (h : Work tags s) (hsrc : Source s src)
include hk h hsrc

theorem Work.fetchSlot : CompactOk refs tags (s.fetchSlot src) := by
  unfold Compact.fetchSlot
  split
  next => exact ⟨⟨hk.sound, hk.tags⟩, h.sound, h.tags⟩
  next slot hslot =>
    obtain ⟨hmem, hz⟩ := lowestFree_spec hslot
    rw [h.sound.wrapInt_slot hslot]
    split
    next => exact ⟨⟨hk.sound, hk.tags⟩, h.sound, h.tags⟩
    next hlt =>
      exact ⟨⟨hk.sound, hk.tags⟩, ⟨h.sound, h.tags, h.free⟩, ⟨hsrc.row, hsrc.below⟩,
        ⟨not_le.mp hlt, slot, hmem, rfl, hz⟩⟩

theorem Work.readChunk (hdest : Dest s src dest) (fails : Bool) :
    CompactOk refs tags (s.readChunk fails src dest) := by
  unfold Compact.readChunk
  split
  next => exact hk.moveFails _ _
  next got =>
    split
    next => exact ⟨⟨hk.sound, hk.tags⟩, trivial⟩
    split
    next e he => exact hk.moveFails e false
    next buf hread =>
      obtain ⟨-, -, -, -, -, -, hlen, hdigest⟩ := hoardReadChunk_eq_ok.mp hread
      exact ⟨⟨hk.sound, hk.tags⟩, ⟨h.sound, h.tags, h.free⟩, ⟨hsrc.row, hsrc.below⟩,
        ⟨hdest.lt, hdest.slot⟩, hlen, hdigest⟩

theorem Dest.free (hdest : Dest s src dest) :
    (∀ c ∈ s.chunks, c.offset = dest → c.tag = none) ∧
      ∀ c ∈ s.work, c.offset = dest → c.tag = none := by
  obtain ⟨w, hw, rfl, hz⟩ := hdest.slot
  constructor
  · intro c hc hco
    have hlt : ∀ b ∈ s.below, w.offset < b := by
      intro b hb
      rw [hsrc.below] at hb
      exact hdest.lt.trans_eq (some.inj hb)
    obtain ⟨d, hd, hdo, hdz⟩ := h.free w hw hz hlt
    rw [Base.eq_of_key hk.sound.nodup hc hd (hco.trans hdo.symm)]
    exact hk.sound.untagged hd hdz
  · intro c hc hco
    rw [Base.eq_of_key h.sound.nodup hc hw hco]
    exact h.sound.untagged hw hz

end

theorem Dest.offset (h : Work tags s) (hsrc : Source s src) (hdest : Dest s src dest) :
    0 ≤ dest ∧ slotSectors ∣ dest ∧ dest % 2 ^ 32 = dest := by
  have hlt := h.sound.offset _ hsrc.row rfl
  obtain ⟨w, hw, rfl, -⟩ := hdest.slot
  have hnonneg := h.sound.nonneg w hw
  refine ⟨hnonneg, h.sound.aligned w hw, Int.emod_eq_of_lt hnonneg ?_⟩
  exact (hdest.lt.trans hlt).trans (by decide)

theorem length_slotData (h : buf.length ≤ slotBytes) : (slotData buf).length = slotBytes := by
  rw [slotData, length_append, length_replicate]
  omega

section

variable (hk : Kept tags s) (h : Work tags s) (hsrc : Source s src) (hdest : Dest s src dest)
include hk h hsrc hdest

theorem Work.write (hdata : data.length ≤ slotBytes) :
    Kept tags { s with file := pwrite s.file ((dest % 2 ^ 32).toNat * 512) data } ∧
      Work tags { s with file := pwrite s.file ((dest % 2 ^ 32).toNat * 512) data } := by
  obtain ⟨hfree, hfree'⟩ := hdest.free hk h hsrc
  obtain ⟨hnonneg, haligned, hmod⟩ := hdest.offset h hsrc
  rw [hmod]
  exact ⟨⟨hk.sound.write haligned hnonneg hfree hdata, hk.tags⟩,
    h.sound.write haligned hnonneg hfree' hdata, h.tags, h.free⟩

theorem Work.writeChunk (hlen : buf.length = src.length.toNat)
    (hdigest : cryptoDigest src.crypto buf = some src.tag) (written : Nat) :
    CompactOk refs tags (s.writeChunk src dest buf written) := by
  obtain ⟨-, hlen0, -⟩ := h.sound.stored _ hsrc.row src.tag rfl
  have hfits : buf.length ≤ slotBytes := by
    have hle : src.length ≤ slotBytes := h.sound.length _ hsrc.row (some_ne_none _)
    omega
  have hdata := length_slotData hfits
  have htake : ((slotData buf).take written).length ≤ slotBytes :=
    (length_take_le' ..).trans_eq hdata
  obtain ⟨hk', h'⟩ := h.write hk hsrc hdest htake
  unfold Compact.writeChunk hoardWriteChunk
  rw [if_neg (not_lt.mpr hfits)]
  by_cases hshort : written < slotBytes
  · simp only [if_pos hshort]
    exact Kept.moveFails hk' _ _
  · simp only [if_neg hshort]
    refine ⟨⟨hk'.sound, hk'.tags⟩, ⟨h'.sound, h'.tags, h'.free⟩, ⟨hsrc.row, hsrc.below⟩,
      ⟨hdest.lt, hdest.slot⟩, fun tag htag => ?_⟩
    cases htag
    obtain ⟨hnonneg, -, hmod⟩ := hdest.offset h hsrc
    have hcopy : pread (pwrite s.file ((dest % 2 ^ 32).toNat * 512)
        ((slotData buf).take written)) (dest.toNat * 512) src.length.toNat = buf := by
      rw [hmod, take_of_length_le (by omega), pread_pwrite_self (by omega), ← hlen, slotData,
        take_left']
      rfl
    refine ⟨hnonneg, hlen0, ?_, ?_⟩
    · exact (congrArg List.length hcopy).trans hlen
    · exact (congrArg (cryptoDigest src.crypto) hcopy).trans hdigest

theorem Work.clearSource (hcopy : Chunk.Stored s.file { src.row with offset := dest }) :
    CompactOk refs tags (s.clearSource src dest) := by
  have hone : ∀ c ∈ s.work, decide (c.offset = src.offset) = true → c = src.row := by
    intro c hc heq
    exact Base.eq_of_key h.sound.nodup hc hsrc.row (of_decide_eq_true heq)
  refine ⟨⟨hk.sound, hk.tags⟩, ⟨h.sound.clear fun c hc hp => ?_, fun tag htag => ?_,
    fun w hw hz hlt => ?_⟩, ⟨?_, h.sound.offset _ hsrc.row rfl,
    h.sound.length _ hsrc.row (some_ne_none _)⟩, ⟨hdest.lt, ?_⟩, hcopy⟩
  · rw [hone c hc hp]
    rfl
  · obtain ⟨d, hd, hdt⟩ := h.tags tag htag.1
    refine ⟨d, mem_updateWhere_of_not hd (decide_eq_false fun heq => htag.2 ?_), hdt⟩
    rw [hone d hd (decide_eq_true heq)] at hdt
    exact (some.inj hdt).symm
  · obtain ⟨d, hd, ⟨hp, rfl⟩ | ⟨-, rfl⟩⟩ := mem_updateWhere.mp hw
    · -- the row that has been cleared is not below itself
      have heq : d.offset = src.offset := of_decide_eq_true hp
      exact absurd (hlt src.offset hsrc.below) (not_lt.mpr heq.ge)
    · exact h.free w hd hz hlt
  · exact ⟨_, mem_updateWhere_of hsrc.row (decide_eq_true rfl), rfl, rfl⟩
  · obtain ⟨w, hw, hwo, hz⟩ := hdest.slot
    have hne : w.offset ≠ src.offset := hwo.trans_lt hdest.lt |>.ne
    exact ⟨w, mem_updateWhere_of_not hw (decide_eq_false hne), hwo, hz⟩

end

theorem Work.fillSlot (hk : Kept tags s) (h : Work (fun tag => tags tag ∧ tag ≠ src.tag) s)
    (hclear : Cleared s src) (hdest : Dest s src dest)
    (hcopy : Chunk.Stored s.file { src.row with offset := dest }) :
    CompactOk refs tags (s.fillSlot src dest) := by
  unfold Compact.fillSlot
  split
  next => exact hk.moveFails _ _
  obtain ⟨w, hw, rfl, hz⟩ := hdest.slot
  refine ⟨⟨hk.sound, hk.tags⟩, h.sound.update (fun _ => rfl) (fun c _ hp => ?_)
    (fun c _ _ => ?_), fun tag htag => ?_, fun c hc hcz hlt => ?_⟩
  · have heq : c.offset = w.offset := of_decide_eq_true hp
    refine ⟨fun _ => heq.trans_lt (hdest.lt.trans hclear.offset),
      fun _ => ⟨rfl, hclear.length⟩, ?_⟩
    show Chunk.Stored s.file { src.row with offset := c.offset }
    rw [heq]
    exact hcopy
  · obtain ⟨d, hd, hdo, hdz⟩ := hclear.row
    have hne : d.offset ≠ w.offset := (hdest.lt.trans_eq hdo.symm).ne'
    exact ⟨d, mem_updateWhere_of_not hd (decide_eq_false hne), hdz, hdo.trans_lt hclear.offset⟩
  · by_cases heq : tag = src.tag
    · exact ⟨_, mem_updateWhere_of hw (decide_eq_true rfl), congrArg some heq.symm⟩
    · obtain ⟨d, hd, hdt⟩ := h.tags tag ⟨htag, heq⟩
      refine ⟨d, mem_updateWhere_of_not hd (decide_eq_false fun hdo => ?_), hdt⟩
      rw [Base.eq_of_key h.sound.nodup hd hw hdo, h.sound.untagged hw hz] at hdt
      cases hdt
  · obtain ⟨d, hd, ⟨-, rfl⟩ | ⟨-, rfl⟩⟩ := mem_updateWhere.mp hc
    · cases hcz
    · exact h.free c hd hcz hlt

theorem truncateOffset_lt (chunks : List (Chunk Tag)) : truncateOffset chunks < 2 ^ 31 := by
  unfold truncateOffset
  split
  · decide
  · exact Int.bmod_lt (by decide)

theorem Kept.cut (hk : Kept tags s) {offset : Int}
    (hwork : s.work = s.chunks.filter (·.offset < offset))
    (hoffset : offset = truncateOffset s.chunks) : CompactOk refs tags (s.cut offset) := by
  unfold Compact.cut
  split
  next => exact ⟨⟨hk.sound, hk.tags⟩, trivial⟩
  next hpos =>
    have hle : ∀ c ∈ s.chunks, c.tag ≠ none → c.offset + slotSectors ≤ offset := by
      intro c hc htag
      rw [hoffset] at hpos ⊢
      exact le_truncateOffset (fun c hc h1 => ⟨hk.sound.nonneg c hc, hk.sound.offset c hc h1⟩)
        (not_lt.mp hpos) hc (hk.sound.allocated c hc htag)
    have hint : offset ≤ 2 ^ 31 := by
      rw [hoffset]
      exact (truncateOffset_lt s.chunks).le
    have hcut := hk.sound.cut hle
    refine ⟨⟨hcut, hk.tags⟩, hwork ▸ hcut.filter hint, fun tag htag => ?_⟩
    obtain ⟨c, hc, hct⟩ := hk.tags tag htag
    refine ⟨c, hwork ▸ mem_filter.mpr ⟨hc, decide_eq_true ?_⟩, hct⟩
    have hend := hle c hc (by rw [hct]; exact some_ne_none tag)
    unfold slotSectors at hend
    omega

theorem Kept.orEnd (h : CompactOk refs tags s) (retry : Bool) :
    CompactOk refs tags (s.orEnd retry) := by
  cases retry with
  | true => exact h
  | false => exact ⟨⟨h.1.sound, h.1.tags⟩, trivial⟩

theorem CompactOk.step (h : CompactOk refs tags s) (hs : compactStep refs s a = some s') :
    CompactOk refs tags s' := by
  have hok := h
  obtain ⟨hk, h⟩ := h
  cases hpc : s.pc with
  | gc =>
    simp only [compactStep, hpc] at h hs
    exact statement_ind hs ⟨⟨hk.sound.hoardGc refs, h⟩, trivial⟩ (Kept.orEnd hok)
  | count | vacuum =>
    simp only [compactStep, hpc] at hs
    exact statement_ind hs ⟨⟨hk.sound, hk.tags⟩, trivial⟩ (Kept.orEnd hok)
  | start =>
    simp only [compactStep, hpc] at hs
    refine statement_ind hs hk.begun fun retry => ?_
    cases retry with
    | true => exact hok
    | false => exact ⟨⟨hk.sound, hk.tags⟩, trivial⟩
  | chunk =>
    simp only [compactStep, hpc] at h hs
    exact statement_ind hs (h.fetchChunk hk) fun _ => ⟨⟨hk.sound, hk.tags⟩, trivial⟩
  | slot src =>
    simp only [compactStep, hpc] at h hs
    exact statement_ind hs (h.1.fetchSlot hk h.2) fun _ => ⟨⟨hk.sound, hk.tags⟩, trivial⟩
  | read src dest =>
    simp only [hpc] at h
    obtain ⟨hw, hsrc, hdest⟩ := h
    obtain ⟨fails, rfl⟩ := step_read hpc hs
    exact hw.readChunk hk hsrc hdest fails
  | write src dest buf =>
    simp only [hpc] at h
    obtain ⟨hw, hsrc, hdest, hlen, hdigest⟩ := h
    obtain ⟨written, rfl⟩ := step_write hpc hs
    exact hw.writeChunk hk hsrc hdest hlen hdigest written
  | clear src dest =>
    simp only [compactStep, hpc] at h hs
    obtain ⟨hw, hsrc, hdest, hcopy⟩ := h
    exact statement_ind hs (hw.clearSource hk hsrc hdest hcopy) (hk.moveFails _)
  | fill src dest =>
    simp only [compactStep, hpc] at h hs
    obtain ⟨hw, hclear, hdest, hcopy⟩ := h
    exact statement_ind hs (hw.fillSlot hk hclear hdest hcopy) (hk.moveFails _)
  | commit | truncCommit =>
    simp only [compactStep, hpc] at h hs
    refine statement_ind hs ⟨⟨h.1, h.2⟩, trivial⟩ fun retry => ?_
    cases retry with
    | true => exact hok
    | false => exact ⟨⟨hk.sound, hk.tags⟩, trivial⟩
  | rollback retry =>
    rcases step_rollback hpc hs with rfl | rfl
    · cases retry <;> exact ⟨⟨hk.sound, hk.tags⟩, trivial⟩
    · exact hok
  | returned ret =>
    simp only [compactStep, hpc, ite_none_right_eq_some, some.injEq] at hs
    obtain ⟨-, rfl⟩ := hs
    unfold Compact.next
    split
    next => exact ⟨⟨hk.sound, hk.tags⟩, trivial⟩
    split
    · exact ⟨⟨hk.sound, hk.tags⟩, trivial⟩
    · exact ⟨⟨hk.sound, hk.tags⟩, trivial⟩
  | truncStart =>
    simp only [compactStep, hpc] at hs
    exact statement_ind hs ⟨⟨hk.sound, hk.tags⟩, rfl⟩ (Kept.orEnd hok)
  | truncLast =>
    simp only [compactStep, hpc] at h hs
    exact statement_ind hs ⟨⟨hk.sound, hk.tags⟩, h⟩ fun _ => ⟨⟨hk.sound, hk.tags⟩, trivial⟩
  | truncAllocated =>
    simp only [compactStep, hpc] at h hs
    refine statement_ind hs ⟨⟨hk.sound, hk.tags⟩, h, ?_⟩ fun _ => ⟨⟨hk.sound, hk.tags⟩, trivial⟩
    exact congrArg truncateOffset h
  | truncDelete offset =>
    simp only [compactStep, hpc] at h hs
    refine statement_ind hs ⟨⟨hk.sound, hk.tags⟩, ?_, h.2⟩ fun _ =>
      ⟨⟨hk.sound, hk.tags⟩, trivial⟩
    exact congrArg (List.filter _) h.1
  | truncFile offset =>
    simp only [compactStep, hpc] at h hs
    cases a with
    | ok =>
      cases hs
      exact hk.cut h.1 h.2
    | fail =>
      cases hs
      exact ⟨⟨hk.sound, hk.tags⟩, trivial⟩
    | busy | short n => cases hs
  | truncRollback retry =>
    rcases step_truncRollback hpc hs with rfl | rfl
    · cases retry <;> exact ⟨⟨hk.sound, hk.tags⟩, trivial⟩
    · exact hok
  | finished ret | crash =>
    simp only [compactStep, hpc] at hs
    cases hs

/-- Whatever fails, and wherever the process dies: each row with a tag points to data that hashes to
it, and no tag is lost but by garbage collection. -/
theorem compaction_safe {chunks : List (Chunk Tag)} {file : List UInt8}
    (hoarded : Hoarded file chunks)
    (hfits : FitsSlots chunks) {s : Compact}
    (hr : Reach (compactStep refs) (fun _ _ => True) (compactHoard chunks file) s) :
    (∀ c ∈ s.chunks, c.Stored s.file) ∧
      ∀ tag, HasTag (hoardGc chunks refs) tag → HasTag s.chunks tag := by
  have hinit : CompactOk refs (HasTag (hoardGc chunks refs)) (compactHoard chunks file) :=
    ⟨⟨⟨hoarded, hfits⟩, fun _ => HasTag.of_gc⟩, fun _ => id⟩
  obtain ⟨hk, -⟩ := hr.inv hinit fun s a s' h _ hs => h.step hs
  exact ⟨hk.sound.stored, hk.tags⟩

theorem stored_movable : Chunk.Stored movableFile
    { tag := some sevenTag, offset := 256, length := 1, crypto := aesSha1, allocated := 1 } := by
  intro tag htag
  cases htag
  exact ⟨by decide, by decide, congrArg List.length pread_movableFile,
    congrArg (cryptoDigest aesSha1) pread_movableFile⟩

theorem hoarded_movable : Hoarded movableFile (movable sevenTag) := by
  refine ⟨by decide, fun c hc => ?_, fun c hc htag => ?_, fun c hc => ?_⟩
  all_goals rcases mem_pair.mp hc with rfl | rfl
  · decide
  · decide
  · exact absurd rfl htag
  · rfl
  · exact Chunk.stored_of_none rfl
  · exact stored_movable

theorem fitsSlots_movable : FitsSlots (movable sevenTag) := by
  refine ⟨fun c hc => ?_, fun c hc _ => ?_, fun c _ _ => ⟨_, mem_cons_self, rfl, by decide⟩,
    fun c hc _ => ?_⟩
  all_goals rcases mem_pair.mp hc with rfl | rfl
  all_goals decide

theorem hoardGc_pair {c c' : Chunk Tag} {tag : Tag} (hc : c.tag = none ∨ c.tag = some tag)
    (hc' : c'.tag = none ∨ c'.tag = some tag) : hoardGc [c, c'] [⟨1, tag⟩] = [c, c'] := by
  refine hoardGc_eq_self fun x hx t ht => ?_
  have hx : x.tag = none ∨ x.tag = some tag := by
    rcases mem_pair.mp hx with rfl | rfl <;> assumption
  rcases hx with hx | hx <;> cases ht.symm.trans hx
  exact mem_singleton_self tag

theorem exec_readMovable (tag : Tag) (file : List UInt8) (refs : List (Ref Tag)) :
    Base.exec (compactStep refs) (fun _ _ => true)
      { compactHoard (movable tag) file with pc := .count } [.ok, .ok, .ok, .ok]
      = some (readMovable tag file) := rfl

theorem exec_moved (tag : Tag) (file : List UInt8) (refs : List (Ref Tag)) :
    ∃ s, Base.exec (compactStep refs) (fun _ _ => true)
      { readMovable tag file with pc := .write ⟨tag, 256, 1, aesSha1⟩ 0 [7] }
      [.ok, .ok, .ok, .ok, .ok, .ok] = some s ∧ s.moved = 1 ∧ s.commits = 1 := ⟨_, rfl, rfl, rfl⟩

/-- After a move. -/
theorem compaction_safe_movable :
    ∃ s : Compact, Reach (compactStep [⟨1, sevenTag⟩]) (fun _ _ => True)
        (compactHoard (movable sevenTag) movableFile) s ∧
      s.moved = 1 ∧ s.commits = 1 ∧ (∀ c ∈ s.chunks, c.Stored s.file) ∧
      ∀ tag, HasTag (hoardGc (movable sevenTag) [⟨1, sevenTag⟩]) tag → HasTag s.chunks tag := by
  have hgc : Reach (compactStep [⟨1, sevenTag⟩]) (fun _ _ => True)
      (compactHoard (movable sevenTag) movableFile)
      { compactHoard (movable sevenTag) movableFile with pc := .count } := by
    refine .step (a := .ok) .init trivial (congrArg some ?_)
    rw [compactHoard, movable, hoardGc_pair (.inl rfl) (.inr rfl)]
  have hwrite : compactStep [⟨1, sevenTag⟩] (readMovable sevenTag movableFile) .ok = some
      { readMovable sevenTag movableFile with pc := .write ⟨sevenTag, 256, 1, aesSha1⟩ 0 [7] } :=
    congrArg some readChunk_readMovable
  obtain ⟨s, hmoved, hcount⟩ := exec_moved sevenTag movableFile [⟨1, sevenTag⟩]
  have hr := Base.reach_of_exec (fun _ _ _ => trivial) _
    (.step (Base.reach_of_exec (fun _ _ _ => trivial) _ hgc (exec_readMovable ..)) trivial hwrite)
    hmoved
  exact ⟨s, hr, hcount.1, hcount.2, compaction_safe hoarded_movable fitsSlots_movable hr⟩

/-! ## A slot too far

The only free slot is behind the chunk, at an offset that is negative as an `int`. The 2^23 - 1
slots between them, without which `check_hoard` would refuse the index, are left out; with a chunk
in each of them the free slot is the same, and the last of those chunks is lost. -/

def farSlot (tag : Tag) : List (Chunk Tag) :=
  [{ tag := some tag, offset := 0, length := 1, crypto := aesSha1, allocated := 1 },
   { tag := none, offset := 2 ^ 31, length := 0, crypto := 0, allocated := 0 }]

theorem hoardGc_farSlot (tag : Tag) : hoardGc (farSlot tag) [⟨1, tag⟩] = farSlot tag :=
  hoardGc_pair (.inr rfl) (.inl rfl)

/-- Before the read of the move. -/
def readFar (tag : Tag) (file : List UInt8) : Compact :=
  { compactHoard (farSlot tag) file with
    pc := .read ⟨tag, 0, 1, aesSha1⟩ (-2 ^ 31), below := some 0, taken := 1 }

theorem exec_readFar (tag : Tag) (file : List UInt8) (refs : List (Ref Tag)) :
    Base.exec (compactStep refs) (fun _ _ => true)
      { compactHoard (farSlot tag) file with pc := .count } [.ok, .ok, .ok, .ok]
      = some (readFar tag file) := rfl

/-- After the commit. -/
def lostFar (tag : Tag) (file : List UInt8) : Compact :=
  { readFar tag file with
    chunks := [{ tag := none, offset := 0, length := 0, crypto := 0, allocated := 0 },
      { tag := none, offset := 2 ^ 31, length := 0, crypto := 0, allocated := 0 }]
    work := [{ tag := none, offset := 0, length := 0, crypto := 0, allocated := 0 },
      { tag := none, offset := 2 ^ 31, length := 0, crypto := 0, allocated := 0 }]
    file := (hoardWriteChunk file (-2 ^ 31) [7] slotBytes).2
    pc := .returned .success, moved := 1, ret := .success, released := 1, commits := 1 }

theorem exec_lostFar (tag : Tag) (file : List UInt8) (refs : List (Ref Tag)) :
    Base.exec (compactStep refs) (fun _ _ => true)
      { readFar tag file with pc := .write ⟨tag, 0, 1, aesSha1⟩ (-2 ^ 31) [7] }
      [.ok, .ok, .ok, .ok, .ok] = some (lostFar tag file) := rfl

theorem hoarded_farSlot : Hoarded [7] (farSlot sevenTag) := by
  refine ⟨by decide, fun c hc => ?_, fun c hc htag => ?_, fun c hc => ?_⟩
  all_goals rcases mem_pair.mp hc with rfl | rfl
  · decide
  · decide
  · rfl
  · exact absurd rfl htag
  · intro tag htag
    cases htag
    exact ⟨by decide, by decide, rfl, rfl⟩
  · exact Chunk.stored_of_none rfl

/-- Nothing fails, and the tag of the only chunk, which is referenced, is lost. -/
theorem compaction_loses :
    Hoarded [7] (farSlot sevenTag) ∧ HasTag (hoardGc (farSlot sevenTag) [⟨1, sevenTag⟩]) sevenTag ∧
      ∃ s, Reach (compactStep [⟨1, sevenTag⟩]) (fun _ _ => True)
          (compactHoard (farSlot sevenTag) [7]) s ∧ ¬ HasTag s.chunks sevenTag := by
  have hgc : Reach (compactStep [⟨1, sevenTag⟩]) (fun _ _ => True)
      (compactHoard (farSlot sevenTag) [7])
      { compactHoard (farSlot sevenTag) [7] with pc := .count } := by
    refine .step (a := .ok) .init trivial (congrArg some ?_)
    rw [compactHoard, hoardGc_farSlot]
  have hread : hoardReadChunk ⟨[7], fun _ => false⟩ none 0 1 aesSha1 sevenTag = .ok [7] :=
    hoardReadChunk_eq_ok.mpr ⟨sevenTag_length, by decide, by decide, nofun, rfl, rfl, rfl, rfl⟩
  have hwrite : compactStep [⟨1, sevenTag⟩] (readFar sevenTag [7]) .ok =
      some { readFar sevenTag [7] with pc := .write ⟨sevenTag, 0, 1, aesSha1⟩ (-2 ^ 31) [7] } :=
    congrArg some (Compact.readChunk_eq hread (by decide))
  have hr := Base.reach_of_exec (fun _ _ _ => trivial) _
    (.step (Base.reach_of_exec (fun _ _ _ => trivial) _ hgc (exec_readFar ..)) trivial hwrite)
    (exec_lostFar ..)
  refine ⟨hoarded_farSlot, ?_, lostFar sevenTag [7], hr, ?_⟩
  · rw [hoardGc_farSlot]
    exact ⟨_, mem_cons_self, rfl⟩
  · rintro ⟨c, hc, htag⟩
    rcases mem_pair.mp hc with rfl | rfl
    · cases htag
    · cases htag

end OpenIsr.Hoard
