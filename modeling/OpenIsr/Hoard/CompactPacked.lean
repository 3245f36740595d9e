import OpenIsr.Hoard.CompactSafe
import OpenIsr.Hoard.Packing

/-!
# Compaction without failures

If nothing fails, a batch of the machine does what `compactHoardIteration` says (`run_batch`), the
loop of `compact_hoard` ends, and the file is cut behind the last chunk. Offsets that do not fit an
`int` are in the way of that. A chunk at 2^31 or behind cannot be moved, and once there are 2^23
chunks, the offset behind the last one is negative, and `ftruncate` fails. `compaction_packs_iff`
says when the hoard cache ends up packed.

With 2^23 chunks or more this happens if nothing was to be done, even for the length of the file:
`compact_hoard` fails and changes nothing.
-/

namespace OpenIsr.Hoard

open List
open Base (updateWhere mem_updateWhere mem_updateWhere_of mem_updateWhere_of_not wrapInt wrapInt_eq
  wrapInt_wrapInt_add pread pwrite ftruncate length_ftruncate Reach OnceIn)
open Cache (PkErr)

variable {refs : List (Ref Tag)} {tags : Tag → Prop} {s s' s₁ : Compact} {src : Fetched}
  {dest : Int} {chunks : List (Chunk Tag)} {n : Nat} {tag : Tag} {ret : PkErr} {c : Chunk Tag}

/-- Every step goes through. -/
def Runs (refs : List (Ref Tag)) : Compact → Compact → Prop :=
  Reach (compactStep refs) fun _ a => a = .ok

theorem Runs.refl (s : Compact) : Runs refs s s := .init

theorem Runs.step (h : Runs refs s s₁) (hs : compactStep refs s₁ .ok = some s') : Runs refs s s' :=
  Reach.step h rfl hs

theorem Runs.trans (h₁ : Runs refs s s₁) (h₂ : Runs refs s₁ s') : Runs refs s s' :=
  Reach.trans h₁ h₂

theorem CompactOk.runs (h : CompactOk refs tags s) (hr : Runs refs s s') : CompactOk refs tags s' :=
  hr.inv h fun _ _ _ h _ hs => h.step hs

/-! ## A move -/

theorem length_of_digest {crypto : Int} {data : List UInt8}
    (h : cryptoDigest crypto data = some tag) : tag.length = cryptoHashlen crypto := by
  obtain rfl := crypto_of_digest h
  cases h
  rw [Cache.iuChunkCryptoDigest_eq]
  exact Crypto.sha1_length _

theorem Compact.writeChunk_eq {buf : List UInt8} (hlen : buf.length ≤ slotBytes) :
    s.writeChunk src dest buf slotBytes =
      { s with file := (hoardWriteChunk s.file dest buf slotBytes).2, pc := .clear src dest } := by
  unfold Compact.writeChunk hoardWriteChunk
  rw [if_neg (not_lt.mpr hlen)]
  simp only [lt_irrefl, if_false]

theorem Compact.fillSlot_eq (h : ¬ ∃ c ∈ s.work, c.tag = some src.tag ∧ c.offset ≠ dest) :
    s.fillSlot src dest =
      { s with
        work := updateWhere s.work (·.offset = dest) fun slot =>
          { slot with
            tag := some src.tag, length := src.length, crypto := src.crypto, allocated := 1 }
        ret := .success, moved := s.moved + 1, pc := .chunk } := if_neg fun hx => h hx.2

theorem run_move (h : CompactOk refs tags s) (hpc : s.pc = .read src dest) (htidy : Tidy s.work) :
    ∃ s', Runs refs s s' ∧ s'.pc = .chunk ∧ s'.work = moveChunk s.work src.row dest ∧
      s'.chunks = s.chunks ∧ s'.below = s.below ∧ s'.moved = s.moved + 1 := by
  obtain ⟨-, hok⟩ := h
  simp only [hpc] at hok
  obtain ⟨hw, hsrc, hdest⟩ := hok
  obtain ⟨hnonneg, -, hfull, hdigest⟩ := hw.sound.stored _ hsrc.row src.tag rfl
  have hpos : 0 < src.length := htidy.positive _ hsrc.row (Option.some_ne_none _)
  have hfits : src.length ≤ slotBytes := hw.sound.length _ hsrc.row (Option.some_ne_none _)
  have hlen : (src.row.data s.file).length ≤ slotBytes := by
    have hfull' : (src.row.data s.file).length = src.length.toNat := hfull
    omega
  have hread : hoardReadChunk ⟨s.file, fun _ => false⟩ none src.offset src.length src.crypto src.tag
      = .ok (src.row.data s.file) :=
    hoardReadChunk_eq_ok.mpr ⟨length_of_digest hdigest, hnonneg, hpos, nofun, rfl, rfl, hfull,
      hdigest⟩
  have h₁ : compactStep refs s .ok =
      some { s with pc := .write src dest (src.row.data s.file) } := by
    simp only [compactStep, hpc]
    rw [Compact.readChunk_eq hread hlen]
  let s₂ : Compact :=
    { s with
      file := (hoardWriteChunk s.file dest (src.row.data s.file) slotBytes).2
      pc := .clear src dest }
  have h₂ : compactStep refs { s with pc := .write src dest (src.row.data s.file) } .ok = some s₂ :=
    congrArg some (Compact.writeChunk_eq hlen)
  -- no other row has the tag
  have hunique : ¬ ∃ c ∈ (s₂.clearSource src dest).work,
    c.tag = some src.tag ∧ c.offset ≠ dest := by
    rintro ⟨c, hc, hct, -⟩
    obtain ⟨d, hd, ⟨-, rfl⟩ | ⟨hne, rfl⟩⟩ := mem_updateWhere.mp hc
    · cases hct
    · have heq := htidy.unique src.tag c hd src.row hsrc.row hct rfl
      exact of_decide_eq_false hne (congrArg Chunk.offset heq)
  have h₄ := congrArg some (Compact.fillSlot_eq hunique)
  exact ⟨_, ((((Runs.refl s).step h₁).step h₂).step rfl).step h₄, rfl, rfl, rfl, rfl, rfl⟩

/-! ## A batch -/

theorem run_loop (n : Nat) : ∀ {s : Compact}, CompactOk refs tags s → s.pc = .chunk →
    s.moved + n = 16 → (0 < s.moved → s.below ≠ none) → Tidy s.work →
    (∀ d ∈ s.work, d.tag ≠ none → ∀ b ∈ s.below, d.offset < b) →
    ∃ s', Runs refs s s' ∧ s'.pc = .commit ∧ s'.work = (compactLoop n s.below s.work).chunks ∧
      s'.done = (compactLoop n s.below s.work).done ∧ s'.chunks = s.chunks := by
  induction n with
  | zero =>
    intro s h hpc hn hrow htidy hbelow
    have hstep : compactStep refs s .ok = some { s with done := false, pc := .commit } := by
      have hnone : s.below.isNone = false := by
        cases hb : s.below with
        | none => exact absurd hb (hrow (by omega))
        | some b => rfl
      simp only [compactStep, hpc, statement, Compact.fetchChunk,
        if_neg (show ¬ s.moved < 16 by omega),
        hnone]
    exact ⟨_, (Runs.refl s).step hstep, rfl, rfl, rfl, rfl⟩
  | succ n ih =>
    intro s h hpc hn hrow htidy hbelow
    have hsound : Sound s.file s.work := by
      have hok := h.2
      simp only [hpc] at hok
      exact hok.sound
    have hstep : compactStep refs s .ok = some s.fetchChunk := by
      simp only [compactStep, hpc, statement]
    unfold Compact.fetchChunk at hstep
    rw [if_pos (show s.moved < 16 by omega)] at hstep
    unfold compactLoop
    split
    next hnext =>
      simp only [hnext] at hstep
      exact ⟨_, (Runs.refl s).step hstep, rfl, rfl, rfl, rfl⟩
    next c hnext =>
      simp only [hnext] at hstep
      obtain ⟨hc, hct, -⟩ := nextChunk_spec hnext
      have hrow' : c.fetch.row = c := hsound.fetch_row hc hct
      have hoff : c.fetch.offset = c.offset := congrArg Chunk.offset hrow'
      have hr₁ := (Runs.refl s).step hstep
      have hstep₂ : compactStep refs { s with below := some c.offset, pc := .slot c.fetch } .ok =
          some (Compact.fetchSlot { s with below := some c.offset, pc := .slot c.fetch } c.fetch) :=
        rfl
      unfold Compact.fetchSlot at hstep₂
      split
      next hnone =>
        simp only [hnone] at hstep₂
        exact ⟨_, hr₁.step hstep₂, rfl, rfl, rfl, rfl⟩
      next slot hslot =>
        simp only [hslot, hsound.wrapInt_slot hslot, hoff] at hstep₂
        obtain ⟨hmem, hz⟩ := lowestFree_spec hslot
        split
        next hle =>
          rw [if_pos hle] at hstep₂
          exact ⟨_, hr₁.step hstep₂, rfl, rfl, rfl, rfl⟩
        next hlt =>
          rw [if_neg hlt] at hstep₂
          rw [not_le] at hlt
          have hr₂ := hr₁.step hstep₂
          obtain ⟨s₃, hr₃, hpc₃, hwork₃, hchunks₃, hbelow₃, hmoved₃⟩ :=
            run_move (h.runs hr₂) rfl htidy
          have hb₃ : s₃.below = some c.offset := hbelow₃
          have hm₃ : s₃.moved = s.moved + 1 := hmoved₃
          rw [hrow'] at hwork₃
          have hmoved := below_moveChunk htidy hnext hbelow hmem hlt
          obtain ⟨s₄, hr₄, hpc₄, hwork₄, hdone₄, hchunks₄⟩ :=
            ih (h.runs (hr₂.trans hr₃)) hpc₃ (by omega)
              (fun _ => by rw [hb₃]; exact Option.some_ne_none _)
              (by rw [hwork₃]; exact htidy.moveChunk hc hct hmem hlt.ne)
              (by rw [hwork₃, hb₃]; exact hmoved)
          rw [hb₃, hwork₃] at hwork₄ hdone₄
          exact ⟨s₄, (hr₂.trans hr₃).trans hr₄, hpc₄, hwork₄, hdone₄, hchunks₄.trans hchunks₃⟩

theorem run_batch (h : CompactOk refs tags s) (hstart : s = s.again) (htidy : Tidy s.chunks) :
    ∃ s', Runs refs s s' ∧ s'.pc = .returned .success ∧
      s'.chunks = (compactHoardIteration s.chunks).chunks ∧
      s'.done = (compactHoardIteration s.chunks).done := by
  have hbegin : compactStep refs s .ok = some s.begun := by
    rw [hstart]
    rfl
  have hbelow : s.begun.below = none := congrArg Compact.below hstart
  have hmoved : s.begun.moved = 0 := congrArg Compact.moved hstart
  have hr := (Runs.refl s).step hbegin
  obtain ⟨s₁, hr₁, hpc₁, hwork₁, hdone₁, -⟩ := run_loop 16 (h.runs hr) rfl (by rw [hmoved])
    (fun hpos => absurd hpos (by rw [hmoved]; exact lt_irrefl 0)) htidy
    (by rw [hbelow]; exact nofun)
  rw [hbelow] at hwork₁ hdone₁
  have hcommit : compactStep refs s₁ .ok = some s₁.committed := by
    simp only [compactStep, hpc₁, statement]
  exact ⟨_, (hr.trans hr₁).step hcommit, rfl, hwork₁, hdone₁⟩

/-! ## The loop of `compact_hoard` -/

theorem run_batches (m : Nat) : ∀ {s : Compact}, CompactOk refs tags s → s = s.again →
    Tidy s.chunks → (∀ c ∈ s.chunks, c.tag ≠ none → c.offset < m) →
    ∃ s', Runs refs s s' ∧ s'.pc = .truncStart ∧ Tidy s'.chunks ∧ Front s'.chunks ∧
      ∀ tag, HasTag s'.chunks tag ↔ HasTag s.chunks tag := by
  induction m using Nat.strongRecOn with
  | ind m ih =>
    intro s h hstart htidy hbound
    obtain ⟨s₁, hr₁, hpc₁, hchunks₁, hdone₁⟩ := run_batch h hstart htidy
    obtain ⟨hloop, hmoved⟩ := htidy.compactHoardIteration
    have hnext : compactStep refs s₁ .ok = some (s₁.next .success) := by
      simp only [compactStep, hpc₁, if_true]
    unfold Compact.next at hnext
    rw [if_neg (not_not.mpr rfl)] at hnext
    rw [← hdone₁, ← hchunks₁] at hmoved
    have htidy₁ : Tidy s₁.chunks := hchunks₁ ▸ hloop.tidy
    have htags₁ : ∀ tag, HasTag s₁.chunks tag ↔ HasTag s.chunks tag := hchunks₁ ▸ hloop.tags
    cases hdone : s₁.done with
    | true =>
      rw [if_pos hdone] at hnext
      refine ⟨_, hr₁.step hnext, rfl, htidy₁, ?_, htags₁⟩
      exact hchunks₁ ▸ hloop.front (hdone₁ ▸ hdone)
    | false =>
      rw [if_neg (Bool.not_eq_true _ ▸ hdone)] at hnext
      obtain ⟨c, hc, hct, hlt⟩ := hmoved hdone
      obtain ⟨hpos, -⟩ := htidy.offset hc
      have hcm := hbound c hc hct
      have hr₂ := hr₁.step hnext
      obtain ⟨s₂, hr₃, hpc₂, htidy₂, hfront₂, htags₂⟩ :=
        ih c.offset.toNat (by omega) (h.runs hr₂) rfl htidy₁ fun d hd hdt => by
          have hd' := hlt d hd hdt
          omega
      exact ⟨s₂, hr₂.trans hr₃, hpc₂, htidy₂, hfront₂, fun tag => (htags₂ tag).trans (htags₁ tag)⟩

variable (refs) in
/-- If no slot is free, the first batch is the last one and moves nothing. -/
theorem run_full (hstart : s = s.again) (hfull : ∀ c ∈ s.chunks, c.allocated ≠ 0) :
    ∃ s', Runs refs s s' ∧ s'.pc = .truncStart ∧ s'.chunks = s.chunks ∧ s'.file = s.file := by
  have hbegin : compactStep refs s .ok = some s.begun := by
    rw [hstart]
    rfl
  have hbelow : s.begun.below = none := congrArg Compact.below hstart
  have hmoved : s.begun.moved < 16 := by
    have hz : s.begun.moved = 0 := congrArg Compact.moved hstart
    omega
  -- either query leads to `done`
  have hdone : ∃ s₁, Runs refs s.begun s₁ ∧ s₁.pc = .commit ∧ s₁.done = true ∧
      s₁.work = s.chunks ∧ s₁.file = s.file := by
    have hchunk : compactStep refs s.begun .ok = some s.begun.fetchChunk := rfl
    unfold Compact.fetchChunk at hchunk
    rw [if_pos hmoved] at hchunk
    cases hnext : nextChunk s.begun.work s.begun.below with
    | none =>
      simp only [hnext] at hchunk
      refine ⟨_, (Runs.refl _).step hchunk, rfl, ?_, rfl, rfl⟩
      simp only [hbelow, Option.isNone_none]
    | some c =>
      simp only [hnext] at hchunk
      have hslot : compactStep refs { s.begun with below := some c.offset, pc := .slot c.fetch } .ok
          = some (Compact.fetchSlot { s.begun with below := some c.offset, pc := .slot c.fetch }
            c.fetch) := rfl
      have hnone : lowestFree s.begun.work = none := by
        cases hfree : lowestFree s.begun.work with
        | none => rfl
        | some slot =>
          obtain ⟨hmem, hz⟩ := lowestFree_spec hfree
          exact absurd hz (hfull slot hmem)
      unfold Compact.fetchSlot at hslot
      simp only [hnone] at hslot
      exact ⟨_, ((Runs.refl _).step hchunk).step hslot, rfl, rfl, rfl, rfl⟩
  obtain ⟨s₁, hr₁, hpc₁, hdone₁, hwork₁, hfile₁⟩ := hdone
  have hcommit : compactStep refs s₁ .ok = some s₁.committed := by
    simp only [compactStep, hpc₁, statement]
  have hnext : compactStep refs s₁.committed .ok
    = some { s₁.committed with pc := .truncStart } := by
    have hd : s₁.committed.done = true := hdone₁
    simp only [compactStep, Compact.committed, if_true]
    exact congrArg some (if_pos hdone₁)
  exact ⟨_, ((((Runs.refl s).step hbegin).trans hr₁).step hcommit).step hnext, rfl, hwork₁, hfile₁⟩

/-! ## Truncation -/

variable (refs) in
theorem run_delete (hpc : s.pc = .truncStart) :
    ∃ s₁, Runs refs s s₁ ∧ s₁ =
      { s with
        work := s.chunks.filter (·.offset < truncateOffset s.chunks)
        pc := .truncFile (truncateOffset s.chunks) } := by
  have hbegin : compactStep refs s .ok = some { s with work := s.chunks, pc := .truncLast } := by
    simp only [compactStep, hpc, statement]
  exact ⟨_, ((((Runs.refl s).step hbegin).step rfl).step rfl).step rfl, rfl⟩

variable (refs) in
theorem run_truncate_fails (hpc : s.pc = .truncStart) (hneg : truncateOffset s.chunks < 0) :
    ∃ s', Runs refs s s' ∧ s'.pc = .finished .ioerr ∧ s'.chunks = s.chunks ∧ s'.file = s.file := by
  obtain ⟨s₁, hr₁, hs₁⟩ := run_delete refs hpc
  have hcut : compactStep refs s₁ .ok = some (s₁.truncBad false) := by
    rw [hs₁]
    exact congrArg some (if_pos hneg)
  rw [hs₁] at hcut hr₁
  exact ⟨_, (hr₁.step hcut).step rfl, rfl, rfl, rfl⟩

variable (refs) in
theorem run_truncate (hpc : s.pc = .truncStart) (hpos : 0 ≤ truncateOffset s.chunks) :
    ∃ s', Runs refs s s' ∧ s'.pc = .finished .success ∧
      s'.chunks = s.chunks.filter (·.offset < truncateOffset s.chunks) ∧
      s'.file = ftruncate s.file ((truncateOffset s.chunks).toNat * 512) := by
  obtain ⟨s₁, hr₁, hs₁⟩ := run_delete refs hpc
  have hcut : compactStep refs s₁ .ok = some
      { s₁ with
        file := ftruncate s₁.file ((truncateOffset s.chunks).toNat * 512)
        pc := .truncCommit } := by
    rw [hs₁]
    exact congrArg some (if_neg (not_lt.mpr hpos))
  rw [hs₁] at hcut hr₁
  exact ⟨_, ((hr₁.step hcut).step rfl).step rfl, rfl, rfl, rfl⟩

/-- If chunks come first, the file is cut behind the last one, or where an `int` takes this for. -/
theorem truncateOffset_front {T : Type} {chunks : List (Chunk T)} (h : Tidy chunks)
    (hfront : Front chunks) :
    truncateOffset chunks = wrapInt ((tagged chunks).length * slotSectors) := by
  have hiff : ∀ c ∈ chunks, c.allocated = 1 ↔ c.offset < (tagged chunks).length * slotSectors := by
    intro c hc
    rw [← h.tag_iff hfront hc]
    constructor
    · rintro h1 htag
      exact absurd (h1.symm.trans (h.free hc htag).1) (by decide)
    · exact fun htag => (h.holding hc htag).1
  unfold truncateOffset
  cases hn : (tagged chunks).length with
  | zero =>
    have hnil : chunks.filter (·.allocated = 1) = [] := by
      refine filter_eq_nil_iff.mpr fun c hc h1 => ?_
      have hlt := (hiff c hc).mp (of_decide_eq_true h1)
      have hpos := (h.offset hc).1
      rw [hn, Nat.cast_zero, Int.zero_mul] at hlt
      omega
    rw [hnil]
    rfl
  | succ n =>
    have hmax : (chunkOffsets (chunks.filter (·.allocated = 1))).max? = some (n * slotSectors) := by
      refine max?_eq_some_iff.mpr ⟨?_, fun o ho => ?_⟩
      · have hle : (tagged chunks).length ≤ chunks.length := length_filter_le ..
        obtain ⟨c, hc, hco⟩ := h.exists_row (i := n) (by omega)
        refine mem_chunkOffsets.mpr ⟨c, mem_filter.mpr ⟨hc, decide_eq_true ?_⟩, hco⟩
        refine (hiff c hc).mpr ?_
        rw [hn, hco]
        unfold slotSectors
        omega
      · obtain ⟨c, hc, rfl⟩ := mem_chunkOffsets.mp ho
        obtain ⟨hc, h1⟩ := mem_filter.mp hc
        have hlt := (hiff c hc).mp (of_decide_eq_true h1)
        obtain ⟨-, -, i, hi⟩ := h.offset hc
        rw [hn] at hlt
        unfold slotSectors at hlt hi ⊢
        omega
    rw [hmax]
    have hend : (n : Int) * slotSectors + slotSectors = ((n + 1 : Nat) : Int) * slotSectors := by
      unfold slotSectors
      omega
    exact (wrapInt_wrapInt_add ..).trans (congrArg wrapInt hend)

/-! ## Where it works -/

/-- The slots are at 0, 256, 512, ..., `allocated` tells which of them hold a chunk, `tag` is
UNIQUE, and each chunk can be read into the buffer. -/
structure Regular (file : List UInt8) (chunks : List (Chunk Tag)) : Prop where
  offsets : (chunkOffsets chunks).Perm (firstSlots chunks.length)
  rows : ∀ c ∈ chunks, c.Free ∨ c.Holding
  unique : ∀ tag, OnceIn chunks (·.tag) tag
  readable : ∀ c ∈ chunks, ∀ tag ∈ c.tag, ∃ buf,
    hoardReadChunk ⟨file, fun _ => false⟩ (some slotBytes) c.offset c.length c.crypto tag = .ok buf

/-- The chunks of `kept` are in the first slots, there are no other rows, and the file ends behind
them. -/
structure Packed (kept : List (Chunk Tag)) (s : Compact) : Prop where
  offsets : (chunkOffsets s.chunks).Perm (firstSlots (tagged kept).length)
  rows : ∀ c ∈ s.chunks, c.tag ≠ none
  tags : ∀ tag, HasTag s.chunks tag ↔ HasTag kept tag
  file : s.file.length = (tagged kept).length * slotBytes

/-- If nothing fails, `compact_hoard` returns after finitely many steps and has packed the chunks
that are left after garbage collection. -/
def Packs (refs : List (Ref Tag)) (chunks : List (Chunk Tag)) (file : List UInt8) : Prop :=
  ∃ s ret, Runs refs (compactHoard chunks file) s ∧ s.pc = .finished ret ∧
    Packed (hoardGc chunks refs) s

/-- There are fewer than 2^23 chunks, and each of them is at an offset that fits an `int`. Or every
slot holds a chunk and the file has the right length, so that nothing is to be done, and truncation
fails. -/
def Packable (refs : List (Ref Tag)) (chunks : List (Chunk Tag)) (file : List UInt8) : Prop :=
  (tagged (hoardGc chunks refs)).length < 2 ^ 23 ∧
      (∀ c ∈ hoardGc chunks refs, c.tag ≠ none → c.offset < 2 ^ 31) ∨
    (∀ c ∈ hoardGc chunks refs, c.tag ≠ none) ∧ wrapInt (chunks.length * slotSectors) < 0 ∧
      file.length = chunks.length * slotBytes

section regular

variable {file : List UInt8}

theorem Regular.tidy (h : Regular file chunks) : Tidy chunks := by
  refine ⟨h.offsets, h.rows, h.unique, fun c hc htag => ?_⟩
  obtain ⟨tag, htag⟩ := Option.ne_none_iff_exists'.mp htag
  obtain ⟨buf, hread⟩ := h.readable c hc tag htag
  exact (hoardReadChunk_eq_ok.mp hread).2.2.1

theorem length_hoardGc (chunks : List (Chunk Tag)) (refs : List (Ref Tag)) :
    (hoardGc chunks refs).length = chunks.length := length_map _

theorem Regular.hoardGc (h : Regular file chunks) (refs : List (Ref Tag)) :
    Regular file (hoardGc chunks refs) := by
  have hlen := length_hoardGc chunks refs
  obtain ⟨p, heq, -⟩ := hoardGc_eq chunks refs
  rw [heq] at hlen ⊢
  refine ⟨?_, fun c hc => ?_, fun tag => (h.unique tag).updateWhere fun _ => rfl,
    fun c hc tag htag => ?_⟩
  · rw [hlen]
    refine (List.Perm.of_eq (chunkOffsets_update ?_)).trans h.offsets
    exact fun _ => rfl
  · obtain ⟨d, hd, ⟨-, rfl⟩ | ⟨-, rfl⟩⟩ := mem_updateWhere.mp hc
    · exact .inl ⟨rfl, rfl⟩
    · exact h.rows c hd
  · obtain ⟨d, hd, ⟨-, rfl⟩ | ⟨-, rfl⟩⟩ := mem_updateWhere.mp hc
    · cases htag
    · exact h.readable c hd tag htag

theorem Regular.sound (h : Regular file chunks) (hcount : (tagged chunks).length < 2 ^ 23)
    (hrange : ∀ c ∈ chunks, c.tag ≠ none → c.offset < 2 ^ 31) : Sound file chunks := by
  have htidy := h.tidy
  refine
    { nodup := htidy.nodup
      aligned := fun c hc => (htidy.offset hc).2.2
      allocated := fun c hc htag => (htidy.holding hc htag).1
      stored := fun c hc tag htag => ?_
      nonneg := fun c hc => (htidy.offset hc).1
      offset := fun c hc h1 => hrange c hc fun htag => ?_
      free := fun c hc hz => ?_
      length := fun c hc htag => ?_ }
  · obtain ⟨buf, hread⟩ := h.readable c hc tag htag
    obtain ⟨-, hoff, hpos, -, -, rfl, hlen, hdigest⟩ := hoardReadChunk_eq_ok.mp hread
    exact ⟨hoff, hpos.le, hlen, hdigest⟩
  · exact absurd (h1.symm.trans (htidy.free hc htag).1) (by decide)
  · by_contra hnone
    have hall : ∀ d ∈ chunks, d.offset < 2 ^ 31 → d.tag ≠ none := fun d hd hlt htag =>
      hnone ⟨d, hd, (htidy.free hd htag).1, hlt⟩
    obtain ⟨-, hclt, -⟩ := htidy.offset hc
    have hfar : 2 ^ 31 ≤ c.offset := not_lt.mp fun hlt => hnone ⟨c, hc, hz, hlt⟩
    have hle : 2 ^ 23 ≤ (tagged chunks).length → False := not_le.mpr hcount
    refine hle (le_length_tagged fun i hi => ?_)
    obtain ⟨d, hd, hdo⟩ := htidy.exists_row (i := i) (by unfold slotSectors at hclt; omega)
    refine ⟨d, hd, hdo, hall d hd ?_⟩
    unfold slotSectors at hdo
    omega
  · obtain ⟨tag, htag⟩ := Option.ne_none_iff_exists'.mp htag
    obtain ⟨buf, hread⟩ := h.readable c hc tag htag
    exact (hoardReadChunk_eq_ok.mp hread).2.2.2.1 slotBytes rfl

/-- Before the first batch. -/
def afterGc (refs : List (Ref Tag)) (chunks : List (Chunk Tag)) (file : List UInt8) : Compact :=
  { compactHoard chunks file with chunks := hoardGc chunks refs, pc := .start }

theorem run_afterGc (refs : List (Ref Tag)) (chunks : List (Chunk Tag)) (file : List UInt8) :
    Runs refs (compactHoard chunks file) (afterGc refs chunks file) :=
  ((Runs.refl _).step rfl).step rfl

theorem length_tagged_of_all (h : ∀ c ∈ chunks, c.tag ≠ none) :
    (tagged chunks).length = chunks.length :=
  congrArg List.length (filter_eq_self.mpr fun c hc => decide_eq_true (h c hc))

variable (refs) in
theorem run_nothing (h : Regular file chunks) (hall : ∀ c ∈ hoardGc chunks refs, c.tag ≠ none) :
    ∃ s, Runs refs (compactHoard chunks file) s ∧ s.pc = .truncStart ∧
      s.chunks = hoardGc chunks refs ∧ s.file = file ∧
      truncateOffset s.chunks = wrapInt (chunks.length * slotSectors) := by
  have htidy := (h.hoardGc refs).tidy
  have hfull : ∀ c ∈ (afterGc refs chunks file).chunks, c.allocated ≠ 0 := by
    intro c hc hz
    exact absurd ((htidy.holding hc (hall c hc)).1.symm.trans hz) (by decide)
  obtain ⟨s, hr, hpc, hchunks, hfile⟩ := run_full refs rfl hfull
  refine ⟨s, (run_afterGc refs chunks file).trans hr, hpc, hchunks, hfile, ?_⟩
  rw [hchunks, ← length_hoardGc chunks refs, ← length_tagged_of_all hall]
  exact truncateOffset_front htidy fun _ _ d hd _ hdt => absurd hdt (hall d hd)

theorem packs_of_fits (h : Regular file chunks)
    (hcount : (tagged (hoardGc chunks refs)).length < 2 ^ 23)
    (hrange : ∀ c ∈ hoardGc chunks refs, c.tag ≠ none → c.offset < 2 ^ 31) :
    Packs refs chunks file := by
  have hgc := h.hoardGc refs
  have hok : CompactOk refs (HasTag (hoardGc chunks refs)) (afterGc refs chunks file) :=
    ⟨⟨hgc.sound hcount hrange, fun _ => id⟩, trivial⟩
  have hbound : ∀ c ∈ (afterGc refs chunks file).chunks, c.tag ≠ none →
      c.offset < (chunks.length * 256 : Nat) := by
    intro c hc _
    obtain ⟨-, hlt, -⟩ := hgc.tidy.offset hc
    rw [length_hoardGc] at hlt
    unfold slotSectors at hlt
    omega
  obtain ⟨s₁, hr₁, hpc₁, htidy₁, hfront₁, htags₁⟩ := run_batches _ hok rfl hgc.tidy hbound
  have hn : (tagged s₁.chunks).length = (tagged (hoardGc chunks refs)).length :=
    hgc.tidy.length_tagged htidy₁ htags₁
  have hoffset : truncateOffset s₁.chunks = (tagged s₁.chunks).length * slotSectors := by
    rw [truncateOffset_front htidy₁ hfront₁]
    unfold slotSectors
    exact wrapInt_eq (by omega) (by omega)
  have hpos : 0 ≤ truncateOffset s₁.chunks := by
    rw [hoffset]
    unfold slotSectors
    omega
  obtain ⟨s₂, hr₂, hpc₂, hchunks₂, hfile₂⟩ := run_truncate refs hpc₁ hpos
  rw [hoffset] at hchunks₂ hfile₂
  obtain ⟨hoffsets, hrows, htags⟩ := htidy₁.cut hfront₁ hchunks₂
  refine ⟨s₂, _, ((run_afterGc refs chunks file).trans hr₁).trans hr₂, hpc₂, hn ▸ hoffsets, hrows,
    fun tag => (htags tag).trans (htags₁ tag), ?_⟩
  rw [hfile₂, length_ftruncate, hn]
  unfold slotSectors slotBytes
  omega

theorem packs_of_all (h : Regular file chunks)
    (hp : (∀ c ∈ hoardGc chunks refs, c.tag ≠ none) ∧ wrapInt (chunks.length * slotSectors) < 0 ∧
      file.length = chunks.length * slotBytes) : Packs refs chunks file := by
  have hall := hp.1
  have hn : (tagged (hoardGc chunks refs)).length = chunks.length :=
    (length_tagged_of_all hall).trans (length_hoardGc ..)
  obtain ⟨s₁, hr₁, hpc₁, hchunks₁, hfile₁, hoffset⟩ := run_nothing refs h hall
  obtain ⟨s₂, hr₂, hpc₂, hchunks₂, hfile₂⟩ :=
    run_truncate_fails refs hpc₁ (hoffset ▸ hp.2.1)
  have hchunks : s₂.chunks = hoardGc chunks refs := hchunks₂.trans hchunks₁
  refine ⟨s₂, _, hr₁.trans hr₂, hpc₂, ?_, fun c hc => hall c (hchunks ▸ hc), fun tag => ?_, ?_⟩
  · rw [hchunks, hn, ← length_hoardGc chunks refs]
    exact (h.hoardGc refs).offsets
  · rw [hchunks]
  · rw [hfile₂, hfile₁, hn]
    exact hp.2.2

end regular

/-! ## Where it does not -/

/-- What no move changes, whatever an `int` makes of an offset: a chunk at 2^31 or behind stays, and
`tag` is UNIQUE. -/
structure Intact (kept chunks : List (Chunk Tag)) : Prop where
  offsets : chunkOffsets chunks = chunkOffsets kept
  unique : ∀ tag, OnceIn chunks (·.tag) tag
  far : ∀ c ∈ kept, c.tag ≠ none → 2 ^ 31 ≤ c.offset → c ∈ chunks

/-- What truncation leaves of such an index. -/
def Truncated (kept chunks : List (Chunk Tag)) : Prop :=
  ∃ all offset, Intact kept all ∧ offset < 2 ^ 31 ∧ slotSectors ∣ offset ∧
    chunks = all.filter (·.offset < offset)

section intact

variable {kept : List (Chunk Tag)}

theorem Intact.clear (h : Intact kept chunks) {offset : Int} (hoffset : offset < 2 ^ 31) :
    Intact kept (updateWhere chunks (·.offset = offset) Chunk.clear) := by
  refine ⟨?_, fun tag => (h.unique tag).updateWhere fun _ => rfl, fun c hc htag hfar => ?_⟩
  · refine (chunkOffsets_update ?_).trans h.offsets
    exact fun _ => rfl
  · refine mem_updateWhere_of_not (h.far c hc htag hfar) (decide_eq_false fun heq => ?_)
    omega

/-- The second update is refused if it would make a tag appear twice. -/
theorem Intact.fill (h : Intact kept chunks) (hnodup : (chunkOffsets kept).Nodup)
    (hdest : dest < 2 ^ 31)
    (hok : ¬ (dest ∈ chunkOffsets chunks ∧ ∃ c ∈ chunks, c.tag = some src.tag ∧ c.offset ≠ dest)) :
    Intact kept (updateWhere chunks (·.offset = dest) fun slot =>
      { slot with
        tag := some src.tag, length := src.length, crypto := src.crypto, allocated := 1 }) := by
  have hnodup' : (chunkOffsets chunks).Nodup := h.offsets ▸ hnodup
  -- a row with the tag elsewhere
  have hother : ∀ c ∈ chunks, ∀ d ∈ chunks, c.offset = dest → d.offset ≠ dest →
      d.tag ≠ some src.tag := by
    intro c hc d hd hco hdo hdt
    exact hok ⟨mem_chunkOffsets.mpr ⟨c, hc, hco⟩, d, hd, hdt, hdo⟩
  refine ⟨?_, fun tag x hx y hy hxt hyt => ?_, fun c hc htag hfar => ?_⟩
  · refine (chunkOffsets_update ?_).trans h.offsets
    exact fun _ => rfl
  · obtain ⟨c, hc, ⟨hp, rfl⟩ | ⟨hp, rfl⟩⟩ := mem_updateWhere.mp hx <;>
      obtain ⟨d, hd, ⟨hq, rfl⟩ | ⟨hq, rfl⟩⟩ := mem_updateWhere.mp hy
    · have hco : c.offset = dest := of_decide_eq_true hp
      rw [Base.eq_of_key hnodup' hc hd (hco.trans (of_decide_eq_true hq).symm)]
    · exact absurd (hyt.trans hxt.symm)
        (hother c hc y hd (of_decide_eq_true hp) (of_decide_eq_false hq))
    · exact absurd (hxt.trans hyt.symm)
        (hother d hd x hc (of_decide_eq_true hq) (of_decide_eq_false hp))
    · exact h.unique tag x hc y hd hxt hyt
  · refine mem_updateWhere_of_not (h.far c hc htag hfar) (decide_eq_false fun heq => ?_)
    omega

theorem dvd_truncateOffset (h : ∀ c ∈ chunks, slotSectors ∣ c.offset) :
    slotSectors ∣ truncateOffset chunks := by
  unfold truncateOffset
  split
  next => exact Int.dvd_zero _
  next m hmax =>
    obtain ⟨hm, -⟩ := max?_eq_some_iff.mp hmax
    obtain ⟨c, hc, rfl⟩ := mem_chunkOffsets.mp hm
    obtain ⟨i, hi⟩ := h c (mem_of_mem_filter hc)
    simp only [wrapInt, slotSectors, Int.bmod_def] at hi ⊢
    omega

theorem wrapInt_lt (x : Int) : wrapInt x < 2 ^ 31 := Int.bmod_lt (by decide)

/-- What holds before each statement, as long as none has failed. -/
def IntactInv (kept : List (Chunk Tag)) (s : Compact) : Prop :=
  match s.pc with
  | .gc | .count => False
  | .start | .rollback _ | .returned _ | .truncStart | .truncRollback _ => Intact kept s.chunks
  | .chunk | .commit | .truncLast | .truncAllocated => Intact kept s.chunks ∧ Intact kept s.work
  | .slot src => Intact kept s.chunks ∧ Intact kept s.work ∧ src.offset < 2 ^ 31
  | .read src dest | .write src dest _ | .clear src dest | .fill src dest =>
    Intact kept s.chunks ∧ Intact kept s.work ∧ src.offset < 2 ^ 31 ∧ dest < 2 ^ 31
  | .truncDelete offset =>
    Intact kept s.chunks ∧ Intact kept s.work ∧ offset < 2 ^ 31 ∧ slotSectors ∣ offset
  | .truncFile _ | .truncCommit => Intact kept s.chunks ∧ Truncated kept s.work
  | .vacuum => Truncated kept s.chunks
  | .finished _ => Intact kept s.chunks ∨ Truncated kept s.chunks
  | .crash => True

theorem IntactInv.step (hkept : Tidy kept) (h : IntactInv kept s)
    (hs : compactStep refs s .ok = some s') : IntactInv kept s' := by
  unfold IntactInv at h
  unfold compactStep at hs
  cases hpc : s.pc with
  | gc | count | finished | crash =>
    simp only [hpc] at h hs
    try cases hs
  | start | truncStart =>
    simp only [hpc] at h hs
    cases hs
    exact ⟨h, h⟩
  | chunk =>
    simp only [hpc, statement, Option.some.injEq] at h hs
    rw [← hs]
    unfold Compact.fetchChunk
    split
    · exact h
    · exact ⟨h.1, h.2, wrapInt_lt _⟩
  | slot src =>
    simp only [hpc, statement, Option.some.injEq] at h hs
    rw [← hs]
    unfold Compact.fetchSlot
    split
    · exact ⟨h.1, h.2.1⟩
    · split
      · exact ⟨h.1, h.2.1⟩
      · exact ⟨h.1, h.2.1, h.2.2, wrapInt_lt _⟩
  | read src dest =>
    simp only [hpc, Option.some.injEq] at h hs
    rw [← hs]
    unfold Compact.readChunk
    split
    · exact h.1
    · split
      · trivial
      · split
        · exact h.1
        · exact h
  | write src dest buf =>
    simp only [hpc, Option.some.injEq] at h hs
    rw [← hs]
    unfold Compact.writeChunk
    split
    · exact h
    · exact h.1
  | clear src dest =>
    simp only [hpc] at h hs
    cases hs
    exact ⟨h.1, h.2.1.clear h.2.2.1, h.2.2⟩
  | fill src dest =>
    simp only [hpc, statement, Option.some.injEq] at h hs
    rw [← hs]
    unfold Compact.fillSlot
    split
    next => exact h.1
    next hok => exact ⟨h.1, h.2.1.fill hkept.nodup h.2.2.2 hok⟩
  | commit | truncCommit =>
    simp only [hpc] at h hs
    cases hs
    exact h.2
  | rollback retry =>
    simp only [hpc] at h hs
    cases hs
    cases retry <;> exact h
  | returned ret =>
    simp only [hpc, if_true, Option.some.injEq] at h hs
    rw [← hs]
    unfold Compact.next
    split
    · exact .inl h
    · split
      · exact h
      · exact h
  | truncLast =>
    simp only [hpc] at h hs
    cases hs
    exact h
  | truncAllocated =>
    simp only [hpc] at h hs
    cases hs
    refine ⟨h.1, h.2, truncateOffset_lt _, dvd_truncateOffset fun c hc => ?_⟩
    have hmem : c.offset ∈ chunkOffsets kept := h.2.offsets ▸ mem_chunkOffsets.mpr ⟨c, hc, rfl⟩
    exact (mem_firstSlots.mp (hkept.offsets.mem_iff.mp hmem)).2.2
  | truncDelete offset =>
    simp only [hpc] at h hs
    cases hs
    exact ⟨h.1, s.work, offset, h.2.1, h.2.2.1, h.2.2.2, rfl⟩
  | truncFile offset =>
    simp only [hpc, Option.some.injEq] at h hs
    rw [← hs]
    unfold Compact.cut
    split
    · exact h.1
    · exact h
  | truncRollback retry =>
    simp only [hpc] at h hs
    cases hs
    cases retry with
    | true => exact h
    | false => exact .inl h
  | vacuum =>
    simp only [hpc] at h hs
    cases hs
    exact .inr h

theorem Truncated.lt (h : Truncated kept chunks)
    (hperm : (chunkOffsets chunks).Perm (firstSlots n)) : n < 2 ^ 23 := by
  obtain ⟨all, offset, -, hlt, ⟨i, hi⟩, rfl⟩ := h
  cases n with
  | zero => decide
  | succ n =>
    have hlast : (n : Int) * slotSectors ∈ firstSlots (n + 1) := by
      rw [mem_firstSlots]
      unfold slotSectors
      omega
    obtain ⟨c, hc, hco⟩ := mem_chunkOffsets.mp (hperm.mem_iff.mpr hlast)
    have hc' := of_decide_eq_true (mem_filter.mp hc).2
    unfold slotSectors at hco hi
    omega

end intact

theorem step_finished (hpc : s.pc = .finished ret) (a : CompactAct) :
    compactStep refs s a = none := by
  simp only [compactStep, hpc]

theorem Runs.eq_of_finished (h : Runs refs s s') (hpc : s.pc = .finished ret) : s' = s := by
  rcases h.head with heq | ⟨a, s₁, -, hs, -⟩
  · exact heq
  · cases (step_finished hpc a).symm.trans hs

theorem Truncated.near {kept : List (Chunk Tag)} (h : Truncated kept chunks)
    (htags : ∀ tag, HasTag kept tag → HasTag chunks tag) (hc : c ∈ kept) (htag : c.tag ≠ none) :
    c.offset < 2 ^ 31 := by
  obtain ⟨all, offset, hintact, hlt, -, rfl⟩ := h
  by_contra hfar
  rw [not_lt] at hfar
  obtain ⟨tag, hct⟩ := Option.ne_none_iff_exists'.mp htag
  obtain ⟨d, hd, hdt⟩ := htags tag ⟨c, hc, hct⟩
  obtain ⟨hd, hdo⟩ := mem_filter.mp hd
  have heq := hintact.unique tag d hd c (hintact.far c hc htag hfar) hdt hct
  have hdo' := of_decide_eq_true hdo
  rw [heq] at hdo'
  omega

theorem packable_of_packs {file : List UInt8} (h : Regular file chunks)
    (hp : Packs refs chunks file) : Packable refs chunks file := by
  obtain ⟨s, ret, hr, hpc, hpacked⟩ := hp
  have htidy := (h.hoardGc refs).tidy
  -- there is no other run
  have hrun : ∀ {t : Compact}, Runs refs (compactHoard chunks file) t → Runs refs t s :=
    fun ht => Reach.to_last (fun _ a b ha hb => ha.trans hb.symm) (step_finished hpc) hr ht
  have hintact : Intact (hoardGc chunks refs) (hoardGc chunks refs) :=
    ⟨rfl, htidy.unique, fun c hc _ _ => hc⟩
  have hinit : IntactInv (hoardGc chunks refs) (afterGc refs chunks file) := hintact
  have hinv : IntactInv (hoardGc chunks refs) s := by
    refine (hrun (run_afterGc ..)).inv hinit fun _ a _ hi ha hs => ?_
    subst ha
    exact hi.step htidy hs
  simp only [IntactInv, hpc] at hinv
  rcases hinv with hsame | htrunc
  · -- no row has been deleted, so there were none without a tag
    have hn : (tagged (hoardGc chunks refs)).length = (hoardGc chunks refs).length := by
      have hlen := hpacked.offsets.length_eq
      rwa [hsame.offsets, length_firstSlots, chunkOffsets, length_map, eq_comm] at hlen
    have hall : ∀ c ∈ hoardGc chunks refs, c.tag ≠ none := fun c hc =>
      of_decide_eq_true (length_filter_eq_length_iff.mp hn c hc)
    by_cases hcount : (tagged (hoardGc chunks refs)).length < 2 ^ 23
    · refine .inl ⟨hcount, fun c hc _ => ?_⟩
      have hlt := (htidy.offset hc).2.1
      rw [← hn] at hlt
      unfold slotSectors at hlt
      omega
    · obtain ⟨s₁, hr₁, hpc₁, hchunks₁, hfile₁, hoffset⟩ := run_nothing refs h hall
      rcases lt_or_ge (truncateOffset s₁.chunks) 0 with hneg | hpos
      · obtain ⟨s₂, hr₂, hpc₂, -, hfile₂⟩ := run_truncate_fails refs hpc₁ hneg
        have heq := (hrun (hr₁.trans hr₂)).eq_of_finished hpc₂
        have hfile := hpacked.file
        rw [heq, hfile₂, hfile₁, hn, length_hoardGc] at hfile
        exact .inr ⟨hall, hoffset ▸ hneg, hfile⟩
      · obtain ⟨s₂, hr₂, hpc₂, hchunks₂, -⟩ := run_truncate refs hpc₁ hpos
        have heq := (hrun (hr₁.trans hr₂)).eq_of_finished hpc₂
        rw [← heq, hchunks₁] at hchunks₂
        have htrunc : Truncated (hoardGc chunks refs) s.chunks :=
          ⟨_, _, hintact, truncateOffset_lt _,
            dvd_truncateOffset fun c hc => (htidy.offset hc).2.2, hchunks₂⟩
        exact absurd (htrunc.lt hpacked.offsets) hcount
  · exact .inl ⟨htrunc.lt hpacked.offsets, fun c hc htag =>
      htrunc.near (fun tag => (hpacked.tags tag).mpr) hc htag⟩

/-- Compaction packs a regular hoard cache iff, after garbage collection, there are fewer than 2^23
chunks, all of them below 2^31, or the hoard cache is full, its file has the right length, and
truncation fails. -/
theorem compaction_packs_iff {file : List UInt8} {chunks : List (Chunk Tag)} (refs : List (Ref Tag))
    (h : Regular file chunks) : Packs refs chunks file ↔ Packable refs chunks file := by
  refine ⟨packable_of_packs h, fun hp => ?_⟩
  rcases hp with hfits | hall
  · exact packs_of_fits h hfits.1 hfits.2
  · exact packs_of_all h hall

theorem regular_movable : Regular movableFile (movable sevenTag) := by
  refine ⟨.of_eq (by decide), fun c hc => ?_, fun tag c hc d hd hct hdt => ?_,
    fun c hc tag htag => ?_⟩
  · rcases mem_pair.mp hc with rfl | rfl
    · exact .inl ⟨rfl, rfl⟩
    · exact .inr ⟨rfl, Option.some_ne_none _⟩
  · rcases mem_pair.mp hc with rfl | rfl
    · cases hct
    · rcases mem_pair.mp hd with rfl | rfl
      · cases hdt
      · rfl
  · rcases mem_pair.mp hc with rfl | rfl
    · cases htag
    · cases htag
      exact ⟨_, hoardReadChunk_movable (some slotBytes) (by decide)⟩

/-- The chunk is moved to the front and the file is cut behind it. -/
theorem compaction_packs_movable : Packs [⟨1, sevenTag⟩] (movable sevenTag) movableFile := by
  refine (compaction_packs_iff [⟨1, sevenTag⟩] regular_movable).mpr (.inl ⟨?_, fun c hc _ => ?_⟩)
  · refine lt_of_le_of_lt (length_filter_le ..) ?_
    rw [length_hoardGc]
    decide
  · obtain ⟨-, hlt, -⟩ := (regular_movable.hoardGc [⟨1, sevenTag⟩]).tidy.offset hc
    rw [length_hoardGc] at hlt
    exact hlt.trans (by decide)

/-! ## A chunk too far

The last slot holds the only chunk, and all slots in front of it are free. -/

/-- `n` free slots. -/
def freeSlots (n : Nat) : List (Chunk Tag) :=
  (range n).map fun i : Nat =>
    { tag := none, offset := i * slotSectors, length := 0, crypto := 0, allocated := 0 }

def lastChunk (n : Nat) (tag : Tag) : Chunk Tag :=
  { tag := some tag, offset := n * slotSectors, length := 1, crypto := aesSha1, allocated := 1 }

def lastOnly (n : Nat) (tag : Tag) : List (Chunk Tag) := freeSlots n ++ [lastChunk n tag]

def lastFile (n : Nat) : List UInt8 := replicate (n * slotBytes) 0 ++ [7]

theorem mem_lastOnly (hc : c ∈ lastOnly n tag) : c.Free ∨ c = lastChunk n tag := by
  rcases mem_append.mp hc with hc | hc
  · obtain ⟨i, -, rfl⟩ := mem_map.mp hc
    exact .inl ⟨rfl, rfl⟩
  · exact .inr (mem_singleton.mp hc)

theorem chunkOffsets_lastOnly (n : Nat) (tag : Tag) :
    chunkOffsets (lastOnly n tag) = firstSlots (lastOnly n tag).length := by
  have hlen : (lastOnly n tag).length = n + 1 := by
    rw [lastOnly, freeSlots, length_append, length_map, length_range, length_singleton]
  rw [hlen, firstSlots, range_succ, map_append, chunkOffsets, lastOnly, freeSlots,
    map_append, map_map]
  rfl

theorem hoardReadChunk_last (n : Nat) :
    hoardReadChunk ⟨lastFile n, fun _ => false⟩ (some slotBytes) (n * slotSectors)
      1 aesSha1 sevenTag
      = .ok [7] := by
  refine hoardReadChunk_eq_ok.mpr ⟨sevenTag_length, ?_, by decide, by decide, rfl, ?_, rfl, rfl⟩
  · unfold slotSectors
    omega
  · have hoff : (n * slotSectors : Int).toNat * 512 = n * slotBytes := by
      unfold slotSectors slotBytes
      omega
    rw [hoff, pread, lastFile, drop_left' length_replicate]
    rfl

theorem regular_last (n : Nat) : Regular (lastFile n) (lastOnly n sevenTag) := by
  refine ⟨.of_eq (chunkOffsets_lastOnly n sevenTag), fun c hc => ?_,
    fun tag c hc d hd hct hdt => ?_, fun c hc tag htag => ?_⟩
  · rcases mem_lastOnly hc with hfree | rfl
    · exact .inl hfree
    · exact .inr ⟨rfl, Option.some_ne_none _⟩
  · rcases mem_lastOnly hc with hfree | rfl
    · cases hfree.2.symm.trans hct
    · rcases mem_lastOnly hd with hfree | rfl
      · cases hfree.2.symm.trans hdt
      · rfl
  · rcases mem_lastOnly hc with hfree | rfl
    · cases hfree.2.symm.trans htag
    · cases htag
      exact ⟨_, hoardReadChunk_last n⟩

theorem not_packs_last (hn : 2 ^ 23 ≤ n) :
    ¬ Packs [⟨1, sevenTag⟩] (lastOnly n sevenTag) (lastFile n) := by
  have hgc : hoardGc (lastOnly n sevenTag) [⟨1, sevenTag⟩] = lastOnly n sevenTag := by
    refine hoardGc_eq_self fun c hc tag htag => ?_
    rcases mem_lastOnly hc with hfree | rfl
    · cases hfree.2.symm.trans htag
    · cases htag
      exact mem_singleton_self _
  have hlast : lastChunk n sevenTag ∈ lastOnly n sevenTag :=
    mem_append_right _ (mem_singleton_self _)
  intro hp
  have hpackable := packable_of_packs (regular_last n) hp
  unfold Packable at hpackable
  rw [hgc] at hpackable
  rcases hpackable with hfits | hall
  · have hlt := hfits.2 _ hlast (Option.some_ne_none _)
    simp only [lastChunk, slotSectors] at hlt
    omega
  · refine hall.1 { tag := none, offset := 0, length := 0, crypto := 0, allocated := 0 } ?_ rfl
    exact mem_append_left _ (mem_map.mpr ⟨0, mem_range.mpr (by omega), rfl⟩)

/-- The chunk at 2^31 is never moved, though nothing fails. -/
theorem compaction_stuck :
    Regular (lastFile (2 ^ 23)) (lastOnly (2 ^ 23) sevenTag) ∧
      ¬ Packs [⟨1, sevenTag⟩] (lastOnly (2 ^ 23) sevenTag) (lastFile (2 ^ 23)) := by
  generalize hn : 2 ^ 23 = n
  exact ⟨regular_last n, not_packs_last hn.le⟩

end OpenIsr.Hoard
