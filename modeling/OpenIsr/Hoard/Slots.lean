import OpenIsr.Hoard.System

/-!
# Who owns a slot

A slot of the hoard file is free, or holds a chunk, or is reserved by the process that has it in
its slot cache. Two relations say what a transaction may do with slots. `Takes` is for those that
work on a slot cache: the slots a process gets are its own, or were free; rows that are not free and
not its own stay. `Spares` is for the others, which only must leave reserved rows alone. Both
compose, so a transaction is taken apart into its statements.

New slots lie behind all the others as long as offsets do not wrap around. A wrapped `int` is
negative, and `Fits` is how that shows in the tables.
-/

namespace OpenIsr.Hoard

open List
open Base (updateWhere mem_updateWhere mem_updateWhere_of mem_updateWhere_of_not map_updateWhere
  eq_of_key wrapInt wrapInt_eq)

variable {P T U : Type} {offset : Int}

/-- `allocated = 0`, and no tag. -/
def Chunk.Free (c : Chunk T) : Prop := c.allocated = 0 ∧ c.tag = none

/-- `allocated = 1`, and a tag. -/
def Chunk.Holding (c : Chunk T) : Prop := c.allocated = 1 ∧ c.tag ≠ none

/-- `allocated = 1`, and no tag. -/
def Chunk.Reserved (c : Chunk T) : Prop := c.allocated = 1 ∧ c.tag = none

variable {c : Chunk T}

theorem Chunk.Reserved.not_free (h : c.Reserved) : ¬ c.Free := by
  rintro ⟨hf, -⟩
  rw [h.1] at hf
  cases hf

/-- The table as the code means it to be: what is not allocated has no tag. -/
structure TableOk (chunks : List (Chunk T)) : Prop where
  nodup : (chunkOffsets chunks).Nodup
  row : ∀ c ∈ chunks, c.Free ∨ c.allocated = 1

/-- `own` are slots that are reserved, each listed once. -/
structure Owns (chunks : List (Chunk T)) (own : List Int) : Prop where
  table : TableOk chunks
  nodup : own.Nodup
  reserved : ∀ o ∈ own, ∃ c ∈ chunks, c.offset = o ∧ c.Reserved

variable {chunks chunks₁ chunks' : List (Chunk T)} {own own₁ own' : List Int} {p : Chunk T → Bool}
  {f : Chunk T → Chunk T}

theorem TableOk.eq_of_offset (h : TableOk chunks) {d : Chunk T} (hc : c ∈ chunks)
    (hd : d ∈ chunks) (hcd : c.offset = d.offset) : c = d := eq_of_key h.nodup hc hd hcd

theorem TableOk.free (h : TableOk chunks) (hc : c ∈ chunks) (hz : c.allocated = 0) : c.Free := by
  refine (h.row c hc).resolve_right fun h1 => ?_
  rw [hz] at h1
  cases h1

theorem chunkOffsets_update (hkey : ∀ c, (f c).offset = c.offset) :
    chunkOffsets (updateWhere chunks p f) = chunkOffsets chunks := map_updateWhere hkey

theorem TableOk.update (h : TableOk chunks) (hkey : ∀ c, (f c).offset = c.offset)
    (hrow : ∀ c ∈ chunks, p c = true → (f c).Free ∨ (f c).allocated = 1) :
    TableOk (updateWhere chunks p f) := by
  refine ⟨?_, fun c hc => ?_⟩
  · rw [chunkOffsets_update hkey]
    exact h.nodup
  · obtain ⟨d, hd, ⟨hp, rfl⟩ | ⟨-, rfl⟩⟩ := mem_updateWhere.mp hc
    · exact hrow d hd hp
    · exact h.row c hd

theorem mem_chunkOffsets {o : Int} : o ∈ chunkOffsets chunks ↔ ∃ c ∈ chunks, c.offset = o :=
  mem_map

theorem Owns.reserved_of_mem (h : Owns chunks own) (hc : c ∈ chunks) (ho : c.offset ∈ own) :
    c.Reserved := by
  obtain ⟨d, hd, hdo, hres⟩ := h.reserved _ ho
  rwa [h.table.eq_of_offset hc hd hdo.symm]

/-! ## Working on a slot cache -/

/-- From the slots `own` to the slots `own'`: the new ones were free. -/
structure Takes (chunks : List (Chunk T)) (own : List Int) (chunks' : List (Chunk T))
    (own' : List Int) : Prop where
  owns : Owns chunks' own'
  kept : ∀ c ∈ chunks, ¬ c.Free → c.offset ∉ own → c ∈ chunks'
  new : ∀ o ∈ own', o ∈ own ∨ ∀ c ∈ chunks, c.offset = o → c.Free

theorem Takes.trans (h₁ : Takes chunks own chunks₁ own₁) (h₂ : Takes chunks₁ own₁ chunks' own') :
    Takes chunks own chunks' own' := by
  refine ⟨h₂.owns, fun c hc hf ho => ?_, fun o ho => ?_⟩
  · refine h₂.kept c (h₁.kept c hc hf ho) hf fun hx => ?_
    exact (h₁.new c.offset hx).elim ho fun hfree => hf (hfree c hc rfl)
  · rcases h₂.new o ho with hown | hfree
    · exact h₁.new o hown
    · by_cases hx : o ∈ own
      · exact .inl hx
      · refine .inr fun c hc hco => ?_
        by_contra hf
        exact hf (hfree c (h₁.kept c hc hf (hco ▸ hx)) hco)

theorem Owns.perm (h : Owns chunks own) (hp : own'.Perm own) : Takes chunks own chunks own' :=
  ⟨⟨h.table, hp.nodup_iff.mpr h.nodup, fun o ho => h.reserved o (hp.mem_iff.mp ho)⟩,
    fun _ hc _ _ => hc, fun _ ho => .inl (hp.mem_iff.mp ho)⟩

/-- A process gives up the slots that are not in `rest`, and changes their rows. -/
theorem Owns.giveUp {rest : List Int} (h : Owns chunks own) (hrest : rest.Nodup)
    (hsub : ∀ o ∈ rest, o ∈ own) (hp : ∀ c, p c = true → c.offset ∈ own ∧ c.offset ∉ rest)
    (hkey : ∀ c, (f c).offset = c.offset)
    (hrow : ∀ c, c.Reserved → (f c).Free ∨ (f c).allocated = 1) :
    Takes chunks own (updateWhere chunks p f) rest := by
  have hnot : ∀ c : Chunk T, c.offset ∉ own ∨ c.offset ∈ rest → p c = false := by
    intro c hc
    by_contra hx
    obtain ⟨ho, hr⟩ := hp c (by simpa using hx)
    exact hc.elim (fun hn => hn ho) hr
  refine ⟨⟨h.table.update hkey fun c hc hpc => hrow c (h.reserved_of_mem hc (hp c hpc).1), hrest,
    fun o ho => ?_⟩, fun c hc _ ho => mem_updateWhere_of_not hc (hnot c (.inl ho)),
    fun o ho => .inl (hsub o ho)⟩
  obtain ⟨c, hc, rfl, hres⟩ := h.reserved o (hsub o ho)
  exact ⟨c, mem_updateWhere_of_not hc (hnot c (.inr ho)), rfl, hres⟩

section cache

variable {v v' : View T} {needed : Nat} {o : Int} {rest found : List Int}
  {slots : List (Slot T)}

theorem Owns.flushSlot [DecidableEq T] {slot : Slot T} (h : Owns chunks (slot.offset :: rest)) :
    Takes chunks (slot.offset :: rest) (flushSlot chunks slot) rest := by
  obtain ⟨hslot, hrest⟩ := nodup_cons.mp h.nodup
  have hp : ∀ c : Chunk T, decide (c.offset = slot.offset) = true →
      c.offset ∈ slot.offset :: rest ∧ c.offset ∉ rest := by
    intro c hc
    rw [of_decide_eq_true hc]
    exact ⟨mem_cons_self .., hslot⟩
  unfold Hoard.flushSlot
  split
  next =>
    -- the tag is there already: the slot has become free
    exact h.giveUp hrest (fun o ho => mem_cons_of_mem _ ho) hp (fun _ => rfl)
      fun c hc => .inl ⟨rfl, hc.2⟩
  next =>
    exact h.giveUp hrest (fun o ho => mem_cons_of_mem _ ho) hp (fun _ => rfl)
      fun c _ => .inr rfl

theorem Owns.flushSlots [DecidableEq T] :
    ∀ {chunks : List (Chunk T)}, Owns chunks (slotOffsets slots ++ rest) →
      Takes chunks (slotOffsets slots ++ rest) (slots.foldl Hoard.flushSlot chunks) rest := by
  induction slots with
  | nil => exact fun h => h.perm (.refl _)
  | cons slot slots ih =>
    intro chunks h
    have hone : Takes chunks _ _ (slotOffsets slots ++ rest) := h.flushSlot
    exact hone.trans (ih hone.owns)

theorem slotOffsets_split (slots : List (Slot T)) :
    (slotOffsets (slots.filter (·.tag ≠ none)) ++ slotOffsets (slots.filter (·.tag = none))).Perm
      (slotOffsets slots) := by
  have hnot : slots.filter (fun slot => decide (slot.tag = none)) =
      slots.filter fun slot => !decide (slot.tag ≠ none) := by
    simp
  rw [hnot]
  unfold slotOffsets
  rw [← map_append]
  exact (filter_append_perm _ slots).map _

theorem Owns.flushSlotCache [DecidableEq T] (h : Owns v.chunks (slotOffsets v.slots)) :
    Takes v.chunks (slotOffsets v.slots) (flushSlotCache v).chunks [] := by
  have hperm := h.perm (slotOffsets_split v.slots)
  have hloop := hperm.owns.flushSlots
  refine hperm.trans (hloop.trans (hloop.owns.giveUp nodup_nil nofun (fun c hc => ?_)
    (fun _ => rfl) fun c hc => .inl ⟨rfl, hc.2⟩))
  exact ⟨of_decide_eq_true hc, not_mem_nil⟩

/-- The offsets the first half of `expand_slot_cache` finds are those of unallocated rows, -/
theorem reclaimed_nodup (h : (chunkOffsets chunks).Nodup) (own : List Int)
    (hfound : found = (((chunkOffsets (chunks.filter (·.allocated = 0))).insertionSort
      (· ≤ ·)).take expandChunks).filter (· ∉ own)) :
    found.Nodup ∧ ∀ o ∈ found, o ∉ own ∧ ∃ c ∈ chunks, c.offset = o ∧ c.allocated = 0 := by
  have hperm := perm_insertionSort (· ≤ ·) (chunkOffsets (chunks.filter (·.allocated = 0)))
  have hnd : (chunkOffsets (chunks.filter (·.allocated = 0))).Nodup :=
    h.sublist (filter_sublist.map _)
  rw [hfound]
  refine ⟨((hperm.nodup_iff.mpr hnd).sublist (take_sublist ..)).filter _, fun o ho => ?_⟩
  rw [mem_filter] at ho
  obtain ⟨c, hc, rfl⟩ := mem_chunkOffsets.mp (hperm.mem_iff.mp (mem_of_mem_take ho.1))
  rw [mem_filter] at hc
  exact ⟨of_decide_eq_true ho.2, c, hc.1, rfl, of_decide_eq_true hc.2⟩

/-- which in a table in order are free. -/
theorem reclaimed_spec (h : TableOk chunks) (own : List Int)
    (hfound : found = (((chunkOffsets (chunks.filter (·.allocated = 0))).insertionSort
      (· ≤ ·)).take expandChunks).filter (· ∉ own)) :
    found.Nodup ∧ ∀ o ∈ found, o ∉ own ∧ ∃ c ∈ chunks, c.offset = o ∧ c.Free := by
  obtain ⟨hnd, hrows⟩ := reclaimed_nodup h.nodup own hfound
  refine ⟨hnd, fun o ho => ?_⟩
  obtain ⟨hown, c, hc, hco, hz⟩ := hrows o ho
  exact ⟨hown, c, hc, hco, h.free hc hz⟩

theorem slotOffsets_new (slots : List (Slot T)) (os : List Int) :
    slotOffsets (slots ++ os.map Slot.new) = slotOffsets slots ++ os := by
  unfold slotOffsets
  rw [map_append, map_map]
  exact congrArg _ (map_id os)

theorem Owns.reclaimSlots (h : Owns v.chunks (slotOffsets v.slots)) :
    Takes v.chunks (slotOffsets v.slots) (reclaimSlots v).1.chunks
      (slotOffsets (reclaimSlots v).1.slots) := by
  simp only [Hoard.reclaimSlots]
  generalize hf : (((chunkOffsets (v.chunks.filter (·.allocated = 0))).insertionSort
    (· ≤ ·)).take expandChunks).filter (· ∉ slotOffsets v.slots) = found
  obtain ⟨hnd, hfree⟩ := reclaimed_spec h.table (slotOffsets v.slots) hf.symm
  rw [slotOffsets_new]
  have hnew : ∀ c ∈ v.chunks, c.offset ∈ found → c.Free := by
    intro c hc ho
    obtain ⟨-, d, hd, hdo, hdf⟩ := hfree _ ho
    rwa [h.table.eq_of_offset hc hd hdo.symm]
  refine ⟨⟨h.table.update (fun _ => rfl) fun _ _ _ => .inr rfl, ?_, fun o ho => ?_⟩,
    fun c hc hf ho => ?_, fun o ho => ?_⟩
  · refine nodup_append.mpr ⟨h.nodup, hnd, ?_⟩
    rintro o ho _ ho' rfl
    exact (hfree o ho').1 ho
  · obtain ⟨c, hc, rfl, hcf⟩ : ∃ c ∈ v.chunks, c.offset = o ∧ c.tag = none := by
      rcases mem_append.mp ho with hown | hfound
      · obtain ⟨c, hc, hco, hres⟩ := h.reserved o hown
        exact ⟨c, hc, hco, hres.2⟩
      · obtain ⟨-, c, hc, hco, hcf⟩ := hfree o hfound
        exact ⟨c, hc, hco, hcf.2⟩
    exact ⟨_, mem_updateWhere_of hc (decide_eq_true ho), rfl, rfl, hcf⟩
  · refine mem_updateWhere_of_not hc (decide_eq_false fun hx => ?_)
    exact (mem_append.mp hx).elim ho fun hfound => hf (hnew c hc hfound)
  · exact (mem_append.mp ho).imp_right fun hfound c hc hco => hnew c hc (hco ▸ hfound)

theorem chunkOffsets_new (chunks : List (Chunk T)) (os : List Int) :
    chunkOffsets (chunks ++ os.map Chunk.new) = chunkOffsets chunks ++ os := by
  unfold chunkOffsets
  rw [map_append, map_map]
  exact congrArg _ (map_id os)

theorem Owns.addSlots (h : Owns v.chunks (slotOffsets v.slots))
    (hadd : addSlots v needed = some v')
    (hnew : ∀ o ∈ newOffsets (expandStart v.chunks) needed, o ∉ chunkOffsets v.chunks) :
    Takes v.chunks (slotOffsets v.slots) v'.chunks (slotOffsets v'.slots) := by
  simp only [Hoard.addSlots] at hadd
  split at hadd
  next hnd =>
    cases hadd
    simp only [slotOffsets_new]
    generalize newOffsets (expandStart v.chunks) needed = new at hnew hnd
    have hadded : ∀ o ∈ (slotOffsets v.slots ++ new).filter (· ∉ chunkOffsets v.chunks),
        o ∉ chunkOffsets v.chunks := fun o ho => of_decide_eq_true (mem_filter.mp ho).2
    refine ⟨⟨⟨?_, fun c hc => ?_⟩, hnd, fun o ho => ?_⟩,
      fun c hc _ _ => mem_append_left _ hc, fun o ho => ?_⟩
    · rw [chunkOffsets_new]
      refine nodup_append.mpr ⟨h.table.nodup, hnd.filter _, ?_⟩
      rintro o ho _ ho' rfl
      exact hadded o ho' ho
    · rcases mem_append.mp hc with hold | hx
      · exact h.table.row c hold
      · obtain ⟨o, -, rfl⟩ := mem_map.mp hx
        exact .inr rfl
    · rcases mem_append.mp ho with hown | hx
      · obtain ⟨c, hc, hco, hres⟩ := h.reserved o hown
        exact ⟨c, mem_append_left _ hc, hco, hres⟩
      · refine ⟨Chunk.new o, mem_append_right _ (mem_map_of_mem ?_), rfl, rfl, rfl⟩
        exact mem_filter.mpr ⟨ho, decide_eq_true (hnew o hx)⟩
    · refine (mem_append.mp ho).imp_right fun hx c hc hco => ?_
      exact absurd (mem_chunkOffsets.mpr ⟨c, hc, hco⟩) (hnew o hx)
  next => cases hadd

/-- Every offset in the table is an `int` that has not wrapped around. -/
def InRange (chunks : List (Chunk T)) : Prop := ∀ c ∈ chunks, 0 ≤ c.offset ∧ c.offset < 2 ^ 31

theorem newOffsets_fresh (hrange : InRange chunks) (hneeded : needed ≤ expandChunks)
    (ho : o ∈ newOffsets (expandStart chunks) needed) (hpos : 0 ≤ o) : o ∉ chunkOffsets chunks := by
  obtain ⟨i, hi, rfl⟩ := mem_map.mp ho
  rw [mem_range] at hi
  intro hmem
  unfold expandStart at hpos hmem
  split at hmem
  next hmax =>
    rw [max?_eq_none_iff] at hmax
    rw [hmax] at hmem
    cases hmem
  next m hmax =>
    obtain ⟨hm, hle⟩ := max?_eq_some_iff.mp hmax
    rw [hmax] at hpos
    obtain ⟨c, hc, rfl⟩ := mem_chunkOffsets.mp hm
    have hlast := hrange c hc
    have hx := hle _ hmem
    unfold expandChunks at hneeded
    simp only [wrapInt, slotSectors, Int.bmod_def] at hpos hx
    omega

theorem addSlots_mem (hadd : addSlots v needed = some v') :
    (∀ c ∈ v.chunks, c ∈ v'.chunks) ∧
    ∀ o ∈ newOffsets (expandStart v.chunks) needed, o ∈ chunkOffsets v'.chunks := by
  simp only [Hoard.addSlots] at hadd
  split at hadd
  next =>
    cases hadd
    refine ⟨fun c hc => mem_append_left _ hc, fun o ho => ?_⟩
    rw [chunkOffsets_new, slotOffsets_new]
    by_cases hx : o ∈ chunkOffsets v.chunks
    · exact mem_append_left _ hx
    · refine mem_append_right _ (mem_filter.mpr ⟨?_, decide_eq_true hx⟩)
      exact mem_append_right _ ho
  next => cases hadd

theorem Owns.expandSlotCache (h : Owns v.chunks (slotOffsets v.slots))
    (hexp : expandSlotCache v = some v') (hrange : InRange v'.chunks) :
    Takes v.chunks (slotOffsets v.slots) v'.chunks (slotOffsets v'.slots) := by
  have hfirst := h.reclaimSlots
  unfold Hoard.expandSlotCache at hexp
  generalize Hoard.reclaimSlots v = r at hexp hfirst
  obtain ⟨w, count⟩ := r
  simp only at hexp hfirst
  split at hexp
  next =>
    cases hexp
    exact hfirst
  next =>
    obtain ⟨hsub, hmem⟩ := addSlots_mem hexp
    refine hfirst.trans (hfirst.owns.addSlots hexp fun o ho => ?_)
    obtain ⟨c, hc, hco⟩ := mem_chunkOffsets.mp (hmem o ho)
    refine newOffsets_fresh (fun c hc => hrange c (hsub c hc)) (Nat.sub_le ..) ho ?_
    rw [← hco]
    exact (hrange c hc).1

theorem unusedSlot_mem (h : unusedSlot slots = some o) : o ∈ slotOffsets slots := by
  obtain ⟨slot, hslot, rfl⟩ := Option.map_eq_some_iff.mp h
  exact mem_map_of_mem (mem_of_find?_eq_some hslot)

theorem expandSlotCache_length (hv : v.slots = []) (hexp : expandSlotCache v = some v') :
    v'.slots.length = expandChunks ∧ ∀ slot ∈ v'.slots, slot.tag = none := by
  have hcount : (reclaimSlots v).1.slots.length = (reclaimSlots v).2 ∧
      (reclaimSlots v).2 ≤ expandChunks ∧ ∀ slot ∈ (reclaimSlots v).1.slots, slot.tag = none := by
    simp only [Hoard.reclaimSlots, hv, nil_append, length_map, true_and]
    refine ⟨(length_filter_le ..).trans (length_take_le ..), fun slot hslot => ?_⟩
    obtain ⟨o, -, rfl⟩ := mem_map.mp hslot
    rfl
  unfold Hoard.expandSlotCache at hexp
  generalize reclaimSlots v = r at hexp hcount
  obtain ⟨w, count⟩ := r
  simp only at hexp hcount
  obtain ⟨hlen, hle, hnone⟩ := hcount
  split at hexp
  next hz =>
    cases hexp
    exact ⟨by omega, hnone⟩
  next =>
    simp only [Hoard.addSlots] at hexp
    split at hexp
    next =>
      cases hexp
      refine ⟨?_, fun slot hslot => ?_⟩
      · simp only [newOffsets, length_append, length_map, length_range]
        omega
      · rcases mem_append.mp hslot with hold | hx
        · exact hnone slot hold
        · obtain ⟨o, -, rfl⟩ := mem_map.mp hx
          rfl
    next => cases hexp

theorem unusedSlot_expand (hv : v.slots = []) (hexp : expandSlotCache v = some v') :
    (unusedSlot v'.slots).isSome = true := by
  obtain ⟨hlen, hnone⟩ := expandSlotCache_length hv hexp
  have hpos : 0 < v'.slots.length := by
    rw [hlen]
    decide
  obtain ⟨slot, hslot⟩ := exists_mem_of_length_pos hpos
  unfold unusedSlot
  rw [Option.isSome_map, find?_isSome]
  exact ⟨slot, hslot, decide_eq_true (hnone slot hslot)⟩

theorem Owns.allocateSlot [DecidableEq T] (h : Owns v.chunks (slotOffsets v.slots))
    (halloc : allocateSlot v = some (v', o)) (hrange : InRange v'.chunks) :
    Takes v.chunks (slotOffsets v.slots) v'.chunks (slotOffsets v'.slots) ∧
      o ∈ slotOffsets v'.slots := by
  unfold Hoard.allocateSlot at halloc
  split at halloc
  next hx =>
    cases halloc
    exact ⟨h.perm (.refl _), unusedSlot_mem hx⟩
  next =>
    split at halloc
    next => cases halloc
    next w hexp =>
      obtain ⟨o', ho, heq⟩ := Option.map_eq_some_iff.mp halloc
      cases heq
      have hflush := h.flushSlotCache
      exact ⟨hflush.trans (Owns.expandSlotCache hflush.owns hexp hrange), unusedSlot_mem ho⟩

/-- `hoard_put_chunk` works on its own slots and on free ones, and writes to one of those. -/
theorem Owns.hoardPutChunk [DecidableEq T] {tag : T} {length crypto : Int} {offset : Option Int}
    (h : Owns v.chunks (slotOffsets v.slots))
    (hput : hoardPutChunk v tag length crypto = some (v', offset)) (hrange : InRange v'.chunks) :
    Takes v.chunks (slotOffsets v.slots) v'.chunks (slotOffsets v'.slots) ∧
      ∀ o ∈ offset, o ∈ slotOffsets v'.slots := by
  unfold Hoard.hoardPutChunk at hput
  split at hput
  next =>
    cases hput
    exact ⟨h.perm (.refl _), nofun⟩
  next =>
    obtain ⟨⟨w, o⟩, halloc, heq⟩ := Option.map_eq_some_iff.mp hput
    cases heq
    have hsame : slotOffsets (updateWhere w.slots (·.offset = o) fun slot =>
        { slot with tag := some tag, length, crypto }) = slotOffsets w.slots :=
      map_updateWhere fun _ => rfl
    obtain ⟨htakes, hmem⟩ := h.allocateSlot halloc hrange
    rw [hsame]
    refine ⟨htakes, fun x hx => ?_⟩
    cases hx
    exact hmem

end cache

/-! ## Leaving slot caches alone -/

/-- Reserved rows stay as they are. -/
structure Spares (chunks chunks' : List (Chunk T)) : Prop where
  table : TableOk chunks'
  reserved : ∀ c ∈ chunks, c.Reserved → c ∈ chunks'

theorem Spares.refl (h : TableOk chunks) : Spares chunks chunks := ⟨h, fun _ hc _ => hc⟩

theorem Spares.trans (h₁ : Spares chunks chunks₁) (h₂ : Spares chunks₁ chunks') :
    Spares chunks chunks' :=
  ⟨h₂.table, fun c hc hr => h₂.reserved c (h₁.reserved c hc hr) hr⟩

theorem TableOk.spares (h : TableOk chunks) (hkey : ∀ c, (f c).offset = c.offset)
    (hrow : ∀ c, (f c).Free ∨ (f c).allocated = 1) (hp : ∀ c ∈ chunks, c.Reserved → p c = false) :
    Spares chunks (updateWhere chunks p f) :=
  ⟨h.update hkey fun c _ _ => hrow c, fun c hc hr => mem_updateWhere_of_not hc (hp c hc hr)⟩

theorem TableOk.filter (h : TableOk chunks) (p : Chunk T → Bool) : TableOk (chunks.filter p) :=
  ⟨h.nodup.sublist (filter_sublist.map _), fun c hc => h.row c (mem_of_mem_filter hc)⟩

section tables

variable {c slot d : Chunk T} {below : Option Int}

theorem TableOk.hoardInvalidateChunk [DecidableEq T] (h : TableOk chunks) (offset : Int) (tag : T) :
    Spares chunks (hoardInvalidateChunk chunks offset tag) := by
  unfold Hoard.hoardInvalidateChunk
  split
  next hx =>
    obtain ⟨d, hd, hdo, hdt⟩ := hx
    refine h.spares (fun _ => rfl) (fun _ => .inl ⟨rfl, rfl⟩) fun c hc hr => ?_
    refine decide_eq_false fun hco => ?_
    rw [← h.eq_of_offset hc hd (hco.trans hdo.symm), hr.2] at hdt
    cases hdt
  next => exact .refl h

theorem TableOk.hoardGc [DecidableEq T] (h : TableOk chunks) (refs : List (Ref T)) :
    Spares chunks (hoardGc chunks refs) := by
  refine h.spares (fun _ => rfl) (fun _ => .inl ⟨rfl, rfl⟩) fun c _ hr => decide_eq_false ?_
  rintro ⟨tag, htag, -⟩
  rw [hr.2] at htag
  cases htag

theorem TableOk.moveChunk (h : TableOk chunks) (hc : c ∈ chunks) (htag : c.tag ≠ none)
    (hslot : slot ∈ chunks) (hfree : slot.Free) :
    Spares chunks (moveChunk chunks c slot.offset) := by
  have hclear : Spares chunks (updateWhere chunks (·.offset = c.offset) Chunk.clear) := by
    refine h.spares (fun _ => rfl) (fun _ => .inl ⟨rfl, rfl⟩) fun d hd hr => ?_
    refine decide_eq_false fun hdc => ?_
    rw [h.eq_of_offset hd hc hdc] at hr
    exact htag hr.2
  refine ⟨hclear.table.update (fun _ => rfl) fun _ _ _ => .inr rfl, fun d hd hr => ?_⟩
  refine mem_updateWhere_of_not (hclear.reserved d hd hr) (decide_eq_false fun hds => ?_)
  rw [h.eq_of_offset hd hslot hds] at hr
  exact hr.not_free hfree

theorem nextChunk_spec (h : nextChunk chunks below = some c) :
    c ∈ chunks ∧ c.tag ≠ none ∧ ∀ b ∈ below, c.offset < b := by
  have hmem := List.mem_filter.mp (List.maxOn?_mem h)
  obtain ⟨htag, hb⟩ := of_decide_eq_true hmem.2
  exact ⟨hmem.1, htag, hb⟩

theorem lowestFree_spec (h : lowestFree chunks = some slot) :
    slot ∈ chunks ∧ slot.allocated = 0 := by
  have hmem := List.mem_filter.mp (List.minOn?_mem h)
  exact ⟨hmem.1, of_decide_eq_true hmem.2⟩

theorem le_nextChunk (h : nextChunk chunks below = some c) (hd : d ∈ chunks) (htag : d.tag ≠ none)
    (hb : ∀ b ∈ below, d.offset < b) : d.offset ≤ c.offset := by
  have hmem : d ∈ chunks.filter fun c => c.tag ≠ none ∧ ∀ b ∈ below, c.offset < b :=
    List.mem_filter.mpr ⟨hd, decide_eq_true ⟨htag, hb⟩⟩
  have hle := List.le_apply_get_maxOn?_of_mem (f := Chunk.offset) hmem
  unfold nextChunk at h
  simpa only [h, Option.get_some] using hle

theorem nextChunk_eq_none (h : nextChunk chunks below = none) (hd : d ∈ chunks)
    (hb : ∀ b ∈ below, d.offset < b) : d.tag = none := by
  by_contra htag
  have hmem : d ∈ chunks.filter fun c => c.tag ≠ none ∧ ∀ b ∈ below, c.offset < b :=
    List.mem_filter.mpr ⟨hd, decide_eq_true ⟨htag, hb⟩⟩
  have hsome := List.isSome_maxOn?_of_mem (f := Chunk.offset) hmem
  unfold nextChunk at h
  rw [h] at hsome
  cases hsome

theorem lowestFree_le (h : lowestFree chunks = some slot) (hc : c ∈ chunks) (hz : c.allocated = 0) :
    slot.offset ≤ c.offset := by
  have hmem : c ∈ chunks.filter (·.allocated = 0) :=
    List.mem_filter.mpr ⟨hc, decide_eq_true hz⟩
  have hle := List.apply_get_minOn?_le_of_mem (f := Chunk.offset) hmem
  unfold lowestFree at h
  simpa only [h, Option.get_some] using hle

theorem lowestFree_eq_none (h : lowestFree chunks = none) (hc : c ∈ chunks) : c.allocated ≠ 0 := by
  intro hz
  have hmem : c ∈ chunks.filter (·.allocated = 0) :=
    List.mem_filter.mpr ⟨hc, decide_eq_true hz⟩
  have hsome := List.isSome_minOn?_of_mem (f := Chunk.offset) hmem
  unfold lowestFree at h
  rw [h] at hsome
  cases hsome

theorem moveChunk_free {dest : Int} (hd : d ∈ moveChunk chunks c dest) (hz : d.allocated = 0)
    (hlt : d.offset < c.offset) : d ∈ chunks := by
  obtain ⟨x, hx, ⟨-, rfl⟩ | ⟨-, rfl⟩⟩ := mem_updateWhere.mp hd
  · cases hz
  · obtain ⟨y, hy, ⟨hp, rfl⟩ | ⟨-, rfl⟩⟩ := mem_updateWhere.mp hx
    · have hyc : y.offset = c.offset := of_decide_eq_true hp
      rw [show (Chunk.clear y).offset = y.offset from rfl, hyc] at hlt
      exact absurd hlt (lt_irrefl _)
    · exact hy

/-- A batch of moves spares the reserved rows, and writes to rows that were free before it began:
the rows it frees itself lie above all those it still moves. -/
theorem TableOk.compactLoop (n : Nat) : ∀ {chunks : List (Chunk T)}, TableOk chunks →
    ∀ below : Option Int, Spares chunks (compactLoop n below chunks).chunks ∧
      ∀ o ∈ (compactLoop n below chunks).moves, (∀ b ∈ below, o < b) ∧
        ∃ c ∈ chunks, c.offset = o ∧ c.allocated = 0 := by
  induction n with
  | zero => exact fun h below => ⟨.refl h, nofun⟩
  | succ n ih =>
    intro chunks h below
    unfold Hoard.compactLoop
    split
    next => exact ⟨.refl h, nofun⟩
    next c hnext =>
      split
      next => exact ⟨.refl h, nofun⟩
      next slot hlow =>
        split
        next => exact ⟨.refl h, nofun⟩
        next hlt =>
          obtain ⟨hc, htag, hb⟩ := nextChunk_spec hnext
          obtain ⟨hslot, hz⟩ := lowestFree_spec hlow
          have hmove := h.moveChunk hc htag hslot (h.free hslot hz)
          obtain ⟨hrest, hwrites⟩ := ih hmove.table (some c.offset)
          refine ⟨hmove.trans hrest, fun o ho => ?_⟩
          rcases mem_cons.mp ho with rfl | ho
          · exact ⟨fun b hbelow => (not_le.mp hlt).trans (hb b hbelow), slot, hslot, rfl, hz⟩
          · obtain ⟨hbelow, d, hd, rfl, hdz⟩ := hwrites o ho
            have hdc := hbelow c.offset rfl
            exact ⟨fun b hx => hdc.trans (hb b hx), d, moveChunk_free hd hdz hdc, rfl, hdz⟩

theorem le_truncateOffset
    (hrange : ∀ c ∈ chunks, c.allocated = 1 → 0 ≤ c.offset ∧ c.offset < 2 ^ 31)
    (hpos : 0 ≤ truncateOffset chunks) (hc : c ∈ chunks) (h1 : c.allocated = 1) :
    c.offset + slotSectors ≤ truncateOffset chunks := by
  have hmem : c.offset ∈ chunkOffsets (chunks.filter (·.allocated = 1)) :=
    mem_chunkOffsets.mpr ⟨c, mem_filter.mpr ⟨hc, decide_eq_true h1⟩, rfl⟩
  unfold truncateOffset at hpos ⊢
  split at hpos
  next hmax =>
    rw [max?_eq_none_iff] at hmax
    rw [hmax] at hmem
    cases hmem
  next m hmax =>
    obtain ⟨hm, hle⟩ := max?_eq_some_iff.mp hmax
    obtain ⟨d, hd, rfl⟩ := mem_chunkOffsets.mp hm
    obtain ⟨hd, hd1⟩ := mem_filter.mp hd
    have hlast := hrange d hd (of_decide_eq_true hd1)
    have hx := hle _ hmem
    simp only [wrapInt, slotSectors, Int.bmod_def] at hpos ⊢
    omega

theorem compactHoardTruncate_spec (hrange : InRange chunks)
    (htrunc : compactHoardTruncate chunks = some (chunks', offset)) :
    chunks' = chunks.filter (·.offset < offset) ∧ ∀ c ∈ chunks, c.allocated = 1 → c ∈ chunks' := by
  simp only [Hoard.compactHoardTruncate] at htrunc
  split at htrunc
  next => cases htrunc
  next hpos =>
    cases htrunc
    refine ⟨rfl, fun c hc h1 => mem_filter.mpr ⟨hc, decide_eq_true ?_⟩⟩
    have hle := le_truncateOffset (fun c hc _ => hrange c hc) (not_lt.mp hpos) hc h1
    unfold slotSectors at hle
    omega

theorem TableOk.compactHoardTruncate (h : TableOk chunks) (hrange : InRange chunks)
    (htrunc : compactHoardTruncate chunks = some (chunks', offset)) : Spares chunks chunks' := by
  obtain ⟨rfl, hkept⟩ := compactHoardTruncate_spec hrange htrunc
  exact ⟨h.filter _, fun c hc hr => hkept c hc hr.1⟩

/-- The cleanup leaves a table in which the rows are free or hold a chunk, but it does not spare
what is reserved. -/
theorem TableOk.cleanChunks [DecidableEq T] (h : TableOk chunks) (refs : List (Ref T)) (gc : Bool) :
    TableOk (cleanChunks chunks refs gc) := by
  have hfree : TableOk (updateWhere chunks (fun c => c.allocated = 1 ∧ c.tag = none)
      (Chunk.setAllocated 0)) :=
    h.update (fun _ => rfl) fun c _ hp => .inl ⟨rfl, (of_decide_eq_true hp).2⟩
  unfold Hoard.cleanChunks
  split
  next => exact (hfree.hoardGc refs).table
  next => exact hfree

theorem chunkOffsets_cleanChunks [DecidableEq T] (chunks : List (Chunk T)) (refs : List (Ref T))
    (gc : Bool) :
    chunkOffsets (cleanChunks chunks refs gc) = chunkOffsets chunks := by
  have hfree : chunkOffsets (updateWhere chunks (fun c => c.allocated = 1 ∧ c.tag = none)
      (Chunk.setAllocated 0)) = chunkOffsets chunks := chunkOffsets_update fun _ => rfl
  unfold cleanChunks
  split
  next => exact (chunkOffsets_update (f := Chunk.clear) fun _ => rfl).trans hfree
  next => exact hfree

theorem chunkOffsets_flushSlot [DecidableEq T] (chunks : List (Chunk T)) (slot : Slot T) :
    chunkOffsets (flushSlot chunks slot) = chunkOffsets chunks := by
  unfold flushSlot
  split
  next => exact chunkOffsets_update fun _ => rfl
  next => exact chunkOffsets_update fun _ => rfl

theorem chunkOffsets_flushSlotCache [DecidableEq T] (v : View T) :
    chunkOffsets (flushSlotCache v).chunks = chunkOffsets v.chunks := by
  have hfold : ∀ (slots : List (Slot T)) (chunks : List (Chunk T)),
      chunkOffsets (slots.foldl flushSlot chunks) = chunkOffsets chunks := by
    intro slots
    induction slots with
    | nil => exact fun _ => rfl
    | cons slot slots ih => exact fun chunks => (ih _).trans (chunkOffsets_flushSlot chunks slot)
  refine Eq.trans (chunkOffsets_update ?_) (hfold _ v.chunks)
  exact fun _ => rfl

theorem chunkOffsets_compactLoop (n : Nat) : ∀ (below : Option Int) (chunks : List (Chunk T)),
    chunkOffsets (compactLoop n below chunks).chunks = chunkOffsets chunks := by
  induction n with
  | zero => exact fun _ _ => rfl
  | succ n ih =>
    intro below chunks
    unfold compactLoop
    split
    next => rfl
    next c _ =>
      split
      next => rfl
      next slot _ =>
        split
        next => rfl
        refine (ih _ _).trans (Eq.trans (chunkOffsets_update ?_) (chunkOffsets_update ?_))
        · exact fun _ => rfl
        · exact fun _ => rfl

end tables

end OpenIsr.Hoard
