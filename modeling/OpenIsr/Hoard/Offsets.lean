import OpenIsr.Hoard.Packing

/-!
# The offsets of the slots

In every run that stays within the range of an `int`, the slots of the hoard cache are at 0, 256,
512, ... without a gap (`Dense`): `expand_slot_cache` adds them behind the last one, truncation
removes them from the end, and nothing else changes an offset. So the offsets that are added next
are given by the number of rows, and they wrap around as soon as there would be more than 2^23
rows. The target length of a compaction wraps around when there are 2^23 chunks.
-/

namespace OpenIsr.Hoard

open List
open Base (updateWhere mem_updateWhere map_updateWhere updateWhere_eq_self wrapInt wrapInt_eq
  wrapInt_wrapInt_add)

variable {P T U : Type} {chunks chunks' : List (Chunk T)} {n k : Nat} {v v' : View T} {o : Int}

/-! ## Counting moves -/

/-- The target length in `_compact_hoard_count_moves`. -/
def countMovesTarget (chunks : List (Chunk T)) : Int :=
  wrapInt (wrapInt (tagged chunks).length * slotSectors)

/-- `_compact_hoard_count_moves`: the unallocated slots that are below the target length. -/
def compactHoardCountMoves (chunks : List (Chunk T)) : Nat :=
  (chunks.filter fun c => c.allocated = 0 ∧ c.offset < countMovesTarget chunks).length % 2 ^ 32

theorem countMovesTarget_eq_iff :
    countMovesTarget chunks = 256 * (tagged chunks).length ↔ (tagged chunks).length < 2 ^ 23 := by
  unfold countMovesTarget
  generalize (tagged chunks).length = m
  constructor
  · intro h
    simp only [wrapInt, slotSectors, Int.bmod_def] at h
    omega
  · intro h
    rw [wrapInt_eq (x := (m : Int)) (by omega) (by omega),
      wrapInt_eq (by unfold slotSectors; omega) (by unfold slotSectors; omega), Int.mul_comm]
    rfl

/-! ## Adding slots -/

/-- The number of slots that `expand_slot_cache` does not find in the table. -/
def needed (v : View T) : Nat := expandChunks - (reclaimSlots v).2

/-- The offsets that `expand_slot_cache` adds to the table. -/
def addedOffsets (v : View T) : List Int :=
  newOffsets (expandStart (reclaimSlots v).1.chunks) (needed v)

theorem expandSlotCache_eq (v : View T) :
    expandSlotCache v =
      if needed v = 0 then some (reclaimSlots v).1 else addSlots (reclaimSlots v).1 (needed v) :=
  rfl

/-- The tables on which `hoard_put_chunk` calls `expand_slot_cache`, if it does. -/
def expansion [DecidableEq T] (v : View T) (tag : T) : Option (View T) :=
  if v.Lists tag then none
  else if (unusedSlot v.slots).isSome then none
  else some (flushSlotCache v)

/-- The same for a step of the system. -/
def St.expansion [DecidableEq T] (s : St P T U) (a : Act P T U) : Option (View T) :=
  match s.procs a.proc, a.op with
  | some proc, .putChunk tag _ _ => Hoard.expansion ⟨s.chunks, proc.slots⟩ tag
  | _, _ => none

/-- Offsets of slots behind the last one. -/
structure Grows (existing new : List Int) : Prop where
  slots : ∀ o ∈ new, 0 ≤ o ∧ 256 ∣ o
  nodup : new.Nodup
  behind : ∀ o ∈ new, ∀ x ∈ existing, x < o

/-- No offset wraps around. -/
def NoWrap [DecidableEq T] (s : St P T U) : Prop :=
  (∀ a v, s.expansion a = some v → Grows (chunkOffsets s.chunks) (addedOffsets v)) ∧
    countMovesTarget s.chunks = 256 * (tagged s.chunks).length

/-- There is room for the slots that a step adds. -/
def Room [DecidableEq T] (s : St P T U) (a : Act P T U) : Prop :=
  ∀ v, s.expansion a = some v → needed v = 0 ∨ s.chunks.length + needed v ≤ 2 ^ 23

/-! ## A table without gaps -/

/-- The offsets are those of the first slots. -/
structure Dense (chunks : List (Chunk T)) : Prop where
  offsets : (chunkOffsets chunks).Perm (firstSlots chunks.length)

theorem length_of_perm (h : (chunkOffsets chunks).Perm (firstSlots n)) : chunks.length = n := by
  have hlength := h.length_eq
  rwa [chunkOffsets, length_map, length_firstSlots] at hlength

theorem Dense.of_perm (h : (chunkOffsets chunks).Perm (firstSlots n)) : Dense chunks := by
  rw [← length_of_perm h] at h
  exact ⟨h⟩

theorem Dense.of_offsets (h : Dense chunks) (heq : chunkOffsets chunks' = chunkOffsets chunks) :
    Dense chunks' := .of_perm (heq ▸ h.offsets)

theorem length_of_offsets (heq : chunkOffsets chunks' = chunkOffsets chunks) :
    chunks'.length = chunks.length := by
  have hlength := congrArg List.length heq
  rwa [chunkOffsets, chunkOffsets, length_map, length_map] at hlength

section

variable (h : Dense chunks)
include h

theorem Dense.mem_iff :
    o ∈ chunkOffsets chunks ↔ 0 ≤ o ∧ o < chunks.length * slotSectors ∧ slotSectors ∣ o :=
  h.offsets.mem_iff.trans mem_firstSlots

theorem Dense.nodup : (chunkOffsets chunks).Nodup :=
  h.offsets.nodup_iff.mpr (nodup_firstSlots _)

theorem Dense.inRange (hle : chunks.length ≤ 2 ^ 23) : InRange chunks := by
  intro c hc
  obtain ⟨hpos, hlt, -⟩ := h.mem_iff.mp (mem_chunkOffsets.mpr ⟨c, hc, rfl⟩)
  unfold slotSectors at hlt
  omega

theorem Dense.length_le (hrange : InRange chunks) : chunks.length ≤ 2 ^ 23 := by
  by_contra hlt
  have hlast : (2 ^ 31 : Int) ∈ chunkOffsets chunks := by
    refine h.mem_iff.mpr ⟨by decide, ?_, by decide⟩
    unfold slotSectors
    omega
  obtain ⟨c, hc, hco⟩ := mem_chunkOffsets.mp hlast
  have := hrange c hc
  omega

theorem Dense.expandStart : expandStart chunks = wrapInt (chunks.length * slotSectors) := by
  unfold Hoard.expandStart
  cases hmax : (chunkOffsets chunks).max? with
  | none =>
    rw [max?_eq_none_iff, chunkOffsets, map_eq_nil_iff] at hmax
    rw [hmax, length_nil, Int.natCast_zero, Int.zero_mul]
    exact Int.zero_bmod.symm
  | some o =>
    obtain ⟨ho, hle⟩ := max?_eq_some_iff.mp hmax
    obtain ⟨hpos, hlt, i, rfl⟩ := h.mem_iff.mp ho
    have hlast : ((chunks.length : Int) - 1) * slotSectors ∈ chunkOffsets chunks := by
      refine h.mem_iff.mpr ⟨?_, ?_, Int.dvd_mul_left ..⟩
      · unfold slotSectors at *
        omega
      · unfold slotSectors at *
        omega
    have hx := hle _ hlast
    have heq : slotSectors * i + slotSectors = chunks.length * slotSectors := by
      unfold slotSectors at *
      omega
    dsimp only
    rw [wrapInt_wrapInt_add, heq]

end

theorem newOffsets_wrapInt (x : Int) (k : Nat) :
    newOffsets (wrapInt x) k = (range k).map fun i : Nat => wrapInt (x + i * slotSectors) :=
  map_congr_left fun _ _ => wrapInt_wrapInt_add ..

theorem newOffsets_append (hle : n + k ≤ 2 ^ 23) :
    firstSlots n ++ newOffsets (wrapInt (n * slotSectors)) k = firstSlots (n + k) := by
  rw [newOffsets_wrapInt, firstSlots, firstSlots, range_add, map_append, map_map]
  refine congrArg _ (map_congr_left fun i hi => ?_)
  rw [mem_range] at hi
  rw [wrapInt_eq (by unfold slotSectors; omega) (by unfold slotSectors; omega)]
  unfold slotSectors
  simp only [Function.comp_apply]
  omega

/-- The first half of `expand_slot_cache` takes slots of the table. -/
theorem chunkOffsets_reclaimSlots (v : View T) :
    chunkOffsets (reclaimSlots v).1.chunks = chunkOffsets v.chunks :=
  chunkOffsets_update fun _ => rfl

theorem reclaimSlots_sub (h : (chunkOffsets v.chunks).Nodup)
    (ho : o ∈ slotOffsets (reclaimSlots v).1.slots) :
    o ∈ slotOffsets v.slots ∨ o ∈ chunkOffsets v.chunks := by
  obtain ⟨-, hrows⟩ := reclaimed_nodup h (slotOffsets v.slots) rfl
  simp only [reclaimSlots, slotOffsets_new] at ho
  refine (mem_append.mp ho).imp_right fun hfound => ?_
  obtain ⟨-, c, hc, hco, -⟩ := hrows o hfound
  exact mem_chunkOffsets.mpr ⟨c, hc, hco⟩

/-- The second half adds the new offsets, if the other ones are in the table. -/
theorem chunkOffsets_addSlots (hadd : addSlots v k = some v')
    (hsub : ∀ o ∈ slotOffsets v.slots, o ∈ chunkOffsets v.chunks)
    (hnew : ∀ o ∈ newOffsets (expandStart v.chunks) k, o ∉ chunkOffsets v.chunks) :
    chunkOffsets v'.chunks = chunkOffsets v.chunks ++ newOffsets (expandStart v.chunks) k := by
  unfold addSlots at hadd
  dsimp only at hadd
  split at hadd
  next =>
    cases hadd
    rw [chunkOffsets_new, slotOffsets_new, filter_append,
      filter_eq_nil_iff.mpr fun o ho => by simpa using hsub o ho,
      filter_eq_self.mpr fun o ho => by simpa using hnew o ho, nil_append]
  next => cases hadd

section

variable (h : Dense v.chunks)
include h

theorem addedOffsets_eq :
    addedOffsets v = newOffsets (wrapInt (v.chunks.length * slotSectors)) (needed v) := by
  have hoffsets := chunkOffsets_reclaimSlots v
  rw [addedOffsets, (h.of_offsets hoffsets).expandStart, length_of_offsets hoffsets]

/-- Without room, one of the new offsets is 2^31, which an `int` cannot hold. -/
theorem wrap_mem_addedOffsets (hle : v.chunks.length ≤ 2 ^ 23)
    (hno : 2 ^ 23 < v.chunks.length + needed v) : -2 ^ 31 ∈ addedOffsets v := by
  rw [addedOffsets_eq h, newOffsets_wrapInt]
  refine mem_map.mpr ⟨2 ^ 23 - v.chunks.length, mem_range.mpr (by omega), ?_⟩
  have heq : (v.chunks.length : Int) * slotSectors +
      (2 ^ 23 - v.chunks.length : Nat) * slotSectors = 2 ^ 31 := by
    unfold slotSectors
    omega
  rw [heq]
  decide

theorem grows_iff (hle : v.chunks.length ≤ 2 ^ 23) :
    Grows (chunkOffsets v.chunks) (addedOffsets v) ↔
      needed v = 0 ∨ v.chunks.length + needed v ≤ 2 ^ 23 := by
  constructor
  · intro hgrows
    by_contra hno
    rw [not_or, not_le] at hno
    obtain ⟨hneg, -⟩ := hgrows.slots _ (wrap_mem_addedOffsets h hle hno.2)
    exact absurd hneg (by decide)
  · intro hroom
    rw [addedOffsets_eq h]
    rcases hroom with hzero | hroom
    · rw [hzero]
      exact ⟨nofun, nodup_nil, nofun⟩
    · have happend := newOffsets_append hroom
      have hnodup := nodup_firstSlots (v.chunks.length + needed v)
      rw [← happend, nodup_append] at hnodup
      have hslot : ∀ o ∈ newOffsets (wrapInt (v.chunks.length * slotSectors)) (needed v),
          (0 ≤ o ∧ slotSectors ∣ o) ∧ v.chunks.length * slotSectors ≤ o := by
        intro o ho
        have hmem : o ∈ firstSlots (v.chunks.length + needed v) := by
          rw [← happend]
          exact mem_append_right _ ho
        obtain ⟨hpos, -, hdvd⟩ := mem_firstSlots.mp hmem
        refine ⟨⟨hpos, hdvd⟩, not_lt.mp fun hlt => ?_⟩
        exact hnodup.2.2 o (mem_firstSlots.mpr ⟨hpos, hlt, hdvd⟩) o ho rfl
      refine ⟨fun o ho => (hslot o ho).1, hnodup.2.1, fun o ho x hx => ?_⟩
      obtain ⟨-, hlt, -⟩ := h.mem_iff.mp hx
      exact lt_of_lt_of_le hlt (hslot o ho).2

theorem Dense.expandSlotCache (hslots : v.slots = []) (hle : v.chunks.length ≤ 2 ^ 23)
    (hroom : needed v = 0 ∨ v.chunks.length + needed v ≤ 2 ^ 23)
    (hexp : expandSlotCache v = some v') : Dense v'.chunks ∧ v'.chunks.length ≤ 2 ^ 23 := by
  have hoffsets := chunkOffsets_reclaimSlots v
  rw [expandSlotCache_eq] at hexp
  split at hexp
  next =>
    cases hexp
    exact ⟨h.of_offsets hoffsets, length_of_offsets hoffsets ▸ hle⟩
  next hzero =>
    have hroom := hroom.resolve_left hzero
    have hgrows := (grows_iff h hle).mpr (.inr hroom)
    have hadd : chunkOffsets v'.chunks = chunkOffsets v.chunks ++ addedOffsets v := by
      rw [← hoffsets]
      refine chunkOffsets_addSlots hexp (fun o ho => ?_) fun o ho hmem => ?_
      · rw [hoffsets]
        refine (reclaimSlots_sub h.nodup ho).resolve_left ?_
        rw [hslots]
        exact not_mem_nil
      · rw [hoffsets] at hmem
        exact lt_irrefl o (hgrows.behind o ho o hmem)
    have hperm : (chunkOffsets v'.chunks).Perm (firstSlots (v.chunks.length + needed v)) := by
      rw [hadd, addedOffsets_eq h, ← newOffsets_append hroom]
      exact h.offsets.append_right _
    exact ⟨.of_perm hperm, length_of_perm hperm ▸ hroom⟩

end

theorem Dense.filter (h : Dense chunks) (m : Nat) :
    Dense (chunks.filter (·.offset < m * slotSectors)) := by
  refine .of_perm (n := min chunks.length m) ?_
  have hnodup : (chunkOffsets (chunks.filter (·.offset < m * slotSectors))).Nodup :=
    h.nodup.sublist (filter_sublist.map _)
  refine (perm_ext_iff_of_nodup hnodup (nodup_firstSlots _)).mpr fun o => ?_
  have hmem := h.mem_iff (o := o)
  rw [mem_chunkOffsets] at hmem
  rw [mem_chunkOffsets, mem_firstSlots]
  constructor
  · intro ⟨c, hc, hco⟩
    obtain ⟨hc, hlt⟩ := mem_filter.mp hc
    obtain ⟨hpos, hlen, hdvd⟩ := hmem.mp ⟨c, hc, hco⟩
    have hlt := of_decide_eq_true hlt
    refine ⟨hpos, ?_, hdvd⟩
    unfold slotSectors at *
    omega
  · intro ⟨hpos, hlt, hdvd⟩
    obtain ⟨c, hc, hco⟩ := hmem.mpr ⟨hpos, by unfold slotSectors at *; omega, hdvd⟩
    refine ⟨c, mem_filter.mpr ⟨hc, decide_eq_true ?_⟩, hco⟩
    unfold slotSectors at *
    omega

theorem Dense.compactHoardTruncate (h : Dense chunks) {offset : Int}
    (htrunc : compactHoardTruncate chunks = some (chunks', offset)) :
    Dense chunks' ∧ chunks'.length ≤ chunks.length := by
  unfold Hoard.compactHoardTruncate at htrunc
  dsimp only at htrunc
  split at htrunc
  next => cases htrunc
  next hpos =>
    cases htrunc
    refine ⟨?_, length_filter_le ..⟩
    -- the cut is at the end of a slot
    obtain ⟨m, hm⟩ : ∃ m : Nat, truncateOffset chunks = m * slotSectors := by
      unfold truncateOffset at hpos ⊢
      split at hpos
      next => exact ⟨0, (Int.zero_mul _).symm⟩
      next o hmax =>
        obtain ⟨hmem, -⟩ := max?_eq_some_iff.mp hmax
        obtain ⟨c, hc, rfl⟩ := mem_chunkOffsets.mp hmem
        have hc := (mem_filter.mp hc).1
        obtain ⟨-, -, i, hi⟩ := h.mem_iff.mp (mem_chunkOffsets.mpr ⟨c, hc, rfl⟩)
        rw [wrapInt_wrapInt_add] at hpos ⊢
        refine ⟨(wrapInt (c.offset + slotSectors) / slotSectors).toNat, ?_⟩
        simp only [wrapInt, slotSectors, Int.bmod_def] at hpos hi ⊢
        omega
    rw [hm]
    exact h.filter m

/-! ## Steps -/

section steps

variable [DecidableEq T] [DecidableEq U] {s s' : St P T U} {a : Act P T U}

/-- `hoard_put_chunk` adds rows where it calls `expand_slot_cache`, and nowhere else. -/
theorem hoardPutChunk_chunks {v : View T} {tag : T} {length crypto : Int} {offset : Option Int}
    (h : hoardPutChunk v tag length crypto = some (v', offset)) :
    v'.chunks = v.chunks ∨ ∃ w, expansion v tag = some (flushSlotCache v) ∧
      expandSlotCache (flushSlotCache v) = some w ∧ v'.chunks = w.chunks := by
  unfold hoardPutChunk at h
  split at h
  next =>
    cases h
    exact .inl rfl
  next hnew =>
    obtain ⟨⟨w, o⟩, halloc, heq⟩ := Option.map_eq_some_iff.mp h
    cases heq
    unfold allocateSlot at halloc
    split at halloc
    next =>
      cases halloc
      exact .inl rfl
    next hunused =>
      split at halloc
      next => cases halloc
      next w' hexp =>
        obtain ⟨o', -, heq⟩ := Option.map_eq_some_iff.mp halloc
        cases heq
        refine .inr ⟨w, ?_, hexp, rfl⟩
        have hnew' : ¬v.Lists tag := hnew
        unfold expansion
        rw [if_neg hnew', hunused]
        rfl

/-- The invariant of the offsets. -/
structure OffsetsInv (s : St P T U) : Prop where
  slots : SlotsInv s
  dense : Dense s.chunks

omit [DecidableEq T] [DecidableEq U] in
theorem OffsetsInv.length_le (h : OffsetsInv s) : s.chunks.length ≤ 2 ^ 23 :=
  h.dense.length_le h.slots.range

theorem OffsetsInv.transaction (h : OffsetsInv s) (hroom : Room s a) {proc : Proc T U} {t : Txn T U}
    (hp : s.procs a.proc = some proc) (ht : transaction s proc a.op = some t) :
    Dense t.chunks ∧ t.chunks.length ≤ 2 ^ 23 := by
  have hsame : ∀ {chunks : List (Chunk T)}, chunkOffsets chunks = chunkOffsets s.chunks →
      Dense chunks ∧ chunks.length ≤ 2 ^ 23 := fun heq =>
    ⟨h.dense.of_offsets heq, length_of_offsets heq ▸ h.length_le⟩
  obtain ⟨p, op, commit⟩ := a
  cases op with
  | getParcelIdent pick =>
    simp only [Hoard.transaction] at ht
    split at ht
    next =>
      obtain ⟨r, -, rfl⟩ := Option.map_eq_some_iff.mp ht
      exact hsame rfl
    next => cases ht
  | putChunk tag length crypto =>
    obtain ⟨⟨v, offset⟩, hput, rfl⟩ := Option.map_eq_some_iff.mp ht
    rcases hoardPutChunk_chunks hput with heq | ⟨w, hexpansion, hexp, heq⟩
    · exact hsame (congrArg chunkOffsets heq)
    · have hoffsets := chunkOffsets_flushSlotCache ⟨s.chunks, proc.slots⟩
      have hroom := hroom (flushSlotCache ⟨s.chunks, proc.slots⟩) (by
        unfold St.expansion
        rw [show s.procs p = some proc from hp]
        exact hexpansion)
      rw [← length_of_offsets hoffsets] at hroom
      obtain ⟨hdense, hle⟩ := hsame hoffsets
      change Dense v.chunks ∧ v.chunks.length ≤ 2 ^ 23
      rw [heq]
      exact hdense.expandSlotCache rfl hle hroom hexp
  | flushSlotCache =>
    cases ht
    exact hsame (chunkOffsets_flushSlotCache ⟨s.chunks, proc.slots⟩)
  | invalidateChunk offset tag =>
    cases ht
    refine hsame ?_
    change chunkOffsets (hoardInvalidateChunk s.chunks offset tag) = _
    unfold hoardInvalidateChunk
    split
    next => exact chunkOffsets_update fun _ => rfl
    next => rfl
  | invalidateSlotChunk offset | rmhoard uuid =>
    cases ht
    exact hsame rfl
  | gc =>
    cases ht
    exact hsame (chunkOffsets_update fun _ => rfl)
  | compactIteration =>
    cases ht
    exact hsame (chunkOffsets_compactLoop 16 none s.chunks)
  | truncate =>
    obtain ⟨⟨chunks, offset⟩, htrunc, rfl⟩ := Option.map_eq_some_iff.mp ht
    obtain ⟨hdense, hle⟩ := h.dense.compactHoardTruncate htrunc
    exact ⟨hdense, hle.trans h.length_le⟩
  | syncRefs newChunks keys prevKeys =>
    obtain ⟨ident, -, rfl⟩ := Option.map_eq_some_iff.mp ht
    exact hsame rfl
  | start conf | cleanup gc | die => cases ht

variable [DecidableEq P] [Fintype P]

theorem OffsetsInv.step (h : OffsetsInv s) (hroom : Room s a) (hs : Hoard.step s a = some s') :
    OffsetsInv s' := by
  have hfits : Fits s a := by
    intro proc t hp ht
    obtain ⟨hdense, hle⟩ := h.transaction hroom hp ht
    exact hdense.inRange hle
  refine ⟨h.slots.step hfits hs, ?_⟩
  rcases step_cases hs with ⟨-, conf, -, rfl⟩ | rfl | ⟨-, gc, -, rfl⟩ | ⟨proc, t, hp, ht, rfl⟩ | rfl
  · exact h.dense
  · exact h.dense
  · exact h.dense.of_offsets (chunkOffsets_cleanChunks s.chunks s.refs gc)
  · exact (h.transaction hroom hp ht).1
  · exact h.dense

theorem offsetsInv_reach (hr : Base.Reach step Room (init : St P T U) s) : OffsetsInv s :=
  hr.inv ⟨slotsInv_init, ⟨List.Perm.refl _⟩⟩ fun _ _ _ hi hroom hs => hi.step hroom hs

omit [DecidableEq P] [Fintype P] [DecidableEq U] in
/-- The tables on which a step calls `expand_slot_cache`. -/
theorem St.expansion_eq_some {v : View T} (h : s.expansion a = some v) :
    chunkOffsets v.chunks = chunkOffsets s.chunks := by
  unfold St.expansion at h
  split at h
  next =>
    unfold Hoard.expansion at h
    split at h
    next => cases h
    split at h
    next => cases h
    cases h
    exact chunkOffsets_flushSlotCache _
  next => cases h

end steps

end OpenIsr.Hoard
