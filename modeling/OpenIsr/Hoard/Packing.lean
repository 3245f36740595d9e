import OpenIsr.Hoard.Hoarding

/-!
# Chunks at the front

A hoard cache without gaps has its slots at 0, 256, 512, ..., and each of them is free or holds a
chunk (`Tidy`). `_compact_hoard_iteration` takes the last chunk and the first free slot, up to 16
times. When it says that it is done, every chunk is in front of every free slot (`Front`), and so
the chunks are in the first slots. Otherwise it has moved the last chunk, and all chunks are in
front of where this was, which is why there are finitely many iterations.
-/

namespace OpenIsr.Hoard

open List
open Base (updateWhere mem_updateWhere mem_updateWhere_of mem_updateWhere_of_not OnceIn)

variable {T : Type} {chunks chunks' : List (Chunk T)} {c d slot : Chunk T} {n m : Nat}
  {below : Option Int}

/-- The offsets of the first `n` slots. -/
def firstSlots (n : Nat) : List Int := (range n).map fun i : Nat => i * slotSectors

/-- The rows that hold a chunk. -/
def tagged (chunks : List (Chunk T)) : List (Chunk T) := chunks.filter (·.tag ≠ none)

/-- No gaps, no slot in a slot cache, and each tag once. -/
structure Tidy (chunks : List (Chunk T)) : Prop where
  offsets : (chunkOffsets chunks).Perm (firstSlots chunks.length)
  rows : ∀ c ∈ chunks, c.Free ∨ c.Holding
  unique : ∀ tag, OnceIn chunks (·.tag) tag
  positive : ∀ c ∈ chunks, c.tag ≠ none → 0 < c.length

/-- Chunks come first. -/
def Front (chunks : List (Chunk T)) : Prop :=
  ∀ c ∈ chunks, ∀ d ∈ chunks, c.tag ≠ none → d.tag = none → c.offset < d.offset

/-! ## Offsets -/

theorem mem_firstSlots {o : Int} :
    o ∈ firstSlots n ↔ 0 ≤ o ∧ o < n * slotSectors ∧ slotSectors ∣ o := by
  unfold firstSlots slotSectors
  rw [mem_map]
  constructor
  · rintro ⟨i, hi, rfl⟩
    rw [mem_range] at hi
    omega
  · rintro ⟨hpos, hlt, i, rfl⟩
    refine ⟨i.toNat, mem_range.mpr (by omega), by omega⟩

theorem length_firstSlots (n : Nat) : (firstSlots n).length = n := by
  rw [firstSlots, length_map, length_range]

theorem nodup_firstSlots (n : Nat) : (firstSlots n).Nodup := by
  refine nodup_range.map fun i j hij => ?_
  simp only [slotSectors] at hij
  omega

section

variable (h : Tidy chunks)
include h

theorem Tidy.nodup : (chunkOffsets chunks).Nodup :=
  h.offsets.nodup_iff.mpr (nodup_firstSlots _)

theorem Tidy.table : TableOk chunks :=
  ⟨h.nodup, fun c hc => (h.rows c hc).imp_right And.left⟩

theorem Tidy.offset (hc : c ∈ chunks) :
    0 ≤ c.offset ∧ c.offset < chunks.length * slotSectors ∧ slotSectors ∣ c.offset :=
  mem_firstSlots.mp (h.offsets.mem_iff.mp (mem_chunkOffsets.mpr ⟨c, hc, rfl⟩))

theorem Tidy.exists_row {i : Nat} (hi : i < chunks.length) :
    ∃ c ∈ chunks, c.offset = i * slotSectors := by
  refine mem_chunkOffsets.mp (h.offsets.mem_iff.mpr (mem_firstSlots.mpr ?_))
  unfold slotSectors
  omega

theorem Tidy.holding (hc : c ∈ chunks) (htag : c.tag ≠ none) : c.Holding :=
  (h.rows c hc).resolve_left fun hf => htag hf.2

theorem Tidy.free (hc : c ∈ chunks) (htag : c.tag = none) : c.Free :=
  (h.rows c hc).resolve_right fun hh => hh.2 htag

end

/-! ## A move -/

theorem chunkOffsets_moveChunk (chunks : List (Chunk T)) (c : Chunk T) (dest : Int) :
    chunkOffsets (moveChunk chunks c dest) = chunkOffsets chunks := by
  refine Eq.trans (chunkOffsets_update ?_) (chunkOffsets_update ?_)
  · exact fun _ => rfl
  · exact fun _ => rfl

theorem length_moveChunk (chunks : List (Chunk T)) (c : Chunk T) (dest : Int) :
    (moveChunk chunks c dest).length = chunks.length := by
  have h := congrArg List.length (chunkOffsets_moveChunk chunks c dest)
  rwa [chunkOffsets, chunkOffsets, length_map, length_map] at h

theorem mem_moveChunk (h : (chunkOffsets chunks).Nodup) (hc : c ∈ chunks) (hslot : slot ∈ chunks)
    (hne : slot.offset ≠ c.offset) :
    d ∈ moveChunk chunks c slot.offset ↔
      d = c.clear ∨ d = { c with offset := slot.offset, allocated := 1 } ∨
      (d ∈ chunks ∧ d.offset ≠ c.offset ∧ d.offset ≠ slot.offset) := by
  constructor
  · intro hd
    obtain ⟨e, he, ⟨hp, rfl⟩ | ⟨hp, rfl⟩⟩ := mem_updateWhere.mp hd
    · have heq : e.offset = slot.offset := of_decide_eq_true hp
      rw [heq]
      exact .inr (.inl rfl)
    · obtain ⟨x, hx, ⟨hq, rfl⟩ | ⟨hq, rfl⟩⟩ := mem_updateWhere.mp he
      · rw [Base.eq_of_key h hx hc (of_decide_eq_true hq)]
        exact .inl rfl
      · exact .inr (.inr ⟨hx, of_decide_eq_false hq, of_decide_eq_false hp⟩)
  · rintro (rfl | rfl | ⟨hd, hdc, hds⟩)
    · exact mem_updateWhere_of_not (mem_updateWhere_of hc (decide_eq_true rfl))
        (decide_eq_false hne.symm)
    · have hkept : slot ∈ updateWhere chunks (·.offset = c.offset) Chunk.clear :=
        mem_updateWhere_of_not hslot (decide_eq_false hne)
      exact mem_updateWhere_of hkept (decide_eq_true rfl)
    · exact mem_updateWhere_of_not (mem_updateWhere_of_not hd (decide_eq_false hdc))
        (decide_eq_false hds)

theorem hasTag_moveChunk (h : Tidy chunks) (hc : c ∈ chunks) (hslot : slot ∈ chunks)
    (hfree : slot.Free) (hne : slot.offset ≠ c.offset) (tag : T) :
    HasTag (moveChunk chunks c slot.offset) tag ↔ HasTag chunks tag := by
  constructor
  · rintro ⟨d, hd, hdt⟩
    rcases (mem_moveChunk h.nodup hc hslot hne).mp hd with rfl | rfl | ⟨hd, -⟩
    · cases hdt
    · exact ⟨c, hc, hdt⟩
    · exact ⟨d, hd, hdt⟩
  · exact h.table.moveChunk_hasTag hc hslot hfree hne

theorem Tidy.moveChunk (h : Tidy chunks) (hc : c ∈ chunks) (htag : c.tag ≠ none)
    (hslot : slot ∈ chunks) (hne : slot.offset ≠ c.offset) :
    Tidy (moveChunk chunks c slot.offset) := by
  have hmem : ∀ d, d ∈ Hoard.moveChunk chunks c slot.offset ↔ _ := fun d =>
    mem_moveChunk h.nodup hc hslot hne
  refine ⟨?_, fun d hd => ?_, fun tag d hd e he hdt het => ?_, fun d hd hdt => ?_⟩
  · rw [chunkOffsets_moveChunk, length_moveChunk]
    exact h.offsets
  · rcases (hmem d).mp hd with rfl | rfl | ⟨hd, -⟩
    · exact .inl ⟨rfl, rfl⟩
    · exact .inr ⟨rfl, htag⟩
    · exact h.rows d hd
  · rcases (hmem d).mp hd with rfl | rfl | ⟨hd, hdc, -⟩
    · cases hdt
    · rcases (hmem e).mp he with rfl | rfl | ⟨he, hec, -⟩
      · cases het
      · rfl
      · exact absurd (congrArg Chunk.offset (h.unique tag c hc e he hdt het)).symm hec
    · rcases (hmem e).mp he with rfl | rfl | ⟨he, -⟩
      · cases het
      · exact absurd (congrArg Chunk.offset (h.unique tag d hd c hc hdt het)) hdc
      · exact h.unique tag d hd e he hdt het
  · rcases (hmem d).mp hd with rfl | rfl | ⟨hd, -⟩
    · exact absurd rfl hdt
    · exact h.positive c hc htag
    · exact h.positive d hd hdt

/-! ## An iteration -/

theorem below_moveChunk (h : Tidy chunks) (hnext : nextChunk chunks below = some c)
    (hbelow : ∀ d ∈ chunks, d.tag ≠ none → ∀ b ∈ below, d.offset < b) (hslot : slot ∈ chunks)
    (hlt : slot.offset < c.offset) :
    ∀ d ∈ moveChunk chunks c slot.offset, d.tag ≠ none → ∀ b ∈ some c.offset, d.offset < b := by
  obtain ⟨hc, -, -⟩ := nextChunk_spec hnext
  intro d hd hdt b hb
  rw [← Option.some.inj hb]
  rcases (mem_moveChunk h.nodup hc hslot hlt.ne).mp hd with rfl | rfl | ⟨hd, hdc, -⟩
  · exact absurd rfl hdt
  · exact hlt
  · exact lt_of_le_of_ne (le_nextChunk hnext hd hdt (hbelow d hd hdt)) hdc

theorem Tidy.front (h : Tidy chunks) (hnext : nextChunk chunks below = some c)
    (hbelow : ∀ d ∈ chunks, d.tag ≠ none → ∀ b ∈ below, d.offset < b)
    (hfree : ∀ d ∈ chunks, d.allocated = 0 → c.offset ≤ d.offset) : Front chunks := by
  intro e he d hd het hdt
  have hle := le_nextChunk hnext he het (hbelow e he het)
  refine lt_of_le_of_ne (hle.trans (hfree d hd (h.free hd hdt).1)) fun heq => ?_
  rw [Base.eq_of_key h.nodup he hd heq] at het
  exact het hdt

/-- What the loop leaves. -/
structure Loop (chunks : List (Chunk T)) (below : Option Int) (r : Compacted T) : Prop where
  tidy : Tidy r.chunks
  tags : ∀ tag, HasTag r.chunks tag ↔ HasTag chunks tag
  below : ∀ d ∈ r.chunks, d.tag ≠ none → ∀ b ∈ below, d.offset < b
  front : r.done = true → Front r.chunks

theorem Tidy.compactLoop (n : Nat) : ∀ {chunks : List (Chunk T)} {below : Option Int}, Tidy chunks →
    (∀ d ∈ chunks, d.tag ≠ none → ∀ b ∈ below, d.offset < b) →
    Loop chunks below (compactLoop n below chunks) := by
  induction n with
  | zero =>
    intro chunks below h hbelow
    exact ⟨h, fun _ => .rfl, hbelow, nofun⟩
  | succ n ih =>
    intro chunks below h hbelow
    unfold Hoard.compactLoop
    split
    next hnext =>
      refine ⟨h, fun _ => .rfl, hbelow, fun _ c hc d _ hct _ => ?_⟩
      exact absurd (nextChunk_eq_none hnext hc (hbelow c hc hct)) hct
    next c hnext =>
      obtain ⟨hc, hct, hcb⟩ := nextChunk_spec hnext
      split
      next hnone =>
        refine ⟨h, fun _ => .rfl, hbelow, fun _ => h.front hnext hbelow fun d hd hz => ?_⟩
        exact absurd hz (lowestFree_eq_none hnone hd)
      next slot hslot =>
        obtain ⟨hmem, hz⟩ := lowestFree_spec hslot
        split
        next hle =>
          refine ⟨h, fun _ => .rfl, hbelow, fun _ => h.front hnext hbelow fun d hd hdz => ?_⟩
          exact hle.trans (lowestFree_le hslot hd hdz)
        next hlt =>
          rw [not_le] at hlt
          have hfree := h.table.free hmem hz
          have hmoved := below_moveChunk h hnext hbelow hmem hlt
          have hrest := ih (h.moveChunk hc hct hmem hlt.ne) hmoved
          refine ⟨hrest.tidy, fun tag => ?_, fun d hd hdt b hb => ?_, hrest.front⟩
          · exact (hrest.tags tag).trans (hasTag_moveChunk h hc hmem hfree hlt.ne tag)
          · exact (hrest.below d hd hdt c.offset rfl).trans (hcb b hb)

theorem Tidy.compactHoardIteration (h : Tidy chunks) :
    Loop chunks none (compactHoardIteration chunks) ∧
      ((compactHoardIteration chunks).done = false →
        ∃ c ∈ chunks, c.tag ≠ none ∧
          ∀ d ∈ (compactHoardIteration chunks).chunks, d.tag ≠ none → d.offset < c.offset) := by
  refine ⟨h.compactLoop 16 nofun, fun hdone => ?_⟩
  unfold Hoard.compactHoardIteration Hoard.compactLoop at hdone ⊢
  split at hdone
  next => cases hdone
  next c hnext =>
    obtain ⟨hc, hct, -⟩ := nextChunk_spec hnext
    split at hdone
    next => cases hdone
    next slot hslot =>
      obtain ⟨hmem, hz⟩ := lowestFree_spec hslot
      split at hdone
      next => cases hdone
      next hlt =>
        rw [not_le] at hlt
        have hmoved := below_moveChunk h hnext nofun hmem hlt
        have hrest := (h.moveChunk hc hct hmem hlt.ne).compactLoop 15 hmoved
        refine ⟨c, hc, hct, fun d hd hdt => hrest.below d ?_ hdt c.offset rfl⟩
        simpa only [hnext, hslot, if_neg (not_le.mpr hlt)] using hd

/-! ## Counting -/

theorem mem_tagged : c ∈ tagged chunks ↔ c ∈ chunks ∧ c.tag ≠ none := by
  rw [tagged, mem_filter, decide_eq_true_iff]

theorem length_filterMap_tag (chunks : List (Chunk T)) :
    (chunks.filterMap (·.tag)).length = (tagged chunks).length := by
  induction chunks with
  | nil => rfl
  | cons c chunks ih =>
    cases hc : c.tag with
    | none =>
      rw [filterMap_cons_none hc, ih, tagged, tagged, filter_cons_of_neg]
      rw [hc]
      exact Bool.not_eq_true _ ▸ decide_eq_false (not_not.mpr rfl)
    | some tag =>
      rw [filterMap_cons_some hc, tagged, filter_cons_of_pos, length_cons, length_cons, ih, tagged]
      rw [hc]
      exact decide_eq_true (Option.some_ne_none tag)

theorem Tidy.nodup_tags (h : Tidy chunks) : (chunks.filterMap (·.tag)).Nodup := by
  have hrows : chunks.Nodup := h.nodup.of_map _
  refine pairwise_filterMap.mpr (hrows.imp_of_mem fun {c d} hc hd hne => ?_)
  rintro tag hct _ hdt rfl
  exact hne (h.unique tag c hc d hd hct hdt)

theorem Tidy.length_tagged (h : Tidy chunks) (h' : Tidy chunks')
    (htags : ∀ tag, HasTag chunks' tag ↔ HasTag chunks tag) :
    (tagged chunks').length = (tagged chunks).length := by
  rw [← length_filterMap_tag, ← length_filterMap_tag]
  refine ((perm_ext_iff_of_nodup h'.nodup_tags h.nodup_tags).mpr fun tag => ?_).length_eq
  rw [mem_filterMap, mem_filterMap]
  exact htags tag

theorem Tidy.nodup_tagged (h : Tidy chunks) : (chunkOffsets (tagged chunks)).Nodup :=
  h.nodup.sublist (filter_sublist.map _)

theorem le_length_tagged
    (hrows : ∀ i < m, ∃ c ∈ chunks, c.offset = (i : Int) * slotSectors ∧ c.tag ≠ none) :
    m ≤ (tagged chunks).length := by
  have hsub : firstSlots m ⊆ chunkOffsets (tagged chunks) := by
    intro o ho
    obtain ⟨i, hi, rfl⟩ := mem_map.mp ho
    obtain ⟨c, hc, hco, htag⟩ := hrows i (mem_range.mp hi)
    exact mem_chunkOffsets.mpr ⟨c, mem_tagged.mpr ⟨hc, htag⟩, hco⟩
  have hle := ((nodup_firstSlots m).subperm hsub).length_le
  rwa [length_firstSlots, chunkOffsets, length_map] at hle

theorem Tidy.length_tagged_le (h : Tidy chunks)
    (hrows : ∀ c ∈ chunks, c.tag ≠ none → c.offset < m * slotSectors) :
    (tagged chunks).length ≤ m := by
  have hsub : chunkOffsets (tagged chunks) ⊆ firstSlots m := by
    intro o ho
    obtain ⟨c, hc, rfl⟩ := mem_chunkOffsets.mp ho
    obtain ⟨hc, htag⟩ := mem_tagged.mp hc
    obtain ⟨hpos, -, hdvd⟩ := h.offset hc
    exact mem_firstSlots.mpr ⟨hpos, hrows c hc htag, hdvd⟩
  have hle := (h.nodup_tagged.subperm hsub).length_le
  rwa [length_firstSlots, chunkOffsets, length_map] at hle

theorem Tidy.tag_iff (h : Tidy chunks) (hfront : Front chunks) (hc : c ∈ chunks) :
    c.tag ≠ none ↔ c.offset < (tagged chunks).length * slotSectors := by
  obtain ⟨hpos, hlt, i, hi⟩ := h.offset hc
  have hcast : c.offset = (i.toNat : Int) * slotSectors := by
    unfold slotSectors at hi ⊢
    omega
  have hrow : i.toNat < chunks.length := by
    unfold slotSectors at hi hlt
    omega
  constructor
  · intro htag
    -- so do all slots up to this one hold chunks
    have hle : i.toNat + 1 ≤ (tagged chunks).length := by
      refine le_length_tagged fun j hj => ?_
      obtain ⟨d, hd, hdo⟩ := h.exists_row (i := j) (by omega)
      refine ⟨d, hd, hdo, fun hdt => ?_⟩
      have hcd := hfront c hc d hd htag hdt
      unfold slotSectors at hcast hdo
      omega
    unfold slotSectors at hcast ⊢
    omega
  · intro hc' htag
    have hle : (tagged chunks).length ≤ i.toNat := by
      refine h.length_tagged_le fun d hd hdt => ?_
      rw [← hcast]
      exact hfront d hd c hc hdt htag
    unfold slotSectors at hcast hc'
    omega

theorem Tidy.cut (h : Tidy chunks) (hfront : Front chunks)
    (hcut : chunks' = chunks.filter (·.offset < (tagged chunks).length * slotSectors)) :
    (chunkOffsets chunks').Perm (firstSlots (tagged chunks).length) ∧
      (∀ c ∈ chunks', c.tag ≠ none) ∧ ∀ tag, HasTag chunks' tag ↔ HasTag chunks tag := by
  have hmem : ∀ c, c ∈ chunks' ↔ c ∈ chunks ∧ c.offset < (tagged chunks).length * slotSectors := by
    intro c
    rw [hcut, mem_filter, decide_eq_true_iff]
  have hnodup : (chunkOffsets chunks').Nodup := by
    rw [hcut]
    exact h.nodup.sublist (filter_sublist.map _)
  refine ⟨(perm_ext_iff_of_nodup hnodup (nodup_firstSlots _)).mpr fun o => ?_, fun c hc => ?_,
    fun tag => ⟨?_, ?_⟩⟩
  · rw [mem_chunkOffsets, mem_firstSlots]
    constructor
    · rintro ⟨c, hc, rfl⟩
      obtain ⟨hc, hlt⟩ := (hmem c).mp hc
      obtain ⟨hpos, -, hdvd⟩ := h.offset hc
      exact ⟨hpos, hlt, hdvd⟩
    · rintro ⟨hpos, hlt, i, rfl⟩
      have hle : (tagged chunks).length ≤ chunks.length := length_filter_le ..
      obtain ⟨c, hc, hco⟩ := h.exists_row (i := i.toNat) (by unfold slotSectors at *; omega)
      have heq : c.offset = slotSectors * i := by
        rw [hco]
        unfold slotSectors at *
        omega
      exact ⟨c, (hmem c).mpr ⟨hc, heq ▸ hlt⟩, heq⟩
  · obtain ⟨hc, hlt⟩ := (hmem c).mp hc
    exact (h.tag_iff hfront hc).mpr hlt
  · rintro ⟨c, hc, hct⟩
    exact ⟨c, ((hmem c).mp hc).1, hct⟩
  · rintro ⟨c, hc, hct⟩
    have hsome : c.tag ≠ none := by
      rw [hct]
      exact Option.some_ne_none tag
    exact ⟨c, (hmem c).mpr ⟨hc, (h.tag_iff hfront hc).mp hsome⟩, hct⟩

end OpenIsr.Hoard
