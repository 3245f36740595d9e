import OpenIsr.Hoard.Offsets

/-!
# A hoard cache that is full

A process that stores one new chunk after the other takes 256 slots at a time, and none of them
becomes free again. So a run with nothing but `hoard_put_chunk` comes to any number of slots
(`storing_full`), and with 2^23 of them to offsets that wrap around.
-/

namespace OpenIsr.Hoard

open List
open Base (updateWhere mem_updateWhere updateWhere_eq_self)

variable {P T U : Type}

section full

variable {v : View Nat} {t : Nat} {o : Int}

/-- What a process that has stored chunks with tags below `t` leaves: nothing is free, and no tag
is there twice. -/
structure Filled (t : Nat) (v : View Nat) : Prop where
  rows : ∀ c ∈ v.chunks, c.allocated = 1 ∧ ∀ x ∈ c.tag, x < t
  slots : ∀ slot ∈ v.slots, ∀ x ∈ slot.tag, x < t
  fresh : ∀ slot ∈ v.slots, slot.tag ≠ none → ∀ c ∈ v.chunks, c.tag ≠ slot.tag
  distinct : v.slots.Pairwise fun x y => x.offset ≠ y.offset ∧ (x.tag ≠ none → x.tag ≠ y.tag)

/-- A chunk is entered into the slot cache. -/
def View.fill (v : View Nat) (o : Int) (t : Nat) : View Nat :=
  { v with slots := updateWhere v.slots (·.offset = o) fun slot =>
      { slot with tag := some t, length := 512, crypto := 1 } }

theorem Filled.fill (h : Filled t v) (o : Int) : Filled (t + 1) (v.fill o t) := by
  refine ⟨fun c hc => ?_, fun slot hslot x hx => ?_, fun slot hslot htag c hc heq => ?_, ?_⟩
  · obtain ⟨hrow, htag⟩ := h.rows c hc
    exact ⟨hrow, fun x hx => Nat.lt_succ_of_lt (htag x hx)⟩
  · obtain ⟨slot', hslot', ⟨-, rfl⟩ | ⟨-, rfl⟩⟩ := mem_updateWhere.mp hslot
    · cases hx
      exact Nat.lt_succ_self t
    · exact Nat.lt_succ_of_lt (h.slots slot hslot' x hx)
  · obtain ⟨slot', hslot', ⟨-, rfl⟩ | ⟨-, rfl⟩⟩ := mem_updateWhere.mp hslot
    · exact absurd ((h.rows c hc).2 t heq) (lt_irrefl t)
    · exact h.fresh slot hslot' htag c hc heq
  · refine pairwise_map.mpr (h.distinct.imp_of_mem fun {x y} hx hy hxy => ?_)
    by_cases hxo : x.offset = o
    · have hyo : y.offset ≠ o := fun hyo => hxy.1 (hxo.trans hyo.symm)
      rw [if_pos (decide_eq_true hxo), if_neg (by simpa using hyo)]
      exact ⟨hxy.1, fun _ heq => lt_irrefl t (h.slots y hy t heq.symm)⟩
    · rw [if_neg (by simpa using hxo)]
      by_cases hyo : y.offset = o
      · rw [if_pos (decide_eq_true hyo)]
        exact ⟨hxy.1, fun _ heq => lt_irrefl t (h.slots x hx t heq)⟩
      · rw [if_neg (by simpa using hyo)]
        exact hxy

theorem Filled.new (h : Filled t v) :
    ¬(some t ∈ v.slots.map (·.tag) ∨ some t ∈ v.chunks.map (·.tag)) := by
  intro hmem
  rcases hmem with hmem | hmem
  · obtain ⟨slot, hslot, htag⟩ := mem_map.mp hmem
    exact lt_irrefl t (h.slots slot hslot t htag)
  · obtain ⟨c, hc, htag⟩ := mem_map.mp hmem
    exact lt_irrefl t ((h.rows c hc).2 t htag)

theorem hoardPutChunk_of_allocate {w : View Nat} (h : Filled t v)
    (halloc : allocateSlot v = some (w, o)) :
    hoardPutChunk v t 512 1 = some (w.fill o t, some o) := by
  unfold hoardPutChunk
  rw [if_neg h.new, halloc]
  rfl

theorem unused_fill (ho : unusedSlot v.slots = some o) (t : Nat) :
    (v.fill o t).slots.countP (·.tag = none) < v.slots.countP (·.tag = none) := by
  obtain ⟨slot, hfind, rfl⟩ := Option.map_eq_some_iff.mp ho
  obtain ⟨htag, before, after, hslots, -⟩ := find?_eq_some_iff_append.mp hfind
  unfold View.fill updateWhere
  rw [hslots, countP_map, countP_append, countP_append, countP_cons, countP_cons]
  have hle : ∀ slots : List (Slot Nat), slots.countP ((fun x => decide (x.tag = none)) ∘ fun x =>
      if decide (x.offset = slot.offset) = true then
        { x with tag := some t, length := 512, crypto := 1 } else x) ≤
      slots.countP fun x => decide (x.tag = none) := by
    intro slots
    refine countP_mono_left fun x _ hx => ?_
    simp only [Function.comp_apply] at hx
    split at hx
    next => cases hx
    next => exact hx
  have hbefore := hle before
  have hafter := hle after
  simp only [Function.comp_apply, decide_true, if_true, htag] at hbefore hafter ⊢
  simp only [reduceCtorEq, decide_false, Bool.false_eq_true, if_false]
  omega

theorem tag_ne_none_of_full (hfull : unusedSlot v.slots = none) :
    ∀ slot ∈ v.slots, slot.tag ≠ none := by
  intro slot hslot htag
  rw [unusedSlot, Option.map_eq_none_iff, find?_eq_none] at hfull
  exact hfull slot hslot (decide_eq_true htag)

theorem flushSlots_filled (slots : List (Slot Nat)) : ∀ {chunks : List (Chunk Nat)},
    Filled t ⟨chunks, slots⟩ → (∀ slot ∈ slots, slot.tag ≠ none) →
    ∀ c ∈ slots.foldl flushSlot chunks, c.allocated = 1 ∧ ∀ x ∈ c.tag, x < t := by
  induction slots with
  | nil => exact fun h _ => h.rows
  | cons slot slots ih =>
    intro chunks h htags
    have htag := htags slot mem_cons_self
    have hfresh := h.fresh slot mem_cons_self htag
    obtain ⟨hfirst, hrest⟩ := pairwise_cons.mp h.distinct
    refine ih ?_ fun x hx => htags x (mem_cons_of_mem _ hx)
    have hflush : flushSlot chunks slot = updateWhere chunks (·.offset = slot.offset) fun c =>
        { c with tag := slot.tag, length := slot.length, crypto := slot.crypto, allocated := 1 } :=
      if_neg fun hx => by
        obtain ⟨-, c, hc, heq, -⟩ := hx
        exact hfresh c hc heq
    rw [hflush]
    refine ⟨fun c hc => ?_, fun x hx => h.slots x (mem_cons_of_mem _ hx),
      fun x hx hxtag c hc => ?_, hrest⟩
    · obtain ⟨d, hd, ⟨-, rfl⟩ | ⟨-, rfl⟩⟩ := mem_updateWhere.mp hc
      · exact ⟨rfl, h.slots slot mem_cons_self⟩
      · exact h.rows c hd
    · obtain ⟨d, hd, ⟨-, rfl⟩ | ⟨-, rfl⟩⟩ := mem_updateWhere.mp hc
      · exact (hfirst x hx).2 htag
      · exact h.fresh x (mem_cons_of_mem _ hx) hxtag c hd

theorem Filled.flush (h : Filled t v) (hfull : unusedSlot v.slots = none) :
    ∀ c ∈ (flushSlotCache v).chunks, c.allocated = 1 ∧ ∀ x ∈ c.tag, x < t := by
  have htags := tag_ne_none_of_full hfull
  have hused : v.slots.filter (·.tag ≠ none) = v.slots :=
    filter_eq_self.mpr fun slot hslot => decide_eq_true (htags slot hslot)
  have hunused : v.slots.filter (·.tag = none) = [] :=
    filter_eq_nil_iff.mpr fun slot hslot => by simpa using htags slot hslot
  unfold flushSlotCache
  rw [hused, hunused]
  intro c hc
  obtain ⟨d, hd, ⟨hp, -⟩ | ⟨-, rfl⟩⟩ := mem_updateWhere.mp hc
  · cases of_decide_eq_true hp
  · exact flushSlots_filled v.slots h htags c hd

/-- Nothing is free, so that `expand_slot_cache` has to add all slots. -/
theorem reclaimSlots_none (hslots : v.slots = []) (hrows : ∀ c ∈ v.chunks, c.allocated = 1) :
    reclaimSlots v = (v, 0) := by
  have hfree : v.chunks.filter (·.allocated = 0) = [] := by
    refine filter_eq_nil_iff.mpr fun c hc => ?_
    rw [hrows c hc]
    decide
  unfold reclaimSlots
  simp only [hfree, hslots, chunkOffsets, slotOffsets, map_nil, insertionSort_nil,
    take_nil, filter_nil, append_nil, length_nil]
  rw [updateWhere_eq_self fun c _ => decide_eq_false not_mem_nil]
  exact congrArg (·, 0) (by rw [← hslots])

theorem expandSlotCache_filled (hslots : v.slots = [])
    (hrows : ∀ c ∈ v.chunks, c.allocated = 1 ∧ ∀ x ∈ c.tag, x < t) (h : Dense v.chunks)
    (hroom : v.chunks.length + 256 ≤ 2 ^ 23) :
    ∃ w, expandSlotCache v = some w ∧ Filled t w ∧ w.chunks.length = v.chunks.length + 256 ∧
      (unusedSlot w.slots).isSome := by
  have hreclaim := reclaimSlots_none hslots fun c hc => (hrows c hc).1
  have hneeded : needed v = 256 := by
    unfold needed
    rw [hreclaim]
    rfl
  have hle : v.chunks.length ≤ 2 ^ 23 := by omega
  have hgrows := (grows_iff h hle).mpr (.inr (hneeded ▸ hroom))
  have hadded : addedOffsets v = newOffsets (expandStart v.chunks) 256 := by
    unfold addedOffsets
    rw [hreclaim, hneeded]
  rw [hadded] at hgrows
  have hnodup : (slotOffsets v.slots ++ newOffsets (expandStart v.chunks) 256).Nodup := by
    rw [hslots]
    exact hgrows.nodup
  have hexp : expandSlotCache v = addSlots v 256 := by
    rw [expandSlotCache_eq, hneeded, hreclaim]
    rfl
  obtain ⟨w, hw⟩ : ∃ w, addSlots v 256 = some w := ⟨_, if_pos hnodup⟩
  have hoffsets := chunkOffsets_addSlots hw (by rw [hslots]; exact nofun) fun o ho hmem =>
    lt_irrefl o (hgrows.behind o ho o hmem)
  refine ⟨w, hexp.trans hw, ?_, ?_, unusedSlot_expand hslots (hexp.trans hw)⟩
  · unfold addSlots at hw
    dsimp only at hw
    rw [if_pos hnodup, hslots] at hw
    cases hw
    have hnew : ∀ slot ∈ (newOffsets (expandStart v.chunks) 256).map (Slot.new (T := Nat)),
        slot.tag = none := by
      intro slot hslot
      obtain ⟨o, -, rfl⟩ := mem_map.mp hslot
      rfl
    refine ⟨fun c hc => ?_, fun slot hslot x hx => ?_, fun slot hslot htag => ?_, ?_⟩
    · rcases mem_append.mp hc with hc | hc
      · exact hrows c hc
      · obtain ⟨o, -, rfl⟩ := mem_map.mp hc
        exact ⟨rfl, nofun⟩
    · rw [hnew slot hslot] at hx
      cases hx
    · exact absurd (hnew slot hslot) htag
    · refine pairwise_map.mpr (hgrows.nodup.imp fun hne => ⟨hne, fun htag => absurd rfl htag⟩)
  · have hlength := congrArg List.length hoffsets
    simpa [chunkOffsets, newOffsets] using hlength

/-- Only `hoard_put_chunk`, and what is needed for it. -/
def OnlyPuts (a : Act (Fin 1) Nat Nat) : Prop :=
  (∃ conf, a.op = .start conf) ∨ ∃ tag length crypto, a.op = .putChunk tag length crypto

/-- A run with nothing else, in which there is always room. -/
def Storing (s : St (Fin 1) Nat Nat) : Prop :=
  Base.Reach step (fun s a => Room s a ∧ OnlyPuts a) init s

variable {s : St (Fin 1) Nat Nat} {proc : Proc Nat Nat}

theorem Storing.put {offset : Option Int} (h : Storing s) (hp : s.procs 0 = some proc)
    (hroom : Room s ⟨0, .putChunk t 512 1, true⟩)
    (hput : hoardPutChunk ⟨s.chunks, proc.slots⟩ t 512 1 = some (v, offset)) :
    ∃ s' proc', Storing s' ∧ s'.procs 0 = some proc' ∧ s'.chunks = v.chunks ∧
      proc'.slots = v.slots :=
  ⟨_, _, Base.Reach.step h ⟨hroom, .inr ⟨t, 512, 1, rfl⟩⟩ (step_commit hp (transaction_put hput)),
    St.apply_self .., rfl, rfl⟩

theorem expansion_put (hp : s.procs 0 = some proc) (h : Filled t ⟨s.chunks, proc.slots⟩) :
    s.expansion ⟨0, .putChunk t 512 1, true⟩ =
      if (unusedSlot proc.slots).isSome then none
      else some (flushSlotCache ⟨s.chunks, proc.slots⟩) := by
  unfold St.expansion
  rw [hp]
  exact if_neg h.new

theorem Storing.fill (k : Nat) : ∀ {s : St (Fin 1) Nat Nat} {proc : Proc Nat Nat} {t : Nat},
    Storing s → s.procs 0 = some proc → Filled t ⟨s.chunks, proc.slots⟩ →
    proc.slots.countP (·.tag = none) ≤ k →
    ∃ s' proc' t', Storing s' ∧ s'.procs 0 = some proc' ∧ Filled t' ⟨s'.chunks, proc'.slots⟩ ∧
      unusedSlot proc'.slots = none ∧ s'.chunks = s.chunks := by
  induction k with
  | zero =>
    intro s proc t h hp hfilled hcount
    refine ⟨s, proc, t, h, hp, hfilled, ?_, rfl⟩
    cases hun : unusedSlot proc.slots with
    | none => rfl
    | some o =>
      have hless := unused_fill (v := ⟨s.chunks, proc.slots⟩) hun t
      exact absurd (lt_of_lt_of_le hless hcount) (Nat.not_lt_zero _)
  | succ k ih =>
    intro s proc t h hp hfilled hcount
    cases hun : unusedSlot proc.slots with
    | none => exact ⟨s, proc, t, h, hp, hfilled, hun, rfl⟩
    | some o =>
      have hroom : Room s ⟨0, .putChunk t 512 1, true⟩ := by
        intro w hw
        rw [expansion_put hp hfilled, hun] at hw
        cases hw
      have halloc : allocateSlot ⟨s.chunks, proc.slots⟩ = some (⟨s.chunks, proc.slots⟩, o) := by
        unfold allocateSlot
        rw [hun]
      obtain ⟨s', proc', hr, hp', hchunks, hslots⟩ :=
        h.put hp hroom (hoardPutChunk_of_allocate hfilled halloc)
      have hless := unused_fill (v := ⟨s.chunks, proc.slots⟩) hun t
      have hfilled' := hfilled.fill o
      obtain ⟨s₂, proc₂, t₂, hr₂, hp₂, hfilled₂, hnone, heq⟩ := ih hr hp' (by
        rw [hchunks, hslots]
        exact hfilled') (by
        rw [hslots]
        exact Nat.le_of_lt_succ (lt_of_lt_of_le hless hcount))
      exact ⟨s₂, proc₂, t₂, hr₂, hp₂, hfilled₂, hnone, heq.trans hchunks⟩

theorem storing_full (k : Nat) (hk : 256 * k ≤ 2 ^ 23) : ∃ s proc t, Storing s ∧
    s.procs 0 = some proc ∧ Filled t ⟨s.chunks, proc.slots⟩ ∧ unusedSlot proc.slots = none ∧
    s.chunks.length = 256 * k := by
  induction k with
  | zero =>
    have hstart : Storing (init.setProc 0 (some { slots := [], conf := none, ident := none })) := by
      refine .step .init (a := ⟨0, .start none, true⟩) ⟨nofun, .inl ⟨none, rfl⟩⟩ (step_start rfl)
    refine ⟨_, _, 0, hstart, St.setProc_self .., ⟨nofun, nofun, nofun, List.Pairwise.nil⟩, rfl, rfl⟩
  | succ k ih =>
    obtain ⟨s, proc, t, h, hp, hfilled, hnone, hlength⟩ := ih (by omega)
    have hoffsets := chunkOffsets_flushSlotCache ⟨s.chunks, proc.slots⟩
    have hinv := offsetsInv_reach (Base.Reach.mono (fun _ _ hc => hc.1) h)
    have hlen : (flushSlotCache ⟨s.chunks, proc.slots⟩).chunks.length = s.chunks.length :=
      length_of_offsets hoffsets
    obtain ⟨w, hexp, hw, hwlen, hun⟩ := expandSlotCache_filled rfl (hfilled.flush hnone)
      (hinv.dense.of_offsets hoffsets) (by rw [hlen]; omega)
    obtain ⟨o, ho⟩ := Option.isSome_iff_exists.mp hun
    have hroom : Room s ⟨0, .putChunk t 512 1, true⟩ := by
      intro w' hw'
      rw [expansion_put hp hfilled, hnone] at hw'
      cases hw'
      refine .inr ?_
      have : needed (flushSlotCache ⟨s.chunks, proc.slots⟩) ≤ 256 := Nat.sub_le ..
      omega
    obtain ⟨s', proc', hr, hp', hchunks, hslots⟩ := h.put hp hroom
      (hoardPutChunk_of_allocate hfilled (allocateSlot_expand hnone hexp ho))
    have hfilled' := hw.fill o
    obtain ⟨s₂, proc₂, t₂, hr₂, hp₂, hfilled₂, hnone₂, heq⟩ := Storing.fill _ hr hp' (by
      rw [hchunks, hslots]
      exact hfilled') (le_refl _)
    refine ⟨s₂, proc₂, t₂, hr₂, hp₂, hfilled₂, hnone₂, ?_⟩
    rw [heq, hchunks]
    change w.chunks.length = _
    omega

end full

/-- In every run in which there was room for the slots that were added, no offset wraps around in
the next step exactly if there is room again and fewer than 2^23 slots hold a chunk. -/
theorem slot_offsets_iff [DecidableEq P] [Fintype P] [DecidableEq T] [DecidableEq U]
    {s : St P T U} (hr : Base.Reach step Room (init : St P T U) s) :
    NoWrap s ↔ (∀ a, Room s a) ∧ (tagged s.chunks).length < 2 ^ 23 := by
  have h := offsetsInv_reach hr
  refine and_congr ?_ countMovesTarget_eq_iff
  refine forall_congr' fun a => forall_congr' fun v => imp_congr_right fun hexp => ?_
  have hoffsets := St.expansion_eq_some hexp
  have hlength := length_of_offsets hoffsets
  have hgrows := grows_iff (h.dense.of_offsets hoffsets) (hlength ▸ h.length_le)
  rw [hlength, hoffsets] at hgrows
  exact hgrows

/-- With 256 slots nothing wraps around. -/
theorem slot_offsets_first : ∃ s : St (Fin 1) Nat Nat,
    Base.Reach step Room init s ∧ s.chunks.length = 256 ∧ NoWrap s := by
  obtain ⟨s, proc, t, h, -, -, -, hlength⟩ := storing_full 1 (by decide)
  have hr : Base.Reach step Room init s := Base.Reach.mono (fun _ _ hc => hc.1) h
  refine ⟨s, hr, hlength, (slot_offsets_iff hr).mpr ⟨fun a v _ => .inr ?_, ?_⟩⟩
  · have hneeded : needed v ≤ 256 := Nat.sub_le ..
    omega
  · have htagged : (tagged s.chunks).length ≤ s.chunks.length := length_filter_le ..
    omega

/-- A process that has stored 2^23 chunks of its own finds no room for the next one: the first
offset that `expand_slot_cache` adds is -2^31. -/
theorem slot_offsets_wrap : ∃ s : St (Fin 1) Nat Nat,
    Base.Reach step (fun _ a => OnlyPuts a) init s ∧ s.chunks.length = 2 ^ 23 ∧
    (∃ a v, s.expansion a = some v ∧ -2 ^ 31 ∈ addedOffsets v) ∧ ¬NoWrap s := by
  obtain ⟨s, proc, t, h, hp, hfilled, hnone, hlength⟩ := storing_full (2 ^ 15) (by decide)
  have hinv := offsetsInv_reach (Base.Reach.mono (fun _ _ hc => hc.1) h)
  have hoffsets := chunkOffsets_flushSlotCache ⟨s.chunks, proc.slots⟩
  have hlen : (flushSlotCache ⟨s.chunks, proc.slots⟩).chunks.length = s.chunks.length :=
    length_of_offsets hoffsets
  have hexpansion : s.expansion ⟨0, .putChunk t 512 1, true⟩ =
      some (flushSlotCache ⟨s.chunks, proc.slots⟩) := by
    rw [expansion_put hp hfilled, hnone]
    rfl
  have hneeded : needed (flushSlotCache ⟨s.chunks, proc.slots⟩) = 256 := by
    unfold needed
    rw [reclaimSlots_none rfl fun c hc => (hfilled.flush hnone c hc).1]
    rfl
  have hwrap := wrap_mem_addedOffsets (hinv.dense.of_offsets hoffsets)
    (hlen ▸ hinv.length_le) (by rw [hlen, hneeded]; omega)
  refine ⟨s, Base.Reach.mono (fun _ _ hc => hc.2) h, hlength, ⟨_, _, hexpansion, hwrap⟩, ?_⟩
  intro hno
  obtain ⟨hneg, -⟩ := (hno.1 _ _ hexpansion).slots _ hwrap
  exact absurd hneg (by decide)

end OpenIsr.Hoard
