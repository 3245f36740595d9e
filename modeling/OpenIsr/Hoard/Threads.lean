import OpenIsr.Hoard.Lookup
import OpenIsr.Hoard.System
import OpenIsr.Hoard.Slots

/-!
# Threads that look up chunks

The threads of a process call `hoard_get_chunk` and `hoard_put_chunk` at the same time, while other
processes work on the hoard cache. A lookup, a read of the hoard file and an invalidation are steps
of their own, and whatever is a transaction may come between them. A read may fail for any reason.

`_hoard_invalidate_chunk` looks whether the row still has the tag. `_hoard_invalidate_slot_chunk`
does not, as there is no contention for the slot cache. But there is, between the threads of one
process: two of them fail to read the same slot, the first one invalidates it, a third one puts
another chunk there, and the second one throws this away (`invalidation_hits_other`).
`invalidation_spares` says that it takes such a `hoard_put_chunk`, or an offset that does not fit an
`int`.
-/

namespace OpenIsr.Hoard

open List Function Option
open Base (updateWhere wrapInt mem_updateWhere mem_updateWhere_of_not map_updateWhere)

/-- Where a thread is in `hoard_get_chunk`. -/
inductive ThreadPc
  | idle
  | looking (tag : Tag)
  /-- After the lookup. -/
  | found (tag : Tag) (e : Entry)
  /-- After a read that has failed. -/
  | failed (tag : Tag) (e : Entry)
  deriving DecidableEq, Repr

/-- The system, and the threads `Θ` of one of its processes. -/
structure Threads (P U Θ : Type) where
  sys : St P Tag U
  pc : Θ → ThreadPc

/-- What happens next. -/
inductive ThreadAct (P U Θ : Type)
  /-- A step of the system; `hoard_put_chunk` is one. -/
  | sys (a : Act P Tag U)
  | call (θ : Θ) (tag : Tag)
  | lookup (θ : Θ) (fails : Bool)
  | read (θ : Θ) (fails : Bool)
  | invalidate (θ : Θ) (commit : Bool)

variable {P U Θ : Type} {s : St P Tag U} {proc : Proc Tag U} {other : Tag}

/-- A process that starts has no threads in `hoard_get_chunk`, nor does one that has ended. -/
def Op.starts : Op Tag U → Bool
  | .start _ | .cleanup _ | .die => true
  | _ => false

/-- The transaction with which a thread invalidates what it could not read. -/
def Entry.invalidation (e : Entry) (tag : Tag) : Op Tag U :=
  if e.slotCache then .invalidateSlotChunk (wrapInt e.offset)
  else .invalidateChunk (wrapInt e.offset) tag

variable [DecidableEq P] [Fintype P] [DecidableEq U] [DecidableEq Θ]

/-- One step, if the threads are those of `p`. -/
def threadStep (p : P) (g : Threads P U Θ) : ThreadAct P U Θ → Option (Threads P U Θ)
  | .sys a =>
    (step g.sys a).map fun s =>
      { sys := s, pc := if a.proc = p ∧ a.op.starts then fun _ => .idle else g.pc }
  | .call θ tag =>
    match g.pc θ with
    | .idle => some { g with pc := update g.pc θ (.looking tag) }
    | _ => none
  | .lookup θ fails =>
    match g.pc θ, g.sys.procs p with
    | .looking tag, some proc =>
      let next :=
        if fails then .idle
        else
          match findEntry ⟨g.sys.chunks, proc.slots⟩ tag with
          | none => .idle
          | some e => .found tag e
      some { g with pc := update g.pc θ next }
    | _, _ => none
  | .read θ fails =>
    match g.pc θ with
    | .found tag e =>
      some { g with pc := update g.pc θ (if fails then .failed tag e else .idle) }
    | _ => none
  | .invalidate θ commit =>
    match g.pc θ with
    | .failed tag e =>
      (step g.sys ⟨p, e.invalidation tag, commit⟩).map fun s =>
        { sys := s, pc := update g.pc θ (.looking tag) }
    | _ => none

/-! ## The schema -/

/-- Offsets are unique in each table. -/
structure Schema (s : St P Tag U) : Prop where
  chunks : (chunkOffsets s.chunks).Nodup
  slots : ∀ p proc, s.procs p = some proc → (slotOffsets proc.slots).Nodup

section schema

variable {T : Type} {chunks : List (Chunk T)} {slots : List (Slot T)}

theorem slotOffsets_update {p : Slot T → Bool} {f : Slot T → Slot T}
    (hkey : ∀ x, (f x).offset = x.offset) :
    slotOffsets (updateWhere slots p f) = slotOffsets slots := map_updateWhere hkey

/-- Both tables of a view. -/
structure View.Nodup (v : View T) : Prop where
  chunks : (chunkOffsets v.chunks).Nodup
  slots : (slotOffsets v.slots).Nodup

variable {v : View T}

theorem View.Nodup.reclaimSlots (h : v.Nodup) : (reclaimSlots v).1.Nodup := by
  simp only [Hoard.reclaimSlots]
  generalize hf : (((chunkOffsets (v.chunks.filter (·.allocated = 0))).insertionSort
    (· ≤ ·)).take expandChunks).filter (· ∉ slotOffsets v.slots) = found
  obtain ⟨hnd, hfound⟩ := reclaimed_nodup h.chunks (slotOffsets v.slots) hf.symm
  refine ⟨?_, ?_⟩
  · rw [chunkOffsets_update (f := Chunk.setAllocated 1) fun _ => rfl]
    exact h.chunks
  · rw [slotOffsets_new]
    refine nodup_append.mpr ⟨h.slots, hnd, fun o ho o' ho' heq => ?_⟩
    subst heq
    exact (hfound o ho').1 ho

variable {v' : View T}

theorem View.Nodup.addSlots {needed : Nat} (h : v.Nodup) (hadd : addSlots v needed = some v') :
    v'.Nodup := by
  simp only [Hoard.addSlots] at hadd
  split at hadd
  next hnd =>
    cases hadd
    refine ⟨?_, ?_⟩
    · rw [chunkOffsets_new, slotOffsets_new]
      refine nodup_append.mpr ⟨h.chunks, hnd.filter _, fun o ho o' ho' heq => ?_⟩
      subst heq
      exact of_decide_eq_true (mem_filter.mp ho').2 ho
    · rw [slotOffsets_new]
      exact hnd
  next => cases hadd

theorem View.Nodup.expandSlotCache (h : v.Nodup) (hexp : expandSlotCache v = some v') :
    v'.Nodup := by
  have hfirst := h.reclaimSlots
  unfold Hoard.expandSlotCache at hexp
  generalize Hoard.reclaimSlots v = r at hexp hfirst
  obtain ⟨w, count⟩ := r
  simp only at hexp hfirst
  split at hexp
  next =>
    cases hexp
    exact hfirst
  next => exact hfirst.addSlots hexp

theorem mem_slots_new {os : List Int} {slot : Slot T} (h : slot ∈ slots ++ os.map Slot.new) :
    slot ∈ slots ∨ slot.tag = none := by
  refine (mem_append.mp h).imp_right fun hnew => ?_
  obtain ⟨o, -, rfl⟩ := mem_map.mp hnew
  rfl

theorem mem_slots_expandSlotCache (hexp : expandSlotCache v = some v') {slot : Slot T}
    (hslot : slot ∈ v'.slots) : slot ∈ v.slots ∨ slot.tag = none := by
  unfold expandSlotCache at hexp
  dsimp only at hexp
  split at hexp
  next =>
    cases hexp
    exact mem_slots_new hslot
  next =>
    unfold addSlots at hexp
    dsimp only at hexp
    split at hexp
    next =>
      cases hexp
      rcases mem_slots_new hslot with hfirst | hnone
      · exact mem_slots_new hfirst
      · exact .inr hnone
    next => cases hexp

variable [DecidableEq T]

theorem View.Nodup.flushSlotCache (h : v.Nodup) : (flushSlotCache v).Nodup :=
  ⟨chunkOffsets_flushSlotCache v ▸ h.chunks, nodup_nil⟩

theorem View.Nodup.allocateSlot {w : View T} {o : Int} (h : v.Nodup)
    (halloc : allocateSlot v = some (w, o)) :
    w.Nodup ∧ ∀ slot ∈ w.slots, slot ∈ v.slots ∨ slot.tag = none := by
  unfold Hoard.allocateSlot at halloc
  split at halloc
  next =>
    cases halloc
    exact ⟨h, fun slot hslot => .inl hslot⟩
  next =>
    split at halloc
    next => cases halloc
    next w' hexp =>
      obtain ⟨o', -, heq⟩ := map_eq_some_iff.mp halloc
      cases heq
      refine ⟨h.flushSlotCache.expandSlotCache hexp, fun slot hslot => ?_⟩
      rcases mem_slots_expandSlotCache hexp hslot with hold | hnone
      · cases hold
      · exact .inr hnone

theorem View.Nodup.hoardPutChunk {w : View T} {tag : T} {length crypto : Int}
    {offset : Option Int} (h : v.Nodup)
    (hput : hoardPutChunk v tag length crypto = some (w, offset)) :
    w.Nodup ∧ ∀ slot ∈ w.slots, slot ∈ v.slots ∨ slot.tag = none ∨
      (slot.tag = some tag ∧ slot.offset ∈ offset.toList) := by
  unfold Hoard.hoardPutChunk at hput
  split at hput
  next =>
    cases hput
    exact ⟨h, fun slot hslot => .inl hslot⟩
  next =>
    obtain ⟨⟨w', o⟩, halloc, heq⟩ := map_eq_some_iff.mp hput
    cases heq
    obtain ⟨hnd, hslots⟩ := h.allocateSlot halloc
    refine ⟨⟨hnd.chunks, ?_⟩, fun slot hslot => ?_⟩
    · rw [slotOffsets_update (f := fun slot => { slot with tag := some tag, length, crypto })
        fun _ => rfl]
      exact hnd.slots
    · obtain ⟨old, hold, ⟨hp, rfl⟩ | ⟨-, rfl⟩⟩ := mem_updateWhere.mp hslot
      · exact .inr (.inr ⟨rfl, mem_singleton.mpr (of_decide_eq_true hp)⟩)
      · exact (hslots slot hold).imp_right .inl

theorem chunkOffsets_hoardInvalidateChunk (chunks : List (Chunk T)) (offset : Int) (tag : T) :
    chunkOffsets (hoardInvalidateChunk chunks offset tag) = chunkOffsets chunks := by
  unfold hoardInvalidateChunk
  split
  next =>
    refine chunkOffsets_update ?_
    exact fun _ => rfl
  next => rfl

end schema

section step

variable {s' : St P Tag U} {a : Act P Tag U} {p : P} {op : Op Tag U} {t : Txn Tag U}

omit [DecidableEq P] [Fintype P] in
theorem Schema.transaction (h : Schema s) (hp : s.procs p = some proc)
    (ht : transaction s proc op = some t) :
    View.Nodup ⟨t.chunks, t.proc.slots⟩ ∧ ∀ slot ∈ t.proc.slots,
      slot ∈ proc.slots ∨ slot.tag = none ∨
        ∃ tag length crypto, op = .putChunk tag length crypto ∧ slot.tag = some tag ∧
          slot.offset ∈ t.writes := by
  have hv : View.Nodup ⟨s.chunks, proc.slots⟩ := ⟨h.chunks, h.slots p proc hp⟩
  cases op with
  | putChunk tag length crypto =>
    obtain ⟨⟨w, offset⟩, hput, rfl⟩ := map_eq_some_iff.mp ht
    obtain ⟨hnd, hslots⟩ := hv.hoardPutChunk hput
    refine ⟨hnd, fun slot hslot => (hslots slot hslot).imp_right (Or.imp_right fun hnew => ?_)⟩
    exact ⟨tag, length, crypto, rfl, hnew⟩
  | flushSlotCache =>
    cases ht
    exact ⟨hv.flushSlotCache, nofun⟩
  | invalidateSlotChunk offset =>
    cases ht
    refine ⟨⟨hv.chunks, ?_⟩, fun slot hslot => ?_⟩
    · have hkeep : slotOffsets (hoardInvalidateSlotChunk proc.slots offset)
          = slotOffsets proc.slots := by
        refine slotOffsets_update ?_
        exact fun _ => rfl
      exact hkeep ▸ hv.slots
    · obtain ⟨old, hold, ⟨-, rfl⟩ | ⟨-, rfl⟩⟩ := mem_updateWhere.mp hslot
      · exact .inr (.inl rfl)
      · exact .inl hold
  | invalidateChunk offset tag =>
    cases ht
    refine ⟨⟨?_, hv.slots⟩, fun slot hslot => .inl hslot⟩
    exact chunkOffsets_hoardInvalidateChunk s.chunks offset tag ▸ hv.chunks
  | gc =>
    cases ht
    have hkeep : chunkOffsets (hoardGc s.chunks s.refs) = chunkOffsets s.chunks := by
      refine chunkOffsets_update ?_
      exact fun _ => rfl
    exact ⟨⟨hkeep ▸ hv.chunks, hv.slots⟩, fun slot hslot => .inl hslot⟩
  | compactIteration =>
    cases ht
    refine ⟨⟨?_, hv.slots⟩, fun slot hslot => .inl hslot⟩
    exact chunkOffsets_compactLoop 16 none s.chunks ▸ hv.chunks
  | truncate =>
    obtain ⟨⟨chunks, offset⟩, htrunc, rfl⟩ := map_eq_some_iff.mp ht
    refine ⟨⟨?_, hv.slots⟩, fun slot hslot => .inl hslot⟩
    unfold compactHoardTruncate at htrunc
    dsimp only at htrunc
    split at htrunc
    next => cases htrunc
    cases htrunc
    exact hv.chunks.sublist (filter_sublist.map _)
  | getParcelIdent pick =>
    simp only [transaction] at ht
    split at ht
    next =>
      obtain ⟨r, -, rfl⟩ := map_eq_some_iff.mp ht
      exact ⟨hv, fun slot hslot => .inl hslot⟩
    next => cases ht
  | syncRefs newChunks keys prevKeys =>
    obtain ⟨ident, -, rfl⟩ := map_eq_some_iff.mp ht
    exact ⟨hv, fun slot hslot => .inl hslot⟩
  | rmhoard uuid =>
    cases ht
    exact ⟨hv, fun slot hslot => .inl hslot⟩
  | start | cleanup | die => cases ht

omit [Fintype P] [DecidableEq U] in
theorem Schema.setProc (h : Schema s) (p : P) {proc : Option (Proc Tag U)}
    (hproc : ∀ q ∈ proc, (slotOffsets q.slots).Nodup) : Schema (s.setProc p proc) := by
  refine ⟨h.chunks, fun q proc' hq => ?_⟩
  by_cases hqp : q = p
  · subst hqp
    rw [St.setProc_self] at hq
    exact hproc proc' hq
  · rw [St.setProc_ne _ _ _ hqp] at hq
    exact h.slots q proc' hq

theorem Schema.step (h : Schema s) (hs : Hoard.step s a = some s') : Schema s' := by
  rcases step_cases hs with ⟨-, conf, -, rfl⟩ | rfl | ⟨-, gc, -, rfl⟩ | ⟨proc, t, hp, ht, rfl⟩ | rfl
  · refine h.setProc _ fun q hq => ?_
    cases hq
    exact nodup_nil
  · exact h.setProc _ nofun
  · have hclean : Schema { s with chunks := cleanChunks s.chunks s.refs gc
                                  parcels := cleanParcels s.parcels s.refs } :=
      ⟨(chunkOffsets_cleanChunks s.chunks s.refs gc).symm ▸ h.chunks, h.slots⟩
    exact hclean.setProc _ nofun
  · obtain ⟨hnd, -⟩ := h.transaction hp ht
    refine ⟨hnd.chunks, fun q proc' hq => ?_⟩
    by_cases hqp : q = a.proc
    · subst hqp
      rw [St.apply_self] at hq
      cases hq
      exact hnd.slots
    · rw [St.apply_ne _ _ hqp] at hq
      exact h.slots q proc' hq
  · exact h

theorem step_abort (hp : s.procs a.proc = some proc) (ht : transaction s proc a.op = some t)
    (hcommit : a.commit = false) : Hoard.step s a = some s := by
  obtain ⟨q, op, commit⟩ := a
  cases op with
  | start | cleanup | die => cases ht
  | _ =>
    subst hcommit
    simp only [Hoard.step, hp, ht, Bool.false_eq_true, if_false]

theorem Schema.slot_cases (h : Schema s) (hs : Hoard.step s a = some s')
    (hp : s'.procs p = some proc) {slot : Slot Tag} (hslot : slot ∈ proc.slots) :
    (∃ old, s.procs p = some old ∧ slot ∈ old.slots) ∨ slot.tag = none ∨
      (a.proc = p ∧ a.commit = true ∧ slot.offset ∈ s.writes a ∧
        ∃ tag length crypto, a.op = .putChunk tag length crypto ∧ slot.tag = some tag) := by
  have hother : ∀ {q : Option (Proc Tag U)} {u : St P Tag U}, u.procs = s.procs → a.proc ≠ p →
      (u.setProc a.proc q).procs p = some proc → s.procs p = some proc := by
    intro q u hu hne h'
    rwa [St.setProc_ne _ _ _ (Ne.symm hne), hu] at h'
  rcases step_cases hs with ⟨-, conf, -, rfl⟩ | rfl | ⟨-, gc, -, rfl⟩ | ⟨old, t, hq, ht, rfl⟩ | rfl
  · by_cases hap : a.proc = p
    · subst hap
      rw [St.setProc_self] at hp
      cases hp
      cases hslot
    · exact .inl ⟨proc, hother rfl hap hp, hslot⟩
  · by_cases hap : a.proc = p
    · subst hap
      rw [St.setProc_self] at hp
      cases hp
    · exact .inl ⟨proc, hother rfl hap hp, hslot⟩
  · by_cases hap : a.proc = p
    · subst hap
      rw [St.setProc_self] at hp
      cases hp
    · exact .inl ⟨proc, hother (q := none) rfl hap hp, hslot⟩
  · by_cases hap : a.proc = p
    · subst hap
      cases hcommit : a.commit with
      | false =>
        rw [some.inj (hs.symm.trans (step_abort hq ht hcommit))] at hp
        exact .inl ⟨proc, hp, hslot⟩
      | true =>
        rw [St.apply_self] at hp
        cases hp
        have hwrites : s.writes a = t.writes := by simp only [St.writes, hq, ht, map_some,
          getD_some]
        rcases (h.transaction hq ht).2 slot hslot with hold | hnone | ⟨tag, l, c, hop, htag, hoff⟩
        · exact .inl ⟨old, hq, hold⟩
        · exact .inr (.inl hnone)
        · exact .inr (.inr ⟨rfl, rfl, hwrites ▸ hoff, tag, l, c, hop, htag⟩)
    · rw [St.apply_ne _ _ (Ne.symm hap)] at hp
      exact .inl ⟨proc, hp, hslot⟩
  · exact .inl ⟨proc, hp, hslot⟩

end step

/-! ## Threads -/

/-- The thread has found the tag in the slot cache, and has not yet read it or has not yet
invalidated it. -/
def ThreadPc.Pending (c : ThreadPc) (tag : Tag) (e : Entry) : Prop :=
  (c = .found tag e ∨ c = .failed tag e) ∧ e.slotCache = true

/-- The condition on the steps: what is found in the slot cache has an offset that fits an `int`,
and no `hoard_put_chunk` that is committed puts another chunk in a slot that some thread is about
to read or to invalidate. -/
def Apart (p : P) (g : Threads P U Θ) : ThreadAct P U Θ → Prop
  | .sys a => a.proc = p → a.commit = true → ∀ tag length crypto,
      a.op = .putChunk tag length crypto → ∀ θ t e, (g.pc θ).Pending t e →
        wrapInt e.offset ∈ g.sys.writes a → t = tag
  | .lookup θ _ => ∀ tag e proc, g.pc θ = .looking tag → g.sys.procs p = some proc →
      findSlot proc.slots tag = some e → e.offset = wrapInt e.offset
  | _ => True

/-- What is invalidated is nothing but the entry with the tag. -/
structure SparesOthers (tag : Tag) (s s' : St P Tag U) : Prop where
  chunks : ∀ c ∈ s.chunks, ∀ other, c.tag = some other → other ≠ tag → c ∈ s'.chunks
  slots : ∀ p proc, s.procs p = some proc → ∃ proc', s'.procs p = some proc' ∧
    ∀ slot ∈ proc.slots, ∀ other, slot.tag = some other → other ≠ tag → slot ∈ proc'.slots

/-- The slot that an invalidation hits has the tag, or none. -/
def Harmless (p : P) (s : St P Tag U) (tag : Tag) (e : Entry) : Prop :=
  ∀ proc, s.procs p = some proc → ∀ slot ∈ proc.slots, slot.offset = wrapInt e.offset →
    slot.tag = some tag ∨ slot.tag = none

/-- This is so for every thread that may come to an invalidation. -/
structure ThreadsInv (p : P) (g : Threads P U Θ) : Prop where
  schema : Schema g.sys
  slot : ∀ θ tag e, (g.pc θ).Pending tag e → Harmless p g.sys tag e

section threads

variable {p : P} {g g' : Threads P U Θ} {a : Act P Tag U} {act : ThreadAct P U Θ} {tag : Tag}
  {e : Entry}

theorem ThreadsInv.sys (h : ThreadsInv p g) (hapart : Apart p g (.sys a))
    (hs : threadStep p g (.sys a) = some g') : ThreadsInv p g' := by
  obtain ⟨s', hstep, rfl⟩ := map_eq_some_iff.mp hs
  refine ⟨h.schema.step hstep, fun θ tag e hpending proc' hproc' slot hslot hoff => ?_⟩
  -- no thread is anywhere after the process has started or ended
  have hpc : (g.pc θ).Pending tag e := by
    dsimp only at hpending
    split at hpending
    next => exact absurd hpending.1 (by simp)
    next => exact hpending
  rcases h.schema.slot_cases hstep hproc' hslot with
    ⟨old, hold, hmem⟩ | hnone | ⟨hap, hcommit, hwrites, t, l, c, hop, htag⟩
  · exact h.slot θ tag e hpc old hold slot hmem hoff
  · exact .inr hnone
  · obtain rfl := hapart hap hcommit t l c hop θ tag e hpc (hoff ▸ hwrites)
    exact .inl htag

omit [DecidableEq P] [Fintype P] [DecidableEq U] in
theorem ThreadsInv.move (h : ThreadsInv p g) (θ : Θ) {c : ThreadPc}
    (hc : ∀ tag e, c.Pending tag e → Harmless p g.sys tag e) :
    ThreadsInv p { g with pc := update g.pc θ c } := by
  refine ⟨h.schema, fun θ' tag e hpending => ?_⟩
  dsimp only at hpending
  by_cases hθ : θ' = θ
  · subst hθ
    rw [update_self] at hpending
    exact hc tag e hpending
  · rw [update_of_ne hθ] at hpending
    exact h.slot θ' tag e hpending

omit [DecidableEq P] [Fintype P] [DecidableEq U] [DecidableEq Θ] in
theorem harmless_of_found (h : Schema g.sys) (hp : g.sys.procs p = some proc)
    (he : findSlot proc.slots tag = some e) (hfits : e.offset = wrapInt e.offset) :
    Harmless p g.sys tag e := by
  intro proc' hp' slot hslot hoff
  cases hp.symm.trans hp'
  obtain ⟨found, hfound, rfl⟩ := map_eq_some_iff.mp he
  have htag : found.tag = some tag := by simpa using find?_some hfound
  obtain rfl := Base.eq_of_key (h.slots p proc hp) hslot (mem_of_find?_eq_some hfound)
    (hoff.trans hfits.symm)
  exact .inl htag

theorem findEntry_slotCache {v : View Tag} (he : findEntry v tag = some e)
    (hcache : e.slotCache = true) : findSlot v.slots tag = some e := by
  unfold findEntry at he
  cases hslot : findSlot v.slots tag with
  | some e' =>
    rw [hslot, some_or] at he
    exact he
  | none =>
    rw [hslot, none_or] at he
    obtain ⟨c, -, rfl⟩ := map_eq_some_iff.mp he
    cases hcache

theorem ThreadsInv.step (h : ThreadsInv p g) (hapart : Apart p g act)
    (hs : threadStep p g act = some g') : ThreadsInv p g' := by
  cases act with
  | sys a => exact h.sys hapart hs
  | call θ tag =>
    simp only [threadStep] at hs
    split at hs
    next =>
      cases hs
      exact h.move θ fun tag e hpending => absurd hpending.1 (by simp)
    next => cases hs
  | lookup θ fails =>
    simp only [threadStep] at hs
    split at hs
    next tag proc hpc hp =>
      cases hs
      refine h.move θ fun tag' e hpending => ?_
      split at hpending
      next => exact absurd hpending.1 (by simp)
      split at hpending
      next => exact absurd hpending.1 (by simp)
      next e' he =>
        obtain ⟨heq, hcache⟩ := hpending
        obtain ⟨rfl, rfl⟩ : tag = tag' ∧ e' = e := by simpa using heq
        have hslot := findEntry_slotCache he hcache
        exact harmless_of_found h.schema hp hslot (hapart tag e' proc hpc hp hslot)
    next => cases hs
  | read θ fails =>
    simp only [threadStep] at hs
    split at hs
    next tag e hpc =>
      cases hs
      refine h.move θ fun tag' e' hpending => h.slot θ tag' e' ?_
      split at hpending
      next =>
        obtain ⟨heq, hcache⟩ := hpending
        obtain ⟨rfl, rfl⟩ : tag = tag' ∧ e = e' := by simpa using heq
        exact ⟨.inl hpc, hcache⟩
      next => exact absurd hpending.1 (by simp)
    next => cases hs
  | invalidate θ commit =>
    simp only [threadStep] at hs
    split at hs
    next tag e hpc =>
      obtain ⟨s', hstep, rfl⟩ := map_eq_some_iff.mp hs
      -- the transaction is a step of the system that is no `hoard_put_chunk`
      have hsys : ThreadsInv p ⟨s', g.pc⟩ := by
        refine h.sys (a := ⟨p, e.invalidation tag, commit⟩) ?_ ?_
        · intro _ _ t l c hop
          unfold Entry.invalidation at hop
          split at hop <;> cases hop
        · have hstarts : (e.invalidation tag : Op Tag U).starts = false := by
            unfold Entry.invalidation
            split <;> rfl
          simp only [threadStep, hstep, map_some, hstarts, Bool.false_eq_true, and_false,
            if_false]
      exact hsys.move θ fun tag e hpending => absurd hpending.1 (by simp)
    next => cases hs

theorem threadsInv_reach {g₀ : Threads P U Θ} (h₀ : Schema g₀.sys) (hidle : ∀ θ, g₀.pc θ = .idle)
    (hr : Base.Reach (threadStep p) (Apart p) g₀ g) : ThreadsInv p g := by
  refine hr.inv ⟨h₀, fun θ tag e hpending => ?_⟩ fun g act g' h hapart hs => h.step hapart hs
  rw [hidle θ] at hpending
  exact absurd hpending.1 (by simp)

/-! ## The invalidation -/

theorem mem_hoardInvalidateChunk {chunks : List (Chunk Tag)} (h : (chunkOffsets chunks).Nodup)
    {c : Chunk Tag} (hc : c ∈ chunks) (htag : c.tag = some other) (hne : other ≠ tag)
    (offset : Int) : c ∈ hoardInvalidateChunk chunks offset tag := by
  unfold hoardInvalidateChunk
  split
  next hguard =>
    obtain ⟨d, hd, hoff, hdtag⟩ := hguard
    refine mem_updateWhere_of_not hc (decide_eq_false fun hco => hne ?_)
    obtain rfl := Base.eq_of_key h hc hd (hco.trans hoff.symm)
    exact some.inj (htag.symm.trans hdtag)
  next => exact hc

omit [DecidableEq P] [Fintype P] [DecidableEq U] in
theorem mem_hoardInvalidateSlotChunk (h : Harmless p s tag e) (hp : s.procs p = some proc)
    {slot : Slot Tag} (hslot : slot ∈ proc.slots) (htag : slot.tag = some other)
    (hne : other ≠ tag) : slot ∈ hoardInvalidateSlotChunk proc.slots (wrapInt e.offset) := by
  refine mem_updateWhere_of_not hslot (decide_eq_false fun hoff => ?_)
  rcases h proc hp slot hslot hoff with hsame | hnone
  · exact hne (some.inj (htag.symm.trans hsame))
  · cases hnone.symm.trans htag

omit [DecidableEq P] [Fintype P] [DecidableEq U] in
theorem SparesOthers.refl (tag : Tag) (s : St P Tag U) : SparesOthers tag s s :=
  ⟨fun _ hc _ _ _ => hc, fun _ proc hp => ⟨proc, hp, fun _ hslot _ _ _ => hslot⟩⟩

omit [Fintype P] [DecidableEq U] in
theorem SparesOthers.apply {t : Txn Tag U} (hp : s.procs p = some proc)
    (hchunks : ∀ c ∈ s.chunks, ∀ other, c.tag = some other → other ≠ tag → c ∈ t.chunks)
    (hslots : ∀ slot ∈ proc.slots, ∀ other, slot.tag = some other → other ≠ tag →
      slot ∈ t.proc.slots) : SparesOthers tag s (s.apply p t) := by
  refine ⟨hchunks, fun q proc' hq => ?_⟩
  by_cases hqp : q = p
  · subst hqp
    cases hp.symm.trans hq
    exact ⟨t.proc, St.apply_self .., hslots⟩
  · exact ⟨proc', (St.apply_ne s t hqp).trans hq, fun _ hslot _ _ _ => hslot⟩

theorem sparesOthers_step {s' : St P Tag U} {commit : Bool} (hschema : Schema s)
    (hharmless : e.slotCache = true → Harmless p s tag e)
    (hs : Hoard.step s ⟨p, e.invalidation tag, commit⟩ = some s') : SparesOthers tag s s' := by
  cases hp : s.procs p with
  | none =>
    unfold Entry.invalidation at hs
    split at hs <;> simp [Hoard.step, hp] at hs
  | some proc =>
    have htxn : ∃ t, transaction s proc (e.invalidation tag) = some t ∧
        SparesOthers tag s (s.apply p t) := by
      cases hcache : e.slotCache with
      | true =>
        rw [Entry.invalidation, hcache, if_pos rfl]
        refine ⟨_, rfl, .apply hp (fun _ hc _ _ _ => hc) fun slot hslot other htag hne => ?_⟩
        exact mem_hoardInvalidateSlotChunk (hharmless hcache) hp hslot htag hne
      | false =>
        rw [Entry.invalidation, hcache, if_neg Bool.false_ne_true]
        refine ⟨_, rfl, .apply hp (fun c hc other htag hne => ?_) fun _ hslot _ _ _ => hslot⟩
        exact mem_hoardInvalidateChunk hschema.chunks hc htag hne _
    obtain ⟨t, ht, hspares⟩ := htxn
    cases commit with
    | true =>
      cases (step_commit hp ht).symm.trans hs
      exact hspares
    | false =>
      have habort := step_abort (a := ⟨p, e.invalidation tag, false⟩) hp ht rfl
      cases habort.symm.trans hs
      exact .refl tag s

/-- In every run that keeps apart what it puts and what it invalidates, an invalidation on behalf
of a tag clears no entry with another one. -/
theorem invalidation_spares {P U Θ : Type} [DecidableEq P] [Fintype P] [DecidableEq U]
    [DecidableEq Θ] (p : P) (g₀ g g' : Threads P U Θ) (h₀ : Schema g₀.sys)
    (hidle : ∀ θ, g₀.pc θ = .idle) (hr : Base.Reach (threadStep p) (Apart p) g₀ g) (θ : Θ)
    (tag : Tag) (e : Entry) (commit : Bool) (hfailed : g.pc θ = .failed tag e)
    (hs : threadStep p g (.invalidate θ commit) = some g') : SparesOthers tag g.sys g'.sys := by
  have hinv := threadsInv_reach h₀ hidle hr
  simp only [threadStep, hfailed] at hs
  obtain ⟨s', hstep, rfl⟩ := map_eq_some_iff.mp hs
  exact sparesOthers_step hinv.schema
    (fun hcache => hinv.slot θ tag e ⟨.inr hfailed, hcache⟩) hstep

end threads

/-! ## Two threads -/

/-- One process with one slot, which holds `lostTag`. -/
def oneSlot : Threads Unit Nat (Fin 2) where
  sys :=
    { chunks := [Chunk.new 0]
      parcels := []
      refs := []
      procs := fun _ => some { slots := lostView.slots, conf := none, ident := none } }
  pc := fun _ => .idle

theorem schema_oneSlot : Schema oneSlot.sys := by
  refine ⟨by decide, fun p proc hp => ?_⟩
  cases hp
  decide

/-- What the threads find. -/
def lostEntry : Entry := { slotCache := true, offset := 0, length := 1 }

/-- Only the first thread looks up the tag. -/
theorem invalidation_spares_one : ∃ g g' : Threads Unit Nat (Fin 2),
    g.pc 0 = .failed lostTag lostEntry ∧
      threadStep () g (.invalidate 0 true) = some g' ∧ SparesOthers lostTag g.sys g'.sys := by
  let g : Threads Unit Nat (Fin 2) :=
    { oneSlot with pc := update (update (update oneSlot.pc 0
        (.looking lostTag)) 0 (.found lostTag lostEntry)) 0 (.failed lostTag lostEntry) }
  have hr : Base.Reach (threadStep ()) (Apart ()) oneSlot g := by
    refine .step (a := .read 0 true) (.step (a := .lookup 0 false) (.step (a := .call 0 lostTag)
      .init trivial rfl) ?_ rfl) trivial rfl
    intro tag e proc hpc hp he
    obtain rfl : lostTag = tag := ThreadPc.looking.inj hpc
    cases hp
    obtain rfl : lostEntry = e := some.inj he
    rfl
  obtain ⟨g', hs⟩ : ∃ g', threadStep () g (.invalidate 0 true) = some g' := ⟨_, rfl⟩
  exact ⟨g, g', rfl, hs, invalidation_spares () oneSlot g g' schema_oneSlot (fun _ => rfl) hr 0
    lostTag lostEntry true rfl hs⟩

/-- Another tag. -/
def otherTag : Tag := replicate 20 8

/-- The first of two threads. -/
def threadA : Fin 2 := ⟨0, Nat.two_pos⟩

/-- The second one. -/
def threadB : Fin 2 := ⟨1, Nat.one_lt_two⟩

/-- Both threads fail to read the slot, the first one invalidates it, and then somebody puts another
chunk there. -/
def reuse : List (ThreadAct Unit Nat (Fin 2)) :=
  [.call threadA lostTag, .call threadB lostTag, .lookup threadA false, .lookup threadB false,
    .read threadA true, .read threadB true, .invalidate threadA true,
    .sys ⟨(), .putChunk otherTag 1 2, true⟩]

/-- The second thread has yet to invalidate the slot. -/
def reused (g : Threads Unit Nat (Fin 2)) : Bool :=
  g.pc threadB = .failed lostTag lostEntry ∧
    (g.sys.procs ()).map (·.slots) = some [⟨some otherTag, 0, 1, 2⟩]

theorem invalidation_hits_other : Schema oneSlot.sys ∧ (∀ θ, oneSlot.pc θ = .idle) ∧
    ∃ g g' : Threads Unit Nat (Fin 2), Base.Reach (threadStep ()) (fun _ _ => True) oneSlot g ∧
      g.pc 1 = .failed lostTag lostEntry ∧ threadStep () g (.invalidate 1 true) = some g' ∧
      ¬ SparesOthers lostTag g.sys g'.sys := by
  have hrun : (Base.exec (threadStep ()) (fun _ _ => true) oneSlot reuse).any reused = true := by
    decide
  have hreach : ∃ g, Base.Reach (threadStep ()) (fun _ _ => True) oneSlot g ∧ reused g = true :=
    Base.reach_of_exec_any (fun _ _ _ => trivial) reuse hrun
  obtain ⟨g, hr, htest⟩ := hreach
  obtain ⟨(hpc : g.pc 1 = .failed lostTag lostEntry), hslots⟩ := of_decide_eq_true htest
  obtain ⟨proc, hp, hproc⟩ := map_eq_some_iff.mp hslots
  let t : Txn Tag Nat := { g.sys.txn proc with
    proc := { proc with slots := hoardInvalidateSlotChunk proc.slots 0 } }
  have ht : transaction g.sys proc (lostEntry.invalidation lostTag) = some t := rfl
  refine ⟨schema_oneSlot, fun _ => rfl, g,
    ⟨g.sys.apply () t, update g.pc 1 (.looking lostTag)⟩, hr, hpc, ?_, fun hspares => ?_⟩
  · simp only [threadStep, hpc, step_commit hp ht, map_some]
  · obtain ⟨proc', hp', hkept⟩ := hspares.slots () proc hp
    rw [St.apply_self] at hp'
    cases hp'
    have hmem : (⟨some otherTag, 0, 1, 2⟩ : Slot Tag) ∈ proc.slots := by
      rw [hproc]
      exact mem_singleton_self _
    have hgone : _ ∈ hoardInvalidateSlotChunk proc.slots 0 :=
      hkept _ hmem otherTag rfl (by decide)
    rw [hproc] at hgone
    exact absurd hgone (by decide)

end OpenIsr.Hoard
