import OpenIsr.Hoard.Slots

/-!
# Slots have one owner

`SlotsInv` is the invariant of the processes that share a hoard cache: what is in a slot cache is
reserved, and in no other one. A transaction of a process keeps it for the others, since their slots
are reserved and not its own. Only `hoard_try_cleanup` frees slots that are somebody else's. It has
the write lock then, so the somebody is not live any more.
-/

namespace OpenIsr.Hoard

open List Option

variable {P T U : Type} {p q : P} {o : Int} {own : List Int} {t : Txn T U} {needed : Nat}
  {v : View T}

/-- The process is live, and has the offset in its slot cache. -/
def St.Has (s : St P T U) (p : P) (o : Int) : Prop :=
  ∃ proc, s.procs p = some proc ∧ o ∈ slotOffsets proc.slots

/-- The conditions a slot can be in. -/
inductive Condition
  | free
  | holding
  | reserved
  deriving DecidableEq, Repr

/-- The row is in this condition, and in the slot caches that go with it. -/
def St.InCondition (s : St P T U) (c : Chunk T) : Condition → Prop
  | .free => c.Free ∧ ∀ p, ¬ s.Has p c.offset
  | .holding => c.Holding ∧ ∀ p, ¬ s.Has p c.offset
  | .reserved => c.Reserved ∧ ∀ p q, s.Has p c.offset → s.Has q c.offset → p = q

/-- The invariant of the slots. -/
structure SlotsInv (s : St P T U) : Prop where
  table : TableOk s.chunks
  range : InRange s.chunks
  owns : ∀ p proc, s.procs p = some proc → Owns s.chunks (slotOffsets proc.slots)
  excl : ∀ p q o, s.Has p o → s.Has q o → p = q

section invariant

variable {s s' : St P T U} {a : Act P T U} {proc : Proc T U}
  {chunks chunks' : List (Chunk T)} {writes : List Int}

theorem slotsInv_init : SlotsInv (init : St P T U) :=
  ⟨⟨nodup_nil, nofun⟩, nofun, nofun, fun _ _ _ ⟨_, h, _⟩ => nomatch h⟩

/-- What a transaction computes has not wrapped around: every offset in the table it leaves, or
would leave, is below 2^31. -/
def Fits [DecidableEq T] [DecidableEq U] (s : St P T U) (a : Act P T U) : Prop :=
  ∀ proc t, s.procs a.proc = some proc → transaction s proc a.op = some t → InRange t.chunks

/-- What a transaction of a process with the slots `own` does to the slots of all: its own are its
own, or were free, and the rows that others have reserved stay. It writes to slots that hold no
chunk and that nobody else has reserved. -/
structure Fair (chunks : List (Chunk T)) (own : List Int) (chunks' : List (Chunk T))
    (own' : List Int) (writes : List Int) : Prop where
  owns : Owns chunks' own'
  reserved : ∀ c ∈ chunks, c.Reserved → c.offset ∉ own → c ∈ chunks'
  new : ∀ o ∈ own', o ∈ own ∨ ∀ c ∈ chunks, c.offset = o → c.Free
  writes : ∀ o ∈ writes, o ∈ own ∨ ∀ c ∈ chunks, c.offset = o → c.Free

theorem Takes.fair {own' : List Int} (h : Takes chunks own chunks' own')
    (hw : ∀ o ∈ writes, o ∈ own') : Fair chunks own chunks' own' writes :=
  ⟨h.owns, fun c hc hr ho => h.kept c hc hr.not_free ho, h.new, fun o ho => h.new o (hw o ho)⟩

theorem Spares.fair (h : Spares chunks chunks') (hown : Owns chunks own)
    (hw : ∀ o ∈ writes, ∀ c ∈ chunks, c.offset = o → c.Free) :
    Fair chunks own chunks' own writes := by
  refine ⟨⟨h.table, hown.nodup, fun o ho => ?_⟩, fun c hc hr _ => h.reserved c hc hr,
    fun o ho => .inl ho, fun o ho => .inr (hw o ho)⟩
  obtain ⟨c, hc, hco, hr⟩ := hown.reserved o ho
  exact ⟨c, h.reserved c hc hr, hco, hr⟩

section

variable (h : SlotsInv s) (hp : s.procs p = some proc)
include h hp

theorem SlotsInv.fair [DecidableEq T] [DecidableEq U] {op : Op T U}
    (ht : transaction s proc op = some t) (hrange : InRange t.chunks) :
    Fair s.chunks (slotOffsets proc.slots) t.chunks (slotOffsets t.proc.slots) t.writes := by
  have hown := h.owns p proc hp
  have same : ∀ {chunks : List (Chunk T)}, Spares s.chunks chunks →
      Fair s.chunks (slotOffsets proc.slots) chunks (slotOffsets proc.slots) [] :=
    fun hs => hs.fair hown (forall_mem_nil _)
  cases op with
  | getParcelIdent pick =>
    simp only [transaction] at ht
    split at ht
    next =>
      obtain ⟨r, -, rfl⟩ := map_eq_some_iff.mp ht
      exact same (.refl h.table)
    next => cases ht
  | putChunk tag length crypto =>
    obtain ⟨⟨v, offset⟩, hput, rfl⟩ := map_eq_some_iff.mp ht
    obtain ⟨htakes, hmem⟩ := Owns.hoardPutChunk (v := ⟨s.chunks, proc.slots⟩) hown hput hrange
    exact htakes.fair fun o ho => hmem o (mem_toList.mp ho)
  | flushSlotCache =>
    cases ht
    exact (Owns.flushSlotCache (v := ⟨s.chunks, proc.slots⟩) hown).fair (forall_mem_nil _)
  | invalidateChunk offset tag =>
    cases ht
    exact same (h.table.hoardInvalidateChunk offset tag)
  | invalidateSlotChunk offset =>
    cases ht
    have hsame : slotOffsets (hoardInvalidateSlotChunk proc.slots offset) =
        slotOffsets proc.slots := Base.map_updateWhere fun _ => rfl
    show Fair _ _ _ (slotOffsets (hoardInvalidateSlotChunk proc.slots offset)) _
    rw [hsame]
    exact same (.refl h.table)
  | gc =>
    cases ht
    exact same (h.table.hoardGc s.refs)
  | compactIteration =>
    cases ht
    obtain ⟨hspares, hwrites⟩ := h.table.compactLoop 16 none
    refine hspares.fair hown fun o ho c hc hco => ?_
    obtain ⟨-, d, hd, hdo, hz⟩ := hwrites o ho
    rw [h.table.eq_of_offset hc hd (hco.trans hdo.symm)]
    exact h.table.free hd hz
  | truncate =>
    obtain ⟨⟨chunks, offset⟩, htrunc, rfl⟩ := map_eq_some_iff.mp ht
    exact same (h.table.compactHoardTruncate h.range htrunc)
  | syncRefs newChunks keys prevKeys =>
    obtain ⟨ident, -, rfl⟩ := map_eq_some_iff.mp ht
    exact same (.refl h.table)
  | rmhoard uuid =>
    cases ht
    exact same (.refl h.table)
  | start conf | cleanup gc | die => cases ht

theorem SlotsInv.other (hq : s.Has q o) (hqp : q ≠ p) :
    o ∉ slotOffsets proc.slots ∧ ∃ c ∈ s.chunks, c.offset = o ∧ c.Reserved := by
  refine ⟨fun ho => hqp (h.excl q p o hq ⟨proc, hp, ho⟩), ?_⟩
  obtain ⟨proc', hproc, ho⟩ := hq
  exact (h.owns q proc' hproc).reserved o ho

theorem SlotsInv.not_other
    (ho : o ∈ slotOffsets proc.slots ∨ ∀ c ∈ s.chunks, c.offset = o → c.Free) (hqp : q ≠ p) :
    ¬ s.Has q o := by
  intro hq
  obtain ⟨hnot, c, hc, hco, hr⟩ := h.other hp hq hqp
  exact ho.elim hnot fun hfree => hr.not_free (hfree c hc hco)

end

section steps

variable [DecidableEq P] {proc : Option (Proc T U)}

theorem has_setProc :
    (s.setProc p proc).Has q o ↔
      if q = p then ∃ x, proc = some x ∧ o ∈ slotOffsets x.slots else s.Has q o := by
  unfold St.Has
  split
  next hq => rw [hq, St.setProc_self]
  next hq => rw [St.setProc_ne _ _ _ hq]

theorem SlotsInv.setProc (h : SlotsInv s) (p : P) (hnone : ∀ x, proc = some x → x.slots = []) :
    SlotsInv (s.setProc p proc) := by
  have hhas : ∀ q o, (s.setProc p proc).Has q o → s.Has q o := by
    intro q o hq
    rw [has_setProc] at hq
    split at hq
    next =>
      obtain ⟨x, hx, ho⟩ := hq
      rw [hnone x hx] at ho
      cases ho
    next => exact hq
  refine ⟨h.table, h.range, fun q x hx => ?_, fun q r o hq hr =>
    h.excl q r o (hhas q o hq) (hhas r o hr)⟩
  by_cases hq : q = p
  · rw [hq, St.setProc_self] at hx
    rw [hnone x hx]
    exact ⟨h.table, nodup_nil, nofun⟩
  · rw [St.setProc_ne _ _ _ hq] at hx
    exact h.owns q x hx

theorem SlotsInv.apply (h : SlotsInv s) {proc : Proc T U} (hp : s.procs p = some proc)
    (hrange : InRange t.chunks)
    (hfair : Fair s.chunks (slotOffsets proc.slots) t.chunks (slotOffsets t.proc.slots) t.writes) :
    SlotsInv (s.apply p t) := by
  have hown : ∀ {o}, (s.apply p t).Has p o → o ∈ slotOffsets t.proc.slots := by
    rintro o ⟨x, hx, ho⟩
    rw [St.apply_self, some.injEq] at hx
    rwa [hx]
  have hother : ∀ {q o}, q ≠ p → (s.apply p t).Has q o → s.Has q o := by
    rintro q o hq ⟨x, hx, ho⟩
    rw [St.apply_ne _ _ hq] at hx
    exact ⟨x, hx, ho⟩
  refine ⟨hfair.owns.table, hrange, fun q x hx => ?_, fun q r o hq hr => ?_⟩
  · by_cases hqp : q = p
    · rw [hqp, St.apply_self, some.injEq] at hx
      rw [← hx]
      exact hfair.owns
    · rw [St.apply_ne _ _ hqp] at hx
      refine ⟨hfair.owns.table, (h.owns q x hx).nodup, fun o ho => ?_⟩
      obtain ⟨hnot, c, hc, rfl, hres⟩ := h.other hp ⟨x, hx, ho⟩ hqp
      exact ⟨c, hfair.reserved c hc hres hnot, rfl, hres⟩
  · by_cases hqp : q = p
    · by_cases hrp : r = p
      · rw [hqp, hrp]
      · subst hqp
        exact absurd (hother hrp hr) (h.not_other hp (hfair.new o (hown hq)) hrp)
    · by_cases hrp : r = p
      · subst hrp
        exact absurd (hother hqp hq) (h.not_other hp (hfair.new o (hown hr)) hqp)
      · exact h.excl q r o (hother hqp hq) (hother hrp hr)

variable [DecidableEq T] [DecidableEq U] [Fintype P]

theorem SlotsInv.step (h : SlotsInv s) (hfits : Fits s a) (hs : Hoard.step s a = some s') :
    SlotsInv s' := by
  rcases step_cases hs with ⟨-, conf, -, rfl⟩ | rfl | ⟨hlast, gc, -, rfl⟩ |
    ⟨proc, t, hp, ht, rfl⟩ | rfl
  · refine h.setProc a.proc fun x hx => ?_
    cases hx
    rfl
  · exact h.setProc a.proc nofun
  · -- nobody is live any more
    have hgone : ∀ q, ({ s with chunks := cleanChunks s.chunks s.refs gc
                                parcels := cleanParcels s.parcels s.refs }.setProc a.proc
        none).procs q = none := by
      intro q
      by_cases hq : q = a.proc
      · rw [hq]
        exact St.setProc_self ..
      · exact (St.setProc_ne _ _ _ hq).trans (hlast q hq)
    refine ⟨h.table.cleanChunks s.refs gc, ?_, fun q x hx => ?_, fun q r o hq => ?_⟩
    · intro c hc
      have hmem : c.offset ∈ chunkOffsets s.chunks := by
        rw [← chunkOffsets_cleanChunks s.chunks s.refs gc]
        exact mem_chunkOffsets.mpr ⟨c, hc, rfl⟩
      obtain ⟨d, hd, hdc⟩ := mem_chunkOffsets.mp hmem
      rw [← hdc]
      exact h.range d hd
    · rw [hgone q] at hx
      cases hx
    · obtain ⟨x, hx, -⟩ := hq
      rw [hgone q] at hx
      cases hx
  · exact h.apply hp (hfits proc t hp ht) (h.fair hp ht (hfits proc t hp ht))
  · exact h

theorem slotsInv_reach (hr : Base.Reach step Fits (init : St P T U) s) : SlotsInv s :=
  hr.inv (I := SlotsInv) slotsInv_init fun _ _ _ hi hf hs => hi.step hf hs

end steps

theorem SlotsInv.condition (h : SlotsInv s) {c : Chunk T} (hc : c ∈ s.chunks) :
    ∃! k, s.InCondition c k := by
  have hres : ∀ p, s.Has p c.offset → c.Reserved := fun p ⟨proc, hp, ho⟩ =>
    (h.owns p proc hp).reserved_of_mem hc ho
  have hunique : ∀ k k', s.InCondition c k → s.InCondition c k' → k = k' := by
    rintro (_ | _ | _) (_ | _ | _) ⟨⟨ha, ht⟩, -⟩ ⟨⟨ha', ht'⟩, -⟩ <;> simp_all
  have hsome : ∃ k, s.InCondition c k := by
    rcases h.table.row c hc with hf | h1
    · exact ⟨.free, hf, fun p hp => (hres p hp).not_free hf⟩
    · by_cases htag : c.tag = none
      · exact ⟨.reserved, ⟨h1, htag⟩, fun p q => h.excl p q c.offset⟩
      · exact ⟨.holding, ⟨h1, htag⟩, fun p hp => htag (hres p hp).2⟩
  obtain ⟨k, hk⟩ := hsome
  exact ⟨k, hk, fun k' hk' => hunique k' k hk' hk⟩

variable [DecidableEq T] [DecidableEq U]

/-- Every slot has one owner at most. In every state of every run, each slot is free, or holds a
chunk, or is reserved by one live process at most; what is in a slot cache is reserved; and no step
writes to a slot that holds a chunk or that another live process has. -/
theorem slots_exclusive [DecidableEq P] [Fintype P]
    (hr : Base.Reach step Fits (init : St P T U) s) :
    (chunkOffsets s.chunks).Nodup ∧ (∀ c ∈ s.chunks, ∃! k, s.InCondition c k) ∧
    (∀ p o, s.Has p o → ∃ c ∈ s.chunks, c.offset = o ∧ s.InCondition c .reserved) ∧
    ∀ a, Fits s a → ∀ o ∈ s.writes a,
      (∀ c ∈ s.chunks, c.offset = o → c.tag = none) ∧ ∀ q, q ≠ a.proc → ¬ s.Has q o := by
  have h := slotsInv_reach hr
  refine ⟨h.table.nodup, fun c hc => h.condition hc, fun p o hp => ?_, fun a hfits o ho => ?_⟩
  · obtain ⟨proc, hproc, ho⟩ := hp
    obtain ⟨c, hc, rfl, hres⟩ := (h.owns p proc hproc).reserved o ho
    exact ⟨c, hc, rfl, hres, fun p q => h.excl p q c.offset⟩
  · unfold St.writes at ho
    split at ho
    next => cases ho
    next proc hp =>
      cases ht : transaction s proc a.op with
      | none =>
        rw [ht] at ho
        cases ho
      | some t =>
        rw [ht] at ho
        have hwrite := (h.fair hp ht (hfits proc t hp ht)).writes o ho
        refine ⟨fun c hc hco => ?_, fun q hq => h.not_other hp hwrite hq⟩
        rcases hwrite with hown | hfree
        · exact ((h.owns _ proc hp).reserved_of_mem hc (hco ▸ hown)).2
        · exact (hfree c hc hco).2

end invariant

/-- Offsets that do not wrap around. -/
theorem newOffsets_eq {start : Int} (h0 : 0 ≤ start) (h : start + needed * 256 ≤ 2 ^ 31) :
    newOffsets start needed = (range needed).map fun i : Nat => start + i * 256 := by
  refine map_congr_left fun i hi => ?_
  rw [mem_range] at hi
  exact Base.wrapInt_eq (by unfold slotSectors; omega) (by unfold slotSectors; omega)

/-- The second half of `expand_slot_cache` goes through if its offsets are new. -/
theorem addSlots_of_nodup
    (hnd : (slotOffsets v.slots ++ newOffsets (expandStart v.chunks) needed).Nodup) :
    ∃ w, addSlots v needed = some w ∧ ∀ c ∈ w.chunks, c ∈ v.chunks ∨
      c.offset ∈ slotOffsets v.slots ++ newOffsets (expandStart v.chunks) needed := by
  refine ⟨_, if_pos hnd, fun c hc => (mem_append.mp hc).imp_right fun hx => ?_⟩
  obtain ⟨o, ho, rfl⟩ := mem_map.mp hx
  rw [← slotOffsets_new]
  exact (mem_filter.mp ho).1

theorem allocateSlot_expand {w : View T} [DecidableEq T] (hnone : unusedSlot v.slots = none)
    (hw : expandSlotCache (flushSlotCache v) = some w) (ho : unusedSlot w.slots = some o) :
    allocateSlot v = some (w, o) := by
  simp only [allocateSlot, hnone, hw, ho, map_some]

theorem hoardPutChunk_empty [DecidableEq T] (tag : T) (length crypto : Int) :
    ∃ v' o, hoardPutChunk (⟨[], []⟩ : View T) tag length crypto = some (v', some o) ∧
      InRange v'.chunks := by
  have hnew : newOffsets 0 expandChunks = (range expandChunks).map fun i : Nat =>
      (0 : Int) + i * 256 := newOffsets_eq (Int.le_refl 0) (by decide)
  have hnd : (newOffsets 0 expandChunks).Nodup := by
    rw [hnew]
    refine nodup_range.map fun i j hij => ?_
    have hij : (0 : Int) + i * 256 = 0 + j * 256 := hij
    omega
  have hexp : ∃ w : View T, expandSlotCache ⟨[], []⟩ = some w ∧ InRange w.chunks := by
    have hnd : (slotOffsets (⟨[], []⟩ : View T).slots ++
        newOffsets (expandStart (⟨[], []⟩ : View T).chunks) expandChunks).Nodup := hnd
    obtain ⟨w, hw, hmem⟩ := addSlots_of_nodup hnd
    refine ⟨w, ?_, fun c hc => ?_⟩
    · have hnone : reclaimSlots (⟨[], []⟩ : View T) = (⟨[], []⟩, 0) := rfl
      have hpos : ¬ expandChunks = 0 := by decide
      simp only [expandSlotCache, hnone, Nat.sub_zero, if_neg hpos, hw]
    · have hx : c.offset ∈ newOffsets 0 expandChunks := (hmem c hc).resolve_left nofun
      rw [hnew] at hx
      obtain ⟨i, hi, hic⟩ := mem_map.mp hx
      rw [mem_range, expandChunks] at hi
      rw [← hic]
      omega
  obtain ⟨w, hw, hrange⟩ := hexp
  obtain ⟨o, ho⟩ := isSome_iff_exists.mp (unusedSlot_expand rfl hw)
  have hflush : flushSlotCache (⟨[], []⟩ : View T) = ⟨[], []⟩ := rfl
  rw [← hflush] at hw
  have halloc : allocateSlot (⟨[], []⟩ : View T) = some (w, o) := allocateSlot_expand rfl hw ho
  have hput : ∃ slots, hoardPutChunk (⟨[], []⟩ : View T) tag length crypto =
      some (⟨w.chunks, slots⟩, some o) := by
    unfold hoardPutChunk
    rw [if_neg (by simp), halloc]
    exact ⟨_, rfl⟩
  obtain ⟨slots, hput⟩ := hput
  exact ⟨_, o, hput, hrange⟩

/-- One process stores a chunk while another one is live. -/
theorem slots_exclusive_two : ∃ (s : St (Fin 2) Nat Nat) (o : Int),
    Base.Reach step Fits (init : St (Fin 2) Nat Nat) s ∧ s.Has 0 o ∧ s.procs 1 ≠ none ∧
    (∃ c ∈ s.chunks, c.offset = o ∧ s.InCondition c .reserved) ∧
    (chunkOffsets s.chunks).Nodup := by
  obtain ⟨v, o, hput, hrange⟩ := hoardPutChunk_empty 7 512 1
  have hmem : o ∈ slotOffsets v.slots :=
    (Owns.hoardPutChunk (v := ⟨[], []⟩) ⟨⟨nodup_nil, nofun⟩, nodup_nil, nofun⟩ hput
      hrange).2 o rfl
  let new : Proc Nat Nat := { slots := [], conf := none, ident := none }
  let s₁ : St (Fin 2) Nat Nat := init.setProc 0 (some new)
  let s₂ : St (Fin 2) Nat Nat := s₁.setProc 1 (some new)
  have h₁ : Base.Reach step Fits init s₁ :=
    .step .init (a := ⟨0, .start none, true⟩) nofun (step_start rfl)
  have h₂ : Base.Reach step Fits init s₂ :=
    .step h₁ (a := ⟨1, .start none, true⟩) nofun (step_start rfl)
  obtain ⟨t, ht, hchunks, hslots⟩ : ∃ t, transaction s₂ new (.putChunk 7 512 1) = some t ∧
      t.chunks = v.chunks ∧ t.proc.slots = v.slots := by
    exact ⟨_, transaction_put hput, rfl, rfl⟩
  have hfits : Fits s₂ ⟨0, .putChunk 7 512 1, true⟩ := by
    intro proc t' hp ht'
    cases hp
    rw [ht, some.injEq] at ht'
    rw [← ht', hchunks]
    exact hrange
  have h₃ := h₂.step hfits (step_commit rfl ht)
  obtain ⟨hnodup, -, hreserved, -⟩ := slots_exclusive h₃
  have hhas : (s₂.apply 0 t).Has 0 o := ⟨t.proc, St.apply_self .., hslots ▸ hmem⟩
  refine ⟨_, o, h₃, hhas, ?_, hreserved 0 o hhas, hnodup⟩
  rw [St.apply_ne _ _ (by decide)]
  exact nofun

end OpenIsr.Hoard
