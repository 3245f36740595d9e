import OpenIsr.Fuse.Inv

/-!
# Every step keeps the invariant

One lemma for each place a thread can stand, each saying that the step taken there passes
its assertions and keeps `Inv`; `Inv.step` collects them. The cache structure results
follow at the end: they hold in every state of every run, with any number of workers, any
requests and any pattern of failures.
-/

namespace OpenIsr.Fuse

open List Function
open Table (Cond)

variable {P : Parcel} {W : Type} [Fintype W] {r : Nat}
variable {n e : Nat} {s s' : St P W} {a : Act P W} {p p' : Pc} {io : Io} {k : Clean} {t : Tid W}
  {lock : Option (Tid W)}

theorem Inv.ok (h : Inv n s) (hp : s.pc t = p) : PcOk P s.tab p := hp ▸ h.pcOk t

theorem Inv.held (h : Inv n s) (hp : s.pc t = p) (hl : p.locked = true) : s.lock = some t :=
  (h.lock t).mp (hp ▸ hl)

/-! ## Steps that leave the table alone -/

/-- What the two program counters of a step that does not reach the next stage of
`image_shutdown` have to do with each other. -/
structure Flow (lock : Option (Tid W)) (p p' : Pc) : Prop where
  free : p'.locked = true → p.locked = true ∨ lock = none
  kind : p'.kind = p.kind
  idle : p ≠ .idle
  exit : p ≠ .clExit
  stage : p'.stage = p.stage

omit [Fintype W] in
theorem Flow.to (free : p'.locked = true → p.locked = true ∨ lock = none)
    (same : (p'.kind, p.ctorIdx == Pc.idle.ctorIdx, p.ctorIdx == Pc.clExit.ctorIdx, p'.stage) =
      (p.kind, false, false, p.stage)) : Flow lock p p' := by
  simp only [Prod.mk.injEq] at same
  obtain ⟨kind, idle, exit, stage⟩ := same
  exact ⟨free, kind, Pc.ne_of_ctorIdx idle, Pc.ne_of_ctorIdx exit, stage⟩

omit [Fintype W] in
theorem Flow.unlocked (free : p'.locked = false)
    (same : (p'.kind, p.ctorIdx == Pc.idle.ctorIdx, p.ctorIdx == Pc.clExit.ctorIdx, p'.stage) =
      (p.kind, false, false, p.stage)) : Flow lock p p' := by
  refine .to (fun h => ?_) same
  rw [free] at h
  cases h

variable [DecidableEq W]

section

variable (h : Inv n s)
include h

theorem Inv.flow (hp : s.pc a.tid = p) (hpc : s'.pc = update s.pc a.tid p')
    (hf : Flow s.lock p p') (habort : s'.abort = s.abort)
    (hlock : s'.lock = if p'.locked then some a.tid else if p.locked then none else s.lock)
    (htab : TabInv s'.tab (update (fun u => (s.pc u).role) a.tid p'.role))
    (hkeep : Keeps s.tab s'.tab p.own)
    (hother : p.locked = true ∨ s.lock = none ∨ ∀ e,
      (s'.tab.ents e).busy = (s.tab.ents e).busy ∧ (s'.tab.ents e).data = (s.tab.ents e).data)
    (hok : PcOk P s'.tab p')
    (hclean : 3 ≤ p'.stage → ∀ e ∈ s'.tab.chunks, (s'.tab.ents e).dirty = 0)
    (htotal : p'.stage < 3 → s'.tab.total = s.tab.total) : Inv n s' := by
  refine h.move hp hpc habort hlock hf.free hf.kind (fun hi => absurd hi hf.idle) hf.exit htab
    hkeep hother hok (le_of_eq hf.stage.symm) ?_ ?_ hclean htotal
  · intro h₁ h₂
    rw [hf.stage] at h₂
    omega
  · intro h₁ h₂
    rw [hf.stage] at h₂
    omega

theorem Inv.clean_of_stage (hp : s.pc a.tid = p) (hst : 3 ≤ p.stage) :
    ∀ e ∈ s.tab.chunks, (s.tab.ents e).dirty = 0 := by
  have hmain : a.tid = .main := by
    by_contra hne
    have hk : p.kind ≠ .main := by
      rw [← hp, h.kind]
      cases hx : a.tid <;> simp_all [Tid.kind]
    rw [Pc.stage_of_kind hk] at hst
    omega
  rw [← hp, hmain] at hst
  exact h.clean hst

theorem Inv.stay (hp : s.pc a.tid = p) (hpc : s'.pc = update s.pc a.tid p')
    (hf : Flow s.lock p p') (habort : s'.abort = s.abort)
    (hlock : s'.lock = if p'.locked then some a.tid else if p.locked then none else s.lock)
    (htab : s'.tab = s.tab) (hrole : p'.role = p.role) (hok : PcOk P s.tab p') : Inv n s' := by
  refine h.flow hp hpc hf habort hlock ?_ (htab ▸ Keeps.refl _ _)
    (.inr (.inr fun e => by rw [htab]; exact ⟨rfl, rfl⟩)) (htab ▸ hok) ?_ (fun _ => by rw [htab])
  · rw [htab]
    refine h.tabInv.role ?_ ?_ ?_ <;> rw [hrole, hp]
  · intro hst e he
    rw [htab] at he ⊢
    exact h.clean_of_stage hp (hf.stage ▸ hst) e he

theorem Inv.idle (hp : s.pc a.tid = .idle) (hs : stepAt s a .idle = some s') : Inv n s' := by
  have key : ∀ (p' : Pc) (ev : Event P W), s.pc .main = .running → p'.role = Pc.idle.role →
      p'.kind = .fuse → p'.locked = false → PcOk P s.tab p' →
      Inv n ((s.goto a.tid p').record ev) := by
    intro p' ev hrun hrole hkind hl hok
    have hst : p'.stage = 0 := Pc.stage_of_kind (by rw [hkind]; simp)
    refine h.move hp rfl rfl (by rw [hl]; rfl) (by simp [hl]) hkind
      (fun _ => by rw [hrun]; rfl) nofun ?_ (Keeps.refl _ _)
      (.inr (.inr fun e => ⟨rfl, rfl⟩)) hok (Nat.zero_le _) (by simp [hst]) (by simp [hst])
      (by simp [hst]) (fun _ => rfl)
    refine h.tabInv.role ?_ ?_ ?_ <;> rw [hrole, hp]
  simp only [stepAt] at hs
  split at hs
  next hrun =>
    split at hs
    next =>
      cases hs
      exact key _ _ hrun rfl rfl rfl trivial
    next hreq =>
      cases hs
      exact key _ _ hrun rfl rfl rfl ⟨rfl, hreq⟩
  next => cases hs

theorem Inv.ioNext (hp : s.pc a.tid = .ioNext io) (hs : stepAt s a (.ioNext io) = some s') :
    Inv n s' := by
  have hfits : io.Fits := h.ok hp
  simp only [stepAt] at hs
  split at hs
  next cur hcur =>
    cases hs
    obtain ⟨hok, -, hc⟩ := ioChunk_spec hcur
    exact h.stay hp rfl (.unlocked rfl rfl) rfl rfl rfl rfl ⟨hok, hc.trans hfits.1, hfits.2⟩
  next cur hcur =>
    cases hs
    exact h.stay hp rfl (.unlocked rfl rfl) rfl rfl rfl rfl trivial

/-! ## `_entry_acquire` -/

theorem Inv.enter {k : Acq} {l : Option (Tid W)} (hp : s.pc a.tid = p) (he : e ∈ s.tab.chunks)
    (hf : Flow s.lock p (.acqLoop k e))
    (hl : l = s.lock ∧ p.locked = true ∨ l = some a.tid ∧ s.lock = none) (hwait : p.wait = none)
    (hown : k.own = p.own) (hcl : p.cleaning = none)
    (hok : AcqOk P (s.tab.acquireEnter e) false e k) :
    Inv n (St.enter { s with lock := l } a.tid k e) := by
  rw [show St.enter { s with lock := l } a.tid k e =
    (St.setTab { s with lock := l } (s.tab.acquireEnter e)).goto a.tid (.acqLoop k e)
      from if_pos he]
  refine h.flow hp rfl hf rfl ?_ ?_ (Keeps.setEnt rfl rfl (.inr ⟨rfl, rfl⟩)) ?_ hok ?_ ?_
  · rcases hl with ⟨hl, hpl⟩ | ⟨hl, -⟩
    · show l = some a.tid
      rw [hl]
      exact (h.lock a.tid).mp (hp ▸ hpl)
    · exact hl
  · refine h.tabInv.acquireEnter he ?_ rfl ?_ ?_
    · rw [hp]; exact hwait
    · rw [hp]; exact hown
    · rw [hp]; exact hcl.symm
  · rcases hl with ⟨-, hpl⟩ | ⟨-, hn⟩
    · exact .inl hpl
    · exact .inr (.inl hn)
  · intro hst x hx
    have hx0 := h.clean_of_stage hp (hf.stage ▸ hst) x hx
    show (((s.tab.acquireEnter e)).ents x).dirty = 0
    rw [← hx0]
    exact Table.setEnt_proj Entry.dirty (by rfl) x
  · intro _
    exact total_congr rfl rfl fun x _ => Table.setEnt_proj Entry.data (by rfl) x

/-- `entry_acquire` takes the lock and finds the entry of its chunk, or adds it. -/
theorem Inv.eaLock (hp : s.pc a.tid = .eaLock io) (hs : stepAt s a (.eaLock io) = some s') :
    Inv n s' := by
  have hcur : io.Ok P := h.ok hp
  simp only [stepAt] at hs
  split at hs
  next hl =>
    cases hc : s.tab.lookup io.cur.chunk with
    | some e =>
      have hfind := find?_some hc
      have hmem : e ∈ s.tab.chunks := mem_of_find?_eq_some hc
      have hlook : s.tab.lookupOrNew io.cur.chunk = (s.tab, e) := by
        simp [Table.lookupOrNew, hc]
      simp only [hlook, Option.some.injEq] at hs
      rw [← hs]
      refine h.enter (l := some a.tid) hp hmem (.to (fun _ => .inr hl) rfl)
        (.inr ⟨rfl, hl⟩) rfl rfl rfl ⟨hcur, ?_⟩
      rw [← beq_iff_eq.mp hfind]
      exact Table.setEnt_proj Entry.chunk (by rfl) e
    | none =>
      obtain ⟨hlook, hmem⟩ := Table.lookupOrNew_none hc
      rw [hlook] at hs
      simp only [Option.some.injEq] at hs
      rw [← hs]
      unfold St.enter
      rw [if_pos (by exact hmem)]
      have hents : ∀ x ∈ s.tab.chunks, ((s.tab.lookupOrNew io.cur.chunk).1.ents x)
          = s.tab.ents x := by
        intro x hx
        simp only [Table.lookupOrNew, hc]
        exact update_of_ne (ne_of_lt (h.tabInv.fresh x hx)) ..
      have hkeep : ∀ {β : Type} (f : Entry → β), (∀ (ent : Entry) l w,
          f { ent with reclaimableLink := l, waiters := w } = f ent) → ∀ x ∈ s.tab.chunks,
          f (((s.tab.lookupOrNew io.cur.chunk).1.acquireEnter s.tab.nextEnt).ents x)
            = f (s.tab.ents x) := by
        intro β f hf x hx
        rw [← hents x hx]
        exact Table.setEnt_proj f (hf _ _ _) x
      refine h.flow hp rfl (.to (fun _ => .inr hl) rfl) rfl rfl ?_
        ⟨hkeep Entry.chunk fun _ _ _ => rfl, fun x hx _ => hkeep Entry.data (fun _ _ _ => rfl) x hx,
          fun x hx _ => hkeep Entry.dirty (fun _ _ _ => rfl) x hx⟩ (.inr (.inl hl)) ⟨hcur, ?_⟩
        (fun h3 => absurd h3 (Nat.not_succ_le_zero 2)) ?_
      · exact h.tabInv.newEnter hc (by rw [hp]; rfl) rfl (by rw [hp]; rfl) (by rw [hp]; rfl)
      · show (((s.tab.lookupOrNew io.cur.chunk).1.acquireEnter s.tab.nextEnt).ents
          s.tab.nextEnt).chunk = _
        simp [Table.acquireEnter, Table.lookupOrNew, hc, Entry.new]
      · intro _
        rw [← total_lookupOrNew h.tabInv.fresh io.cur.chunk]
        exact total_congr rfl rfl fun x _ => Table.setEnt_proj Entry.data (by rfl) x
  next => cases hs

/-- The loop of `_entry_acquire`: wait, or take the busy flag. -/
theorem Inv.acqLoop {k : Acq} (hp : s.pc a.tid = .acqLoop k e)
    (hs : stepAt s a (.acqLoop k e) = some s') : Inv n s' := by
  have hok : AcqOk P s.tab false e k := h.ok hp
  simp only [stepAt] at hs
  split at hs
  next hb =>
    cases hs
    refine h.stay hp rfl (.unlocked rfl rfl) rfl rfl rfl rfl ?_
    cases k with
    | request io => exact hok
    | clean k => trivial
    | reclaim io ent => rw [hok.2.2.2.1] at hb; cases hb
    | shutdown => rw [hok.2.1] at hb; cases hb
  next hb =>
    have hb : (s.tab.ents e).busy = false := by simpa using hb
    have hkeep : Keeps s.tab (s.tab.acquireTake e) k.own :=
      .setEnt rfl rfl (.inr ⟨rfl, rfl⟩)
    have hdata : ∀ x, ((s.tab.acquireTake e).ents x).data = (s.tab.ents x).data :=
      Table.setEnt_proj Entry.data (by rfl)
    have hchunk : ∀ x, ((s.tab.acquireTake e).ents x).chunk = (s.tab.ents x).chunk :=
      Table.setEnt_proj Entry.chunk (by rfl)
    have hdirty : ∀ x, ((s.tab.acquireTake e).ents x).dirty = (s.tab.ents x).dirty :=
      Table.setEnt_proj Entry.dirty (by rfl)
    have key : ∀ hist, Inv n { (s.setTab (s.tab.acquireTake e)).goto a.tid (k.next e) with
        hist := hist } := by
      intro hist
      refine h.flow hp rfl (.to (fun _ => .inl rfl) ?_) rfl ?_ ?_ hkeep (.inl rfl) ?_ ?_
        (fun _ => total_congr rfl rfl fun x _ => hdata x)
      · cases k <;> rfl
      · have := h.held hp rfl
        cases k <;> exact this
      · refine h.tabInv.acquireTake hb (by rw [hp]; rfl) ?_ ?_ ?_
        · cases k <;> rfl
        · rw [hp]; cases k <;> rfl
        · rw [hp]; cases k <;> rfl
      · show PcOk P (s.tab.acquireTake e) (k.next e)
        cases k with
        | request io => exact ⟨hok.1, (hchunk e).trans hok.2⟩
        | reclaim io ent =>
          refine ⟨⟨hok.1.1, (hchunk ent).trans hok.1.2⟩, (hdata ent).trans hok.2.1, ?_⟩
          rw [hdata]
          exact hok.2.2.2.2
        | clean k => trivial
        | shutdown =>
          show ((s.tab.acquireTake e).ents e).data ≠ none
          rw [hdata]
          exact hok.2.2
      · intro hst x hx
        show ((s.tab.acquireTake e).ents x).dirty = 0
        rw [hdirty]
        refine h.clean_of_stage hp ?_ x hx
        cases k <;> exact hst
    split at hs
    next io =>
      cases hs
      exact key _
    next =>
      cases hs
      exact key s.hist

theorem Inv.acqWait {k : Acq} (hp : s.pc a.tid = .acqWait k e)
    (hs : stepAt s a (.acqWait k e) = some s') : Inv n s' := by
  have hok : AcqOk P s.tab true e k := h.ok hp
  simp only [stepAt] at hs
  split at hs
  next hl =>
    cases hs
    refine h.stay hp rfl (.to (fun _ => .inr hl.1) rfl) rfl rfl rfl rfl ?_
    cases k with
    | request io => exact hok
    | clean k => trivial
    | reclaim io ent => cases hok.2.2.1
    | shutdown => cases hok.1
  next => cases hs

/-! ## The rest of `entry_acquire` -/

/-- `Inv.flow` for an operation on the table before buffers are freed. -/
theorem Inv.act (hp : s.pc a.tid = p) (hpc : s'.pc = update s.pc a.tid p')
    (hf : Flow s.lock p p') (habort : s'.abort = s.abort)
    (hlock : s'.lock = if p'.locked then some a.tid else if p.locked then none else s.lock)
    (hst : p'.stage < 3)
    (htab : TabInv s'.tab (update (fun u => (s.pc u).role) a.tid p'.role))
    (hkeep : Keeps s.tab s'.tab p.own)
    (hother : p.locked = true ∨ s.lock = none ∨ ∀ e,
      (s'.tab.ents e).busy = (s.tab.ents e).busy ∧ (s'.tab.ents e).data = (s.tab.ents e).data)
    (hok : PcOk P s'.tab p') (htotal : s'.tab.total = s.tab.total) : Inv n s' :=
  h.flow hp hpc hf habort hlock htab hkeep hother hok (fun h3 => by omega) fun _ => htotal

/-- `entry_acquire` has the busy flag and needs a buffer. -/
theorem Inv.eaData (hp : s.pc a.tid = .eaData io e) (hs : stepAt s a (.eaData io e) = some s') :
    Inv n s' := by
  have hok : IoOk P s.tab io e := h.ok hp
  simp only [stepAt] at hs
  split at hs
  next hd =>
    cases hs
    exact h.stay hp rfl (.unlocked rfl rfl) rfl rfl rfl rfl ⟨hok, hd⟩
  next hd =>
    have hd : (s.tab.ents e).data = none := by simpa using hd
    have ho : e ∈ (s.pc a.tid).role.own := by rw [hp]; exact mem_singleton.mpr rfl
    have he := h.tabInv.own_live a.tid e ho
    split at hs
    next ha =>
      cases hs
      have hdirty : (s.tab.ents e).dirty = 0 := by
        by_contra hne
        exact (h.tabInv.ent e he).dirtyOk.data hne hd
      refine h.act hp rfl (.unlocked rfl rfl) rfl rfl (Nat.zero_lt_succ 2) ?_
        (Keeps.setEnt rfl rfl (.inl (mem_singleton.mpr rfl))) (.inl rfl) ?_
        (total_allocData h.tabInv.nodup he hd ha)
      · exact h.tabInv.allocData ho (by rw [hp]; rfl) (by rw [hp]; rfl) (by rw [hp]; rfl)
      · show IoOk P (s.tab.allocData e) io e ∧ ((s.tab.allocData e).ents e).data ≠ none ∧
          ((s.tab.allocData e).ents e).dirty = 0
        simpa [Table.allocData, IoOk, hdirty] using hok
    next =>
      cases hs
      exact h.stay hp rfl (.to (fun _ => .inl rfl) rfl) rfl
        (h.held hp rfl) rfl rfl ⟨hok, hd⟩

/-- `entry_acquire` waits for a reclaimable entry, or takes the first. -/
theorem Inv.eaReclaim (hp : s.pc a.tid = .eaReclaim io e)
    (hs : stepAt s a (.eaReclaim io e) = some s') : Inv n s' := by
  have hok : IoOk P s.tab io e ∧ (s.tab.ents e).data = none := h.ok hp
  simp only [stepAt] at hs
  split at hs
  next =>
    cases hs
    exact h.stay hp rfl (.unlocked rfl rfl) rfl rfl rfl rfl hok
  next r q hq =>
    cases hs
    have hr : r ∈ s.tab.reclaimable := by rw [hq]; exact mem_cons_self ..
    have hlive := h.tabInv.recl_live r hr
    obtain ⟨hb, -, hd⟩ := (h.tabInv.ent r hlive).reclOk.recl.mp hr
    refine h.enter (l := s.lock) hp hlive (.to (fun _ => .inl rfl) rfl)
      (.inl ⟨rfl, rfl⟩) rfl rfl rfl ⟨⟨hok.1.1, ?_⟩, ?_, rfl, ?_, ?_⟩
    · exact (Table.setEnt_proj Entry.chunk (by rfl) e).trans hok.1.2
    · exact (Table.setEnt_proj Entry.data (by rfl) e).trans hok.2
    · exact (Table.setEnt_proj Entry.busy (by rfl) r).trans hb
    · exact fun hx => hd ((Table.setEnt_proj Entry.data (by rfl) r).symm.trans hx)

theorem Inv.eaReclaimWait (hp : s.pc a.tid = .eaReclaimWait io e)
    (hs : stepAt s a (.eaReclaimWait io e) = some s') : Inv n s' := by
  simp only [stepAt] at hs
  split at hs
  next hl =>
    cases hs
    exact h.stay hp rfl (.to (fun _ => .inr hl.1) rfl) rfl rfl rfl rfl
      (h.ok hp : IoOk P s.tab io e ∧ _)
  next => cases hs

theorem Inv.eaReclaimed (hp : s.pc a.tid = .eaReclaimed io e r)
    (hs : stepAt s a (.eaReclaimed io e r) = some s') : Inv n s' := by
  have hok : IoOk P s.tab io e ∧ (s.tab.ents e).data = none ∧ (s.tab.ents r).data ≠ none :=
    h.ok hp
  have hl := h.held hp rfl
  simp only [stepAt] at hs
  split at hs
  next hd =>
    cases hs
    exact h.stay hp rfl (.to (fun _ => .inl rfl) rfl) rfl hl rfl rfl ⟨⟨hok.1, hok.2.1⟩, hd⟩
  next hd =>
    cases hs
    exact h.stay hp rfl (.to (fun _ => .inl rfl) rfl) rfl hl rfl rfl
      ⟨hok.1, hok.2.1, hok.2.2, by simpa using hd⟩

theorem Inv.eaSteal (hp : s.pc a.tid = .eaSteal io e r)
    (hs : stepAt s a (.eaSteal io e r) = some s') : Inv n s' := by
  obtain ⟨hio, hd, hdr, hz⟩ := h.ok hp
  have hl := h.held hp rfl
  have hown : (s.pc a.tid).role.own = [r, e] := by rw [hp]; rfl
  have ho : e ∈ (s.pc a.tid).role.own := by simp [hown]
  have hr : r ∈ (s.pc a.tid).role.own := by simp [hown]
  have hne : e ≠ r := fun hx => hdr (hx ▸ hd)
  have he := h.tabInv.own_live a.tid e ho
  obtain ⟨tab', hsteal, htab⟩ := h.tabInv.stealData (r := (Pc.release (.steal io e) r).role)
    ho hr hne hdr hz (by rw [hp]; rfl) hown.symm (by rw [hp]; rfl)
  have htotal := total_stealData h.tabInv.nodup he (h.tabInv.own_live a.tid r hr) hne hd hsteal
  simp only [stepAt, hsteal, Option.some.injEq] at hs
  rw [← hs]
  obtain ⟨b, hb, heq⟩ := Table.stealData_eq hsteal hne
  have hente : tab'.ents e = { s.tab.ents e with data := some b } := by
    rw [heq, Table.setEnt_ne _ _ hne, Table.setEnt_self]
  have hother : ∀ x, x ∉ (Pc.eaSteal io e r).own → tab'.ents x = s.tab.ents x := by
    intro x hx
    have hxe : x ≠ e := fun hxe => hx (by simp [hxe, Pc.own])
    have hxr : x ≠ r := fun hxr => hx (by simp [hxr, Pc.own])
    rw [heq, Table.setEnt_ne _ _ hxr, Table.setEnt_ne _ _ hxe]
  have hdirty : (s.tab.ents e).dirty = 0 := by
    by_contra hx
    exact (h.tabInv.ent e he).dirtyOk.data hx hd
  refine h.act hp rfl (.to (fun _ => .inl rfl) rfl) rfl hl (Nat.zero_lt_succ 2) htab
    ⟨?_, ?_, ?_⟩ (.inl rfl) ?_ htotal
  · intro x _
    show (tab'.ents x).chunk = _
    rw [heq]
    refine (Table.setEnt_proj Entry.chunk ?_ x).trans (Table.setEnt_proj Entry.chunk (by rfl) x)
    rw [Table.setEnt_ne _ _ (Ne.symm hne)]
  · intro x _ hx
    show (tab'.ents x).data = _
    rw [hother x hx]
  · intro x _ hx
    show (tab'.ents x).dirty = _
    rw [hother x hx]
  · show IoOk P tab' io e ∧ (tab'.ents e).data ≠ none ∧ (tab'.ents e).dirty = 0
    unfold IoOk
    rw [hente]
    exact ⟨hio, by simp, hdirty⟩

/-- `cache_get`, unless the request overwrites the chunk. -/
theorem Inv.eaFill (hp : s.pc a.tid = .eaFill io e) (hs : stepAt s a (.eaFill io e) = some s') :
    Inv n s' := by
  obtain ⟨hio, hd, hz⟩ := h.ok hp
  have body : ∀ mem, Inv n { s.goto a.tid (.ioBody io e) with mem := mem } := fun mem =>
    h.stay hp rfl (.unlocked rfl rfl) rfl rfl rfl rfl ⟨hio, hd⟩
  have failed : ∀ mem, Inv n { s.goto a.tid (.fillFailed io e) with mem := mem } := fun mem =>
    h.stay hp rfl (.unlocked rfl rfl) rfl rfl rfl rfl ⟨hio, hd, hz⟩
  simp only [stepAt] at hs
  split at hs
  next =>
    split at hs
    next hnone => exact absurd hnone hd
    next =>
      split at hs
      next => cases hs; exact body _
      next => cases hs; exact failed _
    next => cases hs; exact failed _
  next => cases hs; exact body s.mem

theorem Inv.ioBody (hp : s.pc a.tid = .ioBody io e) (hs : stepAt s a (.ioBody io e) = some s') :
    Inv n s' := by
  obtain ⟨hio, hd⟩ := h.ok hp
  simp only [stepAt] at hs
  split at hs
  next =>
    cases hs
    exact h.stay hp rfl (.unlocked rfl rfl) rfl rfl rfl rfl ⟨hio, hd⟩
  next =>
    split at hs
    next hnone => exact absurd hnone hd
    next b hb =>
      split at hs
      next =>
        cases hs
        exact h.stay hp rfl (.unlocked rfl rfl) rfl rfl rfl rfl ⟨hio, hd⟩
      next =>
        cases hs
        exact h.stay hp rfl (.unlocked rfl rfl) rfl rfl rfl rfl ⟨hio, hd⟩

/-- `entry_set_error` in `entry_acquire`. -/
theorem Inv.fillFailed (hp : s.pc a.tid = .fillFailed io e)
    (hs : stepAt s a (.fillFailed io e) = some s') : Inv n s' := by
  obtain ⟨hio, hd, -⟩ := h.ok hp
  have ho : e ∈ (s.pc a.tid).role.own := by rw [hp]; exact mem_singleton.mpr rfl
  have hdata : ∀ x, ((s.tab.setError e).ents x).data = (s.tab.ents x).data :=
    Table.setEnt_proj Entry.data (by rfl)
  simp only [stepAt, Option.some.injEq] at hs
  rw [← hs]
  refine h.act hp rfl (.unlocked rfl rfl) rfl rfl (Nat.zero_lt_succ 2) ?_
    (Keeps.setEnt rfl rfl (.inr ⟨rfl, rfl⟩)) (.inr (.inr fun x => ⟨?_, hdata x⟩))
    ⟨⟨hio.1, ?_⟩, ?_⟩ (total_congr rfl rfl fun x _ => hdata x)
  · exact h.tabInv.setError ho (by rw [hp]; rfl) (by rw [hp]; rfl) (by rw [hp]; rfl)
  · exact Table.setEnt_proj Entry.busy (by rfl) x
  · exact (Table.setEnt_proj Entry.chunk (by rfl) e).trans hio.2
  · exact fun hx => hd ((hdata e).symm.trans hx)

/-! ## `entry_clean` -/

theorem Inv.cleanStart (hp : s.pc a.tid = .cleanStart k e)
    (hs : stepAt s a (.cleanStart k e) = some s') : Inv n s' := by
  obtain ⟨hok, hd⟩ := h.ok hp
  have ho : e ∈ (s.pc a.tid).role.own := by rw [hp]; exact mem_cons_self ..
  obtain ⟨tab', hclean, htab⟩ := h.tabInv.cleanStart (r := (Pc.cleanUpdate k e).role) ho hd
    (by rw [hp]; rfl) (by rw [hp]; rfl) (by rw [hp]; rfl) rfl
  simp only [stepAt, hclean, Option.some.injEq] at hs
  rw [← hs]
  obtain ⟨q, link, rfl⟩ := Table.cleanStart_eq hclean
  have hdata : ∀ x, ((s.tab.setEnt e { s.tab.ents e with dirtyLink := link }).ents x).data
      = (s.tab.ents x).data := Table.setEnt_proj Entry.data (by rfl)
  refine h.act hp rfl (.unlocked rfl rfl) rfl rfl k.stage_lt htab
    (Keeps.setEnt rfl rfl (.inr ⟨rfl, rfl⟩)) (.inl rfl) ?_
    (total_congr rfl rfl fun x _ => hdata x)
  cases k with
  | reclaim io ent =>
    exact ⟨⟨hok.1.1, (Table.setEnt_proj Entry.chunk (by rfl) ent).trans hok.1.2⟩,
      (hdata ent).trans hok.2⟩
  | all k => trivial

omit [DecidableEq W] in
theorem Inv.cleanUpdate_data (hp : s.pc a.tid = .cleanUpdate k e) : (s.tab.ents e).data ≠ none := by
  have ho : e ∈ (s.pc a.tid).role.own := by rw [hp]; exact mem_cons_self ..
  have hk := (h.tabInv.ent e (h.tabInv.own_live a.tid e ho)).dirtyOk
  exact hk.data (hk.clean a.tid (by rw [hp]; rfl))

theorem Inv.cleanUpdate (hp : s.pc a.tid = .cleanUpdate k e)
    (hs : stepAt s a (.cleanUpdate k e) = some s') : Inv n s' := by
  have hok : CleanOk P s.tab k := h.ok hp
  simp only [stepAt] at hs
  split at hs
  next hnone => exact absurd hnone (h.cleanUpdate_data hp)
  next b hb =>
    split at hs
    next =>
      cases hs
      exact h.stay hp rfl (.unlocked rfl rfl) rfl rfl rfl rfl hok
    next =>
      cases hs
      exact h.stay hp rfl (.unlocked rfl rfl) rfl rfl rfl rfl hok

theorem Inv.cleanFailed (hp : s.pc a.tid = .cleanFailed k e)
    (hs : stepAt s a (.cleanFailed k e) = some s') : Inv n s' := by
  have hok : CleanOk P s.tab k := h.ok hp
  have ho : e ∈ (s.pc a.tid).role.own := by rw [hp]; exact mem_cons_self ..
  have hdata : ∀ x, ((s.tab.setError e).ents x).data = (s.tab.ents x).data :=
    Table.setEnt_proj Entry.data (by rfl)
  simp only [stepAt, Option.some.injEq] at hs
  rw [← hs]
  refine h.act hp rfl (.unlocked rfl rfl) rfl rfl k.stage_lt ?_
    (Keeps.setEnt rfl rfl (.inr ⟨rfl, rfl⟩)) (.inr (.inr fun x => ⟨?_, hdata x⟩)) ?_
    (total_congr rfl rfl fun x _ => hdata x)
  · exact h.tabInv.setError ho (by rw [hp]; rfl) (by rw [hp]; rfl) (by rw [hp]; rfl)
  · exact Table.setEnt_proj Entry.busy (by rfl) x
  · cases k with
    | reclaim io ent =>
      exact ⟨⟨hok.1.1, (Table.setEnt_proj Entry.chunk (by rfl) ent).trans hok.1.2⟩,
        (hdata ent).trans hok.2⟩
    | all k => trivial

theorem Inv.cleanLock (hp : s.pc a.tid = .cleanLock k e)
    (hs : stepAt s a (.cleanLock k e) = some s') : Inv n s' := by
  have hok : CleanOk P s.tab k := h.ok hp
  have ho : e ∈ (s.pc a.tid).role.own := by rw [hp]; exact mem_cons_self ..
  have hk := (h.tabInv.ent e (h.tabInv.own_live a.tid e ho)).dirtyOk
  have hd : (s.tab.ents e).data ≠ none := hk.data (hk.clean a.tid (by rw [hp]; rfl))
  have hdata : ∀ x, ((s.tab.cleanDone e).ents x).data = (s.tab.ents x).data :=
    Table.setEnt_proj Entry.data (by rfl)
  simp only [stepAt] at hs
  split at hs
  next hl =>
    cases hs
    refine h.act hp rfl (.to (fun _ => .inr hl) ?_) rfl ?_ ?_ ?_
      (Keeps.setEnt rfl rfl (.inl (mem_cons_self ..))) (.inr (.inl hl)) ?_
      (total_congr rfl rfl fun x _ => hdata x)
    · cases k <;> rfl
    · cases k <;> rfl
    · have := k.stage_lt
      cases k <;> exact this
    · refine h.tabInv.cleanDone (by rw [hp]; rfl) ?_ ?_ ?_
      · rw [hp]; cases k <;> rfl
      · rw [hp]; cases k <;> rfl
      · cases k <;> rfl
    · cases k with
      | reclaim io ent =>
        refine ⟨⟨hok.1.1, (Table.setEnt_proj Entry.chunk (by rfl) ent).trans hok.1.2⟩,
          (hdata ent).trans hok.2, fun hx => hd ((hdata e).symm.trans hx), ?_⟩
        show ((s.tab.cleanDone e).ents e).dirty = 0
        simp [Table.cleanDone]
      | all k => trivial
  next => cases hs

end

/-! ## `_entry_release` and `entry_release` -/

theorem St.signal_eq {wake : Tid W} {c : Option Cond} (h : s.signal wake c = some s') :
    ∃ f, s' = { s with signalled := f } := by
  unfold St.signal at h
  split at h
  next => exact ⟨s.signalled, by simpa using h.symm⟩
  split at h
  next => exact ⟨_, by simpa using h.symm⟩
  split at h
  next => cases h
  next => exact ⟨s.signalled, by simpa using h.symm⟩

theorem St.signal_map {wake : Tid W} {c : Option Cond} {g : St P W → St P W}
    (h : (s.signal wake c).map g = some s') : ∃ f, s' = g { s with signalled := f } := by
  obtain ⟨s₁, hsig, rfl⟩ := Option.map_eq_some_iff.mp h
  obtain ⟨f, rfl⟩ := St.signal_eq hsig
  exact ⟨f, rfl⟩

section

variable (h : Inv n s)
include h

theorem Inv.release {k : Rel} (hp : s.pc a.tid = .release k e)
    (hs : stepAt s a (.release k e) = some s') : Inv n s' := by
  have hok : RelOk P s.tab e k := h.ok hp
  have hl := h.held hp rfl
  have ho : e ∈ (s.pc a.tid).role.own := by rw [hp]; exact mem_cons_self ..
  have he := h.tabInv.own_live a.tid e ho
  -- the invariant after the release does not depend on where the thread goes
  have hrel : ∃ tab' c, s.tab.entryRelease e = some (tab', c) ∧ Released s.tab e tab' c ∧
      ∀ r : Role, r.own = k.own → r.wait = none → r.cleaning = none →
        TabInv tab' (update (fun u => (s.pc u).role) a.tid r) := by
    have key : ∀ r : Role, r.own = k.own → r.wait = none → r.cleaning = none →
        ∃ tab' c, s.tab.entryRelease e = some (tab', c) ∧ Released s.tab e tab' c ∧
          TabInv tab' (update (fun u => (s.pc u).role) a.tid r) := by
      intro r hro hrw hrc
      refine h.tabInv.entryRelease ?_ ?_ ?_
      · rw [hrw, hp]; rfl
      · rw [hro, hp]; rfl
      · rw [hrc, hp]; rfl
    obtain ⟨tab', c, heq, hr, -⟩ := key ⟨k.own, none, none, by simp⟩ rfl rfl rfl
    refine ⟨tab', c, heq, hr, fun r hro hrw hrc => ?_⟩
    obtain ⟨tab'', c', heq', -, htab⟩ := key r hro hrw hrc
    rw [heq, Option.some.injEq, Prod.mk.injEq] at heq'
    rw [heq'.1]
    exact htab
  obtain ⟨tab', c, heq, hr, htab⟩ := hrel
  have hdata := hr.proj Entry.data fun _ _ _ => rfl
  have hdirty := hr.proj Entry.dirty fun _ _ _ => rfl
  have hchunk := hr.proj Entry.chunk fun _ _ _ => rfl
  have hkeep : Keeps s.tab tab' (Pc.release k e).own :=
    ⟨fun x _ => hchunk x, fun x _ _ => hdata x, fun x _ _ => hdirty x⟩
  have htotal : tab'.total = s.tab.total := total_released he hr
  simp only [stepAt, heq] at hs
  split at hs
  next => cases hs
  next s₁ hsig =>
    obtain ⟨f, rfl⟩ := St.signal_eq hsig
    cases hs
    cases k with
    | steal io ent =>
      refine h.act hp rfl (.unlocked rfl rfl) rfl rfl (Nat.zero_lt_succ 2)
        (htab _ rfl rfl rfl) hkeep (.inl rfl)
        ⟨⟨hok.1.1, (hchunk ent).trans hok.1.2⟩, fun hx => hok.2.1 ((hdata ent).symm.trans hx),
          (hdirty ent).trans hok.2.2⟩ htotal
    | request io failed =>
      cases failed with
      | true =>
        exact h.act hp rfl (.unlocked rfl rfl) rfl rfl (Nat.zero_lt_succ 2)
          (htab _ rfl rfl rfl) hkeep (.inl rfl) trivial htotal
      | false =>
        exact h.act hp rfl (.unlocked rfl rfl) rfl rfl (Nat.zero_lt_succ 2)
          (htab _ rfl rfl rfl) hkeep (.inl rfl) hok.1 htotal
    | again k =>
      exact h.act hp rfl (.to (fun _ => .inl rfl) rfl) rfl hl (Clean.all k).stage_lt
        (htab _ rfl rfl rfl) hkeep (.inl rfl) trivial htotal
    | stop k =>
      cases k with
      | cleaner =>
        exact h.act hp rfl (.unlocked rfl rfl) rfl rfl (Nat.zero_lt_succ 2)
          (htab _ rfl rfl rfl) hkeep (.inl rfl) trivial htotal
      | sync | shutdown => cases hok
    | shutdown =>
      refine h.flow hp rfl (.to (fun _ => .inl rfl) rfl) rfl hl
        (htab _ rfl rfl rfl) hkeep (.inl rfl) trivial ?_ (fun _ => htotal)
      intro _ x hx
      show (tab'.ents x).dirty = 0
      rw [hdirty]
      exact h.clean_of_stage hp (le_refl 3) x (hr.chunks_sub hx)

/-- `entry_release` takes the lock and marks what was written dirty. -/
theorem Inv.erLock {failed : Bool} (hp : s.pc a.tid = .erLock io e failed)
    (hs : stepAt s a (.erLock io e failed) = some s') : Inv n s' := by
  obtain ⟨hio, hd⟩ := h.ok hp
  have ho : e ∈ (s.pc a.tid).role.own := by rw [hp]; exact mem_singleton.mpr rfl
  simp only [stepAt] at hs
  split at hs
  next hl =>
    split at hs
    next =>
      obtain ⟨tab', c, heq, htab⟩ := h.tabInv.markDirty
        (r := (Pc.release (.request io failed) e).role) ho a.now_pos hd
        (by rw [hp]; rfl) (by rw [hp]; rfl) (by rw [hp]; rfl) (by rw [hp]; rfl)
      simp only [heq, Option.map_eq_some_iff] at hs
      obtain ⟨s₁, hsig, rfl⟩ := hs
      obtain ⟨f, rfl⟩ := St.signal_eq hsig
      rcases Table.markDirty_eq heq with ⟨-, rfl, -⟩ | ⟨-, q, link, rfl⟩
      · exact h.act hp rfl (.to (fun _ => .inr hl) rfl) rfl rfl (Nat.zero_lt_succ 2)
          htab (Keeps.refl _ _) (.inr (.inl hl)) ⟨hio.1.2, hd⟩ rfl
      · refine h.act hp rfl (.to (fun _ => .inr hl) rfl) rfl rfl (Nat.zero_lt_succ 2)
          htab (Keeps.setEnt rfl rfl (.inl (mem_singleton.mpr rfl))) (.inr (.inl hl))
          ⟨hio.1.2, fun hx => hd ?_⟩ (total_congr rfl rfl fun x _ => ?_)
        · exact (Table.setEnt_proj Entry.data (by rfl) e).symm.trans hx
        · exact Table.setEnt_proj Entry.data (by rfl) x
    next =>
      cases hs
      exact h.stay hp rfl (.to (fun _ => .inr hl) rfl) rfl rfl rfl rfl ⟨hio.1.2, hd⟩
  next => cases hs

/-! ## `entry_clean_all`, `image_sync` and the cleaner -/

omit [DecidableEq W] in
theorem Inv.alone (hst : 2 ≤ (s.pc .main).stage) (ht : t ≠ .main) :
    (s.pc t).role = Pc.idle.role := by
  cases t with
  | main => exact absurd rfl ht
  | cleaner => rw [h.joined hst]; rfl
  | fuse w => rw [h.quiet (by omega) w]

omit [DecidableEq W] in
theorem Inv.eq_main (hp : s.pc t = p) (hk : p.kind = .main) :
    t = .main := Tid.eq_main (by rw [← h.kind t, hp, hk])

theorem Inv.caLoop {k : CleanAll} (hp : s.pc a.tid = .caLoop k)
    (hs : stepAt s a (.caLoop k) = some s') : Inv n s' := by
  simp only [stepAt] at hs
  split at hs
  next hq =>
    cases hs
    cases k with
    | cleaner =>
      exact h.stay hp rfl (.unlocked rfl rfl) rfl rfl rfl rfl trivial
    | sync => exact h.stay hp rfl (.unlocked rfl rfl) rfl rfl rfl rfl trivial
    | shutdown =>
      have hmain := h.eq_main hp rfl
      have hl := h.held hp rfl
      have hst : 2 ≤ (s.pc .main).stage := by rw [← hmain, hp]; exact le_refl 2
      refine h.move hp rfl rfl hl (fun _ => .inl rfl) rfl
        (fun hi => absurd hi (Pc.ne_of_ctorIdx rfl)) (Pc.ne_of_ctorIdx rfl) ?_ (Keeps.refl _ _)
        (.inl rfl) trivial (Nat.le_succ 2)
        (fun h1 => absurd h1 (by simp [Pc.stage, CleanAll.stage]))
        (fun h2 => absurd h2 (lt_irrefl 2)) ?_ (fun h3 => absurd h3 (lt_irrefl 3))
      · exact h.tabInv.role (by rw [hp]; rfl) (by rw [hp]; rfl) (by rw [hp]; rfl)
      · -- a dirty entry would be queued or being cleaned
        intro _ e he
        by_contra hne
        have hk := (h.tabInv.ent e he).dirtyOk
        have hno : ∀ t, (s.pc t).role.cleaning ≠ some e := by
          intro t ht
          by_cases htm : t = .main
          · rw [htm, ← hmain, hp] at ht
            cases ht
          · rw [h.alone hst htm] at ht
            cases ht
        have := hk.dirty.mpr ⟨hne, hno⟩
        rw [hq] at this
        cases this
  next e q hq =>
    cases hs
    have he : e ∈ s.tab.dirty := by rw [hq]; exact mem_cons_self ..
    exact h.enter (l := s.lock) hp (h.tabInv.dirty_live e he)
      (.to (fun _ => .inl rfl) rfl) (.inl ⟨rfl, rfl⟩) rfl rfl rfl trivial

theorem Inv.caDirty {k : CleanAll} (hp : s.pc a.tid = .caDirty k e)
    (hs : stepAt s a (.caDirty k e) = some s') : Inv n s' := by
  have hl := h.held hp rfl
  simp only [stepAt] at hs
  split at hs
  next =>
    cases hs
    exact h.stay hp rfl (.to (fun _ => .inl rfl) rfl) rfl hl rfl rfl trivial
  next hd =>
    split at hs
    next hforce =>
      cases hs
      exact h.stay hp rfl (.to (fun _ => .inl rfl) rfl) rfl hl rfl rfl hforce.1
    next =>
      cases hs
      exact h.stay hp rfl (.to (fun _ => .inl rfl) rfl) rfl hl rfl rfl ⟨trivial, hd⟩

theorem Inv.syncLock (hp : s.pc a.tid = .syncLock) (hs : stepAt s a .syncLock = some s') :
    Inv n s' := by
  simp only [stepAt] at hs
  split at hs
  next hl =>
    cases hs
    exact h.stay hp rfl (.to (fun _ => .inr hl) rfl) rfl rfl rfl rfl trivial
  next => cases hs

theorem Inv.syncFlush (hp : s.pc a.tid = .syncFlush) (hs : stepAt s a .syncFlush = some s') :
    Inv n s' := by
  simp only [stepAt, Option.some.injEq] at hs
  rw [← hs]
  exact h.stay hp rfl (.unlocked rfl rfl) rfl rfl rfl rfl trivial

theorem Inv.clLock (hp : s.pc a.tid = .clLock) (hs : stepAt s a .clLock = some s') : Inv n s' := by
  simp only [stepAt] at hs
  split at hs
  next hl =>
    cases hs
    exact h.stay hp rfl (.to (fun _ => .inr hl) rfl) rfl rfl rfl rfl trivial
  next => cases hs

theorem Inv.clTest (hp : s.pc a.tid = .clTest) (hs : stepAt s a .clTest = some s') : Inv n s' := by
  have hl := h.held hp rfl
  simp only [stepAt] at hs
  split at hs
  next =>
    cases hs
    exact h.stay hp rfl (.unlocked rfl rfl) rfl rfl rfl rfl trivial
  next =>
    cases hs
    exact h.stay hp rfl (.to (fun _ => .inl rfl) rfl) rfl hl rfl rfl trivial

theorem Inv.clWait {timed : Bool} (hp : s.pc a.tid = .clWait timed)
    (hs : stepAt s a (.clWait timed) = some s') : Inv n s' := by
  simp only [stepAt] at hs
  split at hs
  next hl =>
    cases hs
    exact h.stay hp rfl (.to (fun _ => .inr hl.1) rfl) rfl rfl rfl rfl trivial
  next => cases hs

/-! ## `image_shutdown` -/

/-- The main thread goes on without touching the table, possibly to the next stage. -/
theorem Inv.advance (hp : s.pc a.tid = p) (hpc : s'.pc = update s.pc a.tid p')
    (habort : s'.abort = s.abort) (hlock : s'.lock = s.lock) (hl : p.locked = false)
    (hl' : p'.locked = false) (hkind : p'.kind = p.kind) (hidle : p ≠ .idle) (hexit : p ≠ .clExit)
    (htab : s'.tab = s.tab) (hrole : p'.role = p.role) (hok : PcOk P s.tab p')
    (hstage : p.stage ≤ p'.stage)
    (hquiet : p.stage < 1 → 1 ≤ p'.stage → ∀ w, s.pc (.fuse w) = .idle)
    (hjoined : p.stage < 2 → 2 ≤ p'.stage → s.pc .cleaner = .clExit) (hlt : p'.stage < 3) :
    Inv n s' := by
  refine h.move hp hpc habort (by rw [hl, hl', hlock]; rfl) (by simp [hl']) hkind
    (fun hi => absurd hi hidle) hexit ?_ (htab ▸ Keeps.refl _ _)
    (.inr (.inr fun e => by rw [htab]; exact ⟨rfl, rfl⟩)) (htab ▸ hok) hstage hquiet hjoined
    (fun h3 => by omega) (fun _ => by rw [htab])
  rw [htab]
  refine h.tabInv.role ?_ ?_ ?_ <;> rw [hp, hrole]

theorem Inv.running (hp : s.pc a.tid = .running) (hs : stepAt s a .running = some s') :
    Inv n s' := by
  simp only [stepAt] at hs
  split at hs
  next hidle =>
    cases hs
    exact h.advance hp rfl rfl rfl rfl rfl rfl nofun nofun rfl rfl trivial (Nat.le_succ 0)
      (fun _ _ => hidle) (fun _ h2 => absurd h2 (by simp [Pc.stage])) (by simp [Pc.stage])
  next => cases hs

theorem Inv.shStop (hp : s.pc a.tid = .shStop) (hs : stepAt s a .shStop = some s') : Inv n s' := by
  simp only [stepAt] at hs
  split at hs
  next hl =>
    obtain ⟨f, rfl⟩ := St.signal_map hs
    exact h.advance hp rfl rfl rfl rfl rfl rfl nofun nofun rfl rfl trivial (le_refl 1)
      (fun h1 => absurd h1 (lt_irrefl 1)) (fun _ h2 => absurd h2 (by simp [Pc.stage]))
      (by simp [Pc.stage])
  next => cases hs

theorem Inv.shJoin (hp : s.pc a.tid = .shJoin) (hs : stepAt s a .shJoin = some s') : Inv n s' := by
  simp only [stepAt] at hs
  split at hs
  next hexit =>
    cases hs
    exact h.advance hp rfl rfl rfl rfl rfl rfl nofun nofun rfl rfl trivial (Nat.le_succ 1)
      (fun h1 => absurd h1 (lt_irrefl 1)) (fun _ _ => hexit) (by simp [Pc.stage])
  next => cases hs

theorem Inv.shLock (hp : s.pc a.tid = .shLock) (hs : stepAt s a .shLock = some s') : Inv n s' := by
  simp only [stepAt] at hs
  split at hs
  next hl =>
    cases hs
    exact h.stay hp rfl (.to (fun _ => .inr hl) rfl) rfl rfl rfl rfl trivial
  next => cases hs

theorem Inv.shFree (hp : s.pc a.tid = .shFree) (hs : stepAt s a .shFree = some s') : Inv n s' := by
  have hmain := h.eq_main hp rfl
  simp only [stepAt] at hs
  split at hs
  next e q hq =>
    cases hs
    have he : e ∈ s.tab.reclaimable := by rw [hq]; exact mem_cons_self ..
    have hlive := h.tabInv.recl_live e he
    obtain ⟨hb, -, hd⟩ := (h.tabInv.ent e hlive).reclOk.recl.mp he
    refine h.enter (l := s.lock) hp hlive (.to (fun _ => .inl rfl) rfl)
      (.inl ⟨rfl, rfl⟩) rfl rfl rfl ⟨rfl, ?_, ?_⟩
    · exact (Table.setEnt_proj Entry.busy (by rfl) e).trans hb
    · exact fun hx => hd ((Table.setEnt_proj Entry.data (by rfl) e).symm.trans hx)
  next hq =>
    have hst : 2 ≤ (s.pc .main).stage := by rw [← hmain, hp]; exact Nat.le_succ 2
    -- no thread holds or waits for an entry
    have hrole : ∀ t, (s.pc t).role = Pc.idle.role := by
      intro t
      by_cases htm : t = .main
      · rw [htm, ← hmain, hp]; rfl
      · exact h.alone hst htm
    have hempty : s.tab.chunks = [] := by
      rw [eq_nil_iff_forall_not_mem]
      intro e he
      have hk := h.tabInv.ent e he
      have hb : (s.tab.ents e).busy = false := by
        by_contra hb
        obtain ⟨t, ht⟩ := hk.busyOk.busy.mp (by simpa using hb)
        rw [hrole t] at ht
        cases ht
      have hw : (s.tab.ents e).waiters = 0 := by
        rw [hk.busyOk.waiters]
        refine OpenIsr.Base.countT_eq_zero.mpr fun t ht => ?_
        rw [hrole t] at ht
        cases ht
      have hd : (s.tab.ents e).data ≠ none := by
        intro hd
        rcases hk.reclOk.nobuf hd with hx | hx
        · rw [hb] at hx; cases hx
        · omega
      have := hk.reclOk.recl.mpr ⟨hb, hw, hd⟩
      rw [hq] at this
      cases this
    rw [if_pos hempty] at hs
    cases hs
    exact h.stay hp rfl (.unlocked rfl rfl) rfl rfl rfl rfl trivial

theorem Inv.shDrop (hp : s.pc a.tid = .shDrop e) (hs : stepAt s a (.shDrop e) = some s') :
    Inv n s' := by
  have hd : (s.tab.ents e).data ≠ none := h.ok hp
  have ho : e ∈ (s.pc a.tid).role.own := by rw [hp]; exact mem_singleton.mpr rfl
  have he := h.tabInv.own_live a.tid e ho
  have hclean := h.clean_of_stage hp (le_refl 3)
  have hl := h.held hp rfl
  obtain ⟨tab', heq, htab⟩ := h.tabInv.dropData (r := (Pc.release .shutdown e).role) ho hd
    (hclean e he) (by rw [hp]; rfl) (by rw [hp]; rfl) (by rw [hp]; rfl)
  simp only [stepAt, heq, Option.some.injEq] at hs
  rw [← hs]
  have hshape := Table.dropData_eq heq
  subst hshape
  refine h.flow hp rfl (.to (fun _ => .inl rfl) rfl) rfl hl htab
    (Keeps.setEnt rfl rfl (.inl (mem_singleton.mpr rfl))) (.inl rfl) trivial ?_
    (fun h3 => absurd h3 (lt_irrefl 3))
  intro _ x hx
  rw [← hclean x hx]
  exact Table.setEnt_proj Entry.dirty (by rfl) x

/-! ## Runs -/

/-- No thread holds a pointer to a freed entry, so a step is the one of its program
counter. -/
theorem Inv.step_eq : Fuse.step s a = stepAt s a (s.pc a.tid) := by
  have hrefs : (s.pc a.tid).refs.all (fun e => decide (e ∈ s.tab.chunks)) = true := by
    rw [all_eq_true]
    intro e he
    rw [decide_eq_true_eq]
    rcases mem_append.mp he with ho | hw
    · exact h.tabInv.own_live a.tid e ho
    · exact h.tabInv.wait_live a.tid e (Option.mem_toList.mp hw)
  unfold Fuse.step
  rw [h.alive, if_neg (by simp), if_pos hrefs]

theorem Inv.stepAt_of_step (hs : step s a = some s') : stepAt s a (s.pc a.tid) = some s' := by
  rw [← h.step_eq]
  exact hs

theorem Inv.step (hs : step s a = some s') : Inv n s' := by
  have hs := h.stepAt_of_step hs
  generalize hp : s.pc a.tid = p at hs
  cases p with
  | idle => exact h.idle hp hs
  | ioNext io => exact h.ioNext hp hs
  | eaLock io => exact h.eaLock hp hs
  | acqLoop k e => exact h.acqLoop hp hs
  | acqWait k e => exact h.acqWait hp hs
  | eaData io e => exact h.eaData hp hs
  | eaReclaim io e => exact h.eaReclaim hp hs
  | eaReclaimWait io e => exact h.eaReclaimWait hp hs
  | eaReclaimed io e r => exact h.eaReclaimed hp hs
  | cleanStart k e => exact h.cleanStart hp hs
  | cleanUpdate k e => exact h.cleanUpdate hp hs
  | cleanFailed k e => exact h.cleanFailed hp hs
  | cleanLock k e => exact h.cleanLock hp hs
  | eaSteal io e r => exact h.eaSteal hp hs
  | release k e => exact h.release hp hs
  | eaFill io e => exact h.eaFill hp hs
  | fillFailed io e => exact h.fillFailed hp hs
  | ioBody io e => exact h.ioBody hp hs
  | erLock io e failed => exact h.erLock hp hs
  | syncLock => exact h.syncLock hp hs
  | caLoop k => exact h.caLoop hp hs
  | caDirty k e => exact h.caDirty hp hs
  | syncFlush => exact h.syncFlush hp hs
  | clLock => exact h.clLock hp hs
  | clTest => exact h.clTest hp hs
  | clWait timed => exact h.clWait hp hs
  | clExit | shDone => cases hs
  | running => exact h.running hp hs
  | shStop => exact h.shStop hp hs
  | shJoin => exact h.shJoin hp hs
  | shLock => exact h.shLock hp hs
  | shFree => exact h.shFree hp hs
  | shDrop e => exact h.shDrop hp hs

end

theorem inv_init (allocatable : Nat) (disk : Nat → Data P) :
    Inv allocatable (init W allocatable disk) := by
  have hrole : ∀ t, ((init W allocatable disk).pc t).role = Pc.idle.role := by
    intro t
    cases t <;> rfl
  refine ⟨rfl, ⟨nodup_nil, nofun, nofun, ?_, ?_, ?_, nofun, nodup_nil, nofun,
    nodup_nil, nofun, nofun, nofun⟩, ?_, ?_, ?_, nofun, nofun, nofun, ?_⟩
  · intro t e he
    rw [hrole t] at he
    cases he
  · intro t
    rw [hrole t]
    exact nodup_nil
  · intro t e he
    rw [hrole t] at he
    cases he
  · intro t
    cases t <;> exact ⟨nofun, nofun⟩
  · intro t
    cases t <;> trivial
  · intro t
    cases t <;> rfl
  · exact fun _ => Nat.zero_add allocatable

theorem inv_reach {C : St P W → Act P W → Prop} {allocatable : Nat} {disk : Nat → Data P}
    (hr : Base.Reach step C (init W allocatable disk) s) : Inv allocatable s :=
  hr.inv (inv_init allocatable disk) fun _ _ _ hi _ hs => hi.step hs

/-! ## The structure of the cache -/

/-- What the cache looks like between critical sections; `n` is the number of buffers it
started with. -/
structure CacheOk (n : Nat) (s : St P W) : Prop where
  /-- Until `image_shutdown` frees them, buffers are conserved. -/
  buffers : (s.pc .main).stage < 3 →
    s.tab.chunks.countP (fun e => (s.tab.ents e).data.isSome) + s.tab.allocatable = n
  /-- The reclaimable queue holds the unused entries with a buffer, each once. -/
  reclaimable : ∀ e ∈ s.tab.chunks, e ∈ s.tab.reclaimable ↔ (s.tab.ents e).busy = false ∧
    (s.tab.ents e).waiters = 0 ∧ (s.tab.ents e).data ≠ none
  reclaimable_once : s.tab.reclaimable.Nodup ∧ ∀ e ∈ s.tab.reclaimable, e ∈ s.tab.chunks
  /-- The dirty queue holds the dirty entries nobody is cleaning. -/
  dirty : ∀ e ∈ s.tab.chunks, e ∈ s.tab.dirty ↔ (s.tab.ents e).dirty ≠ 0 ∧
    ∀ t, (s.pc t).cleaning ≠ some e
  dirty_once : s.tab.dirty.Nodup ∧ ∀ e ∈ s.tab.dirty, e ∈ s.tab.chunks
  dirty_data : ∀ e ∈ s.tab.chunks, (s.tab.ents e).dirty ≠ 0 → (s.tab.ents e).data ≠ none
  /-- An entry without a buffer is in use. -/
  unbuffered : ∀ e ∈ s.tab.chunks, (s.tab.ents e).data = none →
    (s.tab.ents e).busy = true ∨ 0 < (s.tab.ents e).waiters

/-- In every reachable state no assertion has failed, and the cache is in order whenever
the image lock is free. The runs are those of any number of workers with any requests,
the cleaner and, when all requests have ended, `image_shutdown`, under any pattern of
failing `cache_get`, `cache_update` and `fsync` calls. -/
theorem cache_structure (allocatable : Nat) (disk : Nat → Data P)
    (hr : Base.Reach step (fun _ _ => True) (init W allocatable disk) s) :
    s.abort = false ∧ (s.lock = none → CacheOk allocatable s) := by
  have h := inv_reach hr
  refine ⟨h.alive, fun _ => ⟨h.total, ?_, ⟨h.tabInv.recl_nodup, h.tabInv.recl_live⟩, ?_,
    ⟨h.tabInv.dirty_nodup, h.tabInv.dirty_live⟩, ?_, ?_⟩⟩
  · exact fun e he => (h.tabInv.ent e he).reclOk.recl
  · exact fun e he => (h.tabInv.ent e he).dirtyOk.dirty
  · exact fun e he => (h.tabInv.ent e he).dirtyOk.data
  · exact fun e he => (h.tabInv.ent e he).reclOk.nobuf

/-- Thread `t` goes on, and nothing it calls fails. -/
def Act.go {P : Parcel} {W : Type} (t : Tid W) : Act P W :=
  { tid := t, req := .fsync, now := 1, now_pos := Nat.one_pos, wake := t, spurious := false,
    ok := true, junk := fun _ => 0, left := none }

/-- Thread `t` takes up a request. -/
def Act.call {P : Parcel} {W : Type} (t : Tid W) (req : Req) : Act P W :=
  { Act.go t with req }

/-- What thread `t` calls fails; `cache_update` leaves `left`. -/
def Act.fail {P : Parcel} {W : Type} (t : Tid W) (left : Option (Data P)) : Act P W :=
  { Act.go t with ok := false, left }

/-- The only worker. -/
def solo : Tid (Fin 1) := .fuse ⟨0, Nat.one_pos⟩

/-- The first of two workers. -/
def former : Tid (Fin 2) := .fuse ⟨0, Nat.two_pos⟩

/-- The second one. -/
def latter : Tid (Fin 2) := .fuse ⟨1, Nat.one_lt_two⟩

/-- With a single buffer, a worker writes to chunk 0 and then reads chunk 1, for which it
cleans and reclaims the buffer of chunk 0. -/
def tinyRun : List (Act tinyParcel (Fin 1)) :=
  Act.call solo (.write 0 [7]) :: replicate 9 (Act.go solo) ++
  Act.call solo (.read 512 1) :: replicate 17 (Act.go solo)

theorem cache_structure_tiny : ∃ s, Base.Reach step (fun _ _ => True)
    (init (P := tinyParcel) (Fin 1) 1 fun _ _ => 0) s ∧ s.tab.chunks = [1] ∧ s.lock = none ∧
      s.abort = false ∧ CacheOk 1 s := by
  have hrun : (Base.exec step (fun _ _ => true) (init (Fin 1) 1 fun _ _ => 0) tinyRun).any
      (fun s => s.tab.chunks == [1] && s.lock == none) = true := by
    decide +kernel
  obtain ⟨s, hs, hchk⟩ := Base.reach_of_exec_any (D := fun _ _ => True) (fun _ _ _ => trivial)
    tinyRun hrun
  simp only [Bool.and_eq_true, beq_iff_eq] at hchk
  obtain ⟨habort, hok⟩ := cache_structure 1 (fun _ _ => 0) hs
  exact ⟨s, hs, hchk.1, hchk.2, habort, hok hchk.2⟩

end OpenIsr.Fuse
