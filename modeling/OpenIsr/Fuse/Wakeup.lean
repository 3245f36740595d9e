import OpenIsr.Fuse.InvStep

/-!
# Wakeups

`_entry_release` wakes one thread: a waiter of the entry if there is one, and otherwise, if the
entry has a buffer, one of the threads that wait for a buffer to reclaim. Between the signal and
the moment the thread has the lock, others may come and take the entry, or the buffer. `WakeInv`
is why no wakeup is lost all the same. An entry that is free and wanted has a waiter that is awake;
and unless all who want a buffer are awake, as many are awake as there are buffers to reclaim.

The second part has to count. One of two threads that are awake may take one of two buffers and
go; what is left is one buffer, and it must not be left to a thread that sleeps.
-/

namespace OpenIsr.Fuse

open List Function
open Base (countT countT_mono countT_le_succ countT_lt countT_eq_zero)
open Table (Cond)

variable {P : Parcel} {W : Type} {io : Io}

/-- `entry_acquire` wants a buffer to reclaim. -/
def Pc.reclaims : Pc → Bool
  | .eaReclaim _ _ | .eaReclaimWait _ _ => true
  | _ => false

/-- The thread is not blocked, or it has been signalled. -/
def St.Awake (s : St P W) (t : Tid W) : Prop := (s.pc t).waitsOn = none ∨ s.signalled t = true

instance (s : St P W) (t : Tid W) : Decidable (s.Awake t) := inferInstanceAs (Decidable (_ ∨ _))

/-- No wakeup has been lost. -/
structure WakeInv [Fintype W] (s : St P W) : Prop where
  entry : ∀ e t, (s.tab.ents e).busy = false → (s.pc t).wait = some e →
    ∃ u, (s.pc u).wait = some e ∧ s.Awake u
  buffer : (∀ t, (s.pc t).reclaims = true → s.Awake t) ∨
    s.tab.reclaimable.length ≤ countT fun t => (s.pc t).reclaims = true ∧ s.Awake t
  full : ∀ t, (s.pc t).reclaims = true → s.tab.allocatable = 0

/-! ## Steps that release nothing -/

/-- A step of a thread from `p` to `p'` that releases no entry. Who stops waiting for an entry has
got it, who starts has found it busy; who stops wanting a buffer has taken one or found none. -/
structure Holding [DecidableEq W] (s : St P W) (t : Tid W) (p p' : Pc) (s' : St P W) : Prop where
  old : s.pc t = p
  new : s'.pc = update s.pc t p'
  signalled : ∀ u, u ≠ t → s.signalled u = true → s'.signalled u = true
  busy : ∀ e, (s'.tab.ents e).busy = false →
    (s.tab.ents e).busy = false ∨ p'.wait = some e ∧ p'.waitsOn = none
  got : ∀ e, p.wait = some e → p'.wait = some e ∨ (s'.tab.ents e).busy = true
  waits : ∀ e, p'.wait = some e → p'.waitsOn = none ∨ (s'.tab.ents e).busy = true
  recl : s'.tab.reclaimable.length ≤ s.tab.reclaimable.length
  took : p.reclaims = true → p'.reclaims = true ∧ p'.waitsOn = none ∨
    s'.tab.reclaimable.length + 1 ≤ s.tab.reclaimable.length ∨ s'.tab.reclaimable = []
  wants : p'.reclaims = true → p'.waitsOn = none ∨ s'.tab.reclaimable = []
  alloc : s'.tab.allocatable ≤ s.tab.allocatable
  full : p'.reclaims = true → p.reclaims = true ∨ s'.tab.allocatable = 0

section steps

variable [DecidableEq W] {n : Nat} {s s' s₁ : St P W} {a : Act P W} {t u : Tid W}
  {p p' : Pc} {e : Nat} {tab : Table} {c : Option Cond} {k : Rel}

theorem Holding.acquiring (old : s.pc t = p) (new : s'.pc = update s.pc t p')
    (signalled : ∀ u, u ≠ t → s.signalled u = true → s'.signalled u = true)
    (busy : ∀ e, (s'.tab.ents e).busy = false →
      (s.tab.ents e).busy = false ∨ p'.wait = some e ∧ p'.waitsOn = none)
    (got : ∀ e, p.wait = some e → p'.wait = some e ∨ (s'.tab.ents e).busy = true)
    (waits : ∀ e, p'.wait = some e → p'.waitsOn = none ∨ (s'.tab.ents e).busy = true)
    (recl : s'.tab.reclaimable.length ≤ s.tab.reclaimable.length) (hr : p.reclaims = false)
    (hr' : p'.reclaims = false) (alloc : s'.tab.allocatable ≤ s.tab.allocatable) :
    Holding s t p p' s' := by
  refine ⟨old, new, signalled, busy, got, waits, recl, fun h => ?_, fun h => ?_, alloc, fun h => ?_⟩
  · rw [hr] at h
    cases h
  · rw [hr'] at h
    cases h
  · rw [hr'] at h
    cases h

theorem Holding.reclaiming (old : s.pc t = p) (new : s'.pc = update s.pc t p')
    (signalled : ∀ u, u ≠ t → s.signalled u = true → s'.signalled u = true)
    (busy : ∀ e, (s'.tab.ents e).busy = false → (s.tab.ents e).busy = false)
    (hw : p.wait = none) (hw' : p'.wait = none)
    (recl : s'.tab.reclaimable.length ≤ s.tab.reclaimable.length)
    (took : p.reclaims = true → p'.reclaims = true ∧ p'.waitsOn = none ∨
      s'.tab.reclaimable.length + 1 ≤ s.tab.reclaimable.length ∨ s'.tab.reclaimable = [])
    (wants : p'.reclaims = true → p'.waitsOn = none ∨ s'.tab.reclaimable = [])
    (alloc : s'.tab.allocatable ≤ s.tab.allocatable)
    (full : p'.reclaims = true → p.reclaims = true ∨ s'.tab.allocatable = 0) :
    Holding s t p p' s' := by
  refine ⟨old, new, signalled, fun e he => .inl (busy e he), fun e h => ?_, fun e h => ?_,
    recl, took, wants, alloc, full⟩
  · rw [hw] at h
    cases h
  · rw [hw'] at h
    cases h

theorem Holding.self (hH : Holding s t p p' s') : s'.pc t = p' := by
  rw [hH.new, update_self]

theorem Holding.other (hH : Holding s t p p' s') (hu : u ≠ t) : s'.pc u = s.pc u := by
  rw [hH.new, update_of_ne hu]

theorem Holding.awake (hH : Holding s t p p' s') (hu : u ≠ t) (h : s.Awake u) : s'.Awake u := by
  unfold St.Awake
  rw [hH.other hu]
  exact h.imp_right (hH.signalled u hu)

theorem WakeInv.hold [Fintype W] (hW : WakeInv s) (hH : Holding s t p p' s') : WakeInv s' := by
  refine ⟨fun e u hb hu => ?_, ?_, fun u hu => ?_⟩
  · -- the acting thread is awake, if it waits at all
    have hself : p'.wait = some e → ∃ v, (s'.pc v).wait = some e ∧ s'.Awake v := by
      intro hw
      refine ⟨t, by rw [hH.self]; exact hw, .inl ?_⟩
      rw [hH.self]
      refine (hH.waits e hw).resolve_right ?_
      rw [hb]
      decide
    by_cases hut : u = t
    · rw [hut, hH.self] at hu
      exact hself hu
    · rcases hH.busy e hb with hold | hnew
      · rw [hH.other hut] at hu
        obtain ⟨v, hv, hawake⟩ := hW.entry e u hold hu
        by_cases hvt : v = t
        · rw [hvt, hH.old] at hv
          refine hself ((hH.got e hv).resolve_right ?_)
          rw [hb]
          decide
        · exact ⟨v, by rw [hH.other hvt]; exact hv, hH.awake hvt hawake⟩
      · exact hself hnew.1
  · by_cases hempty : s'.tab.reclaimable = []
    · rw [hempty]
      exact .inr (Nat.zero_le _)
    have hothers : ∀ u, u ≠ t → (s.pc u).reclaims = true ∧ s.Awake u →
        (s'.pc u).reclaims = true ∧ s'.Awake u := fun u hu hx =>
      ⟨by rw [hH.other hu]; exact hx.1, hH.awake hu hx.2⟩
    have hself : p'.reclaims = true → s'.Awake t := by
      intro hx
      refine .inl ?_
      rw [hH.self]
      exact (hH.wants hx).resolve_right hempty
    rcases hW.buffer with hall | hcount
    · refine .inl fun u hu => ?_
      by_cases hut : u = t
      · rw [hut, hH.self] at hu
        rw [hut]
        exact hself hu
      · rw [hH.other hut] at hu
        exact hH.awake hut (hall u hu)
    · refine .inr ?_
      by_cases hp : p.reclaims = true
      · rcases hH.took hp with hstay | hless | hx
        · -- it still wants one, and is awake
          refine (hH.recl.trans hcount).trans (countT_mono fun u hu => ?_)
          by_cases hut : u = t
          · rw [hut, hH.self]
            exact ⟨hstay.1, hself hstay.1⟩
          · exact hothers u hut hu
        · have := countT_le_succ (t := t) hothers
          omega
        · exact absurd hx hempty
      · refine (hH.recl.trans hcount).trans (countT_mono fun u hu => ?_)
        by_cases hut : u = t
        · rw [hut, hH.old] at hu
          exact absurd hu.1 hp
        · exact hothers u hut hu
  · have hzero : s.tab.allocatable = 0 → s'.tab.allocatable = 0 := fun hz =>
      Nat.le_zero.mp (hz ▸ hH.alloc)
    by_cases hut : u = t
    · rw [hut, hH.self] at hu
      refine (hH.full hu).elim (fun hp => hzero (hW.full t ?_)) id
      rw [hH.old]
      exact hp
    · rw [hH.other hut] at hu
      exact hzero (hW.full u hu)

/-- A change of the table that leaves busy flags and the reclaimable queue alone and frees no
buffer. -/
structure SameUse (tab tab' : Table) : Prop where
  busy : ∀ e, (tab'.ents e).busy = (tab.ents e).busy
  recl : tab'.reclaimable = tab.reclaimable
  alloc : tab'.allocatable ≤ tab.allocatable

theorem SameUse.refl (tab : Table) : SameUse tab tab := ⟨fun _ => rfl, rfl, le_refl _⟩

theorem SameUse.setEnt {tab' : Table} {e : Nat} {ent : Entry}
    (hents : tab'.ents = (tab.setEnt e ent).ents) (hbusy : ent.busy = (tab.ents e).busy)
    (hrecl : tab'.reclaimable = tab.reclaimable) (halloc : tab'.allocatable ≤ tab.allocatable) :
    SameUse tab tab' := by
  refine ⟨fun x => ?_, hrecl, halloc⟩
  rw [hents]
  exact Table.setEnt_proj Entry.busy hbusy x

theorem Holding.plain (hp : s.pc t = p) (hpc : s'.pc = update s.pc t p')
    (hsig : ∀ u, u ≠ t → s.signalled u = true → s'.signalled u = true) (tab : SameUse s.tab s'.tab)
    (hw : p.wait = none) (hw' : p'.wait = none) (hr : p.reclaims = false)
    (hr' : p'.reclaims = false) : Holding s t p p' s' := by
  refine ⟨hp, hpc, hsig, fun e hb => .inl ?_, ?_, ?_, le_of_eq (by rw [tab.recl]), ?_, ?_,
    tab.alloc, ?_⟩
  · rw [← tab.busy e]
    exact hb
  · rw [hw]
    exact nofun
  · rw [hw']
    exact nofun
  · rw [hr]
    exact nofun
  · rw [hr']
    exact nofun
  · rw [hr']
    exact nofun

theorem queueDeleteWithLink_length (queue : List Nat) (link : Bool) (e : Nat) :
    (queueDeleteWithLink queue link e).1.length ≤ queue.length := by
  unfold queueDeleteWithLink
  split
  next => exact length_erase_le
  next => exact le_refl _

/-- `_entry_acquire` starts. If it is for a buffer to reclaim, the entry is on the queue. -/
theorem Holding.enter {k : Acq} (hp : s.pc t = p) (hpc : s₁.pc = s.pc)
    (hsig : s₁.signalled = s.signalled)
    (hbusy : ∀ x, x ≠ e → (s₁.tab.ents x).busy = (s.tab.ents x).busy)
    (hrecl : s₁.tab.reclaimable = s.tab.reclaimable)
    (halloc : s₁.tab.allocatable = s.tab.allocatable) (hw : p.wait = none)
    (hqueued : p.reclaims = true → (s₁.tab.ents e).reclaimableLink = true ∧
      e ∈ s₁.tab.reclaimable)
    (h' : (s₁.enter t k e).abort = false) :
    Holding s t p (.acqLoop k e) (s₁.enter t k e) := by
  unfold St.enter at h' ⊢
  split at h'
  next he =>
    rw [if_pos he]
    refine ⟨hp, by rw [← hpc]; rfl, fun u _ hu => by rw [← hsig] at hu; exact hu,
      fun x hb => ?_, ?_,
      fun x _ => .inl rfl, ?_, fun hr => .inr (.inl ?_), nofun, le_of_eq halloc, nofun⟩
    · by_cases hxe : x = e
      · exact .inr ⟨congrArg some hxe.symm, rfl⟩
      · rw [← hbusy x hxe]
        refine .inl (Eq.trans ?_ hb)
        exact congrArg Entry.busy (Table.setEnt_ne _ _ hxe).symm
    · rw [hw]
      exact nofun
    · rw [← hrecl]
      exact queueDeleteWithLink_length _ _ _
    · obtain ⟨hlink, hmem⟩ := hqueued hr
      have hq : (s₁.tab.acquireEnter e).reclaimable = s₁.tab.reclaimable.erase e := by
        simp only [Table.acquireEnter, queueDeleteWithLink, hlink, if_true]
      show (s₁.tab.acquireEnter e).reclaimable.length + 1 ≤ s.tab.reclaimable.length
      rw [hq, ← hrecl, length_erase_of_mem hmem]
      have := length_pos_of_mem hmem
      omega
  next => cases h'

theorem holding_goto {c : Prop} [Decidable c] (hp : s.pc a.tid = p)
    (hs : (if c then some s₁ else none) = some s') (hpc : s₁.pc = update s.pc a.tid p')
    (hsig : s₁.signalled = s.signalled) (tab : SameUse s.tab s₁.tab) (hw : p.wait = none)
    (hw' : p'.wait = none) (hr : p.reclaims = false) (hr' : p'.reclaims = false) :
    ∃ p p', Holding s a.tid p p' s' := by
  split at hs
  next =>
    cases hs
    exact ⟨p, p', .plain hp hpc (fun u _ hu => by rw [hsig]; exact hu) tab hw hw' hr hr'⟩
  next => cases hs

theorem signal_spec [Fintype W] {wake : Tid W} (hsig : s.signal wake c = some s₁) :
    (∀ u, s.signalled u = true → s₁.signalled u = true) ∧
    ∀ d, c = some d → (∃ u, s.blockedOn d u = true ∧ s₁.signalled u = true) ∨
      ∀ u, s.blockedOn d u = false := by
  unfold St.signal at hsig
  split at hsig
  next =>
    cases hsig
    exact ⟨fun _ hu => hu, nofun⟩
  next c =>
    split at hsig
    next hb =>
      cases hsig
      refine ⟨fun u hu => ?_, ?_⟩
      · by_cases huw : u = wake
        · rw [huw]
          exact update_self ..
        · exact (update_of_ne huw ..).trans hu
      · intro d hd
        cases hd
        exact .inl ⟨wake, hb, update_self ..⟩
    next =>
      split at hsig
      next => cases hsig
      next hno =>
        cases hsig
        refine ⟨fun _ hu => hu, fun d hd => ?_⟩
        cases hd
        exact .inr fun u => Bool.eq_false_iff.mpr fun hu => hno ⟨u, hu⟩

/-- The lookup of `entry_acquire` touches its own entry only. -/
theorem lookupOrNew_use (tab : Table) (c : Nat) :
    (∀ x, x ≠ (tab.lookupOrNew c).2 →
      ((tab.lookupOrNew c).1.ents x).busy = (tab.ents x).busy) ∧
    (tab.lookupOrNew c).1.reclaimable = tab.reclaimable ∧
    (tab.lookupOrNew c).1.allocatable = tab.allocatable := by
  unfold Table.lookupOrNew
  split
  next => exact ⟨fun _ _ => rfl, rfl, rfl⟩
  next => exact ⟨fun x hx => congrArg Entry.busy (update_of_ne hx ..), rfl, rfl⟩

theorem holding_eaLock [Fintype W] (h' : s'.abort = false) (hp : s.pc a.tid = .eaLock io)
    (hs : stepAt s a (.eaLock io) = some s') : ∃ p p', Holding s a.tid p p' s' := by
  obtain ⟨hbusy, hrecl, halloc⟩ := lookupOrNew_use s.tab io.cur.chunk
  simp only [stepAt] at hs
  split at hs
  next =>
    cases hs
    exact ⟨_, _, .enter hp rfl rfl hbusy hrecl halloc rfl (absurd · Bool.false_ne_true) h'⟩
  next => cases hs

theorem holding_acqLoop [Fintype W] {k : Acq} (hp : s.pc a.tid = .acqLoop k e)
    (hs : stepAt s a (.acqLoop k e) = some s') : ∃ p p', Holding s a.tid p p' s' := by
  simp only [stepAt] at hs
  split at hs
  next hb =>
    cases hs
    refine ⟨_, .acqWait k e, .acquiring hp rfl (fun u hu hx => ?_) (fun x hx => .inl hx)
      (fun x hx => .inl hx) (fun x hx => .inr ?_) (le_refl _) rfl rfl (le_refl _)⟩
    · exact (update_of_ne hu ..).trans hx
    · cases hx
      exact hb
  next hb =>
    have key : ∀ {s₁ : St P W}, s₁.tab = s.tab.acquireTake e → s₁.signalled = s.signalled →
        s₁.pc = update s.pc a.tid (k.next e) → Holding s a.tid (.acqLoop k e) (k.next e)
          s₁ := by
      intro s₁ htab hsig hpc
      have hw : (k.next e).wait = none := by cases k <;> rfl
      have hr : (k.next e).reclaims = false := by cases k <;> rfl
      refine .acquiring hp hpc (fun u _ hu => by rw [hsig]; exact hu) (fun x hx => .inl ?_)
        (fun x hx => .inr ?_) (fun x hx => ?_) (le_of_eq (by rw [htab]; rfl)) rfl hr
        (le_of_eq (by rw [htab]; rfl))
      · rw [htab] at hx
        by_cases hxe : x = e
        · rw [hxe]
          simpa using hb
        · exact (congrArg Entry.busy (Table.setEnt_ne _ _ hxe)).symm.trans hx
      · cases hx
        rw [htab]
        exact congrArg Entry.busy (Table.setEnt_self ..)
      · rw [hw] at hx
        cases hx
    split at hs <;> cases hs <;> exact ⟨_, _, key rfl rfl rfl⟩

theorem holding_eaReclaim [Fintype W] (h : Inv n s) (h' : s'.abort = false)
    (hp : s.pc a.tid = .eaReclaim io e) (hs : stepAt s a (.eaReclaim io e) = some s') :
    ∃ p p', Holding s a.tid p p' s' := by
  simp only [stepAt] at hs
  split at hs
  next hq =>
    cases hs
    exact ⟨_, .eaReclaimWait io e, .reclaiming hp rfl
      (fun u hu hx => (update_of_ne hu ..).trans hx) (fun x hx => hx) rfl rfl
      (le_refl _) (fun _ => .inr (.inr hq)) (fun _ => .inr hq) (le_refl _)
      fun _ => .inl rfl⟩
  next r rest hq =>
    cases hs
    have hmem : r ∈ s.tab.reclaimable := by
      rw [hq]
      exact mem_cons_self ..
    have hlink := (h.tabInv.ent r (h.tabInv.recl_live r hmem)).reclOk.link.mpr hmem
    exact ⟨_, _, .enter hp rfl rfl (fun _ _ => rfl) rfl rfl rfl (fun _ => ⟨hlink, hmem⟩) h'⟩

/-- Where `entry_clean_all` returns to; the cleaner goes to sleep there. -/
def CleanAll.after (s : St P W) : CleanAll → Pc
  | .cleaner => .clWait !s.tab.dirty.isEmpty
  | .sync => .syncFlush
  | .shutdown => .shFree

theorem holding_finish {k : CleanAll} (hp : s.pc a.tid = p) (hw : p.wait = none)
    (hr : p.reclaims = false) (hs : some (k.finish s a.tid) = some s') :
    Holding s a.tid p (k.after s) s' := by
  cases hs
  cases k with
  | cleaner =>
    exact .plain hp rfl (fun u hu hx => (update_of_ne hu ..).trans hx) (.refl _) hw rfl hr
      rfl
  | sync | shutdown => exact .plain hp rfl (fun u _ hx => hx) (.refl _) hw rfl hr rfl

theorem Inv.holding [Fintype W] (h : Inv n s) (hs : Fuse.step s a = some s')
    (hno : ∀ k e, s.pc a.tid ≠ .release k e) : ∃ p p', Holding s a.tid p p' s' := by
  have h' := (h.step hs).alive
  have hs := h.stepAt_of_step hs
  generalize hp : s.pc a.tid = p at hs hno
  have plain : ∀ {p' : Pc} {s₁ : St P W}, some s₁ = some s' →
      s₁.pc = update s.pc a.tid p' → s₁.signalled = s.signalled →
      SameUse s.tab s₁.tab → (p.wait, p'.wait, p.reclaims, p'.reclaims)
        = (none, none, false, false) → ∃ p p', Holding s a.tid p p' s' := by
    intro p' s₁ hs hpc hsig tab hw
    simp only [Prod.mk.injEq] at hw
    obtain ⟨hw, hw', hr, hr'⟩ := hw
    cases hs
    exact ⟨p, p', .plain hp hpc (fun u _ hu => by rw [hsig]; exact hu) tab hw hw' hr hr'⟩
  cases p with
  | release k e => exact absurd rfl (hno k e)
  | eaLock io => exact holding_eaLock h' hp hs
  | acqLoop k e => exact holding_acqLoop hp hs
  | eaReclaim io e => exact holding_eaReclaim h h' hp hs
  | acqWait k e =>
    simp only [stepAt] at hs
    split at hs
    next =>
      cases hs
      exact ⟨_, .acqLoop k e, .acquiring hp rfl (fun u _ hx => hx) (fun x hx => .inl hx)
        (fun x hx => .inl hx) (fun x _ => .inl rfl) (le_refl _) rfl rfl (le_refl _)⟩
    next => cases hs
  | eaReclaimWait io e =>
    simp only [stepAt] at hs
    split at hs
    next =>
      cases hs
      exact ⟨_, .eaReclaim io e, .reclaiming hp rfl (fun u _ hx => hx) (fun x hx => hx) rfl rfl
        (le_refl _) (fun _ => .inl ⟨rfl, rfl⟩) (fun _ => .inl rfl) (le_refl _)
        fun _ => .inl rfl⟩
    next => cases hs
  | eaData io e =>
    simp only [stepAt] at hs
    split at hs
    next => exact plain hs rfl rfl (.refl _) rfl
    split at hs
    next => exact plain hs rfl rfl (.setEnt rfl rfl rfl (Nat.sub_le _ _)) rfl
    next hz =>
      cases hs
      exact ⟨_, .eaReclaim io e, .reclaiming hp rfl (fun u _ hx => hx) (fun x hx => hx) rfl rfl
        (le_refl _) (absurd · Bool.false_ne_true) (fun _ => .inl rfl) (le_refl _)
        fun _ => .inr (Nat.eq_zero_of_not_pos hz)⟩
  | caLoop k =>
    simp only [stepAt] at hs
    split at hs
    next => exact ⟨_, _, holding_finish hp rfl rfl hs⟩
    cases hs
    exact ⟨_, _, .enter hp rfl rfl (fun _ _ => rfl) rfl rfl rfl (absurd · Bool.false_ne_true) h'⟩
  | shFree =>
    simp only [stepAt] at hs
    split at hs
    next =>
      cases hs
      exact ⟨_, _, .enter hp rfl rfl (fun _ _ => rfl) rfl rfl rfl (absurd · Bool.false_ne_true) h'⟩
    next =>
      split at hs
      next => exact plain hs rfl rfl (.refl _) rfl
      cases hs
      cases h'
  | cleanStart k e =>
    simp only [stepAt] at hs
    split at hs
    next =>
      cases hs
      cases h'
    next tab htab =>
      obtain ⟨q, link, rfl⟩ := Table.cleanStart_eq htab
      exact plain hs rfl rfl (.setEnt rfl rfl rfl (le_refl _)) rfl
  | cleanUpdate k e =>
    simp only [stepAt] at hs
    split at hs
    next =>
      cases hs
      cases h'
    next => split at hs <;> exact plain hs rfl rfl (.refl _) rfl
  | cleanFailed k e | fillFailed io e =>
    exact plain hs rfl rfl (.setEnt rfl rfl rfl (le_refl _)) rfl
  | cleanLock k e =>
    refine holding_goto hp hs rfl rfl (.setEnt rfl rfl rfl (le_refl _)) rfl ?_ rfl ?_
    · cases k <;> rfl
    · cases k <;> rfl
  | eaSteal io e r =>
    obtain ⟨-, hdata, hdata', -⟩ := h.ok hp
    have hne : e ≠ r := fun hx => hdata' (hx ▸ hdata)
    simp only [stepAt] at hs
    split at hs
    next =>
      cases hs
      cases h'
    next tab htab =>
      obtain ⟨b, -, rfl⟩ := Table.stealData_eq htab hne
      refine plain hs rfl rfl ⟨fun x => ?_, rfl, le_refl _⟩ rfl
      refine (Table.setEnt_proj Entry.busy ?_ x).trans (Table.setEnt_proj Entry.busy (by rfl) x)
      rw [Table.setEnt_ne _ _ (Ne.symm hne)]
  | eaFill io e =>
    simp only [stepAt] at hs
    split at hs
    next =>
      split at hs
      next =>
        cases hs
        cases h'
      next => split at hs <;> exact plain hs rfl rfl (.refl _) rfl
      next => exact plain hs rfl rfl (.refl _) rfl
    next => exact plain hs rfl rfl (.refl _) rfl
  | ioBody io e =>
    simp only [stepAt] at hs
    split at hs
    next => exact plain hs rfl rfl (.refl _) rfl
    split at hs
    next =>
      cases hs
      cases h'
    next => split at hs <;> exact plain hs rfl rfl (.refl _) rfl
  | erLock io e failed =>
    simp only [stepAt] at hs
    split at hs
    next =>
      split at hs
      next =>
        split at hs
        next =>
          cases hs
          cases h'
        next tab c htab =>
          simp only [Option.map_eq_some_iff] at hs
          obtain ⟨s₁, hsig, rfl⟩ := hs
          have hmono := (signal_spec hsig).1
          obtain ⟨f, rfl⟩ := St.signal_eq hsig
          refine ⟨_, _, .plain hp rfl (fun u _ hu => hmono u hu) ?_ rfl rfl rfl rfl⟩
          rcases Table.markDirty_eq htab with ⟨-, rfl, -⟩ | ⟨-, q, link, rfl⟩
          · exact .refl _
          · exact .setEnt rfl rfl rfl (le_refl _)
      next => exact plain hs rfl rfl (.refl _) rfl
    next => cases hs
  | shStop =>
    simp only [stepAt] at hs
    split at hs
    next =>
      simp only [Option.map_eq_some_iff] at hs
      obtain ⟨s₁, hsig, rfl⟩ := hs
      have hmono := (signal_spec hsig).1
      obtain ⟨f, rfl⟩ := St.signal_eq hsig
      exact ⟨_, _, .plain hp rfl (fun u _ hu => hmono u hu) (.refl _) rfl rfl rfl rfl⟩
    next => cases hs
  | shDrop e =>
    simp only [stepAt] at hs
    split at hs
    next =>
      cases hs
      cases h'
    next tab htab =>
      rw [Table.dropData_eq htab] at hs
      exact plain hs rfl rfl (.setEnt rfl rfl rfl (le_refl _)) rfl
  | idle =>
    simp only [stepAt] at hs
    split at hs
    next => split at hs <;> exact plain hs rfl rfl (.refl _) rfl
    next => cases hs
  | ioNext io | eaReclaimed io e r | clTest =>
    simp only [stepAt] at hs
    split at hs <;> exact plain hs rfl rfl (.refl _) rfl
  | caDirty k e =>
    simp only [stepAt] at hs
    split at hs
    next => exact plain hs rfl rfl (.refl _) rfl
    next => split at hs <;> exact plain hs rfl rfl (.refl _) rfl
  | syncFlush => exact plain hs rfl rfl (.refl _) rfl
  | syncLock | clLock | clWait timed | running | shJoin | shLock =>
    exact holding_goto hp hs rfl rfl (.refl _) rfl rfl rfl rfl
  | clExit | shDone => cases hs

/-! ## `_entry_release` -/

/-- After `_entry_release` a thread goes on to a place where it waits for no entry or buffer. -/
theorem finish_spec (k : Rel) (s : St P W) (t : Tid W) : ∃ p',
    (k.finish s t).pc = update s.pc t p' ∧ p'.wait = none ∧ p'.reclaims = false ∧
      (k.finish s t).tab = s.tab ∧
      ∀ u, u ≠ t → (k.finish s t).signalled u = s.signalled u := by
  cases k with
  | request io failed =>
    cases failed <;> exact ⟨_, rfl, rfl, rfl, rfl, fun _ _ => rfl⟩
  | stop k =>
    cases k with
    | cleaner => exact ⟨_, rfl, rfl, rfl, rfl, fun u hu => update_of_ne hu ..⟩
    | sync | shutdown => exact ⟨_, rfl, rfl, rfl, rfl, fun _ _ => rfl⟩
  | _ => exact ⟨_, rfl, rfl, rfl, rfl, fun _ _ => rfl⟩

omit [DecidableEq W] in
theorem Pc.wait_cases {p : Pc} (hw : p.wait = some e) (hl : p.locked = false) :
    p.waitsOn = some (.available e) := by
  cases p with
  | acqLoop k x => cases hl
  | acqWait k x => exact congrArg (fun y => some (Cond.available y)) (Option.some.inj hw)
  | _ => cases hw

omit [DecidableEq W] in
theorem Pc.wait_of_waitsOn {p : Pc} (h : p.waitsOn = some (.available e)) : p.wait = some e := by
  cases p with
  | acqWait k x =>
    cases h
    rfl
  | _ => cases h

omit [DecidableEq W] in
theorem Pc.reclaims_iff {p : Pc} (hl : p.locked = false) :
    p.reclaims = true ↔ p.waitsOn = some .reclaimable := by
  cases p <;> simp_all [Pc.reclaims, Pc.waitsOn, Pc.locked]

/-- What `_entry_release` does to who is awake, wherever its thread goes on. -/
structure Releasing (s : St P W) (t : Tid W) (e : Nat) (tab : Table) (c : Option Cond)
    (s' : St P W) : Prop where
  table : Released s.tab e tab c
  pc : ∃ p', s'.pc = update s.pc t p' ∧ p'.wait = none ∧ p'.reclaims = false
  tab : s'.tab = tab
  awake : ∀ u, u ≠ t → s.Awake u → s'.Awake u
  wakes : ∀ d, c = some d → (∃ u, u ≠ t ∧ s.blockedOn d u = true ∧ s'.Awake u) ∨
    ∀ u, s.blockedOn d u = false
  locked : ∀ u, u ≠ t → (s.pc u).locked = false

theorem Inv.releasing [Fintype W] (h : Inv n s) (hp : s.pc a.tid = .release k e)
    (hs : stepAt s a (.release k e) = some s') : ∃ tab c, Releasing s a.tid e tab c s' := by
  obtain ⟨tab, c, heq, hrel, -⟩ := h.tabInv.entryRelease (t := a.tid) (e := e)
    (r := ⟨k.own, none, none, nofun⟩) (by rw [hp]; rfl) (by rw [hp]; rfl) (by rw [hp]; rfl)
  simp only [stepAt, heq] at hs
  split at hs
  next => cases hs
  next s₁ hsig =>
    obtain ⟨hmono, hwakes⟩ := signal_spec hsig
    obtain ⟨f, rfl⟩ := St.signal_eq hsig
    cases hs
    obtain ⟨p', hpc, hw, hr, htab, hsame⟩ :=
      finish_spec k { s.setTab tab with signalled := f } a.tid
    have hawake : ∀ u, u ≠ a.tid → (s.pc u).waitsOn = none ∨ f u = true →
        (k.finish { s.setTab tab with signalled := f } a.tid).Awake u := by
      intro u hu hx
      unfold St.Awake
      rw [hpc, update_of_ne hu, hsame u hu]
      exact hx
    refine ⟨tab, c, hrel, ⟨p', hpc, hw, hr⟩, htab,
      fun u hu hx => hawake u hu (hx.imp_right (hmono u)), fun d hd => ?_, fun u hu => ?_⟩
    · refine (hwakes d hd).imp_left ?_
      rintro ⟨u, hblocked, hu⟩
      have hne : u ≠ a.tid := by
        rintro rfl
        have hb : ((s.pc a.tid).waitsOn == some d && !s.signalled a.tid) = true := hblocked
        rw [hp] at hb
        cases hb
      exact ⟨u, hne, hblocked, hawake u hne (.inr hu)⟩
    · -- the acting thread has the lock
      by_contra hx
      have hl := h.held hp rfl
      rw [(h.lock u).mp (by simpa using hx), Option.some.injEq] at hl
      exact hu hl

section

variable (hR : Releasing s t e tab c s')
include hR

theorem Releasing.other (hu : u ≠ t) : s'.pc u = s.pc u := by
  obtain ⟨p', hpc, -⟩ := hR.pc
  rw [hpc, update_of_ne hu]

theorem Releasing.ne_of_wait {x : Nat} (hu : (s'.pc u).wait = some x) : u ≠ t := by
  rintro rfl
  obtain ⟨p', hpc, hw, -⟩ := hR.pc
  rw [hpc, update_self, hw] at hu
  cases hu

theorem Releasing.ne_of_reclaims (hu : (s'.pc u).reclaims = true) : u ≠ t := by
  rintro rfl
  obtain ⟨p', hpc, -, hr⟩ := hR.pc
  rw [hpc, update_self, hr] at hu
  cases hu

end

omit [DecidableEq W] in
theorem St.awake_of_not_blocked {d : Cond} (hd : (s.pc u).waitsOn = some d)
    (hb : s.blockedOn d u = false) : s.Awake u := by
  right
  simpa [St.blockedOn, hd] using hb

theorem Releasing.entry [Fintype W] (hR : Releasing s t e tab c s') (h : Inv n s)
    (hp : s.pc t = .release k e) (hu : (s'.pc u).wait = some e) :
    ∃ v, (s'.pc v).wait = some e ∧ s'.Awake v := by
  have hut := hR.ne_of_wait hu
  have hold : (s.pc u).wait = some e := by rwa [hR.other hut] at hu
  have he := h.tabInv.own_live t e (by rw [hp]; exact mem_cons_self ..)
  have hcount : (s.tab.ents e).waiters ≠ 0 := by
    rw [(h.tabInv.ent e he).busyOk.waiters]
    exact fun hz => countT_eq_zero.mp hz u hold
  cases hR.table with
  | handed =>
    rcases hR.wakes _ rfl with ⟨v, hvt, hb, hawake⟩ | hno
    · simp only [St.blockedOn, Bool.and_eq_true, beq_iff_eq] at hb
      exact ⟨v, by rw [hR.other hvt]; exact Pc.wait_of_waitsOn hb.1, hawake⟩
    · have hon := Pc.wait_cases hold (hR.locked u hut)
      exact ⟨u, hu, hR.awake u hut (St.awake_of_not_blocked hon (hno u))⟩
  | freed hw | queued hw => exact absurd hw hcount

theorem WakeInv.release [Fintype W] (hW : WakeInv s) (h : Inv n s) (hp : s.pc t = .release k e)
    (hR : Releasing s t e tab c s') : WakeInv s' := by
  have hnot : (s.pc t).reclaims = false := by
    rw [hp]
    rfl
  have hback : ∀ u, (s'.pc u).reclaims = true → u ≠ t ∧ (s.pc u).reclaims = true := by
    intro u hu
    have hut := hR.ne_of_reclaims hu
    exact ⟨hut, by rwa [hR.other hut] at hu⟩
  have hforth : ∀ u, (s.pc u).reclaims = true ∧ s.Awake u →
      (s'.pc u).reclaims = true ∧ s'.Awake u := by
    rintro u ⟨hu, hawake⟩
    have hut : u ≠ t := by
      rintro rfl
      rw [hnot] at hu
      cases hu
    exact ⟨by rw [hR.other hut]; exact hu, hR.awake u hut hawake⟩
  have hall : (∀ u, (s.pc u).reclaims = true → s.Awake u) →
      ∀ u, (s'.pc u).reclaims = true → s'.Awake u := fun hx u hu =>
    hR.awake u (hback u hu).1 (hx u (hback u hu).2)
  refine ⟨fun x u hb hu => ?_, ?_, fun u hu => ?_⟩
  · by_cases hxe : x = e
    · subst hxe
      exact hR.entry h hp hu
    · have hut := hR.ne_of_wait hu
      have hbusy : (s.tab.ents x).busy = false := by
        rw [hR.tab] at hb
        cases hR.table with
        | handed | freed | queued =>
          exact (congrArg Entry.busy (Table.setEnt_ne _ _ hxe)).symm.trans hb
      rw [hR.other hut] at hu
      obtain ⟨v, hv, hawake⟩ := hW.entry x u hbusy hu
      have hvt : v ≠ t := by
        rintro rfl
        rw [hp] at hv
        cases hv
      exact ⟨v, by rw [hR.other hvt]; exact hv, hR.awake v hvt hawake⟩
  · rw [hR.tab]
    cases hR.table with
    | handed | freed => exact hW.buffer.imp hall fun hx => hx.trans (countT_mono hforth)
    | queued =>
      rcases hR.wakes _ rfl with ⟨v, hvt, hb, hawake⟩ | hno
      · -- one buffer more, and one more thread is awake
        refine hW.buffer.imp hall fun hx => ?_
        simp only [St.blockedOn, Bool.and_eq_true, beq_iff_eq, Bool.not_eq_true'] at hb
        have hv := (Pc.reclaims_iff (hR.locked v hvt)).mpr hb.1
        have hlt := countT_lt (t := v) hforth
          (fun hy => by rcases hy.2 with hz | hz <;> simp_all)
          ⟨by rw [hR.other hvt]; exact hv, hawake⟩
        simp only [length_append, length_singleton]
        omega
      · refine .inl (hall fun u hu => ?_)
        have hut : u ≠ t := by
          rintro rfl
          rw [hnot] at hu
          cases hu
        exact St.awake_of_not_blocked ((Pc.reclaims_iff (hR.locked u hut)).mp hu) (hno u)
  · have halloc : s'.tab.allocatable = s.tab.allocatable := by
      rw [hR.tab]
      cases hR.table <;> rfl
    rw [halloc]
    exact hW.full u (hback u hu).2

theorem WakeInv.step [Fintype W] (hW : WakeInv s) (h : Inv n s) (hs : Fuse.step s a = some s') :
    WakeInv s' := by
  by_cases hrel : ∃ k e, s.pc a.tid = .release k e
  · obtain ⟨k, e, hp⟩ := hrel
    have hs := h.stepAt_of_step hs
    rw [hp] at hs
    obtain ⟨tab, c, hR⟩ := h.releasing hp hs
    exact hW.release h hp hR
  · obtain ⟨p, p', hH⟩ := h.holding hs fun k e hp => hrel ⟨k, e, hp⟩
    exact hW.hold hH

theorem wakeInv_init [Fintype W] (allocatable : Nat) (disk : Nat → Data P) :
    WakeInv (init W allocatable disk) := by
  refine ⟨fun e t _ ht => ?_, .inl fun t ht => ?_, fun t ht => ?_⟩
  all_goals cases t <;> cases ht

end steps

end OpenIsr.Fuse
