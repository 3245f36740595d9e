import OpenIsr.Fuse.Wakeup

/-!
# No deadlock

A thread that is not asleep can move as soon as the image lock is free, and the thread that has the
lock can always move. So the image could only come to rest with threads asleep on entries, or for
want of a buffer. Follow one of them. An entry it waits for is free, and then `WakeInv` has another
waiter awake; or its owner is awake; or the owner sleeps for want of a buffer itself. A buffer that
is wanted exists somewhere, since there is at least one. Its entry is busy, and then the owner does
not want a buffer, for it has one; or it has waiters, one of them awake; or it is on the reclaimable
queue, and `WakeInv` has a thread awake to take it. The chain has ended: who sleeps for a buffer
waits for nobody who does.
-/

namespace OpenIsr.Fuse

open Base (countT_exists)
open Table (Cond)

variable {P : Parcel} {W : Type} {e : Nat}

/-- The thread is not in the middle of a request or of a cleaning pass: a worker without a request,
the cleaner between two passes, the main thread in the FUSE loop or waiting for the cleaner thread
to end. The last two can rest together: if `image_shutdown` signals during a pass of the cleaner and
nothing is dirty after it, the cleaner waits without a limit, and the process hangs. -/
def Pc.resting : Pc → Bool
  | .idle | .clWait _ | .clExit | .running | .shJoin | .shDone => true
  | _ => false

variable {p : Pc}

theorem Pc.resting_of_locked (h : p.locked = true) : p.resting = false ∧ p.waitsOn = none := by
  cases p <;> first | exact ⟨rfl, rfl⟩ | cases h

theorem Pc.resting_of_mem_own (h : e ∈ p.own) : p.resting = false := by
  cases p <;> first | rfl | cases h

theorem Pc.resting_of_wait (h : p.wait = some e) : p.resting = false := by
  cases p <;> first | rfl | cases h

theorem Pc.resting_of_reclaims (h : p.reclaims = true) : p.resting = false := by
  cases p <;> first | rfl | cases h

section enabled

variable [DecidableEq W] [Fintype W] {n : Nat} {s : St P W} {t : Tid W} {c : Option Cond}

/-- The thread can make a step. A thread blocked on a condition variable needs a signal: neither a
spurious wakeup nor the cleaner's timeout counts, and neither does a new request, or the end of the
FUSE loop. -/
def St.Enabled (s : St P W) (t : Tid W) : Prop :=
  s.pc t ≠ .idle ∧ s.pc t ≠ .running ∧ s.Awake t ∧
    ∃ a : Act P W, a.tid = t ∧ a.spurious = false ∧ (step s a).isSome

theorem St.exists_signal (s : St P W) (c : Option Cond) (t : Tid W) :
    ∃ wake s₁, s.signal wake c = some s₁ := by
  cases c with
  | none => exact ⟨t, s, rfl⟩
  | some c =>
    by_cases hb : ∃ u, s.blockedOn c u = true
    · obtain ⟨u, hu⟩ := hb
      exact ⟨u, _, if_pos hu⟩
    · refine ⟨t, s, ?_⟩
      rw [St.signal, if_neg fun ht => hb ⟨t, ht⟩, if_neg hb]

theorem Inv.signal_cleaner (h : Inv n s) (s₁ : St P W) (hpc : s₁.pc = s.pc)
    (hc : c = none ∨ c = some .cleaner) : (s₁.signal .cleaner c).isSome = true := by
  rcases hc with rfl | rfl
  · rfl
  by_cases hb : s₁.blockedOn .cleaner .cleaner = true
  · rw [St.signal, if_pos hb]
    rfl
  · have hno : ¬ ∃ u, s₁.blockedOn .cleaner u = true := by
      rintro ⟨u, hu⟩
      have hon : (s.pc u).waitsOn = some .cleaner := by
        simp only [St.blockedOn, Bool.and_eq_true, beq_iff_eq, hpc] at hu
        exact hu.1
      have hk : (s.pc u).kind = .cleaner := by
        generalize s.pc u = p at hon
        cases p <;> first | rfl | cases hon
      rw [h.kind u] at hk
      cases u with
      | cleaner => exact hb hu
      | main | fuse w => cases hk
    rw [St.signal, if_neg hb, if_neg hno]
    rfl

theorem markDirty_cond {tab tab' : Table} {now : Nat} (h : tab.markDirty e now = some (tab', c)) :
    c = none ∨ c = some .cleaner := by
  simp only [Table.markDirty] at h
  split at h
  next =>
    cases h
    exact .inl rfl
  next =>
    split at h
    next => cases h
    cases h
    split
    next => exact .inr rfl
    next => exact .inl rfl

theorem Inv.enabled (h : Inv n s) (hrest : (s.pc t).resting = false) (hawake : s.Awake t)
    (hl : (s.pc t).locked = true ∨ s.lock = none) : s.Enabled t := by
  have key : ∀ a : Act P W, a.tid = t → a.spurious = false →
      (stepAt s a (s.pc t)).isSome = true → s.Enabled t := by
    rintro a rfl hsp hs
    refine ⟨fun hx => ?_, fun hx => ?_, hawake, a, rfl, hsp, by rwa [h.step_eq]⟩
    all_goals
      rw [hx] at hrest
      cases hrest
  generalize hp : s.pc t = p at hrest hl key
  cases p with
  | release k e =>
    obtain ⟨tab, c, heq, -⟩ := h.tabInv.entryRelease (t := t) (e := e)
      (r := ⟨k.own, none, none, by simp⟩) (by rw [hp]; rfl) (by rw [hp]; rfl) (by rw [hp]; rfl)
    obtain ⟨wake, s₁, hsig⟩ := (s.setTab tab).exists_signal c t
    refine key { Act.go t with wake } rfl rfl ?_
    simp only [stepAt, heq, hsig]
    rfl
  | erLock io e failed =>
    have hfree : s.lock = none := hl.resolve_left Bool.false_ne_true
    refine key (Act.go t) rfl rfl ?_
    simp only [stepAt, hfree, if_true]
    split
    next =>
      split
      next => rfl
      next htab =>
        rw [Option.isSome_map]
        refine h.signal_cleaner _ ?_ (markDirty_cond htab)
        rfl
    next => rfl
  | shStop =>
    have hfree : s.lock = none := hl.resolve_left Bool.false_ne_true
    refine key (Act.go t) rfl rfl ?_
    simp only [stepAt, hfree, if_true]
    rw [Option.isSome_map]
    refine h.signal_cleaner _ ?_ (.inr rfl)
    rfl
  | acqWait k e | eaReclaimWait io e =>
    have hfree : s.lock = none := hl.resolve_left Bool.false_ne_true
    have hsig : s.signalled t = true := by
      refine hawake.resolve_left ?_
      rw [hp]
      exact Option.some_ne_none _
    refine key (Act.go t) rfl rfl ?_
    simp only [stepAt]
    rw [if_pos ⟨hfree, .inl hsig⟩]
    rfl
  | eaLock io | cleanLock k e | syncLock | clLock | shLock =>
    have hfree : s.lock = none := hl.resolve_left Bool.false_ne_true
    refine key (Act.go t) rfl rfl ?_
    simp only [stepAt]
    rw [if_pos hfree]
    rfl
  | idle | clWait timed | clExit | running | shJoin | shDone => cases hrest
  | _ =>
    refine key (Act.go t) rfl rfl ?_
    simp only [stepAt]
    repeat' split
    all_goals rfl

/-! ## Who sleeps -/

omit [DecidableEq W] in
theorem Inv.owner_awake (h : Inv n s) (he : e ∈ (s.pc t).own) :
    s.Awake t ∨ (s.pc t).reclaims = true ∧ (s.tab.ents e).data = none := by
  have hok := h.pcOk t
  unfold St.Awake
  generalize s.pc t = p at he hok
  cases p with
  | acqWait k x =>
    cases k with
    | reclaim io y =>
      -- an entry from the reclaimable queue is free
      have hfree : AcqOk P s.tab true x (.reclaim io y) := hok
      cases hfree.2.2.1
    | _ => cases he
  | eaReclaimWait io x =>
    have hx : IoOk P s.tab io x ∧ (s.tab.ents x).data = none := hok
    rw [List.mem_singleton.mp he]
    exact .inr ⟨rfl, hx.2⟩
  | clWait timed => cases he
  | _ => exact .inl (.inl rfl)

section

variable (h : Inv n s) (hW : WakeInv s)
include h hW

omit [DecidableEq W] in
theorem Inv.exists_buffer (hn : 0 < n) (ht : (s.pc t).reclaims = true) :
    ∃ x ∈ s.tab.chunks, (s.tab.ents x).data ≠ none := by
  have hk : t.kind = .fuse := by
    rw [← h.kind t]
    generalize s.pc t = p at ht
    cases p <;> first | rfl | cases ht
  have hst : (s.pc .main).stage < 3 := by
    by_contra hge
    cases t with
    | fuse w =>
      rw [h.quiet (by omega) w] at ht
      cases ht
    | main | cleaner => cases hk
  have htotal : s.tab.chunks.countP (fun e => (s.tab.ents e).data.isSome) + s.tab.allocatable = n :=
    h.total hst
  rw [hW.full t ht] at htotal
  have hpos : 0 < s.tab.chunks.countP fun e => (s.tab.ents e).data.isSome := by omega
  obtain ⟨x, hx, hdata⟩ := List.countP_pos_iff.mp hpos
  exact ⟨x, hx, fun hno => by rw [hno] at hdata; cases hdata⟩

theorem Inv.enabled_of_wait (hl : s.lock = none) (hb : (s.tab.ents e).busy = false)
    (ht : (s.pc t).wait = some e) : ∃ u, s.Enabled u := by
  obtain ⟨u, hu, hawake⟩ := hW.entry e t hb ht
  exact ⟨u, h.enabled (Pc.resting_of_wait hu) hawake (.inr hl)⟩

/-- While some thread wants a buffer, some thread can move. -/
theorem Inv.enabled_of_reclaims (hn : 0 < n) (hl : s.lock = none) (ht : (s.pc t).reclaims = true) :
    ∃ u, s.Enabled u := by
  obtain ⟨x, hx, hdata⟩ := h.exists_buffer hW hn ht
  have hent := h.tabInv.ent x hx
  by_cases hb : (s.tab.ents x).busy = true
  · obtain ⟨u, hu⟩ := hent.busyOk.busy.mp hb
    have hawake := (h.owner_awake hu).resolve_right fun hno => hdata hno.2
    exact ⟨u, h.enabled (Pc.resting_of_mem_own hu) hawake (.inr hl)⟩
  · rw [Bool.not_eq_true] at hb
    by_cases hw : (s.tab.ents x).waiters = 0
    · have hmem := hent.reclOk.recl.mpr ⟨hb, hw, hdata⟩
      have hawake : ∃ u, (s.pc u).reclaims = true ∧ s.Awake u := by
        rcases hW.buffer with hall | hcount
        · exact ⟨t, ht, hall t ht⟩
        · exact countT_exists ((List.length_pos_of_mem hmem).trans_le hcount)
      obtain ⟨u, hu, hawake⟩ := hawake
      exact ⟨u, h.enabled (Pc.resting_of_reclaims hu) hawake (.inr hl)⟩
    · rw [hent.busyOk.waiters] at hw
      obtain ⟨u, hu⟩ := countT_exists (pos_of_ne_zero hw)
      exact h.enabled_of_wait hW hl hb hu

theorem Inv.exists_enabled (hn : 0 < n) (ht : (s.pc t).resting = false) : ∃ u, s.Enabled u := by
  cases hl : s.lock with
  | some u =>
    have hu := (h.lock u).mpr hl
    obtain ⟨hrest, hon⟩ := Pc.resting_of_locked hu
    exact ⟨u, h.enabled hrest (.inl hon) (.inl hu)⟩
  | none =>
    by_cases hawake : s.Awake t
    · exact ⟨t, h.enabled ht hawake (.inr hl)⟩
    generalize hp : s.pc t = p at ht
    cases p with
    | eaReclaimWait io e =>
      refine h.enabled_of_reclaims hW hn hl (t := t) ?_
      rw [hp]
      rfl
    | acqWait k e =>
      have hw : (s.pc t).wait = some e := by
        rw [hp]
        rfl
      by_cases hb : (s.tab.ents e).busy = true
      · have he := h.tabInv.wait_live t e hw
        obtain ⟨u, hu⟩ := (h.tabInv.ent e he).busyOk.busy.mp hb
        rcases h.owner_awake hu with hx | hx
        · exact ⟨u, h.enabled (Pc.resting_of_mem_own hu) hx (.inr hl)⟩
        · exact h.enabled_of_reclaims hW hn hl hx.1
      · rw [Bool.not_eq_true] at hb
        exact h.enabled_of_wait hW hl hb hw
    | clWait timed => cases ht
    | _ =>
      refine absurd (.inl ?_) hawake
      rw [hp]
      rfl

end

theorem wakeInv_reach {C : St P W → Act P W → Prop} {allocatable : Nat} {disk : Nat → Data P}
    (hr : Base.Reach step C (init W allocatable disk) s) : Inv allocatable s ∧ WakeInv s :=
  hr.inv (I := fun s => Inv allocatable s ∧ WakeInv s)
    ⟨inv_init allocatable disk, wakeInv_init allocatable disk⟩
    fun _ _ _ hi _ hs => ⟨hi.1.step hs, hi.2.step hi.1 hs⟩

/-- With at least one buffer the image never deadlocks: in every reachable state in which some
thread is in the middle of a request or a cleaning pass, some thread can move. -/
theorem no_deadlock (allocatable : Nat) (disk : Nat → Data P) (hn : 0 < allocatable)
    (hr : Base.Reach step (fun _ _ => True) (init W allocatable disk) s)
    (ht : ∃ t, (s.pc t).resting = false) : ∃ u, s.Enabled u := by
  obtain ⟨t, ht⟩ := ht
  obtain ⟨h, hW⟩ := wakeInv_reach hr
  exact h.exists_enabled hW hn ht

end enabled

/-- With a single buffer, one worker reads chunk 0 and has its buffer; the other, which reads chunk
1, sleeps until there is a buffer to reclaim. -/
def starvedRun : List (Act tinyParcel (Fin 2)) :=
  Act.call former (.read 0 1) :: List.replicate 4 (Act.go former) ++
  Act.call latter (.read 512 1) :: List.replicate 5 (Act.go latter)

theorem no_deadlock_starved : ∃ s, Base.Reach step (fun _ _ => True)
    (init (P := tinyParcel) (Fin 2) 1 fun _ _ => 0) s ∧
      (s.pc (.fuse 1)).waitsOn = some .reclaimable ∧
      s.signalled (.fuse 1) = false ∧ ∃ u, s.Enabled u := by
  have hrun : (Base.exec step (fun _ _ => true) (init (Fin 2) 1 fun _ _ => 0) starvedRun).any
      (fun s => (s.pc (.fuse 1)).waitsOn == some .reclaimable && s.signalled (.fuse 1) == false) =
        true := by
    decide +kernel
  obtain ⟨s, hs, hchk⟩ := Base.reach_of_exec_any (D := fun _ _ => True) (fun _ _ _ => trivial)
    starvedRun hrun
  simp only [Bool.and_eq_true, beq_iff_eq] at hchk
  have hrest : (s.pc (.fuse 1)).resting = false := by
    have hon := hchk.1
    generalize s.pc (.fuse 1) = p at hon
    cases p <;> first | rfl | cases hon
  exact ⟨s, hs, hchk.1, hchk.2, no_deadlock 1 (fun _ _ => 0) Nat.one_pos hs ⟨_, hrest⟩⟩

end OpenIsr.Fuse
