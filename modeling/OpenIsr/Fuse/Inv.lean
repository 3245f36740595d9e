import OpenIsr.Fuse.TableInv

/-!
# The invariant of the FUSE image

`Inv` adds to the table's invariant what ties it to the threads' program counters: who
holds the image lock (`Pc.locked`), which thread may stand where (`Pc.kind`), what a
thread knows about the entries it holds (`PcOk`), and how far `image_shutdown` has come
(`Pc.stage`). It holds after every step, not only when the lock is free.

What a thread knows survives the steps of the others: they change the buffer and the
dirty mark only of entries they own themselves (`Keeps`), and while a thread has the lock
they change neither at all. `Inv.move` packages this; each step then owes its own thread's
part only.
-/

namespace OpenIsr.Fuse

open Table (Cond)

/-! ## Where a thread may stand -/

/-- The three kinds of thread. -/
inductive Kind
  | main
  | cleaner
  | fuse
  deriving DecidableEq, Repr

def Tid.kind {W : Type} : Tid W → Kind
  | .main => .main
  | .cleaner => .cleaner
  | .fuse _ => .fuse

theorem Tid.eq_main {W : Type} {t : Tid W} (h : t.kind = .main) : t = .main := by
  cases t with
  | main => rfl
  | cleaner | fuse w => cases h

def CleanAll.kind : CleanAll → Kind
  | .cleaner => .cleaner
  | .sync => .fuse
  | .shutdown => .main

def Acq.kind : Acq → Kind
  | .request _ | .reclaim _ _ => .fuse
  | .clean k => k.kind
  | .shutdown => .main

def Clean.kind : Clean → Kind
  | .reclaim _ _ => .fuse
  | .all k => k.kind

def Rel.kind : Rel → Kind
  | .steal _ _ | .request _ _ => .fuse
  | .again k | .stop k => k.kind
  | .shutdown => .main

/-- The kind of thread that runs the code at `p`. -/
def Pc.kind : Pc → Kind
  | .acqLoop k _ | .acqWait k _ => k.kind
  | .cleanStart k _ | .cleanUpdate k _ | .cleanFailed k _ | .cleanLock k _ => k.kind
  | .release k _ => k.kind
  | .caLoop k | .caDirty k _ => k.kind
  | .clLock | .clTest | .clWait _ | .clExit => .cleaner
  | .running | .shStop | .shJoin | .shLock | .shFree | .shDrop _ | .shDone => .main
  | _ => .fuse

/-- The thread at `p` holds the image lock. -/
def Pc.locked : Pc → Bool
  | .acqLoop _ _ | .eaData _ _ | .eaReclaim _ _ | .eaReclaimed _ _ _ | .cleanStart _ _
  | .eaSteal _ _ _ | .release _ _ | .caLoop _ | .caDirty _ _ | .clTest | .shFree
  | .shDrop _ => true
  | _ => false

def CleanAll.stage : CleanAll → Nat
  | .shutdown => 2
  | _ => 0

def Acq.stage : Acq → Nat
  | .clean k => k.stage
  | .shutdown => 3
  | _ => 0

def Clean.stage : Clean → Nat
  | .all k => k.stage
  | _ => 0

theorem Clean.stage_lt (k : Clean) : k.stage < 3 := by
  cases k with
  | reclaim io e => exact Nat.zero_lt_succ 2
  | all k => cases k <;> decide

def Rel.stage : Rel → Nat
  | .again k | .stop k => k.stage
  | .shutdown => 3
  | _ => 0

/-- How far the main thread is: 0 while FUSE runs, 1 when all requests have ended, 2 when
the cleaner has been joined, 3 when the dirty chunks have been written back. -/
def Pc.stage : Pc → Nat
  | .acqLoop k _ | .acqWait k _ => k.stage
  | .cleanStart k _ | .cleanUpdate k _ | .cleanFailed k _ | .cleanLock k _ => k.stage
  | .release k _ => k.stage
  | .caLoop k | .caDirty k _ => k.stage
  | .shStop | .shJoin => 1
  | .shLock => 2
  | .shFree | .shDrop _ | .shDone => 3
  | _ => 0

/-- Only the main thread comes to a later stage, and it does so when it stops running. -/
theorem Pc.stage_kind (p : Pc) :
    (p.kind ≠ .main → p.stage = 0) ∧ (p.kind = .main → p.stage = 0 → p = .running) := by
  cases p with
  | acqLoop k _ | acqWait k _ =>
    cases k with
    | clean k => cases k <;> simp [Pc.kind, Acq.kind, CleanAll.kind, Pc.stage, Acq.stage,
        CleanAll.stage]
    | _ => simp [Pc.kind, Acq.kind, Pc.stage, Acq.stage]
  | cleanStart k _ | cleanUpdate k _ | cleanFailed k _ | cleanLock k _ =>
    cases k with
    | all k => cases k <;> simp [Pc.kind, Clean.kind, CleanAll.kind, Pc.stage, Clean.stage,
        CleanAll.stage]
    | _ => simp [Pc.kind, Clean.kind, Pc.stage, Clean.stage]
  | release k _ =>
    cases k with
    | again k | stop k => cases k <;> simp [Pc.kind, Rel.kind, CleanAll.kind, Pc.stage, Rel.stage,
        CleanAll.stage]
    | _ => simp [Pc.kind, Rel.kind, Pc.stage, Rel.stage]
  | caLoop k | caDirty k _ => cases k <;> simp [Pc.kind, CleanAll.kind, Pc.stage, CleanAll.stage]
  | _ => simp [Pc.kind, Pc.stage]

theorem Pc.stage_of_kind {p : Pc} (h : p.kind ≠ .main) : p.stage = 0 := p.stage_kind.1 h

theorem Pc.eq_running {p : Pc} (hk : p.kind = .main) (hst : p.stage = 0) : p = .running :=
  p.stage_kind.2 hk hst

/-! ## What a thread knows -/

/-- The cursor belongs to a read or a write, and counts its bytes. -/
def Io.Fits (io : Io) : Prop := io.cur.count = io.req.count ∧ io.req ≠ .fsync

/-- The request's piece lies inside its chunk and inside the caller's buffer. -/
def Io.Ok (P : Parcel) (io : Io) : Prop := CurOk P io.cur ∧ io.Fits

/-- The request stands on such a piece, and `e` is the entry of its chunk. -/
def IoOk (P : Parcel) (tab : Table) (io : Io) (e : Nat) : Prop :=
  io.Ok P ∧ (tab.ents e).chunk = io.cur.chunk

/-- What the caller of `_entry_acquire` on `e` knows: the entry it takes from the
reclaimable queue is free, so it never waits for it. -/
def AcqOk (P : Parcel) (tab : Table) (waiting : Bool) (e : Nat) : Acq → Prop
  | .request io => IoOk P tab io e
  | .reclaim io ent => IoOk P tab io ent ∧ (tab.ents ent).data = none ∧
      waiting = false ∧ (tab.ents e).busy = false ∧ (tab.ents e).data ≠ none
  | .clean _ => True
  | .shutdown => waiting = false ∧ (tab.ents e).busy = false ∧ (tab.ents e).data ≠ none

/-- What the caller of `entry_clean` knows. -/
def CleanOk (P : Parcel) (tab : Table) : Clean → Prop
  | .reclaim io ent => IoOk P tab io ent ∧ (tab.ents ent).data = none
  | .all _ => True

/-- What the caller of `_entry_release` on `e` knows. -/
def RelOk (P : Parcel) (tab : Table) (e : Nat) : Rel → Prop
  | .steal io ent => IoOk P tab io ent ∧ (tab.ents ent).data ≠ none ∧ (tab.ents ent).dirty = 0
  | .request io _ => io.Fits ∧ (tab.ents e).data ≠ none
  | .stop k => k.force = false
  | _ => True

/-- What a thread at `p` knows about the entries it holds. -/
def PcOk (P : Parcel) (tab : Table) : Pc → Prop
  | .ioNext io => io.Fits
  | .eaLock io => io.Ok P
  | .acqLoop k e => AcqOk P tab false e k
  | .acqWait k e => AcqOk P tab true e k
  | .eaData io e => IoOk P tab io e
  | .eaReclaim io e | .eaReclaimWait io e => IoOk P tab io e ∧ (tab.ents e).data = none
  | .eaReclaimed io e r =>
    IoOk P tab io e ∧ (tab.ents e).data = none ∧ (tab.ents r).data ≠ none
  | .cleanStart k e => CleanOk P tab k ∧ (tab.ents e).dirty ≠ 0
  | .cleanUpdate k _ | .cleanFailed k _ | .cleanLock k _ => CleanOk P tab k
  | .eaSteal io e r => IoOk P tab io e ∧ (tab.ents e).data = none ∧
      (tab.ents r).data ≠ none ∧ (tab.ents r).dirty = 0
  | .release k e => RelOk P tab e k
  | .eaFill io e | .fillFailed io e =>
    IoOk P tab io e ∧ (tab.ents e).data ≠ none ∧ (tab.ents e).dirty = 0
  | .ioBody io e | .erLock io e _ => IoOk P tab io e ∧ (tab.ents e).data ≠ none
  | .shDrop e => (tab.ents e).data ≠ none
  | _ => True

/-- What a thread at `p` knows depends on little of the table. -/
structure Agree (tab tab' : Table) (p : Pc) : Prop where
  own_chunk : ∀ e ∈ p.own, (tab'.ents e).chunk = (tab.ents e).chunk
  own_data : ∀ e ∈ p.own, (tab'.ents e).data = (tab.ents e).data
  own_dirty : ∀ e ∈ p.own, (tab'.ents e).dirty = (tab.ents e).dirty
  wait_chunk : ∀ e, p.wait = some e → (tab'.ents e).chunk = (tab.ents e).chunk
  wait_free : p.locked = true → ∀ e, p.wait = some e →
    (tab'.ents e).busy = (tab.ents e).busy ∧ (tab'.ents e).data = (tab.ents e).data

theorem PcOk.agree {P : Parcel} {tab tab' : Table} {p : Pc} (h : PcOk P tab p)
    (ha : Agree tab tab' p) : PcOk P tab' p := by
  obtain ⟨hc, hd, hz, hw, hf⟩ := ha
  cases p with
  | acqLoop k e =>
    cases k <;> simp_all [PcOk, AcqOk, IoOk, Pc.own, Acq.own, Pc.wait, Pc.locked]
  | acqWait k e =>
    cases k <;> simp_all [PcOk, AcqOk, IoOk, Pc.own, Acq.own, Pc.wait]
  | cleanStart k e | cleanUpdate k e | cleanFailed k e | cleanLock k e =>
    cases k <;> simp_all [PcOk, CleanOk, IoOk, Pc.own, Clean.own]
  | release k e =>
    cases k <;> simp_all [PcOk, RelOk, IoOk, Pc.own, Rel.own]
  | _ => simp_all [PcOk, IoOk, Pc.own]

/-- A step changes the buffer and the dirty mark only of the entries in `own`, and no
chunk number. -/
structure Keeps (tab tab' : Table) (own : List Nat) : Prop where
  chunk : ∀ e ∈ tab.chunks, (tab'.ents e).chunk = (tab.ents e).chunk
  data : ∀ e ∈ tab.chunks, e ∉ own → (tab'.ents e).data = (tab.ents e).data
  dirty : ∀ e ∈ tab.chunks, e ∉ own → (tab'.ents e).dirty = (tab.ents e).dirty

theorem Keeps.refl (tab : Table) (own : List Nat) : Keeps tab tab own :=
  ⟨fun _ _ => rfl, fun _ _ _ => rfl, fun _ _ _ => rfl⟩

/-- An update of one entry, its owner's or one that leaves buffer and dirty mark alone. -/
theorem Keeps.setEnt {tab tab' : Table} {own : List Nat} {e : Nat} {ent : Entry}
    (hents : tab'.ents = (tab.setEnt e ent).ents) (hk : ent.chunk = (tab.ents e).chunk)
    (h : e ∈ own ∨ (ent.data = (tab.ents e).data ∧ ent.dirty = (tab.ents e).dirty)) :
    Keeps tab tab' own := by
  refine ⟨fun x _ => ?_, fun x _ hx => ?_, fun x _ hx => ?_⟩
  · rw [hents]
    exact Table.setEnt_proj Entry.chunk hk x
  · rw [hents]
    rcases h with h | h
    · have hne : x ≠ e := fun he => hx (he ▸ h)
      rw [Table.setEnt_ne _ _ hne]
    · exact Table.setEnt_proj Entry.data h.1 x
  · rw [hents]
    rcases h with h | h
    · have hne : x ≠ e := fun he => hx (he ▸ h)
      rw [Table.setEnt_ne _ _ hne]
    · exact Table.setEnt_proj Entry.dirty h.2 x

/-! ## The invariant -/

variable {P : Parcel} {W : Type} [DecidableEq W] [Fintype W]

/-- The invariant of the image; `n` is the number of buffers. -/
structure Inv (n : Nat) (s : St P W) : Prop where
  alive : s.abort = false
  tabInv : TabInv s.tab fun t => (s.pc t).role
  lock : ∀ t, (s.pc t).locked = true ↔ s.lock = some t
  pcOk : ∀ t, PcOk P s.tab (s.pc t)
  kind : ∀ t, (s.pc t).kind = t.kind
  quiet : 1 ≤ (s.pc .main).stage → ∀ w, s.pc (.fuse w) = .idle
  joined : 2 ≤ (s.pc .main).stage → s.pc .cleaner = .clExit
  clean : 3 ≤ (s.pc .main).stage → ∀ e ∈ s.tab.chunks, (s.tab.ents e).dirty = 0
  total : (s.pc .main).stage < 3 → s.tab.total = n

variable {n : Nat} {s s' : St P W} {t : Tid W} {p p' : Pc}

omit [DecidableEq W] in
theorem Inv.agree {tab' : Table} (h : Inv n s) (hkeep : Keeps s.tab tab' (s.pc t).own)
    (hother : s.lock = some t ∨ s.lock = none ∨
      ∀ e, (tab'.ents e).busy = (s.tab.ents e).busy ∧ (tab'.ents e).data = (s.tab.ents e).data)
    {u : Tid W} (hu : u ≠ t) : Agree s.tab tab' (s.pc u) := by
  have hlive : ∀ e ∈ (s.pc u).own, e ∈ s.tab.chunks := h.tabInv.own_live u
  have hnot : ∀ e ∈ (s.pc u).own, e ∉ (s.pc t).own := fun e he ho =>
    hu ((h.tabInv.ent e (hlive e he)).busyOk.excl u t he ho)
  refine ⟨fun e he => hkeep.chunk e (hlive e he), fun e he => hkeep.data e (hlive e he) (hnot e he),
    fun e he => hkeep.dirty e (hlive e he) (hnot e he),
    fun e he => hkeep.chunk e (h.tabInv.wait_live u e he), ?_⟩
  intro hl e _
  have hlu := (h.lock u).mp hl
  rcases hother with hl' | hl' | hsame
  · rw [hlu, Option.some.injEq] at hl'
    exact absurd hl' hu
  · rw [hlu] at hl'
    cases hl'
  · exact hsame e

omit [DecidableEq W] in
/-- Workers and the cleaner only move while the main thread lets them. -/
theorem Inv.main_stage (h : Inv n s) (ht : t ≠ .main) (hidle : s.pc t = .idle →
    (s.pc .main).stage = 0) (hexit : s.pc t ≠ .clExit) :
    (t.kind = .fuse → (s.pc .main).stage = 0) ∧ (s.pc .main).stage < 2 := by
  have hlt : t = .cleaner → (s.pc .main).stage < 2 := by
    rintro rfl
    by_contra hge
    exact hexit (h.joined (by omega))
  have h0 : t.kind = .fuse → (s.pc .main).stage = 0 := by
    intro hk
    cases t with
    | fuse w =>
      by_contra hne
      exact hne (hidle (h.quiet (by omega) w))
    | main | cleaner => cases hk
  refine ⟨h0, ?_⟩
  cases t with
  | main => exact absurd rfl ht
  | cleaner => exact hlt rfl
  | fuse w => rw [h0 rfl]; omega

theorem Inv.move (h : Inv n s) (hp : s.pc t = p) (hpc : s'.pc = Function.update s.pc t p')
    (habort : s'.abort = s.abort)
    (hlock : s'.lock = if p'.locked then some t else if p.locked then none else s.lock)
    (hfree : p'.locked = true → p.locked = true ∨ s.lock = none)
    (hkind : p'.kind = p.kind)
    (hidle : p = .idle → (s.pc .main).stage = 0) (hexit : p ≠ .clExit)
    (htab : TabInv s'.tab (Function.update (fun u => (s.pc u).role) t p'.role))
    (hkeep : Keeps s.tab s'.tab p.own)
    (hother : p.locked = true ∨ s.lock = none ∨ ∀ e,
      (s'.tab.ents e).busy = (s.tab.ents e).busy ∧ (s'.tab.ents e).data = (s.tab.ents e).data)
    (hok : PcOk P s'.tab p') (hstage : p.stage ≤ p'.stage)
    (hquiet : p.stage < 1 → 1 ≤ p'.stage → ∀ w, s.pc (.fuse w) = .idle)
    (hjoined : p.stage < 2 → 2 ≤ p'.stage → s.pc .cleaner = .clExit)
    (hclean : 3 ≤ p'.stage → ∀ e ∈ s'.tab.chunks, (s'.tab.ents e).dirty = 0)
    (htotal : p'.stage < 3 → s'.tab.total = s.tab.total) : Inv n s' := by
  subst hp
  have hself : s'.pc t = p' := by rw [hpc, Function.update_self]
  have hne : ∀ u, u ≠ t → s'.pc u = s.pc u := fun u hu => by rw [hpc, Function.update_of_ne hu]
  have hpk : (s.pc t).kind = t.kind := h.kind t
  have hmain : t ≠ .main → s'.pc .main = s.pc .main := fun ht => hne _ (Ne.symm ht)
  have hothers : (s.pc t).locked = true ∨ s.lock = none → ∀ u, u ≠ t →
      (s.pc u).locked = false := by
    intro hl u hu
    by_contra hlu
    have hlu := (h.lock u).mp (by simpa using hlu)
    rcases hl with hl | hl
    · rw [(h.lock t).mp hl, Option.some.injEq] at hlu
      exact hu hlu.symm
    · rw [hl] at hlu
      cases hlu
  refine ⟨by rw [habort, h.alive], ?_, ?_, ?_, ?_, ?_, ?_, ?_, ?_⟩
  · have hroles : (fun u => (s'.pc u).role) =
        Function.update (fun u => (s.pc u).role) t p'.role := by
      funext u
      by_cases hu : u = t
      · subst hu; rw [hself, Function.update_self]
      · rw [hne u hu, Function.update_of_ne hu]
    rw [hroles]
    exact htab
  · intro u
    by_cases hu : u = t
    · subst hu
      rw [hself, hlock]
      by_cases hl : p'.locked = true
      · simp [hl]
      · have hx : s.lock = some u → (s.pc u).locked = true := (h.lock u).mpr
        by_cases hl' : (s.pc u).locked = true <;> simp_all
    · rw [hne u hu, hlock]
      by_cases hl : p'.locked = true
      · have := hothers (hfree hl) u hu
        simp [hl, this, Ne.symm hu]
      · by_cases hl' : (s.pc t).locked = true
        · have := hothers (.inl hl') u hu
          simp [hl, hl', this]
        · simp only [hl, hl', if_false, Bool.false_eq_true]
          exact h.lock u
  · intro u
    by_cases hu : u = t
    · subst hu
      rw [hself]
      exact hok
    · rw [hne u hu]
      refine (h.pcOk u).agree (h.agree hkeep ?_ hu)
      rcases hother with hl | hl | hs
      · exact .inl ((h.lock t).mp hl)
      · exact .inr (.inl hl)
      · exact .inr (.inr hs)
  · intro u
    by_cases hu : u = t
    · subst hu; rw [hself, hkind, hpk]
    · rw [hne u hu]; exact h.kind u
  · intro hst w
    by_cases ht : t = .main
    · subst ht
      rw [hself] at hst
      rw [hne _ (by simp)]
      by_cases hold : 1 ≤ (s.pc .main).stage
      · exact h.quiet hold w
      · exact hquiet (by omega) hst w
    · rw [hmain ht] at hst
      by_cases hw : (.fuse w : Tid W) = t
      · have := (h.main_stage ht hidle hexit).1 (by rw [← hw]; rfl)
        omega
      · rw [hne _ hw]
        exact h.quiet hst w
  · intro hst
    by_cases ht : t = .main
    · subst ht
      rw [hself] at hst
      rw [hne _ (by simp)]
      by_cases hold : 2 ≤ (s.pc .main).stage
      · exact h.joined hold
      · exact hjoined (by omega) hst
    · rw [hmain ht] at hst
      have := (h.main_stage ht hidle hexit).2
      omega
  · intro hst
    by_cases ht : t = .main
    · subst ht
      rw [hself] at hst
      exact hclean hst
    · rw [hmain ht] at hst
      have := (h.main_stage ht hidle hexit).2
      omega
  · intro hst
    by_cases ht : t = .main
    · subst ht
      rw [hself] at hst
      rw [htotal hst, h.total (by omega)]
    · rw [hmain ht] at hst
      rw [htotal ?_, h.total hst]
      have : p'.kind ≠ .main := by
        rw [hkind, hpk]
        cases t <;> simp_all [Tid.kind]
      rw [Pc.stage_of_kind this]
      omega

end OpenIsr.Fuse
