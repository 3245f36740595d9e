import OpenIsr.Fuse.InvStep

/-!
# What a step does to the data

Most steps move locks, queues and waiters about and do nothing to the data: they are
`Effect.quiet`. The others are the ones at which a chunk's contents move between the
caller, a buffer and the local cache, or at which the cache forgets or gets to know
something about a chunk. `Inv.effect` sorts every step into one of these, so that a result
about the data is proved by the cases of `Effect` and not by those of `stepAt`.

`image_shutdown` only adds the step at which it takes the buffer from an entry; the entry is
clean then.
-/

namespace OpenIsr.Fuse

open List Function Option
open Table (Cond)

/-! ## What a program counter says about the data -/

def Acq.pending : Acq → Option (Io × Nat)
  | .reclaim io e => some (io, e)
  | _ => none

def Clean.pending : Clean → Option (Io × Nat)
  | .reclaim io e => some (io, e)
  | _ => none

def Rel.pending : Rel → Option (Io × Nat)
  | .steal io e => some (io, e)
  | _ => none

/-- The request that has the busy flag of its chunk's entry and has not copied its piece
yet. -/
def Pc.pending : Pc → Option (Io × Nat)
  | .acqLoop k _ | .acqWait k _ => k.pending
  | .cleanStart k _ | .cleanUpdate k _ | .cleanFailed k _ | .cleanLock k _ => k.pending
  | .release k _ => k.pending
  | .eaData io e | .eaReclaim io e | .eaReclaimWait io e | .eaReclaimed io e _
  | .eaSteal io e _ | .eaFill io e | .fillFailed io e | .ioBody io e => some (io, e)
  | _ => none

/-- The entry whose buffer may hold anything: it has just got it, or the request is about
to overwrite the whole chunk. -/
def Pc.unfilled (P : Parcel) : Pc → Option Nat
  | .release k _ => k.pending.map Prod.snd
  | .eaFill _ e | .fillFailed _ e => some e
  | .ioBody io e => if io.wholeChunk P then some e else none
  | _ => none

/-- The entry that has been written to and not been marked dirty yet. -/
def Pc.wrote : Pc → Option Nat
  | .erLock io e failed => if io.req.isWrite ∧ failed = false then some e else none
  | _ => none

/-- The entry whose `cache_update` call has returned. -/
def Pc.late : Pc → Option Nat
  | .cleanFailed _ e | .cleanLock _ e => some e
  | _ => none

/-- A `cache_update` or `cache_get` call has failed, and the entry does not say so yet. -/
def Pc.failing : Pc → Bool
  | .cleanFailed _ _ | .fillFailed _ _ => true
  | _ => false

/-- The fields of an entry that have to do with the data. -/
structure Core where
  chunk : Nat
  data : Option Nat
  dirty : Nat
  error : Bool

def Entry.core (ent : Entry) : Core :=
  { chunk := ent.chunk, data := ent.data, dirty := ent.dirty, error := ent.error }

variable {P : Parcel} {W : Type} [DecidableEq W] {ent : Entry}

def St.core (s : St P W) (e : Nat) : Core := (s.tab.ents e).core

/-- Thread `t` goes from `p` to `p'`. -/
structure Move (s : St P W) (t : Tid W) (p p' : Pc) (s' : St P W) : Prop where
  old : s.pc t = p
  new : s'.pc = update s.pc t p'
  run : p' ≠ .running

/-- The two program counters say the same about the data, or the second says less; and it is
not the end of `image_sync`. -/
structure Calm (P : Parcel) (p p' : Pc) : Prop where
  pending : p'.pending = p.pending
  unfilled : ∀ e, p.unfilled P = some e → p'.unfilled P = some e
  wrote : p'.wrote = p.wrote
  late : p'.late = none
  failing : p'.failing = false
  sync : p' ≠ .syncFlush

/-- No entry changes. -/
structure SameTab (s s' : St P W) : Prop where
  chunks : s'.tab.chunks = s.tab.chunks
  core : ∀ x ∈ s.tab.chunks, s'.core x = s.core x

/-- Only entry `e` changes, to `core`. -/
structure OneEnt (s s' : St P W) (e : Nat) (core : Core) : Prop where
  chunks : s'.tab.chunks = s.tab.chunks
  self : s'.core e = core
  other : ∀ x, x ≠ e → s'.core x = s.core x

/-- What a step does to the data. -/
inductive Effect (s : St P W) (a : Act P W) (s' : St P W) : Prop
  | quiet {p p' : Pc} (mv : Move s a.tid p p' s') (calm : Calm P p p') (tab : SameTab s s')
      (mem : s'.mem = s.mem) (store : s'.store = s.store) (hist : s'.hist = s.hist)
  /-- A request arrives. -/
  | called {req : Req} {p' : Pc} (mv : Move s a.tid .idle p' s') (calm : Calm P .idle p')
      (tab : SameTab s s') (mem : s'.mem = s.mem) (store : s'.store = s.store)
      (hist : s'.hist = .call a.tid req :: s.hist)
  /-- A request returns. -/
  | returned {req : Req} {m : Int} {out : List UInt8} {p : Pc} (mv : Move s a.tid p .idle s')
      (calm : Calm P p .idle) (tab : SameTab s s') (mem : s'.mem = s.mem)
      (store : s'.store = s.store) (hist : s'.hist = .ret a.tid req m out :: s.hist)
      (hsync : req = .fsync → p = .syncFlush) (hp : p ≠ .idle)
  /-- `image_sync` finds no dirty entry. -/
  | synced (mv : Move s a.tid (.caLoop .sync) .syncFlush s') (hq : s.tab.dirty = [])
      (tab : SameTab s s') (mem : s'.mem = s.mem) (store : s'.store = s.store)
      (hist : s'.hist = s.hist)
  /-- A chunk that has no entry gets one. -/
  | created {io : Io} {e : Nat} (mv : Move s a.tid (.eaLock io) (.acqLoop (.request io) e) s')
      (hnew : e ∉ s.tab.chunks) (hkey : ∀ x ∈ s.tab.chunks, (s.core x).chunk ≠ io.cur.chunk)
      (chunks : s'.tab.chunks = s.tab.chunks ++ [e])
      (self : s'.core e = ⟨io.cur.chunk, none, 0, false⟩)
      (other : ∀ x ∈ s.tab.chunks, s'.core x = s.core x) (mem : s'.mem = s.mem)
      (store : s'.store = s.store) (hist : s'.hist = s.hist)
  /-- A request gets the busy flag. -/
  | taken {io : Io} {e : Nat} (mv : Move s a.tid (.acqLoop (.request io) e) (.eaData io e) s')
      (hb : (s.tab.ents e).busy = false) (tab : SameTab s s') (mem : s'.mem = s.mem)
      (store : s'.store = s.store)
      (hist : s'.hist = .acq a.tid io.cur.chunk io.write? :: s.hist)
  /-- An entry gets a new buffer. -/
  | allocated {io : Io} {e : Nat} (mv : Move s a.tid (.eaData io e) (.eaFill io e) s')
      (tab : OneEnt s s' e { s.core e with data := some s.tab.nextBuf })
      (hd : (s.core e).data = none)
      (mem : s'.mem = update s.mem s.tab.nextBuf a.junk)
      (store : s'.store = s.store) (hist : s'.hist = s.hist)
  /-- An entry gets the buffer of another. -/
  | stolen {io : Io} {e r b : Nat}
      (mv : Move s a.tid (.eaSteal io e r) (.release (.steal io e) r) s') (hne : e ≠ r)
      (chunks : s'.tab.chunks = s.tab.chunks) (hd : (s.core e).data = none)
      (hb : (s.core r).data = some b)
      (self : s'.core e = { s.core e with data := some b })
      (victim : s'.core r = { s.core r with data := none })
      (other : ∀ x, x ≠ e → x ≠ r → s'.core x = s.core x) (mem : s'.mem = s.mem)
      (store : s'.store = s.store) (hist : s'.hist = s.hist)
  /-- `cache_update` succeeds. -/
  | stored {k : Clean} {e b : Nat} (mv : Move s a.tid (.cleanUpdate k e) (.cleanLock k e) s')
      (hok : a.ok = true) (hb : (s.core e).data = some b) (tab : SameTab s s')
      (mem : s'.mem = s.mem)
      (store : s'.store = update s.store (s.core e).chunk (some (s.mem b)))
      (hist : s'.hist = .updated (s.core e).chunk (s.mem b) :: s.hist)
  /-- `cache_update` fails. -/
  | storeFailed {k : Clean} {e : Nat}
      (mv : Move s a.tid (.cleanUpdate k e) (.cleanFailed k e) s') (hok : a.ok = false)
      (tab : SameTab s s') (mem : s'.mem = s.mem)
      (store : s'.store = update s.store (s.core e).chunk a.left)
      (hist : s'.hist = .updateFailed (s.core e).chunk a.left :: s.hist)
  /-- The failure is recorded in the entry. -/
  | storeError {k : Clean} {e : Nat}
      (mv : Move s a.tid (.cleanFailed k e) (.cleanLock k e) s')
      (tab : OneEnt s s' e { s.core e with error := true }) (mem : s'.mem = s.mem)
      (store : s'.store = s.store) (hist : s'.hist = s.hist)
  /-- An entry becomes clean. -/
  | cleaned {k : Clean} {e : Nat} (mv : Move s a.tid (.cleanLock k e) (k.next e) s')
      (tab : OneEnt s s' e { s.core e with dirty := 0 }) (mem : s'.mem = s.mem)
      (store : s'.store = s.store) (hist : s'.hist = s.hist)
  /-- An entry is freed. -/
  | freed {k : Rel} {e : Nat} {p' : Pc} (mv : Move s a.tid (.release k e) p' s')
      (calm : Calm P (.release k e) p') (hw : (s.tab.ents e).waiters = 0)
      (hd : (s.tab.ents e).data = none) (chunks : s'.tab.chunks = s.tab.chunks.erase e)
      (core : ∀ x, s'.core x = s.core x) (mem : s'.mem = s.mem)
      (store : s'.store = s.store) (hist : s'.hist = s.hist)
  /-- `cache_get` succeeds. -/
  | filled {io : Io} {e b : Nat} {d : Data P} (mv : Move s a.tid (.eaFill io e) (.ioBody io e) s')
      (hb : (s.core e).data = some b) (hd : s.store (s.core e).chunk = some d)
      (tab : SameTab s s') (mem : s'.mem = update s.mem b d)
      (store : s'.store = s.store) (hist : s'.hist = s.hist)
  /-- `cache_get` fails. -/
  | fillFailed {io : Io} {e b : Nat} (mv : Move s a.tid (.eaFill io e) (.fillFailed io e) s')
      (hb : (s.core e).data = some b)
      (hfail : a.ok = false ∨ s.store (s.core e).chunk = none) (tab : SameTab s s')
      (mem : s'.mem = update s.mem b a.junk) (store : s'.store = s.store)
      (hist : s'.hist = s.hist)
  /-- The failure is recorded in the entry. -/
  | fillError {io : Io} {e : Nat} (mv : Move s a.tid (.fillFailed io e) (.ioBody io e) s')
      (tab : OneEnt s s' e { s.core e with error := true }) (mem : s'.mem = s.mem)
      (store : s'.store = s.store) (hist : s'.hist = s.hist)
  /-- The request finds the error flag. -/
  | refused {io : Io} {e : Nat} (mv : Move s a.tid (.ioBody io e) (.erLock io e true) s')
      (herr : (s.core e).error = true) (tab : SameTab s s') (mem : s'.mem = s.mem)
      (store : s'.store = s.store) (hist : s'.hist = s.hist)
  /-- The `memcpy` of `image_read`. -/
  | read {io : Io} {e b : Nat} {out : List UInt8}
      (mv : Move s a.tid (.ioBody io e) (.erLock { io with out } e false) s')
      (hr : io.req.isWrite = false) (herr : (s.core e).error = false)
      (hb : (s.core e).data = some b) (tab : SameTab s s') (mem : s'.mem = s.mem)
      (store : s'.store = s.store)
      (hist : s'.hist = .copied a.tid io.cur.chunk io.cur.offset
        (slice (s.mem b) io.cur.offset io.cur.length) :: s.hist)
  /-- The `memcpy` of `image_write`. -/
  | written {io : Io} {e b : Nat} (mv : Move s a.tid (.ioBody io e) (.erLock io e false) s')
      (hw : io.req.isWrite = true) (herr : (s.core e).error = false)
      (hb : (s.core e).data = some b) (tab : SameTab s s')
      (mem : s'.mem = update s.mem b (io.piece.apply (s.mem b)))
      (store : s'.store = s.store)
      (hist : s'.hist = .wrote a.tid io.cur.chunk io.piece :: s.hist)
  /-- What was written is marked dirty. -/
  | dirtied {io : Io} {e d : Nat}
      (mv : Move s a.tid (.erLock io e false) (.release (.request io false) e) s')
      (hw : io.req.isWrite = true) (hd : d ≠ 0) (tab : OneEnt s s' e { s.core e with dirty := d })
      (mem : s'.mem = s.mem) (store : s'.store = s.store) (hist : s'.hist = s.hist)
  /-- `image_shutdown` frees the buffer of an entry. -/
  | dropped {e : Nat} (mv : Move s a.tid (.shDrop e) (.release .shutdown e) s')
      (hmain : s'.pc .main ≠ .running) (hd : (s.core e).dirty = 0)
      (tab : OneEnt s s' e { s.core e with data := none }) (mem : s'.mem = s.mem)
      (store : s'.store = s.store) (hist : s'.hist = s.hist)

/-! ## Shared pieces -/

variable {n e : Nat} {s s' : St P W} {a : Act P W} {p p' : Pc} {io : Io} {k : Clean}

theorem Move.to {t : Tid W} (old : s.pc t = p) (new : s'.pc = update s.pc t p')
    (run : (p'.ctorIdx == Pc.running.ctorIdx) = false) : Move s t p p' s' :=
  ⟨old, new, Pc.ne_of_ctorIdx run⟩

theorem Calm.of_filled (same : (p'.pending, p.unfilled P, p'.wrote, p'.late, p'.failing,
      p'.ctorIdx == Pc.syncFlush.ctorIdx) = (p.pending, none, p.wrote, none, false, false)) :
    Calm P p p' := by
  simp only [Prod.mk.injEq] at same
  obtain ⟨pending, unfilled, wrote, late, failing, sync⟩ := same
  refine ⟨pending, fun e he => ?_, wrote, late, failing, Pc.ne_of_ctorIdx sync⟩
  rw [unfilled] at he
  cases he

omit [DecidableEq W] in
/-- A table whose entries differ in bookkeeping fields only. -/
theorem SameTab.setEnt (hch : s'.tab.chunks = s.tab.chunks)
    (hents : s'.tab.ents = (s.tab.setEnt e ent).ents) (hcore : ent.core = s.core e) :
    SameTab s s' := by
  refine ⟨hch, fun x _ => ?_⟩
  unfold St.core
  rw [hents]
  exact Table.setEnt_proj Entry.core hcore x

omit [DecidableEq W] in
theorem SameTab.of_eq (htab : s'.tab = s.tab) : SameTab s s' :=
  ⟨by rw [htab], fun x _ => by unfold St.core; rw [htab]⟩

omit [DecidableEq W] in
theorem OneEnt.setEnt {core : Core} (hch : s'.tab.chunks = s.tab.chunks)
    (hents : s'.tab.ents = (s.tab.setEnt e ent).ents) (hcore : ent.core = core) :
    OneEnt s s' e core := by
  refine ⟨hch, ?_, fun x hx => ?_⟩
  · unfold St.core
    rw [hents, Table.setEnt_self, hcore]
  · unfold St.core
    rw [hents, Table.setEnt_ne _ _ hx]

theorem effect_enter {k : Acq} {l : Option (Tid W)} (hp : s.pc a.tid = p) (he : e ∈ s.tab.chunks)
    (calm : Calm P p (.acqLoop k e)) : Effect s a (St.enter { s with lock := l } a.tid k e) := by
  rw [show St.enter { s with lock := l } a.tid k e =
    (St.setTab { s with lock := l } (s.tab.acquireEnter e)).goto a.tid (.acqLoop k e)
      from if_pos he]
  exact .quiet (.to hp rfl rfl) calm (.setEnt rfl rfl rfl) rfl rfl rfl

variable [Fintype W]

/-! ## Sorting the steps -/

theorem Inv.effect_eaLock (h : Inv n s) (hp : s.pc a.tid = .eaLock io)
    (hs : stepAt s a (.eaLock io) = some s') : Effect s a s' := by
  simp only [stepAt] at hs
  split at hs
  next hl =>
    cases hc : s.tab.lookup io.cur.chunk with
    | some e =>
      have hlook : s.tab.lookupOrNew io.cur.chunk = (s.tab, e) := by
        simp [Table.lookupOrNew, hc]
      simp only [hlook, some.injEq] at hs
      rw [← hs]
      exact effect_enter (l := some a.tid) hp (mem_of_find?_eq_some hc)
        (.of_filled rfl)
    | none =>
      obtain ⟨hlook, hmem⟩ := Table.lookupOrNew_none hc
      rw [hlook] at hs
      simp only [some.injEq] at hs
      rw [← hs]
      unfold St.enter
      rw [if_pos (by exact hmem)]
      have hnew : s.tab.nextEnt ∉ s.tab.chunks := fun hx =>
        lt_irrefl _ (h.tabInv.fresh _ hx)
      refine .created (e := s.tab.nextEnt) (.to hp rfl rfl) hnew ?_ ?_ ?_ ?_ rfl rfl rfl
      · intro x hx hk
        have := find?_eq_none.mp hc x hx
        exact this (beq_iff_eq.mpr hk)
      · show ((s.tab.lookupOrNew io.cur.chunk).1).chunks = _
        simp [Table.lookupOrNew, hc]
      · show (((s.tab.lookupOrNew io.cur.chunk).1.acquireEnter s.tab.nextEnt).ents
          s.tab.nextEnt).core = _
        simp [Table.acquireEnter, Table.lookupOrNew, hc, Entry.new, Entry.core]
      · intro x hx
        have hne : x ≠ s.tab.nextEnt := fun hx' => hnew (hx' ▸ hx)
        show (((s.tab.lookupOrNew io.cur.chunk).1.acquireEnter s.tab.nextEnt).ents x).core = _
        rw [show ((s.tab.lookupOrNew io.cur.chunk).1.acquireEnter s.tab.nextEnt).ents x =
          (s.tab.lookupOrNew io.cur.chunk).1.ents x from Table.setEnt_ne _ _ hne]
        simp only [Table.lookupOrNew, hc, update_of_ne hne]
        rfl
  next => cases hs

theorem effect_acqLoop {k : Acq} (hp : s.pc a.tid = .acqLoop k e)
    (hs : stepAt s a (.acqLoop k e) = some s') : Effect s a s' := by
  simp only [stepAt] at hs
  split at hs
  next =>
    cases hs
    exact .quiet (.to hp rfl rfl) (.of_filled rfl) (.of_eq rfl) rfl rfl rfl
  next hb =>
    have hb : (s.tab.ents e).busy = false := by simpa using hb
    split at hs
    next io =>
      cases hs
      exact .taken (.to hp rfl rfl) hb (.setEnt rfl rfl rfl) rfl rfl rfl
    next hk =>
      cases hs
      have hrun : ((k.next e).ctorIdx == Pc.running.ctorIdx) = false := by cases k <;> rfl
      refine .quiet (.to hp rfl hrun) (.of_filled ?_) (.setEnt rfl rfl rfl) rfl rfl rfl
      cases k with
      | request io => exact absurd rfl (hk io)
      | _ => rfl

theorem effect_eaData (hp : s.pc a.tid = .eaData io e) (hs : stepAt s a (.eaData io e) = some s') :
    Effect s a s' := by
  simp only [stepAt] at hs
  split at hs
  next hd =>
    cases hs
    exact .quiet (.to hp rfl rfl) (.of_filled rfl) (.of_eq rfl) rfl rfl rfl
  next hd =>
    have hd : (s.tab.ents e).data = none := by simpa using hd
    split at hs
    next ha =>
      cases hs
      exact .allocated (.to hp rfl rfl) (.setEnt rfl rfl rfl) hd rfl rfl rfl
    next =>
      cases hs
      exact .quiet (.to hp rfl rfl) (.of_filled rfl) (.of_eq rfl) rfl rfl rfl

theorem Inv.effect_eaReclaim (h : Inv n s) (hp : s.pc a.tid = .eaReclaim io e)
    (hs : stepAt s a (.eaReclaim io e) = some s') : Effect s a s' := by
  simp only [stepAt] at hs
  split at hs
  next =>
    cases hs
    exact .quiet (.to hp rfl rfl) (.of_filled rfl) (.of_eq rfl) rfl rfl rfl
  next r q hq =>
    cases hs
    have hr : r ∈ s.tab.reclaimable := by rw [hq]; exact mem_cons_self ..
    exact effect_enter (l := s.lock) hp (h.tabInv.recl_live r hr)
      (.of_filled rfl)

theorem Inv.effect_eaSteal {r : Nat} (h : Inv n s) (hp : s.pc a.tid = .eaSteal io e r)
    (hs : stepAt s a (.eaSteal io e r) = some s') : Effect s a s' := by
  obtain ⟨-, hd, hdr, -⟩ := h.ok hp
  have hne : e ≠ r := fun hx => hdr (hx ▸ hd)
  have hsteal : ∃ tab', s.tab.stealData e r = some tab' := by
    obtain ⟨b, hb⟩ := ne_none_iff_exists'.mp hdr
    exact ⟨_, by rw [Table.stealData, hb]⟩
  obtain ⟨tab', hsteal⟩ := hsteal
  obtain ⟨b, hb, rfl⟩ := Table.stealData_eq hsteal hne
  simp only [stepAt, hsteal, some.injEq] at hs
  rw [← hs]
  refine .stolen (b := b) (.to hp rfl rfl) hne rfl hd hb ?_ ?_ ?_ rfl rfl rfl
  · show (((s.tab.setEnt e _).setEnt r _).ents e).core = _
    rw [Table.setEnt_ne _ _ hne, Table.setEnt_self]
    rfl
  · show (((s.tab.setEnt e _).setEnt r _).ents r).core = _
    rw [Table.setEnt_self]
    rfl
  · intro x hxe hxr
    show (((s.tab.setEnt e _).setEnt r _).ents x).core = _
    rw [Table.setEnt_ne _ _ hxr, Table.setEnt_ne _ _ hxe]
    rfl

theorem Inv.effect_cleanStart (h : Inv n s) (hp : s.pc a.tid = .cleanStart k e)
    (hs : stepAt s a (.cleanStart k e) = some s') : Effect s a s' := by
  have hd := (h.ok hp).2
  have ho : e ∈ (s.pc a.tid).role.own := by rw [hp]; exact mem_cons_self ..
  obtain ⟨tab', hclean, -⟩ := h.tabInv.cleanStart (r := (Pc.cleanUpdate k e).role) ho hd
    (by rw [hp]; rfl) (by rw [hp]; rfl) (by rw [hp]; rfl) rfl
  simp only [stepAt, hclean, some.injEq] at hs
  rw [← hs]
  obtain ⟨q, link, rfl⟩ := Table.cleanStart_eq hclean
  exact .quiet (.to hp rfl rfl) (.of_filled rfl) (.setEnt rfl rfl rfl) rfl rfl rfl

theorem Inv.effect_cleanUpdate (h : Inv n s) (hp : s.pc a.tid = .cleanUpdate k e)
    (hs : stepAt s a (.cleanUpdate k e) = some s') : Effect s a s' := by
  simp only [stepAt] at hs
  split at hs
  next hnone => exact absurd hnone (h.cleanUpdate_data hp)
  next b hb =>
    split at hs
    next hok =>
      cases hs
      exact .stored (.to hp rfl rfl) hok hb (.of_eq rfl) rfl rfl rfl
    next hok =>
      cases hs
      exact .storeFailed (.to hp rfl rfl) (by simpa using hok) (.of_eq rfl) rfl rfl rfl

theorem effect_cleanLock (hp : s.pc a.tid = .cleanLock k e)
    (hs : stepAt s a (.cleanLock k e) = some s') : Effect s a s' := by
  simp only [stepAt] at hs
  split at hs
  next =>
    cases hs
    refine .cleaned (.to hp rfl ?_) (.setEnt rfl rfl rfl) rfl rfl rfl
    cases k <;> rfl
  next => cases hs

/-- Where `_entry_release` returns to, and whether the request returns with it. -/
theorem Inv.effect_release {k : Rel} (h : Inv n s) (hp : s.pc a.tid = .release k e)
    (hs : stepAt s a (.release k e) = some s') : Effect s a s' := by
  have hok : RelOk P s.tab e k := h.ok hp
  obtain ⟨tab', c, heq, hr, -⟩ := h.tabInv.entryRelease (t := a.tid) (e := e)
    (r := ⟨k.own, none, none, by simp⟩) (by rw [hp]; rfl) (by rw [hp]; rfl) (by rw [hp]; rfl)
  simp only [stepAt, heq] at hs
  split at hs
  next => cases hs
  next s₁ hsig =>
    obtain ⟨f, rfl⟩ := St.signal_eq hsig
    cases hs
    -- the part about the table is the same for every caller
    have hsame : (s.tab.ents e).data ≠ none ∨ 0 < (s.tab.ents e).waiters →
        ∀ s₂ : St P W, s₂.tab = tab' → SameTab s s₂ := by
      intro hx s₂ htab
      refine ⟨?_, fun x _ => ?_⟩
      · rw [htab]
        cases hr with
        | handed hw | queued hw hd => rfl
        | freed hw hd =>
          rcases hx with hx | hx
          · exact absurd hd hx
          · omega
      · unfold St.core
        rw [htab]
        exact hr.proj Entry.core (fun _ _ _ => rfl) x
    have key : ∀ (p' : Pc) (s₂ : St P W), s₂.pc = update s.pc a.tid p' →
        (p'.ctorIdx == Pc.running.ctorIdx) = false → Calm P (.release k e) p' →
        s₂.tab = tab' → s₂.mem = s.mem → s₂.store = s.store → s₂.hist = s.hist →
        Effect s a s₂ := by
      intro p' s₂ hpc hrun calm htab hmem hstore hhist
      by_cases hx : (s.tab.ents e).data ≠ none ∨ 0 < (s.tab.ents e).waiters
      · exact .quiet (.to hp hpc hrun) calm (hsame hx s₂ htab) hmem hstore hhist
      · obtain ⟨hd, hw⟩ : (s.tab.ents e).data = none ∧ (s.tab.ents e).waiters = 0 := by
          rw [not_or, not_not, not_lt, Nat.le_zero] at hx
          exact hx
        cases hr with
        | handed hw' => omega
        | queued _ hd' => exact absurd hd hd'
        | freed =>
          refine .freed (.to hp hpc hrun) calm hw hd (by rw [htab]) ?_ hmem hstore hhist
          intro x
          unfold St.core
          rw [htab]
          exact Table.setEnt_proj Entry.core (by rfl) x
    cases k with
    | steal io ent =>
      exact key _ _ rfl rfl ⟨rfl, fun _ he => he, rfl, rfl, rfl, Pc.ne_of_ctorIdx rfl⟩
        rfl rfl rfl rfl
    | request io failed =>
      cases failed with
      | true =>
        exact .returned (.to hp rfl rfl) (.of_filled rfl) (hsame (.inl hok.2) _ rfl) rfl rfl rfl
          (fun hsync => absurd hsync hok.1.2) (Pc.ne_of_ctorIdx rfl)
      | false => exact key _ _ rfl rfl (.of_filled rfl) rfl rfl rfl rfl
    | again k | shutdown =>
      exact key _ _ rfl rfl (.of_filled rfl) rfl rfl rfl rfl
    | stop k =>
      cases k with
      | cleaner => exact key _ _ rfl rfl (.of_filled rfl) rfl rfl rfl rfl
      | sync | shutdown => cases hok

theorem Inv.effect_eaFill (h : Inv n s) (hp : s.pc a.tid = .eaFill io e)
    (hs : stepAt s a (.eaFill io e) = some s') : Effect s a s' := by
  have hd := (h.ok hp).2.1
  simp only [stepAt] at hs
  split at hs
  next =>
    split at hs
    next hnone => exact absurd hnone hd
    next b d hb hstore =>
      split at hs
      next =>
        cases hs
        exact .filled (.to hp rfl rfl) hb hstore (.of_eq rfl) rfl rfl rfl
      next hok =>
        cases hs
        exact .fillFailed (.to hp rfl rfl) hb (.inl (by simpa using hok)) (.of_eq rfl) rfl rfl rfl
    next b hb hstore =>
      cases hs
      exact .fillFailed (.to hp rfl rfl) hb (.inr hstore) (.of_eq rfl) rfl rfl rfl
  next hwith =>
    -- the request overwrites the whole chunk: the buffer stays as it is
    cases hs
    have hwhole : io.wholeChunk P = true := by simpa [Io.withData] using hwith
    refine .quiet (.to hp rfl rfl) ⟨rfl, fun x hx => ?_, rfl, rfl, rfl, Pc.ne_of_ctorIdx rfl⟩
      (.of_eq rfl)
      rfl rfl rfl
    rw [← hx]
    simp [Pc.unfilled, hwhole]

theorem Inv.effect_ioBody (h : Inv n s) (hp : s.pc a.tid = .ioBody io e)
    (hs : stepAt s a (.ioBody io e) = some s') : Effect s a s' := by
  have hd := (h.ok hp).2
  simp only [stepAt] at hs
  split at hs
  next herr =>
    cases hs
    exact .refused (.to hp rfl rfl) herr (.of_eq rfl) rfl rfl rfl
  next herr =>
    have herr : (s.core e).error = false := Bool.eq_false_iff.mpr herr
    split at hs
    next hnone => exact absurd hnone hd
    next b hb =>
      split at hs
      next hw =>
        cases hs
        exact .written (.to hp rfl rfl) hw herr hb (.of_eq rfl) rfl rfl rfl
      next hw =>
        cases hs
        exact .read (.to hp rfl rfl) (by simpa using hw) herr hb (.of_eq rfl) rfl rfl rfl

theorem Inv.effect_erLock {failed : Bool} (h : Inv n s) (hp : s.pc a.tid = .erLock io e failed)
    (hs : stepAt s a (.erLock io e failed) = some s') : Effect s a s' := by
  have hd := (h.ok hp).2
  have ho : e ∈ (s.pc a.tid).role.own := by rw [hp]; exact mem_singleton.mpr rfl
  simp only [stepAt] at hs
  split at hs
  next hl =>
    split at hs
    next hw =>
      obtain ⟨hw, rfl⟩ := hw
      obtain ⟨tab', c, heq, -⟩ := h.tabInv.markDirty
        (r := (Pc.release (.request io false) e).role) ho a.now_pos hd
        (by rw [hp]; rfl) (by rw [hp]; rfl) (by rw [hp]; rfl) (by rw [hp]; rfl)
      simp only [heq, map_eq_some_iff] at hs
      obtain ⟨s₁, hsig, rfl⟩ := hs
      obtain ⟨f, rfl⟩ := St.signal_eq hsig
      rcases Table.markDirty_eq heq with ⟨hdirty, rfl, -⟩ | ⟨-, q, link, rfl⟩
      · exact .dirtied (.to hp rfl rfl) hw hdirty ⟨rfl, rfl, fun _ _ => rfl⟩ rfl rfl rfl
      · exact .dirtied (.to hp rfl rfl) hw (Nat.pos_iff_ne_zero.mp a.now_pos) (.setEnt rfl rfl rfl)
          rfl rfl rfl
    next hw =>
      cases hs
      exact .quiet (.to hp rfl rfl) (.of_filled (Prod.ext rfl (Prod.ext rfl
        (Prod.ext (if_neg hw).symm rfl)))) (.of_eq rfl) rfl rfl rfl
  next => cases hs

theorem Inv.effect_caLoop {k : CleanAll} (h : Inv n s) (hp : s.pc a.tid = .caLoop k)
    (hs : stepAt s a (.caLoop k) = some s') : Effect s a s' := by
  simp only [stepAt] at hs
  split at hs
  next hq =>
    cases hs
    cases k with
    | cleaner | shutdown =>
      exact .quiet (.to hp rfl rfl) (.of_filled rfl) (.of_eq rfl) rfl rfl rfl
    | sync => exact .synced (.to hp rfl rfl) hq (.of_eq rfl) rfl rfl rfl
  next e q hq =>
    cases hs
    have he : e ∈ s.tab.dirty := by rw [hq]; exact mem_cons_self ..
    exact effect_enter (l := s.lock) hp (h.tabInv.dirty_live e he)
      (.of_filled rfl)

omit [Fintype W] in
theorem effect_goto {s₁ : St P W} {c : Prop} [Decidable c] (hp : s.pc a.tid = p)
    (hs : (if c then some s₁ else none) = some s') (hpc : s₁.pc = update s.pc a.tid p')
    (hrun : (p'.ctorIdx == Pc.running.ctorIdx) = false) (calm : Calm P p p')
    (htab : s₁.tab = s.tab) (hmem : s₁.mem = s.mem) (hstore : s₁.store = s.store)
    (hhist : s₁.hist = s.hist) : Effect s a s' := by
  split at hs
  next =>
    cases hs
    exact .quiet (.to hp hpc hrun) calm (.of_eq htab) hmem hstore hhist
  next => cases hs

theorem Inv.effect (h : Inv n s) (hs : Fuse.step s a = some s') : Effect s a s' := by
  have h' := h.step hs
  have hs := h.stepAt_of_step hs
  generalize hp : s.pc a.tid = p at hs
  cases p with
  | idle =>
    simp only [stepAt] at hs
    split at hs
    next =>
      split at hs
      next =>
        cases hs
        exact .called (.to hp rfl rfl) (.of_filled rfl) (.of_eq rfl) rfl rfl rfl
      next =>
        cases hs
        exact .called (.to hp rfl rfl) (.of_filled rfl) (.of_eq rfl) rfl rfl rfl
    next => cases hs
  | ioNext io =>
    have hfits : io.Fits := h.ok hp
    simp only [stepAt] at hs
    split at hs
    next =>
      cases hs
      exact .quiet (.to hp rfl rfl) (.of_filled rfl) (.of_eq rfl) rfl rfl rfl
    next =>
      cases hs
      exact .returned (.to hp rfl rfl) (.of_filled rfl) (.of_eq rfl) rfl rfl rfl
        (fun hsync => absurd hsync hfits.2) (Pc.ne_of_ctorIdx rfl)
  | eaLock io => exact h.effect_eaLock hp hs
  | acqLoop k e => exact effect_acqLoop hp hs
  | acqWait k e | eaReclaimWait io e | clWait timed
  | syncLock | clLock | running | shJoin | shLock =>
    exact effect_goto hp hs rfl rfl (.of_filled rfl) rfl rfl rfl rfl
  | eaData io e => exact effect_eaData hp hs
  | eaReclaim io e => exact h.effect_eaReclaim hp hs
  | eaReclaimed io e r | clTest =>
    simp only [stepAt] at hs
    split at hs <;> cases hs <;>
      exact .quiet (.to hp rfl rfl) (.of_filled rfl) (.of_eq rfl) rfl rfl rfl
  | cleanStart k e => exact h.effect_cleanStart hp hs
  | cleanUpdate k e => exact h.effect_cleanUpdate hp hs
  | cleanFailed k e =>
    simp only [stepAt, some.injEq] at hs
    rw [← hs]
    exact .storeError (.to hp rfl rfl) (.setEnt rfl rfl rfl) rfl rfl rfl
  | cleanLock k e => exact effect_cleanLock hp hs
  | eaSteal io e r => exact h.effect_eaSteal hp hs
  | release k e => exact h.effect_release hp hs
  | eaFill io e => exact h.effect_eaFill hp hs
  | fillFailed io e =>
    simp only [stepAt, some.injEq] at hs
    rw [← hs]
    exact .fillError (.to hp rfl rfl) (.setEnt rfl rfl rfl) rfl rfl rfl
  | ioBody io e => exact h.effect_ioBody hp hs
  | erLock io e failed => exact h.effect_erLock hp hs
  | caLoop k => exact h.effect_caLoop hp hs
  | caDirty k e =>
    simp only [stepAt] at hs
    split at hs
    next =>
      cases hs
      exact .quiet (.to hp rfl rfl) (.of_filled rfl) (.of_eq rfl) rfl rfl rfl
    next =>
      split at hs <;> cases hs <;>
        exact .quiet (.to hp rfl rfl) (.of_filled rfl) (.of_eq rfl) rfl rfl rfl
  | syncFlush =>
    simp only [stepAt, some.injEq] at hs
    rw [← hs]
    exact .returned (.to hp rfl rfl) (.of_filled rfl) (.of_eq rfl) rfl rfl rfl
      (fun _ => rfl) (Pc.ne_of_ctorIdx rfl)
  | clExit | shDone => cases hs
  | shStop =>
    simp only [stepAt] at hs
    split at hs
    next =>
      obtain ⟨f, rfl⟩ := St.signal_map hs
      exact .quiet (.to hp rfl rfl) (.of_filled rfl) (.of_eq rfl) rfl rfl rfl
    next => cases hs
  | shFree =>
    simp only [stepAt] at hs
    split at hs
    next e q hq =>
      cases hs
      have he : e ∈ s.tab.reclaimable := by rw [hq]; exact mem_cons_self ..
      exact effect_enter (l := s.lock) hp (h.tabInv.recl_live e he)
        (.of_filled rfl)
    next =>
      split at hs <;> cases hs
      · exact .quiet (.to hp rfl rfl) (.of_filled rfl) (.of_eq rfl) rfl rfl rfl
      · cases h'.alive
  | shDrop e =>
    simp only [stepAt] at hs
    split at hs
    next =>
      cases hs
      cases h'.alive
    next tab hdrop =>
      cases hs
      obtain rfl := Table.dropData_eq hdrop
      refine .dropped (.to hp rfl rfl) ?_ (Table.dropData_dirty hdrop) (.setEnt rfl rfl rfl)
        rfl rfl rfl
      rw [← h.eq_main hp rfl]
      simp [St.goto]

end OpenIsr.Fuse
