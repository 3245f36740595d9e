import OpenIsr.Fuse.Reads

/-!
# The image is a disk

While no `cache_get` and no `cache_update` call fails, no entry ever gets its error flag,
so every write that acquires the busy flag of its chunk is carried out before the flag
changes hands. `acquired disk c hist` replays the writes to chunk `c` on a plain array of
chunks at the moment of their acquisitions; a reader gets what was there at its own.
-/

namespace OpenIsr.Fuse

open List

variable {P : Parcel} {W : Type} {p : Pc} {io : Io}

/-- Chunk `c` of a plain array of chunks to which each write is applied when it acquires
the busy flag. -/
def acquired (disk : Nat → Data P) (c : Nat) : List (Event P W) → Data P
  | [] => disk c
  | .acq _ c' (some w) :: h => if c' = c then w.apply (acquired disk c h) else acquired disk c h
  | _ :: h => acquired disk c h

/-- The effect of a request on its chunk. -/
def applyOpt (w : Option Write) (d : Data P) : Data P :=
  match w with
  | some w => w.apply d
  | none => d

variable {disk : Nat → Data P} {ev : Event P W} {c : Nat}

theorem acquired_acq (t : Tid W) (c : Nat) (w : Option Write) (h : List (Event P W)) :
    acquired disk c (.acq t c w :: h) = applyOpt w (acquired disk c h) := by
  cases w with
  | none => rfl
  | some w => exact if_pos rfl

theorem acquired_other (h : List (Event P W)) (hev : ev.touches c = false) :
    acquired disk c (ev :: h) = acquired disk c h := by
  cases ev with
  | acq t c' w =>
    cases w with
    | none => rfl
    | some w => exact if_neg (by simpa [Event.touches] using hev)
  | _ => rfl

theorem value_other (h : List (Event P W)) (hev : ev.touches c = false) :
    value disk c (ev :: h) = value disk c h := by
  cases ev with
  | wrote t c' w => exact if_neg (by simpa [Event.touches] using hev)
  | _ => rfl

theorem acquired_append {mid : List (Event P W)} (h : List (Event P W))
    (hmid : ∀ ev ∈ mid, ev.touches c = false) : acquired disk c (mid ++ h) = acquired disk c h := by
  induction mid with
  | nil => rfl
  | cons ev mid ih =>
    rw [cons_append, acquired_other _ (hmid ev (mem_cons_self ..))]
    exact ih fun x hx => hmid x (mem_cons_of_mem _ hx)

variable [DecidableEq W] {n e : Nat} {s s' : St P W} {a : Act P W} {p' : Pc}

/-! ## Runs without failures -/

/-- The step's `cache_get` or `cache_update` call, if it makes one, succeeds. -/
def noFault (s : St P W) (a : Act P W) : Bool :=
  match s.pc a.tid with
  | .cleanUpdate _ _ | .eaFill _ _ => a.ok
  | _ => true

/-- The event does not record a failure. -/
def Event.fine : Event P W → Bool
  | .updateFailed _ _ => false
  | _ => true

/-- Nothing has failed so far. -/
structure Sound (s : St P W) : Prop where
  error : ∀ e ∈ s.tab.chunks, (s.core e).error = false
  store : ∀ c, s.store c ≠ none
  failing : ∀ t, (s.pc t).failing = false
  failed : ∀ c, failedLast c s.hist = false

theorem Sound.keep {t : Tid W} (hS : Sound s) (mv : Move s t p p' s')
    (herr : ∀ e ∈ s'.tab.chunks, (s'.core e).error = false) (hstore : ∀ c, s'.store c ≠ none)
    (hp' : p'.failing = false)
    (hhist : s'.hist = s.hist ∨ ∃ ev : Event P W, ev.fine = true ∧ s'.hist = ev :: s.hist) :
    Sound s' := by
  refine ⟨herr, hstore, fun u => ?_, fun c => ?_⟩
  · by_cases hut : u = t
    · rw [hut, mv.self]
      exact hp'
    · rw [mv.other hut]
      exact hS.failing u
  · rcases hhist with hhist | ⟨ev, hev, hhist⟩
    · rw [hhist]
      exact hS.failed c
    · rw [hhist]
      cases ev with
      | updated c' d =>
        simp only [failedLast, hS.failed c, ite_self]
      | updateFailed c' d => cases hev
      | _ => exact hS.failed c

omit [DecidableEq W] in
theorem Sound.same (hS : Sound s) (tab : SameTab s s') :
    ∀ e ∈ s'.tab.chunks, (s'.core e).error = false := by
  intro e he
  rw [tab.chunks] at he
  rw [tab.core e he]
  exact hS.error e he

omit [DecidableEq W] in
theorem Sound.one {core : Core} (hS : Sound s) (tab : OneEnt s s' e core)
    (herr : core.error = (s.core e).error) : ∀ x ∈ s'.tab.chunks, (s'.core x).error = false := by
  intro x hx
  rw [tab.chunks] at hx
  by_cases hxe : x = e
  · rw [hxe, tab.self, herr, ← hxe]
    exact hS.error x hx
  · rw [tab.other x hxe]
    exact hS.error x hx

theorem Sound.step (hS : Sound s) (hE : Effect s a s')
    (hC : noFault s a = true ∨ (s'.pc a.tid).failing = false) : Sound s' := by
  cases hE with
  | quiet mv calm tab mem store hist =>
    exact hS.keep mv (hS.same tab) (store ▸ hS.store) calm.failing (.inl hist)
  | called mv calm tab mem store hist | returned mv calm tab mem store hist _ _ =>
    exact hS.keep mv (hS.same tab) (store ▸ hS.store) calm.failing (.inr ⟨_, rfl, hist⟩)
  | synced mv _ tab mem store hist | filled mv hb hd tab mem store hist
  | refused mv herr tab mem store hist =>
    exact hS.keep mv (hS.same tab) (store ▸ hS.store) rfl (.inl hist)
  | created mv hnew hkey chunks self other mem store hist =>
    refine hS.keep mv (fun x hx => ?_) (store ▸ hS.store) rfl (.inl hist)
    rw [chunks, mem_append, mem_singleton] at hx
    rcases hx with hx | rfl
    · rw [other x hx]; exact hS.error x hx
    · rw [self]
  | taken mv _ tab mem store hist | read mv hr _ _ tab mem store hist
  | written mv hw herr hb tab mem store hist =>
    exact hS.keep mv (hS.same tab) (store ▸ hS.store) rfl (.inr ⟨_, rfl, hist⟩)
  | allocated mv tab hd mem store hist | dirtied mv hw hd tab mem store hist
  | dropped mv _ hd tab mem store hist =>
    exact hS.keep mv (hS.one tab rfl) (store ▸ hS.store) rfl (.inl hist)
  | @stolen io e r b mv hne chunks hd _ self victim other mem store hist =>
    refine hS.keep mv (fun x hx => ?_) (store ▸ hS.store) rfl (.inl hist)
    rw [chunks] at hx
    have hx' := hS.error x hx
    by_cases hxe : x = e
    · rw [hxe] at hx' ⊢
      rw [self]
      exact hx'
    · by_cases hxr : x = r
      · rw [hxr] at hx' ⊢
        rw [victim]
        exact hx'
      · rw [other x hxe hxr]
        exact hx'
  | stored mv _ hb tab mem store hist =>
    refine hS.keep mv (hS.same tab) (fun c => ?_) rfl (.inr ⟨_, rfl, hist⟩)
    rw [store, Function.update_apply]
    split
    · simp
    · exact hS.store c
  | storeFailed mv hok tab mem store hist =>
    simp only [noFault, mv.old, hok, mv.self, Pc.failing] at hC
    cases hC with
    | inl hC | inr hC => cases hC
  | storeError mv _ _ _ _ | fillError mv _ _ _ _ =>
    have := hS.failing a.tid
    rw [mv.old] at this
    cases this
  | @cleaned k _ mv tab mem store hist =>
    exact hS.keep mv (hS.one tab rfl) (store ▸ hS.store) (by cases k <;> rfl) (.inl hist)
  | freed mv calm hw hd chunks core mem store hist =>
    refine hS.keep mv (fun x hx => ?_) (store ▸ hS.store) calm.failing (.inl hist)
    rw [core x]
    exact hS.error x (mem_of_mem_erase (chunks ▸ hx))
  | fillFailed mv hb hfail tab mem store hist =>
    have hok := hfail.resolve_right (hS.store _)
    simp only [noFault, mv.old, hok, mv.self, Pc.failing] at hC
    cases hC with
    | inl hC | inr hC => cases hC

/-! ## Replaying the acquisitions -/

/-- The plain array is ahead of the chunk's value by the pending write, if there is one. -/
structure ReplayInv (disk : Nat → Data P) (s : St P W) : Prop where
  idle : ∀ c, (∀ t io e, (s.pc t).pending = some (io, e) → io.cur.chunk ≠ c) →
    acquired disk c s.hist = value disk c s.hist
  busy : ∀ t io e, (s.pc t).pending = some (io, e) →
    acquired disk io.cur.chunk s.hist = applyOpt io.write? (value disk io.cur.chunk s.hist)

omit [DecidableEq W] in
theorem replay_other {w : Option Write} {h : List (Event P W)}
    (hold : acquired disk c h = applyOpt w (value disk c h)) (hev : ev.touches c = false) :
    acquired disk c (ev :: h) = applyOpt w (value disk c (ev :: h)) := by
  rw [acquired_other _ hev, value_other _ hev, hold]

theorem ReplayInv.same (hV : ReplayInv disk s) (mv : Move s a.tid p p' s')
    (pending : p'.pending = p.pending)
    (hist : s'.hist = s.hist ∨ ∃ ev : Event P W, ev.plain = true ∧ s'.hist = ev :: s.hist) :
    ReplayInv disk s' := by
  have hpend : ∀ t, (s'.pc t).pending = (s.pc t).pending := by
    intro t
    by_cases ht : t = a.tid
    · rw [ht, mv.self, mv.old, pending]
    · rw [mv.other ht]
  have hkeep : ∀ c w, acquired disk c s.hist = applyOpt w (value disk c s.hist) →
      acquired disk c s'.hist = applyOpt w (value disk c s'.hist) := by
    intro c w hold
    rcases hist with hist | ⟨ev, hev, hist⟩
    · rw [hist]; exact hold
    · rw [hist]; exact replay_other hold (Event.touches_of_plain hev)
  refine ⟨fun c hc => ?_, fun t io e ht => ?_⟩
  · exact hkeep c none (hV.idle c fun t io e ht => hc t io e (by rw [hpend]; exact ht))
  · exact hkeep _ _ (hV.busy t io e (by rw [← hpend]; exact ht))

variable [Fintype W]

section

variable (hV : ReplayInv disk s) (h : Inv n s)
include hV h

theorem ReplayInv.accessed (mv : Move s a.tid (.ioBody io e) p' s') (hp' : p'.pending = none)
    (hist : s'.hist = ev :: s.hist) (hev : ∀ c, c ≠ io.cur.chunk → ev.touches c = false)
    (hchunk : acquired disk io.cur.chunk (ev :: s.hist) = value disk io.cur.chunk (ev :: s.hist)) :
    ReplayInv disk s' := by
  have hpend : (s.pc a.tid).pending = some (io, e) := by rw [mv.old]; rfl
  have hold : ∀ u io' e', (s'.pc u).pending = some (io', e') →
      (s.pc u).pending = some (io', e') ∧ io'.cur.chunk ≠ io.cur.chunk := by
    intro u io' e' hu
    by_cases hut : u = a.tid
    · rw [hut, mv.self, hp'] at hu
      cases hu
    · rw [mv.other hut] at hu
      exact ⟨hu, h.pending_ne hpend hu hut⟩
  rw [← hist] at hchunk
  refine ⟨fun c hc => ?_, fun t io' e' ht => ?_⟩
  · by_cases hcc : c = io.cur.chunk
    · rw [hcc]; exact hchunk
    · rw [hist]
      refine replay_other (w := none) (hV.idle c fun u io' e' hu => ?_) (hev c hcc)
      by_cases hut : u = a.tid
      · rw [hut, hpend, Option.some.injEq, Prod.mk.injEq] at hu
        rw [← hu.1]
        exact Ne.symm hcc
      · exact hc u io' e' (by rw [mv.other hut]; exact hu)
  · obtain ⟨hu, hne⟩ := hold t io' e' ht
    rw [hist]
    exact replay_other (hV.busy t io' e' hu) (hev _ hne)

theorem ReplayInv.taken (mv : Move s a.tid (.acqLoop (.request io) e) (.eaData io e) s')
    (hb : (s.tab.ents e).busy = false)
    (hist : s'.hist = .acq a.tid io.cur.chunk io.write? :: s.hist) : ReplayInv disk s' := by
  have htouch : ∀ c, c ≠ io.cur.chunk →
      (Event.acq a.tid io.cur.chunk io.write? : Event P W).touches c = false :=
    fun c hc => beq_eq_false_iff_ne.mpr (Ne.symm hc)
  have hfree : acquired disk io.cur.chunk s.hist = value disk io.cur.chunk s.hist :=
    hV.idle _ fun u io' e' hu => h.not_pending mv.old hb hu
  refine ⟨fun c hc => ?_, fun t io' e' ht => ?_⟩
  · have hcc : c ≠ io.cur.chunk := fun hcc =>
      hc a.tid io e (by rw [mv.self]; rfl) hcc.symm
    rw [hist]
    refine replay_other (w := none) (hV.idle c fun u io' e' hu => ?_) (htouch c hcc)
    by_cases hut : u = a.tid
    · rw [hut, mv.old] at hu
      cases hu
    · exact hc u io' e' (by rw [mv.other hut]; exact hu)
  · rw [hist]
    by_cases hta : t = a.tid
    · rw [hta, mv.self] at ht
      simp only [Pc.pending, Option.some.injEq, Prod.mk.injEq] at ht
      rw [← ht.1, acquired_acq, hfree]
      rfl
    · rw [mv.other hta] at ht
      exact replay_other (hV.busy t io' e' ht) (htouch _ (h.not_pending mv.old hb ht))

theorem ReplayInv.step (hS : Sound s) (hd : Digest s a s') : ReplayInv disk s' := by
  cases hd with
  | same mv pending hist => exact hV.same mv pending hist
  | taken mv hb hist => exact hV.taken h mv hb hist
  | refused mv herr hist =>
    have := hS.error _ (h.live mv.old (mem_singleton.mpr rfl))
    rw [herr] at this
    cases this
  | @read io e b out mv hr herr hb hist =>
    refine hV.accessed h mv rfl hist (fun _ _ => rfl) ?_
    have hbusy := hV.busy a.tid io e (by rw [mv.old]; rfl)
    rwa [Io.write?, hr, if_neg (by simp)] at hbusy
  | @written io e mv hw hist =>
    refine hV.accessed h mv rfl hist (fun c hc => beq_eq_false_iff_ne.mpr (Ne.symm hc)) ?_
    have hbusy := hV.busy a.tid io e (by rw [mv.old]; rfl)
    rw [Io.write?, if_pos hw] at hbusy
    rw [show value disk io.cur.chunk (.wrote a.tid io.cur.chunk io.piece :: s.hist)
      = io.piece.apply (value disk io.cur.chunk s.hist) from if_pos rfl]
    exact hbusy

end

/-! ## The result -/

/-- A copy of `image_read` gives its piece of the plain array as it was at the reader's own
acquisition of the busy flag. -/
def DiskOk (disk : Nat → Data P) : Event P W → List (Event P W) → Prop
  | .copied t c off bytes, past =>
    off + bytes.length ≤ P.chunksize ∧ ∃ mid older, past = mid ++ .acq t c none :: older ∧
      (∀ w, .acq t c w ∉ mid) ∧ bytes = slice (acquired disk c older) off bytes.length
  | _, _ => True

theorem DiskOk.step (hL : Live disk s) (hV : s.pc .main = .running → ReplayInv disk s)
    (h : Inv n s) (hd : Digest s a s') (hR : Base.Always (DiskOk disk) s.hist) :
    Base.Always (DiskOk disk) s'.hist := by
  cases hd with
  | same mv _ hist =>
    rcases hist with hist | ⟨ev, hev, hist⟩
    · rwa [hist]
    · rw [hist]
      refine .cons ?_ hR
      cases ev <;> trivial
  | taken mv _ hist | written mv hw hist =>
    rw [hist]
    exact .cons trivial hR
  | refused mv _ hist => rwa [hist]
  | @read io e b out mv hr herr hb hist =>
    rw [hist]
    have hrun := h.running_of mv.old rfl nofun
    have hpend : (s.pc a.tid).pending = some (io, e) := by rw [mv.old]; rfl
    have hw : io.write? = none := by simp [Io.write?, hr]
    have hio := (h.ok mv.old).1
    obtain ⟨mid, older, heq, hmid⟩ := (hL hrun).2 a.tid io e hpend
    rw [hw] at heq
    have hval : s.mem b = acquired disk io.cur.chunk older := by
      have hbusy := (hV hrun).busy a.tid io e hpend
      rw [hw] at hbusy
      rw [hL.read_value h mv.old hr herr hb]
      rw [show value disk io.cur.chunk s.hist = applyOpt none (value disk io.cur.chunk s.hist)
        from rfl, ← hbusy, heq, acquired_append _ hmid, acquired_acq]
      rfl
    refine .cons ⟨?_, mid, older, heq, fun w hx => ?_, ?_⟩ hR
    · rw [slice_length]
      exact hio.1.1.inside
    · have := hmid _ hx
      simp [Event.touches] at this
    · rw [slice_length, hval]

/-- The image refines a plain array of chunks: if no `cache_get` and no `cache_update` call
fails, every copy made by `image_read` gives the array as it was when the reader acquired
the busy flag, that is, the initial chunk with all writes applied that acquired it before.
This holds for any number of workers, any number of buffers, and any requests. -/
theorem image_refines_disk (allocatable : Nat) (disk : Nat → Data P)
    (hr : Base.Reach step (fun s a => noFault s a = true) (init W allocatable disk) s) :
    Base.Always (DiskOk disk) s.hist := by
  have key : Inv allocatable s ∧ Live disk s ∧
      (s.pc .main = .running → Sound s ∧ ReplayInv disk s) ∧
      Base.Always (DiskOk disk) s.hist := by
    refine hr.inv (I := fun s => Inv allocatable s ∧ Live disk s ∧
      (s.pc .main = .running → Sound s ∧ ReplayInv disk s) ∧
      Base.Always (DiskOk disk) s.hist) ⟨inv_init _ _, live_init _, fun _ => ⟨?_, ?_⟩, .nil⟩ ?_
    · refine ⟨nofun, nofun, fun t => ?_, fun _ => rfl⟩
      cases t <;> rfl
    · refine ⟨fun _ _ => rfl, fun t io e ht => ?_⟩
      cases t <;> cases ht
    · rintro s a s' ⟨h, hL, hSV, hR⟩ hC hs
      have hE := h.effect hs
      have hkept : s.pc .main = .running → freesLost disk s a = false := fun hrun =>
        freesLost_eq_false (hSV hrun).1.failed
      refine ⟨h.step hs, hL.step h hE hkept, fun hrun' => ?_,
        DiskOk.step hL (fun hrun => (hSV hrun).2) h hE.digest hR⟩
      obtain ⟨hS, hV⟩ := hSV (hE.digest.running hrun')
      exact ⟨hS.step hE (.inl hC), hV.step h hS hE.digest⟩
  exact key.2.2.2

/-- The last event is a read of what has been written. -/
def readsWritten : List (Event tinyParcel (Fin 1)) → Bool
  | .copied t c off bytes :: _ => t == solo && c == 0 && off == 0 && bytes == [7]
  | _ => false

/-- With a single buffer, chunk 0 is written, written back when chunk 1 needs the buffer,
and read again from the local cache. -/
theorem image_refines_disk_tiny : ∃ s, Base.Reach step (fun s a => noFault s a = true)
    (init (P := tinyParcel) (Fin 1) 1 fun _ _ => 0) s ∧
      (∃ past, s.hist = .copied (.fuse 0) 0 0 [7] :: past) ∧
      Base.Always (DiskOk fun _ _ => 0) s.hist := by
  have hrun : (Base.exec step noFault (init (Fin 1) 1 fun _ _ => 0)
      (tinyRun ++ Act.call solo (.read 0 1) ::
        replicate 11 (Act.go solo))).any (fun s => readsWritten s.hist) = true := by
    decide +kernel
  obtain ⟨s, hs, hchk⟩ := Base.reach_of_exec_any (D := fun s a => noFault s a = true)
    (fun _ _ h => h) _ hrun
  refine ⟨s, hs, ?_, image_refines_disk 1 (fun _ _ => 0) hs⟩
  unfold readsWritten at hchk
  split at hchk
  next t c off bytes past heq =>
    simp only [Bool.and_eq_true, beq_iff_eq] at hchk
    obtain ⟨⟨⟨rfl, rfl⟩, rfl⟩, rfl⟩ := hchk
    exact ⟨past, heq⟩
  next => cases hchk

end OpenIsr.Fuse
