import OpenIsr.Fuse.Data
import OpenIsr.Base.History

/-!
# What readers see

The busy flag of a chunk's entry orders the requests on that chunk: between a request's
acquisition of the flag and its `memcpy`, no other request acquires it or writes to the
chunk (`AcqInv`). So the writes of the history are in the order of the acquisitions, and a
reader that finds no error flag copies the chunk's `value`.

Two results follow. Without failures, a reader sees exactly the writes whose acquisition
preceded its own. With failures, it sees the last acknowledged write as long as no step
frees the entry of a lost chunk; a run that does shows why the condition is needed.
-/

namespace OpenIsr.Fuse

variable {P : Parcel} {W : Type} {u : Tid W} {io' : Io} {e' : Nat} {p : Pc}

/-- The event orders or changes the contents of chunk `c`. -/
def Event.touches (c : Nat) : Event P W → Bool
  | .acq _ c' _ | .wrote _ c' _ => c' == c
  | _ => false

/-- The event has nothing to do with requests' access to chunks. -/
def Event.plain : Event P W → Bool
  | .acq _ _ _ | .copied _ _ _ _ | .wrote _ _ _ => false
  | _ => true

theorem Event.touches_of_plain {ev : Event P W} {c : Nat} (h : ev.plain = true) :
    ev.touches c = false := by
  cases ev <;> first | rfl | cases h

variable [DecidableEq W] [Fintype W] {disk : Nat → Data P} {n e : Nat} {s s' : St P W} {a : Act P W}
  {t : Tid W} {io : Io}

/-! ## Acquisition and access -/

/-- What a step does to the pending requests and to the history. -/
inductive Digest (s : St P W) (a : Act P W) (s' : St P W) : Prop
  | same {p p' : Pc} (mv : Move s a.tid p p' s') (pending : p'.pending = p.pending)
      (hist : s'.hist = s.hist ∨ ∃ ev : Event P W, ev.plain = true ∧ s'.hist = ev :: s.hist)
  | taken {io : Io} {e : Nat} (mv : Move s a.tid (.acqLoop (.request io) e) (.eaData io e) s')
      (hb : (s.tab.ents e).busy = false)
      (hist : s'.hist = .acq a.tid io.cur.chunk io.write? :: s.hist)
  | refused {io : Io} {e : Nat} (mv : Move s a.tid (.ioBody io e) (.erLock io e true) s')
      (herr : (s.core e).error = true) (hist : s'.hist = s.hist)
  | read {io : Io} {e b : Nat} {out : List UInt8}
      (mv : Move s a.tid (.ioBody io e) (.erLock { io with out } e false) s')
      (hr : io.req.isWrite = false) (herr : (s.core e).error = false)
      (hb : (s.core e).data = some b)
      (hist : s'.hist = .copied a.tid io.cur.chunk io.cur.offset
        (slice (s.mem b) io.cur.offset io.cur.length) :: s.hist)
  | written {io : Io} {e : Nat} (mv : Move s a.tid (.ioBody io e) (.erLock io e false) s')
      (hw : io.req.isWrite = true)
      (hist : s'.hist = .wrote a.tid io.cur.chunk io.piece :: s.hist)

omit [Fintype W] in
theorem Effect.digest (hE : Effect s a s') : Digest s a s' := by
  cases hE with
  | quiet mv calm tab mem store hist | freed mv calm _ _ _ _ _ _ hist =>
    exact .same mv calm.pending (.inl hist)
  | called mv calm tab mem store hist | returned mv calm tab mem store hist _ _ =>
    exact .same mv calm.pending (.inr ⟨_, rfl, hist⟩)
  | synced mv _ tab mem store hist | created mv _ _ _ _ _ _ _ hist | allocated mv _ _ _ _ hist
  | stolen mv _ _ _ _ _ _ _ _ _ hist | storeError mv _ _ _ hist | filled mv _ _ _ _ _ hist
  | fillFailed mv _ _ _ _ _ hist | fillError mv _ _ _ hist | dirtied mv _ _ _ _ _ hist
  | dropped mv _ _ _ _ _ hist => exact .same mv rfl (.inl hist)
  | taken mv hb tab mem store hist => exact .taken mv hb hist
  | stored mv _ _ _ _ _ hist | storeFailed mv _ _ _ _ hist =>
    exact .same mv rfl (.inr ⟨_, rfl, hist⟩)
  | @cleaned k _ mv _ _ _ hist => exact .same mv (by cases k <;> rfl) (.inl hist)
  | refused mv herr _ _ _ hist => exact .refused mv herr hist
  | read mv hr herr hb _ _ _ hist => exact .read mv hr herr hb hist
  | written mv hw _ _ _ _ _ hist => exact .written mv hw hist

omit [DecidableEq W] in
theorem Inv.pending_ok (h : Inv n s) (hp : (s.pc t).pending = some (io, e)) :
    e ∈ (s.pc t).own ∧ IoOk P s.tab io e := by
  have hok := h.pcOk t
  generalize s.pc t = p at hp hok
  cases p with
  | acqLoop k x | acqWait k x =>
    cases k <;> simp_all [Pc.pending, Acq.pending, Pc.own, Acq.own, PcOk, AcqOk]
  | cleanStart k x | cleanUpdate k x | cleanFailed k x | cleanLock k x =>
    cases k <;> simp_all [Pc.pending, Clean.pending, Pc.own, Clean.own, PcOk, CleanOk]
  | release k x =>
    cases k <;> simp_all [Pc.pending, Rel.pending, Pc.own, Rel.own, PcOk, RelOk]
  | _ => simp_all [Pc.pending, Pc.own, PcOk]

omit [DecidableEq W] in
theorem Inv.pending_ne (h : Inv n s) (ht : (s.pc t).pending = some (io, e))
    (hu : (s.pc u).pending = some (io', e')) (hne : u ≠ t) : io'.cur.chunk ≠ io.cur.chunk := by
  obtain ⟨ho, -, hk⟩ := h.pending_ok ht
  obtain ⟨ho', -, hk'⟩ := h.pending_ok hu
  intro heq
  have hee := h.tabInv.key e' (h.tabInv.own_live u e' ho') e (h.tabInv.own_live t e ho)
    (hk'.trans (heq.trans hk.symm))
  exact hne (h.owner ho' (hee ▸ ho))

omit [DecidableEq W] in
theorem Inv.not_pending (h : Inv n s) (hp : s.pc t = .acqLoop (.request io) e)
    (hb : (s.tab.ents e).busy = false) (hu : (s.pc u).pending = some (io', e')) :
    io'.cur.chunk ≠ io.cur.chunk := by
  obtain ⟨ho', -, hk'⟩ := h.pending_ok hu
  have hio : IoOk P s.tab io e := h.ok hp
  have he := h.tabInv.wait_live t e (by rw [hp]; rfl)
  intro heq
  have hee := h.tabInv.key e' (h.tabInv.own_live u e' ho') e he
    (hk'.trans (heq.trans hio.2.symm))
  have := (h.tabInv.ent e he).busyOk.busy.mpr ⟨u, hee ▸ ho'⟩
  rw [hb] at this
  cases this

/-- A pending request's acquisition is the last thing that happened to its chunk. -/
def AcqInv (s : St P W) : Prop :=
  ∀ t io e, (s.pc t).pending = some (io, e) → ∃ mid older,
    s.hist = mid ++ .acq t io.cur.chunk io.write? :: older ∧
      ∀ ev ∈ mid, ev.touches io.cur.chunk = false

omit [DecidableEq W] [Fintype W] in
theorem AcqInv.push {ev : Event P W} {hist : List (Event P W)}
    (h : ∃ mid older, hist = mid ++ .acq t io.cur.chunk io.write? :: older ∧
      ∀ ev ∈ mid, ev.touches io.cur.chunk = false) (hev : ev.touches io.cur.chunk = false) :
    ∃ mid older, ev :: hist = mid ++ .acq t io.cur.chunk io.write? :: older ∧
      ∀ ev ∈ mid, ev.touches io.cur.chunk = false := by
  obtain ⟨mid, older, rfl, hmid⟩ := h
  refine ⟨ev :: mid, older, rfl, ?_⟩
  intro x hx
  rcases List.mem_cons.mp hx with rfl | hx
  · exact hev
  · exact hmid x hx

theorem AcqInv.step (hA : AcqInv s) (h : Inv n s) (hd : Digest s a s') : AcqInv s' := by
  intro u io' e' hu
  cases hd with
  | same mv pending hist =>
    have hold : (s.pc u).pending = some (io', e') := by
      by_cases hut : u = a.tid
      · rw [hut, mv.old, ← pending, ← mv.self, ← hut]
        exact hu
      · rwa [mv.other hut] at hu
    rcases hist with hist | ⟨ev, hev, hist⟩
    · rw [hist]
      exact hA u io' e' hold
    · rw [hist]
      exact AcqInv.push (hA u io' e' hold) (Event.touches_of_plain hev)
  | taken mv hb hist =>
    rw [hist]
    by_cases hut : u = a.tid
    · rw [hut, mv.self] at hu
      simp only [Pc.pending, Option.some.injEq, Prod.mk.injEq] at hu
      rw [← hu.1, hut]
      exact ⟨[], s.hist, rfl, nofun⟩
    · rw [mv.other hut] at hu
      refine AcqInv.push (hA u io' e' hu) ?_
      exact beq_eq_false_iff_ne.mpr (Ne.symm (h.not_pending mv.old hb hu))
  | refused mv herr hist =>
    have hut : u ≠ a.tid := fun hut => by rw [hut, mv.self] at hu; cases hu
    rw [mv.other hut] at hu
    rw [hist]
    exact hA u io' e' hu
  | read mv hr herr hb hist =>
    have hut : u ≠ a.tid := fun hut => by rw [hut, mv.self] at hu; cases hu
    rw [mv.other hut] at hu
    rw [hist]
    exact AcqInv.push (hA u io' e' hu) rfl
  | written mv hw hist =>
    have hut : u ≠ a.tid := fun hut => by rw [hut, mv.self] at hu; cases hu
    rw [mv.other hut] at hu
    rw [hist]
    refine AcqInv.push (hA u io' e' hu) (beq_eq_false_iff_ne.mpr (Ne.symm ?_))
    exact h.pending_ne (t := a.tid) (by rw [mv.old]; rfl) hu hut

/-! ## While FUSE runs -/

omit [DecidableEq W] in
theorem Inv.running_of (h : Inv n s) (hp : s.pc t = p) (hk : p.kind = .fuse) (hi : p ≠ .idle) :
    s.pc .main = .running := by
  have htk : t.kind = .fuse := by rw [← h.kind t, hp, hk]
  refine Pc.eq_running (h.kind .main) ((h.main_stage ?_ ?_ ?_).1 htk)
  · rintro rfl
    cases htk
  · intro hx
    exact absurd (hp ▸ hx) hi
  · rw [hp]
    rintro rfl
    cases hk

omit [DecidableEq W] [Fintype W] in
theorem Move.running [DecidableEq W] {p' : Pc} (mv : Move s t p p' s')
    (hrun' : s'.pc .main = .running) : s.pc .main = .running := by
  by_cases ht : t = .main
  · rw [← ht, mv.self] at hrun'
    exact absurd hrun' mv.run
  · rwa [mv.other (Ne.symm ht)] at hrun'

omit [Fintype W] in
theorem Digest.running (hd : Digest s a s') (hrun' : s'.pc .main = .running) :
    s.pc .main = .running := by
  cases hd with
  | same mv _ _ | taken mv _ _ | refused mv _ _ | read mv _ _ _ _ | written mv _ _ =>
    exact mv.running hrun'

/-- The invariants of the data and of the order of accesses. -/
def Live (disk : Nat → Data P) (s : St P W) : Prop :=
  s.pc .main = .running → DataInv disk s ∧ AcqInv s

omit [Fintype W] in
theorem live_init (allocatable : Nat) : Live disk (init W allocatable disk) := by
  refine fun _ => ⟨dataInv_init allocatable, fun t io e ht => ?_⟩
  cases t <;> cases ht

theorem Live.step (hL : Live disk s) (h : Inv n s) (hE : Effect s a s')
    (hC : s.pc .main = .running → freesLost disk s a = false) : Live disk s' := by
  intro hrun'
  have hrun := hE.digest.running hrun'
  obtain ⟨hD, hA⟩ := hL hrun
  exact ⟨hD.step h hE fun _ hf => hf.not_lost hrun (hC hrun), hA.step h hE.digest⟩

/-! ## Readers and failures -/

/-- A copy of `image_read` gives its piece of the chunk's value, and the writes that make
up the value happen in the order in which they acquired the busy flag. -/
def ReadOk (disk : Nat → Data P) : Event P W → List (Event P W) → Prop
  | .copied _ c off bytes, past =>
    off + bytes.length ≤ P.chunksize ∧ bytes = slice (value disk c past) off bytes.length
  | .wrote t c w, past => ∃ mid older, past = mid ++ .acq t c (some w) :: older ∧
      ∀ ev ∈ mid, ev.touches c = false
  | _, _ => True

theorem slice_length {d : Data P} {off len : Nat} : (slice d off len).length = len := by
  simp [slice]

omit [DecidableEq W] in
theorem Live.read_value (hL : Live disk s) (h : Inv n s) {b : Nat} (hp : s.pc t = .ioBody io e)
    (hr : io.req.isWrite = false) (herr : (s.core e).error = false)
    (hb : (s.core e).data = some b) : s.mem b = value disk io.cur.chunk s.hist := by
  have hio := (h.ok hp).1
  have ho : e ∈ (Pc.ioBody io e).own := List.mem_singleton.mpr rfl
  have hD := (hL (h.running_of hp rfl nofun)).1
  rw [show io.cur.chunk = (s.core e).chunk from hio.2.symm]
  rcases (hD.ent e (h.live hp ho)).filled b hb (.inl herr) with hx | hx
  · have := h.says hp ho (fun _ => Pc.unfilled_own) hx.2
    simp [Pc.unfilled, Io.wholeChunk, hr] at this
  · exact hx

theorem ReadOk.step (hL : Live disk s) (h : Inv n s) (hd : Digest s a s')
    (hR : Base.Always (ReadOk disk) s.hist) : Base.Always (ReadOk disk) s'.hist := by
  cases hd with
  | same mv _ hist =>
    rcases hist with hist | ⟨ev, hev, hist⟩
    · rwa [hist]
    · rw [hist]
      refine .cons ?_ hR
      cases ev <;> trivial
  | taken mv _ hist =>
    rw [hist]
    exact .cons trivial hR
  | refused mv _ hist => rwa [hist]
  | read mv hr herr hb hist =>
    rw [hist]
    have hio := (h.ok mv.old).1
    refine .cons ⟨?_, ?_⟩ hR
    · rw [slice_length]
      exact hio.1.1.inside
    · rw [slice_length, hL.read_value h mv.old hr herr hb]
  | @written io e mv hw hist =>
    rw [hist]
    have hA := (hL (h.running_of mv.old rfl nofun)).2
    refine .cons ?_ hR
    obtain ⟨mid, older, heq, hmid⟩ := hA a.tid io e (by rw [mv.old]; rfl)
    exact ⟨mid, older, by rw [heq, Io.write?, if_pos hw], hmid⟩

/-- In a run whose steps never free the entry of a lost chunk, every copy `image_read`
makes gives the bytes most recently written to the chunk, in the order in which the writes
acquired the busy flag: whatever calls fail, and whatever a failing `cache_update` leaves
behind. -/
theorem read_value_of_kept (allocatable : Nat) (disk : Nat → Data P)
    (hr : Base.Reach step (fun s a => freesLost disk s a = false)
      (init W allocatable disk) s) : Base.Always (ReadOk disk) s.hist := by
  have key : Inv allocatable s ∧ Live disk s ∧ Base.Always (ReadOk disk) s.hist := by
    refine hr.inv (I := fun s => Inv allocatable s ∧ Live disk s ∧
      Base.Always (ReadOk disk) s.hist) ⟨inv_init _ _, live_init _, .nil⟩ ?_
    rintro s a s' ⟨h, hL, hR⟩ hC hs
    have hE := h.effect hs
    exact ⟨h.step hs, hL.step h hE fun _ => hC, ReadOk.step hL h hE.digest hR⟩
  exact key.2.2

/-- A failing `cache_update` leaves the stored chunk as it was, or makes `cache_get` fail. -/
def benign (s : St P W) (a : Act P W) : Bool :=
  match s.pc a.tid with
  | .cleanUpdate _ e =>
    a.ok || a.left.isNone || decide (a.left = s.store (s.tab.ents e).chunk)
  | _ => true

/-- With a single buffer, a worker writes to chunk 0 and then reads chunk 1, for which it
reclaims the buffer of chunk 0; `cache_update` fails and leaves `left`. Then it reads
chunk 0 again. -/
def lossyRun (left : Option (Data tinyParcel)) (steps : Nat) : List (Act tinyParcel (Fin 1)) :=
  Act.call solo (.write 0 [7]) :: List.replicate 9 (Act.go solo) ++
  Act.call solo (.read 512 1) :: List.replicate 8 (Act.go solo) ++
  Act.fail solo left :: List.replicate 9 (Act.go solo) ++
  Act.call solo (.read 0 1) :: List.replicate steps (Act.go solo)

/-- The last event is a read of other bytes than the value of the chunk. -/
def readsStale : List (Event tinyParcel (Fin 1)) → Bool
  | .copied _ c off bytes :: past =>
    decide (bytes ≠ slice (value (fun _ _ => 0) c past) off bytes.length)
  | _ => false

/-- The error flag goes with the entry: after the reclaim, chunk 0 is read from the local
cache, where `cache_update` has left it as it was. -/
theorem read_stale_after_reclaim : ∃ s, Base.Reach step (fun s a => benign s a = true)
    (init (P := tinyParcel) (Fin 1) 1 fun _ _ => 0) s ∧
      ¬ Base.Always (ReadOk fun _ _ => 0) s.hist := by
  have hrun : (Base.exec step benign (init (Fin 1) 1 fun _ _ => 0)
      (lossyRun (some fun _ => 0) 11)).any (fun s => readsStale s.hist) = true := by
    decide +kernel
  obtain ⟨s, hs, hchk⟩ := Base.reach_of_exec_any (D := fun s a => benign s a = true)
    (fun _ _ h => h) _ hrun
  refine ⟨s, hs, fun hall => ?_⟩
  unfold readsStale at hchk
  split at hchk
  next t c off bytes past heq =>
    exact absurd (hall [] _ past heq).2 (of_decide_eq_true hchk)
  next => cases hchk

/-- The last event is the failure of a read. -/
def readFails : List (Event tinyParcel (Fin 1)) → Bool
  | .ret _ req m out :: _ => req == .read 0 1 && m == -5 && out == []
  | _ => false

/-- If `cache_update` makes the chunk unreadable instead, the second read fails. -/
theorem read_value_of_kept_lossy : ∃ s, Base.Reach step
    (fun s a => freesLost (fun _ _ => 0) s a = false)
    (init (P := tinyParcel) (Fin 1) 1 fun _ _ => 0) s ∧
      (∃ t past, s.hist = .ret t (.read 0 1) (-5) [] :: past) ∧
      Base.Always (ReadOk fun _ _ => 0) s.hist := by
  have hrun : (Base.exec step (fun s a => !freesLost (fun _ _ => 0) s a)
      (init (Fin 1) 1 fun _ _ => 0) (lossyRun none 14)).any (fun s => readFails s.hist) = true := by
    decide +kernel
  obtain ⟨s, hs, hchk⟩ := Base.reach_of_exec_any
    (D := fun s a => freesLost (fun _ _ => 0) s a = false) (fun s a h => by simpa using h) _ hrun
  refine ⟨s, hs, ?_, read_value_of_kept 1 (fun _ _ => 0) hs⟩
  unfold readFails at hchk
  split at hchk
  next t req m out past heq =>
    simp only [Bool.and_eq_true, beq_iff_eq] at hchk
    obtain ⟨⟨rfl, rfl⟩, rfl⟩ := hchk
    exact ⟨t, past, heq⟩
  next => cases hchk

end OpenIsr.Fuse
