import OpenIsr.Fuse.Disk

/-!
# Acknowledged writes

`image_write` returns how many bytes it has written: that many bytes of the caller's buffer,
from the position of the request on, are acknowledged. `ackDisk` is the disk with exactly
these bytes applied, each of them when the `memcpy` of its piece is made; where a request
puts a byte and when it returns, but not to which chunk the image copied it, goes into it.

`image_write` gets this right as long as its numbers fit: `io_chunk` keeps the chunk number
in an `unsigned`, so a request far beyond the end of the disk is carried out on a chunk of
the disk, and the position in the buffer is returned as an `int`. `inRange` is a step at
which neither happens.
-/

namespace OpenIsr.Fuse

open List Function
open Base (toInt)

variable {P : Parcel} {W : Type} {io : Io} {cur : IoCursor} {m : Int}

/-! ## The disk with the acknowledged bytes -/

/-- The chunks as one run of bytes. -/
def flat (f : Nat → Data P) (p : Nat) : UInt8 :=
  f (p / P.chunksize) ⟨p % P.chunksize, P.mod_chunksize_lt p⟩

/-- A write at a position of the disk. -/
def Write.onto (w : Write) (d : Nat → UInt8) (p : Nat) : UInt8 :=
  if w.off ≤ p ∧ p < w.off + w.bytes.length then w.bytes.getD (p - w.off) 0 else d p

/-- The first `k` bytes of a write. -/
def Write.take (w : Write) (k : Nat) : Write := ⟨w.off, w.bytes.take k⟩

/-- What is left after them. -/
def Write.drop (w : Write) (k : Nat) : Write := ⟨w.off + k, w.bytes.drop k⟩

/-- No byte at all. -/
def Write.nothing : Write := ⟨0, []⟩

/-- What a request that returns `n` has acknowledged. -/
def Req.acked : Req → Int → Write
  | .write start buf, n => ⟨start, buf.take n.toNat⟩
  | _, _ => .nothing

/-- The disk with the acknowledged bytes applied to it; `rest t` is what thread `t` has
acknowledged and copied after the events of the history. A request copies its buffer in
order, so its last bytes belong to its last `memcpy`. -/
def ackDisk (disk : Nat → UInt8) (rest : Tid W → Write) [DecidableEq W] :
    List (Event P W) → Nat → UInt8
  | [] => disk
  | .ret t req n _ :: h => ackDisk disk (update rest t (req.acked n)) h
  | .wrote t _ w :: h =>
    let k := (rest t).bytes.length - w.bytes.length
    ((rest t).drop k).onto (ackDisk disk (update rest t ((rest t).take k)) h)
  | .call t _ :: h => (rest t).onto (ackDisk disk (update rest t .nothing) h)
  | _ :: h => ackDisk disk rest h

theorem Write.onto_nil {w : Write} (h : w.bytes = []) (d : Nat → UInt8) : w.onto d = d := by
  funext p
  unfold Write.onto
  rw [if_neg]
  rw [h, length_nil]
  omega

theorem flat_write {c : Nat} {w : Write} (f : Nat → Data P)
    (h : w.off + w.bytes.length ≤ P.chunksize) :
    flat (fun c' => if c = c' then w.apply (f c') else f c')
      = Write.onto ⟨c * P.chunksize + w.off, w.bytes⟩ (flat f) := by
  funext p
  have hp : p / P.chunksize * P.chunksize + p % P.chunksize = p := by
    rw [Nat.mul_comm]
    exact Nat.div_add_mod p P.chunksize
  have hlt := Nat.mod_lt p P.chunksize_pos
  simp only [flat, Write.onto]
  by_cases hc : c = p / P.chunksize
  · rw [if_pos hc, hc]
    simp only [Write.apply]
    generalize hm : p / P.chunksize * P.chunksize = m at hp
    have hiff : (m + w.off ≤ p ∧ p < m + w.off + w.bytes.length) ↔
        (w.off ≤ p % P.chunksize ∧ p % P.chunksize < w.off + w.bytes.length) := by omega
    simp only [hiff]
    rw [show p - (m + w.off) = p % P.chunksize - w.off by omega]
  · rw [if_neg hc, if_neg]
    rintro ⟨hge, hle⟩
    refine hc (Nat.le_antisymm ?_ ?_)
    · rw [Nat.le_div_iff_mul_le P.chunksize_pos]
      omega
    · rw [← Nat.lt_succ_iff, Nat.div_lt_iff_lt_mul P.chunksize_pos, Nat.succ_mul]
      omega

/-! ## What a step does to the requests -/

def Acq.io? : Acq → Option Io
  | .request io | .reclaim io _ => some io
  | _ => none

def Clean.io? : Clean → Option Io
  | .reclaim io _ => some io
  | _ => none

def Rel.io? : Rel → Option (Io × Bool)
  | .steal io _ => some (io, false)
  | .request io failed => some (io, !failed)
  | _ => none

/-- The request a worker serves, and whether it has copied the piece its cursor stands on. -/
def Pc.io? : Pc → Option (Io × Bool)
  | .ioNext io => some (io, true)
  | .acqLoop k _ | .acqWait k _ => k.io?.map (·, false)
  | .cleanStart k _ | .cleanUpdate k _ | .cleanFailed k _ | .cleanLock k _ => k.io?.map (·, false)
  | .release k _ => k.io?
  | .eaLock io | .eaData io _ | .eaReclaim io _ | .eaReclaimWait io _ | .eaReclaimed io _ _
  | .eaSteal io _ _ | .eaFill io _ | .fillFailed io _ | .ioBody io _ => some (io, false)
  | .erLock io _ failed => some (io, !failed)
  | _ => none

/-- The event has nothing to do with what is acknowledged. -/
def Event.silent : Event P W → Bool
  | .acq _ _ _ | .copied _ _ _ _ | .updated _ _ | .updateFailed _ _ => true
  | _ => false

variable [DecidableEq W]

/-- The thread goes from `p` to `p'`. `leave_dirty` is set after a failure, and
`image_shutdown` ends with no entry left. -/
structure Goes (s : St P W) (a : Act P W) (p p' : Pc) (s' : St P W) : Prop where
  old : s.pc a.tid = p
  new : s'.pc = update s.pc a.tid p'
  dirty : s'.leaveDirty = (p.failing || s.leaveDirty)
  empty : p' = .shDone → s'.tab.chunks = []

/-- What a step does to the requests under way. -/
inductive Traffic (s : St P W) (a : Act P W) (s' : St P W) : Prop
  | same {p p' : Pc} (go : Goes s a p p' s') (io : p'.io? = p.io?)
      (hist : s'.hist = s.hist ∨ ∃ ev : Event P W, ev.silent = true ∧ s'.hist = ev :: s.hist)
  /-- A request arrives. -/
  | called {p' : Pc} (go : Goes s a .idle p' s')
      (io : p'.io? = none ∨ p'.io? = some (⟨a.req, ioStart a.req.start a.req.count, []⟩, true))
      (hist : s'.hist = .call a.tid a.req :: s.hist)
  /-- `io_chunk` announces a piece. -/
  | next {io : Io} {cur : IoCursor} (go : Goes s a (.ioNext io) (.eaLock { io with cur }) s')
      (hcur : ioChunk P io.cur = (true, cur)) (hist : s'.hist = s.hist)
  /-- The request has come to its end. -/
  | ended {io : Io} {cur : IoCursor} (go : Goes s a (.ioNext io) .idle s')
      (hcur : ioChunk P io.cur = (false, cur))
      (hist : s'.hist = .ret a.tid io.req { io with cur }.doneValue io.out :: s.hist)
  /-- The request gives up. -/
  | gaveUp {io : Io} {e : Nat} (go : Goes s a (.release (.request io true) e) .idle s')
      (hist : s'.hist = .ret a.tid io.req io.failValue io.out :: s.hist)
  | flushed {m : Int} (go : Goes s a .syncFlush .idle s')
      (hist : s'.hist = .ret a.tid .fsync m [] :: s.hist)
  | read {io : Io} {e : Nat} {out bytes : List UInt8}
      (go : Goes s a (.ioBody io e) (.erLock { io with out } e false) s')
      (hr : io.req.isWrite = false)
      (hist : s'.hist = .copied a.tid io.cur.chunk io.cur.offset bytes :: s.hist)
  | written {io : Io} {e : Nat} (go : Goes s a (.ioBody io e) (.erLock io e false) s')
      (hw : io.req.isWrite = true)
      (hist : s'.hist = .wrote a.tid io.cur.chunk io.piece :: s.hist)

section traffic

variable {n e : Nat} {s s' s₁ : St P W} {a : Act P W} {p p' : Pc}

/-- The thread does not go to the end of `image_shutdown`. -/
theorem Goes.to (old : s.pc a.tid = p) (new : s'.pc = update s.pc a.tid p')
    (dirty : s'.leaveDirty = (p.failing || s.leaveDirty))
    (hdone : (p'.ctorIdx == Pc.shDone.ctorIdx) = false) : Goes s a p p' s' :=
  ⟨old, new, dirty, fun h => absurd h (Pc.ne_of_ctorIdx hdone)⟩

theorem traffic_goto {c : Prop} [Decidable c] (hp : s.pc a.tid = p)
    (hs : (if c then some s₁ else none) = some s') (hpc : s₁.pc = update s.pc a.tid p')
    (hdirty : s₁.leaveDirty = (p.failing || s.leaveDirty))
    (hdone : (p'.ctorIdx == Pc.shDone.ctorIdx) = false) (hio : p'.io? = p.io?)
    (hhist : s₁.hist = s.hist) : Traffic s a s' := by
  split at hs
  next =>
    cases hs
    exact .same (.to hp hpc hdirty hdone) hio (.inl hhist)
  next => cases hs

theorem traffic_enter {k : Acq} (hp : s.pc a.tid = p) (hpc : s₁.pc = s.pc)
    (hdirty : s₁.leaveDirty = (p.failing || s.leaveDirty)) (hhist : s₁.hist = s.hist)
    (hio : k.io?.map (·, false) = p.io?) (h' : (s₁.enter a.tid k e).abort = false) :
    Traffic s a (s₁.enter a.tid k e) := by
  unfold St.enter at h' ⊢
  split at h'
  next he =>
    rw [if_pos he]
    have go : Goes s a p (.acqLoop k e)
        ((s₁.setTab (s₁.tab.acquireEnter e)).goto a.tid (.acqLoop k e)) :=
      .to hp (by rw [← hpc]; rfl) hdirty rfl
    exact .same go hio (.inl hhist)
  next => cases h'

theorem Goes.self (go : Goes s a p p' s') : s'.pc a.tid = p' := by
  rw [go.new, update_self]

theorem Goes.other (go : Goes s a p p' s') {t : Tid W} (ht : t ≠ a.tid) :
    s'.pc t = s.pc t := by
  rw [go.new, update_of_ne ht]

theorem Traffic.goes (hT : Traffic s a s') : ∃ p p', Goes s a p p' s' := by
  cases hT with
  | same go _ _ | called go _ _ | next go _ _ | ended go _ _ | gaveUp go _ | flushed go _
  | read go _ _ | written go _ _ => exact ⟨_, _, go⟩

variable [Fintype W]

section

variable (h' : s'.abort = false)
include h'

theorem traffic_release {k : Rel} (hp : s.pc a.tid = .release k e)
    (hs : stepAt s a (.release k e) = some s') : Traffic s a s' := by
  simp only [stepAt] at hs
  split at hs
  next =>
    cases hs
    cases h'
  next tab c _ =>
    split at hs
    next => cases hs
    next s₁ hsig =>
      obtain ⟨f, rfl⟩ := St.signal_eq hsig
      cases hs
      cases k with
      | steal io x | again k | shutdown => exact .same (.to hp rfl rfl rfl) rfl (.inl rfl)
      | request io failed =>
        cases failed with
        | true => exact .gaveUp (.to hp rfl rfl rfl) rfl
        | false => exact .same (.to hp rfl rfl rfl) rfl (.inl rfl)
      | stop k => cases k <;> exact .same (.to hp rfl rfl rfl) rfl (.inl rfl)

theorem traffic_ioBody (hp : s.pc a.tid = .ioBody io e) (hs : stepAt s a (.ioBody io e) = some s') :
    Traffic s a s' := by
  simp only [stepAt] at hs
  split at hs
  next =>
    cases hs
    exact .same (.to hp rfl rfl rfl) rfl (.inl rfl)
  next =>
    split at hs
    next =>
      cases hs
      cases h'
    next b _ =>
      split at hs
      next hw =>
        cases hs
        exact .written (.to hp rfl rfl rfl) hw rfl
      next hw =>
        cases hs
        exact .read (.to hp rfl rfl rfl) (by simpa using hw) rfl

theorem traffic_eaFill (hp : s.pc a.tid = .eaFill io e) (hs : stepAt s a (.eaFill io e) = some s') :
    Traffic s a s' := by
  simp only [stepAt] at hs
  split at hs
  next =>
    split at hs
    next =>
      cases hs
      cases h'
    next => split at hs <;> cases hs <;> exact .same (.to hp rfl rfl rfl) rfl (.inl rfl)
    next =>
      cases hs
      exact .same (.to hp rfl rfl rfl) rfl (.inl rfl)
  next =>
    cases hs
    exact .same (.to hp rfl rfl rfl) rfl (.inl rfl)

theorem traffic_erLock {failed : Bool} (hp : s.pc a.tid = .erLock io e failed)
    (hs : stepAt s a (.erLock io e failed) = some s') : Traffic s a s' := by
  simp only [stepAt] at hs
  split at hs
  next =>
    split at hs
    next =>
      split at hs
      next =>
        cases hs
        cases h'
      next =>
        obtain ⟨f, rfl⟩ := St.signal_map hs
        exact .same (.to hp rfl rfl rfl) rfl (.inl rfl)
    next =>
      cases hs
      exact .same (.to hp rfl rfl rfl) rfl (.inl rfl)
  next => cases hs

end

theorem traffic_acqLoop {k : Acq} (hp : s.pc a.tid = .acqLoop k e)
    (hs : stepAt s a (.acqLoop k e) = some s') : Traffic s a s' := by
  simp only [stepAt] at hs
  split at hs
  next =>
    cases hs
    exact .same (.to hp rfl rfl rfl) rfl (.inl rfl)
  next =>
    split at hs
    next =>
      cases hs
      exact .same (.to hp rfl rfl rfl) rfl (.inr ⟨_, rfl, rfl⟩)
    next hk =>
      cases hs
      cases k with
      | request io => exact absurd rfl (hk io)
      | reclaim io x | clean k | shutdown => exact .same (.to hp rfl rfl rfl) rfl (.inl rfl)

theorem traffic_cleanUpdate {k : Clean} (h' : s'.abort = false)
    (hp : s.pc a.tid = .cleanUpdate k e) (hs : stepAt s a (.cleanUpdate k e) = some s') :
    Traffic s a s' := by
  simp only [stepAt] at hs
  split at hs
  next =>
    cases hs
    cases h'
  next => split at hs <;> cases hs <;> exact .same (.to hp rfl rfl rfl) rfl (.inr ⟨_, rfl, rfl⟩)

theorem Inv.traffic (h : Inv n s) (hs : Fuse.step s a = some s') : Traffic s a s' := by
  have h' := (h.step hs).alive
  have hs := h.stepAt_of_step hs
  generalize hp : s.pc a.tid = p at hs
  cases p with
  | idle =>
    simp only [stepAt] at hs
    split at hs
    next =>
      split at hs
      next =>
        cases hs
        exact .called (.to hp rfl rfl rfl) (.inl rfl) rfl
      next =>
        cases hs
        exact .called (.to hp rfl rfl rfl) (.inr rfl) rfl
    next => cases hs
  | ioNext io =>
    simp only [stepAt] at hs
    split at hs
    next cur hcur =>
      cases hs
      exact .next (.to hp rfl rfl rfl) hcur rfl
    next cur hcur =>
      cases hs
      exact .ended (.to hp rfl rfl rfl) hcur rfl
  | eaLock io =>
    simp only [stepAt] at hs
    split at hs
    next =>
      cases hs
      exact traffic_enter hp rfl rfl rfl rfl h'
    next => cases hs
  | acqLoop k e => exact traffic_acqLoop hp hs
  | acqWait k e | eaReclaimWait io e | syncLock | clLock | clWait timed | running | shJoin
  | shLock => exact traffic_goto hp hs rfl rfl rfl rfl rfl
  | eaData io e | caDirty k e =>
    simp only [stepAt] at hs
    split at hs
    next =>
      cases hs
      exact .same (.to hp rfl rfl rfl) rfl (.inl rfl)
    next => split at hs <;> cases hs <;> exact .same (.to hp rfl rfl rfl) rfl (.inl rfl)
  | eaReclaim io e =>
    simp only [stepAt] at hs
    split at hs
    next =>
      cases hs
      exact .same (.to hp rfl rfl rfl) rfl (.inl rfl)
    next =>
      cases hs
      exact traffic_enter hp rfl rfl rfl rfl h'
  | eaReclaimed io e r | clTest =>
    simp only [stepAt] at hs
    split at hs <;> cases hs <;> exact .same (.to hp rfl rfl rfl) rfl (.inl rfl)
  | cleanStart k e | eaSteal io e r | shDrop e =>
    simp only [stepAt] at hs
    split at hs <;> cases hs
    · cases h'
    · exact .same (.to hp rfl rfl rfl) rfl (.inl rfl)
  | cleanUpdate k e => exact traffic_cleanUpdate h' hp hs
  | cleanFailed k e | fillFailed io e =>
    cases hs
    exact .same (.to hp rfl rfl rfl) rfl (.inl rfl)
  | cleanLock k e =>
    cases k with
    | reclaim io x | all k => exact traffic_goto hp hs rfl rfl rfl rfl rfl
  | release k e => exact traffic_release h' hp hs
  | eaFill io e => exact traffic_eaFill h' hp hs
  | ioBody io e => exact traffic_ioBody h' hp hs
  | erLock io e failed => exact traffic_erLock h' hp hs
  | caLoop k =>
    simp only [stepAt] at hs
    split at hs
    next =>
      cases hs
      cases k <;> exact .same (.to hp rfl rfl rfl) rfl (.inl rfl)
    next =>
      cases hs
      exact traffic_enter hp rfl rfl rfl rfl h'
  | syncFlush =>
    cases hs
    exact .flushed (.to hp rfl rfl rfl) rfl
  | clExit | shDone => cases hs
  | shStop =>
    simp only [stepAt] at hs
    split at hs
    next =>
      obtain ⟨f, rfl⟩ := St.signal_map hs
      exact .same (.to hp rfl rfl rfl) rfl (.inl rfl)
    next => cases hs
  | shFree =>
    simp only [stepAt] at hs
    split at hs
    next =>
      cases hs
      exact traffic_enter hp rfl rfl rfl rfl h'
    next =>
      split at hs <;> cases hs
      next hch => exact .same ⟨hp, rfl, rfl, fun _ => hch⟩ rfl (.inl rfl)
      next => cases h'

end traffic

/-! ## Where the pieces of a write lie -/

/-- How far a request has got in its buffer when it asks for its next piece. -/
def Io.reached (io : Io) : Nat := io.cur.bufOffset + io.cur.length

/-- At the `io_chunk` call of a write the position in the buffer is an `int`, and a piece is
only announced if there is one: it starts on the disk. -/
def inRange (s : St P W) (a : Act P W) : Bool :=
  match s.pc a.tid with
  | .ioNext io =>
    !io.req.isWrite || (decide (io.reached < 2 ^ 31) &&
      (!(ioChunk P io.cur).1 || decide ((io.req.start + io.reached) / P.chunksize < P.chunks)))
  | _ => true

/-- The cursor's piece is where the request has it. -/
structure Io.Placed (P : Parcel) (io : Io) : Prop where
  start : io.cur.start = io.req.start
  small : io.cur.bufOffset < 2 ^ 31
  piece : 0 < io.cur.length →
    io.cur.chunk * P.chunksize + io.cur.offset = io.req.start + io.cur.bufOffset

/-- So are the pieces of all writes under way. -/
def PlacedInv (s : St P W) : Prop :=
  ∀ t io copied, (s.pc t).io? = some (io, copied) → io.req.isWrite = true → io.Placed P

section placed

variable {n : Nat} {s s' : St P W} {a : Act P W} {p p' : Pc}

omit [DecidableEq W] in
theorem inRange_ioNext (hC : inRange s a = true) (hp : s.pc a.tid = .ioNext io)
    (hw : io.req.isWrite = true) : io.reached < 2 ^ 31 ∧ ((ioChunk P io.cur).1 = true →
      (io.req.start + io.reached) / P.chunksize < P.chunks) := by
  simp only [inRange, hp, hw, Bool.not_true, Bool.false_or, Bool.and_eq_true,
    decide_eq_true_eq, Bool.or_eq_true, Bool.not_eq_true'] at hC
  refine ⟨hC.1, fun hc => hC.2.resolve_left ?_⟩
  rw [hc]
  simp

theorem Io.Placed.next (hP : io.Placed P) (hcur : ioChunk P io.cur = (true, cur))
    (hsmall : io.reached < 2 ^ 31) (hin : (io.req.start + io.reached) / P.chunksize < P.chunks) :
    Io.Placed P { io with cur } ∧ cur.bufOffset = io.reached := by
  have hbuf : cur.bufOffset = io.reached := by
    have := ioChunk_bufOffset P io.cur
    rw [hcur] at this
    exact this.trans (Nat.mod_eq_of_lt (lt_trans hsmall (by decide)))
  have hstart := (ioChunk_spec hcur).2.1
  refine ⟨⟨hstart.trans hP.start, hbuf ▸ hsmall, fun _ => ?_⟩, hbuf⟩
  simp only
  rw [hbuf, ← hP.start]
  refine ioChunk_placed hcur (lt_trans hsmall (by decide)) ?_
  rw [hP.start]
  exact lt_trans hin P.chunks_lt

theorem PlacedInv.go (hP : PlacedInv s) (go : Goes s a p p' s')
    (hp' : ∀ io copied, p'.io? = some (io, copied) → io.req.isWrite = true → io.Placed P) :
    PlacedInv s' := by
  intro t io copied ht hw
  by_cases hta : t = a.tid
  · rw [hta, go.self] at ht
    exact hp' io copied ht hw
  · rw [go.other hta] at ht
    exact hP t io copied ht hw

theorem PlacedInv.step (hP : PlacedInv s) (hT : Traffic s a s') (hC : inRange s a = true) :
    PlacedInv s' := by
  cases hT with
  | same go hio _ =>
    refine hP.go go fun io copied ht => hP a.tid io copied ?_
    rw [go.old, ← hio, ht]
  | called go hio _ =>
    refine hP.go go fun io copied ht _ => ?_
    rcases hio with hio | hio
    · rw [hio] at ht
      cases ht
    · rw [hio, Option.some.injEq, Prod.mk.injEq] at ht
      rw [← ht.1]
      exact ⟨rfl, Nat.two_pow_pos 31, nofun⟩
  | @next io cur go hcur _ =>
    refine hP.go go fun io' copied ht hw => ?_
    simp only [Pc.io?, Option.some.injEq, Prod.mk.injEq] at ht
    rw [← ht.1] at hw ⊢
    have hold : io.Placed P := hP a.tid io true (by rw [go.old]; rfl) hw
    obtain ⟨hsmall, hin⟩ := inRange_ioNext hC go.old hw
    exact (hold.next hcur hsmall (hin (by rw [hcur]))).1
  | ended go _ _ | gaveUp go _ | flushed go _ => exact hP.go go nofun
  | @read io e out bytes go hr _ =>
    refine hP.go go fun io' copied ht hw => ?_
    simp only [Pc.io?, Option.some.injEq, Prod.mk.injEq] at ht
    rw [← ht.1, hr] at hw
    cases hw
  | @written io e go hw _ =>
    refine hP.go go fun io' copied ht hw => ?_
    simp only [Pc.io?, Option.some.injEq, Prod.mk.injEq] at ht
    rw [← ht.1] at hw ⊢
    exact hP a.tid io false (by rw [go.old]; rfl) hw

end placed

/-! ## The chunks hold the acknowledged bytes -/

/-- What the request of a worker has copied so far. -/
def Pc.copied (p : Pc) : Write :=
  match p.io? with
  | some (io, true) => io.req.acked io.reached
  | some (io, false) => io.req.acked io.cur.bufOffset
  | none => .nothing

/-- The chunks' values are the disk with the acknowledged bytes, and with those that the
requests under way have copied. -/
def AckInv (disk : Nat → Data P) (s : St P W) : Prop :=
  flat (fun c => value disk c s.hist)
    = ackDisk (flat disk) (fun t => (s.pc t).copied) s.hist

section ack

variable {disk : Nat → Data P} {n : Nat} {s s' : St P W} {a : Act P W} {p p' : Pc} {req : Req}

theorem Req.acked_of_not_write (h : req.isWrite = false) (m : Int) : req.acked m = .nothing := by
  cases req with
  | write start buf => cases h
  | read start count | fsync => rfl

theorem Req.acked_toInt {k : Nat} (req : Req) (h : k < 2 ^ 31) :
    req.acked (toInt k) = req.acked k := by
  rw [toInt, if_pos h]

theorem Req.acked_neg (req : Req) (h : m ≤ 0) : req.acked m = req.acked (0 : Nat) := by
  cases req with
  | write start buf => simp [Req.acked, Int.toNat_of_nonpos h]
  | read start count | fsync => rfl

theorem Goes.copied_eq (go : Goes s a p p' s') (hc : p'.copied = p.copied) :
    (fun t => (s'.pc t).copied) = fun t => (s.pc t).copied := by
  funext t
  by_cases ht : t = a.tid
  · rw [ht, go.self, go.old, hc]
  · rw [go.other ht]

theorem Goes.copied_update (go : Goes s a p p' s') :
    update (fun t => (s'.pc t).copied) a.tid p.copied = fun t => (s.pc t).copied := by
  funext t
  by_cases ht : t = a.tid
  · rw [ht, update_self, go.old]
  · rw [update_of_ne ht, go.other ht]

theorem AckInv.same (hA : AckInv disk s) (go : Goes s a p p' s') (hc : p'.copied = p.copied)
    (hist : s'.hist = s.hist ∨ ∃ ev : Event P W, ev.silent = true ∧ s'.hist = ev :: s.hist) :
    AckInv disk s' := by
  unfold AckInv
  rw [go.copied_eq hc]
  rcases hist with hist | ⟨ev, hev, hist⟩
  · rw [hist]
    exact hA
  · rw [hist]
    cases ev with
    | acq t c w | copied t c off bytes | updated c d | updateFailed c d => exact hA
    | call t req | ret t req m out | wrote t c w => cases hev

theorem AckInv.returned {out : List UInt8} (hA : AckInv disk s) (go : Goes s a p p' s')
    (hc : req.acked m = p.copied) (hist : s'.hist = .ret a.tid req m out :: s.hist) :
    AckInv disk s' := by
  unfold AckInv
  rw [hist]
  show flat (fun c => value disk c s.hist) = ackDisk (flat disk)
    (update (fun t => (s'.pc t).copied) a.tid (req.acked m)) s.hist
  rw [hc, go.copied_update]
  exact hA

theorem AckInv.called (hA : AckInv disk s) (go : Goes s a .idle p' s') (hc : p'.copied.bytes = [])
    (hist : s'.hist = .call a.tid req :: s.hist) : AckInv disk s' := by
  unfold AckInv
  rw [hist]
  show flat (fun c => value disk c s.hist) = (s'.pc a.tid).copied.onto (ackDisk (flat disk)
    (update (fun t => (s'.pc t).copied) a.tid Pc.idle.copied) s.hist)
  rw [go.self, Write.onto_nil hc, go.copied_update]
  exact hA

theorem acked_doneValue (hbuf : cur.bufOffset = io.reached % 2 ^ 32)
    (hsmall : io.req.isWrite = true → io.reached < 2 ^ 31) :
    io.req.acked { io with cur }.doneValue = io.req.acked io.reached := by
  cases hw : io.req.isWrite with
  | false => rw [Req.acked_of_not_write hw, Req.acked_of_not_write hw]
  | true =>
    have hlt := hsmall hw
    rw [Nat.mod_eq_of_lt (lt_trans hlt (by decide))] at hbuf
    unfold Io.doneValue
    split
    next hz =>
      simp only at hz
      rw [Req.acked_neg _ (by decide), ← hbuf, hz.2.2]
    next =>
      simp only
      rw [hbuf, Req.acked_toInt _ hlt]

theorem acked_failValue (hsmall : io.req.isWrite = true → io.cur.bufOffset < 2 ^ 31) :
    io.req.acked io.failValue = io.req.acked io.cur.bufOffset := by
  cases hw : io.req.isWrite with
  | false => rw [Req.acked_of_not_write hw, Req.acked_of_not_write hw]
  | true =>
    unfold Io.failValue
    split
    next hz => rw [Req.acked_neg _ (by decide), hz]
    next => rw [Req.acked_toInt _ (hsmall hw)]

theorem AckInv.written {e : Nat} (hA : AckInv disk s) (hP : io.Placed P) (hok : io.Ok P)
    (go : Goes s a (.ioBody io e) (.erLock io e false) s') (hw : io.req.isWrite = true)
    (hist : s'.hist = .wrote a.tid io.cur.chunk io.piece :: s.hist) : AckInv disk s' := by
  obtain ⟨hcur, hcount, -⟩ := hok
  obtain ⟨req, cur, out⟩ := io
  cases req with
  | read start count | fsync => cases hw
  | write start buf =>
    simp only [Req.count] at hcount
    have hin := hcur.in_buf
    simp only at hin
    have hlen : ((buf.drop cur.bufOffset).take cur.length).length = cur.length := by
      rw [length_take, length_drop]
      omega
    have hpos := hP.piece hcur.length_pos
    simp only [Req.start] at hpos
    have hold : Pc.copied (.ioBody ⟨.write start buf, cur, out⟩ e)
        = ⟨start, buf.take cur.bufOffset⟩ := rfl
    have hnew : Pc.copied (.erLock ⟨.write start buf, cur, out⟩ e false)
        = ⟨start, buf.take (cur.bufOffset + cur.length)⟩ := rfl
    have hk : (buf.take (cur.bufOffset + cur.length)).length - cur.length = cur.bufOffset := by
      rw [length_take]
      omega
    have hdrop : (Write.mk start (buf.take (cur.bufOffset + cur.length))).drop cur.bufOffset
        = ⟨cur.chunk * P.chunksize + cur.offset, (buf.drop cur.bufOffset).take cur.length⟩ := by
      rw [Write.drop, hpos, drop_take, Nat.add_sub_cancel_left]
    have htake : (Write.mk start (buf.take (cur.bufOffset + cur.length))).take cur.bufOffset
        = Pc.copied (.ioBody ⟨.write start buf, cur, out⟩ e) := by
      rw [hold, Write.take, take_take, Nat.min_eq_left (Nat.le_add_right _ _)]
    unfold AckInv
    rw [hist]
    simp only [ackDisk, go.self, hnew, Io.piece, hlen, hk]
    rw [hdrop, htake, go.copied_update, ← hA]
    refine flat_write _ ?_
    rw [hlen]
    exact hcur.inside

/-- In a step in range the chunks keep the acknowledged bytes, whatever fails. -/
theorem AckInv.step [Fintype W] (hA : AckInv disk s) (h : Inv n s) (hP : PlacedInv s)
    (hT : Traffic s a s') (hC : inRange s a = true) : AckInv disk s' := by
  cases hT with
  | same go hio hist => exact hA.same go (by unfold Pc.copied; rw [hio]) hist
  | called go hio hist =>
    refine hA.called go ?_ hist
    rcases hio with hio | hio
    · simp only [Pc.copied, hio]
      rfl
    · simp only [Pc.copied, hio]
      cases a.req <;> rfl
  | @next io cur go hcur hist =>
    refine hA.same go ?_ (.inl hist)
    simp only [Pc.copied, Pc.io?]
    cases hw : io.req.isWrite with
    | false => rw [Req.acked_of_not_write hw, Req.acked_of_not_write hw]
    | true =>
      obtain ⟨hsmall, hin⟩ := inRange_ioNext hC go.old hw
      have hold : io.Placed P := hP a.tid io true (by rw [go.old]; rfl) hw
      rw [(hold.next hcur hsmall (hin (by rw [hcur]))).2]
  | @ended io cur go hcur hist =>
    refine hA.returned go (acked_doneValue ?_ fun hw => (inRange_ioNext hC go.old hw).1) hist
    have := ioChunk_bufOffset P io.cur
    rwa [hcur] at this
  | @gaveUp io e go hist =>
    refine hA.returned go (acked_failValue fun hw => ?_) hist
    exact (hP a.tid io false (by rw [go.old]; rfl) hw).small
  | flushed go hist => exact hA.returned go rfl hist
  | @read io e out bytes go hr hist =>
    refine hA.same go ?_ (.inr ⟨_, rfl, hist⟩)
    simp only [Pc.copied, Pc.io?, Bool.not_false]
    rw [Req.acked_of_not_write hr, Req.acked_of_not_write hr]
  | @written io e go hw hist =>
    have hio := (h.ok go.old).1
    exact hA.written (hP a.tid io false (by rw [go.old]; rfl) hw) hio.1 go hw hist

theorem ackInv_init (allocatable : Nat) : AckInv disk (init W allocatable disk) := rfl

theorem placedInv_init (allocatable : Nat) : PlacedInv (init W allocatable disk) := by
  intro t io copied ht
  cases t <;> cases ht

end ack

end OpenIsr.Fuse
