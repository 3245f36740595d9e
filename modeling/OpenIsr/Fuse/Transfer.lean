import OpenIsr.Fuse.Content
import OpenIsr.Fuse.Acknowledge
import OpenIsr.Fuse.Split
import OpenIsr.Fuse.Sync

/-!
# What a request says it has transferred

`image_read` and `image_write` go through a request chunk by chunk. They stop at the end of the
request, at the end of the disk or at a chunk whose entry has its error flag, and return how many
bytes they have moved by then, or an error if there are none. `Truthful` is what the caller can
rely on, for a request that runs beside any others: the value is the number of bytes moved, they
are the first ones of the request, a short count points to the byte that could not be moved, and
on the disk nothing has changed but what writes have put there.

The moves of a thread are read off the history (`copies`), and the disk is `content`, so that what
the request returns is compared with what has been done and not with its own cursor.
-/

namespace OpenIsr.Fuse

open List Option
open Base (toInt)

variable {P : Parcel} {W : Type} {ws other : List Write} {t : Tid W} {out bytes : List UInt8}
  {w : Write} {c off : Nat} {cur : IoCursor}

/-! ## Moves -/

/-- The moves a thread has made since its request arrived, as pieces of the disk in their order:
from the caller to the disk if `write` is set, else from the disk to the caller. -/
def copies [DecidableEq W] (write : Bool) (t : Tid W) : List (Event P W) → List Write
  | [] => []
  | .call u _ :: h => if u = t then [] else copies write t h
  | .copied u c off bytes :: h =>
    if u = t ∧ write = false then copies write t h ++ [Write.onDisk P c ⟨off, bytes⟩]
    else copies write t h
  | .wrote u c w :: h =>
    if u = t ∧ write = true then copies write t h ++ [w.onDisk P c] else copies write t h
  | _ :: h => copies write t h

/-- The bytes of some moves. -/
def bytesOf (ws : List Write) : List UInt8 := ws.flatMap Write.bytes

/-- The moves follow on one another, from position `p` on. -/
def Adjoin : Nat → List Write → Prop
  | _, [] => True
  | p, w :: ws => w.off = p ∧ Adjoin (p + w.bytes.length) ws

theorem bytesOf_concat (ws : List Write) (w : Write) :
    bytesOf (ws ++ [w]) = bytesOf ws ++ w.bytes := by
  simp [bytesOf]

theorem Adjoin.concat :
    ∀ {ws : List Write} {p : Nat}, Adjoin p ws →
    w.off = p + (bytesOf ws).length → Adjoin p (ws ++ [w])
  | [], _, _, hw => ⟨by simpa [bytesOf] using hw, trivial⟩
  | v :: ws, p, ⟨hv, hrest⟩, hw => by
    refine ⟨hv, hrest.concat ?_⟩
    rw [hw]
    simp only [bytesOf, flatMap_cons, length_append]
    omega

/-- The bytes a request has moved after the first `k`: those it has written, or read. -/
def Req.moved (req : Req) (out : List UInt8) (k : Nat) : List UInt8 :=
  match req with
  | .write _ buf => buf.take k
  | _ => out

theorem Req.moved_read {req : Req} (h : req.isWrite = false) (out : List UInt8) (k : Nat) :
    req.moved out k = out := by
  cases req with
  | write start buf => cases h
  | read start count | fsync => rfl

/-- The moves are the first `k` bytes of the request, and none of them is empty. -/
structure Moved (req : Req) (out : List UInt8) (k : Nat) (ws : List Write) : Prop where
  adjoin : Adjoin req.start ws
  bytes : bytesOf ws = req.moved out k
  length : (bytesOf ws).length = k
  full : ∀ w ∈ ws, 0 < w.bytes.length

theorem moved_nil (req : Req) : Moved req [] 0 [] := by
  refine ⟨trivial, ?_, rfl, nofun⟩
  cases req <;> simp [Req.moved, bytesOf]

theorem Moved.eq_nil {req : Req} (h : Moved req out 0 ws) : ws = [] := by
  cases ws with
  | nil => rfl
  | cons w ws =>
    have hlen := h.length
    have hpos := h.full w (mem_cons_self ..)
    simp only [bytesOf, flatMap_cons, length_append] at hlen
    omega

/-! ## The request of a thread -/

/-- The request does not go beyond `2^31` chunks or bytes. -/
def Req.Bounded (P : Parcel) (req : Req) : Prop :=
  req.start + req.count < 2 ^ 31 * P.chunksize ∧ req.count < 2 ^ 31

/-- How many bytes a request has moved. -/
def Io.progress (io : Io) (copied : Bool) : Nat :=
  if copied then io.reached else io.cur.bufOffset

/-- The cursor and the moves agree; `ws` are the moves in the direction of the request, and there
are none in the other. -/
structure Tracked (P : Parcel) (io : Io) (copied : Bool) (ws other : List Write) : Prop where
  start : io.cur.start = io.req.start
  count : io.cur.count = io.req.count
  eof : io.cur.eof = false
  le : io.reached ≤ io.req.count
  piece : 0 < io.cur.length →
    io.cur.chunk * P.chunksize + io.cur.offset = io.req.start + io.cur.bufOffset
  moved : Moved io.req io.out (io.progress copied) ws
  nothing : other = []

/-- So they do for every request under way that is not too large. -/
def TrackInv [DecidableEq W] (s : St P W) : Prop :=
  ∀ t io copied, (s.pc t).io? = some (io, copied) → io.req.Bounded P →
    Tracked P io copied (copies io.req.isWrite t s.hist) (copies (!io.req.isWrite) t s.hist)

variable {io : Io}

theorem Tracked.ioChunk (h : Tracked P io true ws other) (hreq : io.req.Bounded P) :
    Fuse.ioChunk P io.cur =
      if io.req.count ≤ io.reached then (false, { io.cur with bufOffset := io.reached })
      else if P.size ≤ io.req.start + io.reached then
        (false, { io.cur with
          bufOffset := io.reached, chunk := (io.req.start + io.reached) / P.chunksize,
          eof := true })
      else (true, { io.cur with
        bufOffset := io.reached
        chunk := (io.req.start + io.reached) / P.chunksize
        offset := (io.req.start + io.reached) % P.chunksize
        length := min (P.chunksize - (io.req.start + io.reached) % P.chunksize)
          (io.req.count - io.reached) }) := by
  obtain ⟨hbound, hcount⟩ := hreq
  have hle := h.le
  have hfits : (io.req.start + io.reached) / P.chunksize < 2 ^ 32 := by
    rw [Nat.div_lt_iff_lt_mul P.chunksize_pos]
    have : 2 ^ 31 * P.chunksize ≤ 2 ^ 32 * P.chunksize := Nat.mul_le_mul_right _ (by decide)
    omega
  have heq : Fuse.ioChunk P io.cur = _ := ioChunk_eq (b := io.reached)
    (x := io.req.start + io.reached) rfl (by rw [h.start]) (by omega) (by rw [h.count]; omega)
  rw [heq, Nat.mod_eq_of_lt hfits]
  simp only [chunk_le_div, ← h.count]

theorem Tracked.next (h : Tracked P io true ws other) (hreq : io.req.Bounded P)
    (hcur : Fuse.ioChunk P io.cur = (true, cur)) : Tracked P { io with cur } false ws other := by
  rw [h.ioChunk hreq] at hcur
  split at hcur
  next => cases hcur
  next hlt =>
    split at hcur
    next => cases hcur
    cases hcur
    refine ⟨h.start, h.count, h.eof, ?_, fun _ => ?_, h.moved, h.nothing⟩
    · simp only [Io.reached] at hlt ⊢
      omega
    · simp only
      rw [Nat.mul_comm]
      exact Nat.div_add_mod _ _

theorem Tracked.move (h : Tracked P io false ws other) (hok : CurOk P io.cur)
    (hoff : w.off = io.cur.offset) (hlen : w.bytes.length = io.cur.length)
    (hmoved : io.req.moved io.out io.cur.bufOffset ++ w.bytes = io.req.moved out io.reached) :
    Tracked P { io with out } true (ws ++ [w.onDisk P io.cur.chunk]) other := by
  have hold : (bytesOf ws).length = io.cur.bufOffset := h.moved.length
  refine ⟨h.start, h.count, h.eof, h.le, h.piece, ⟨h.moved.adjoin.concat ?_, ?_, ?_, ?_⟩, h.nothing⟩
  · rw [hold, ← h.piece hok.length_pos, ← hoff]
    rfl
  · rw [bytesOf_concat, h.moved.bytes]
    exact hmoved
  · rw [bytesOf_concat, length_append, hold]
    exact congrArg (io.cur.bufOffset + ·) hlen
  · intro v hv
    rcases mem_append.mp hv with hv | hv
    · exact h.moved.full v hv
    · rw [mem_singleton.mp hv]
      exact hlen ▸ hok.length_pos

section steps

variable [DecidableEq W] {n e : Nat} {s s' : St P W} {a : Act P W} {p p' : Pc}

/-- A step of another thread adds nothing to a thread's moves. -/
theorem copies_other {write : Bool} (hE : Effect s a s') (ht : t ≠ a.tid) :
    copies write t s'.hist = copies write t s.hist := by
  rcases hE.hist_cases with hist | ⟨ev, hist, hev⟩
  · rw [hist]
  · rw [hist]
    cases ev with
    | call u req => exact if_neg fun hu => ht (hev t (congrArg some hu))
    | copied u c off bytes | wrote u c w => exact if_neg fun hu => ht (hev t (congrArg some hu.1))
    | _ => rfl

theorem TrackInv.go (hK : TrackInv s) (hE : Effect s a s') (go : Goes s a p p' s')
    (hp' : ∀ io copied, p'.io? = some (io, copied) → io.req.Bounded P → Tracked P io copied
      (copies io.req.isWrite a.tid s'.hist) (copies (!io.req.isWrite) a.tid s'.hist)) :
    TrackInv s' := by
  intro t io copied ht hreq
  by_cases hta : t = a.tid
  · subst hta
    rw [go.self] at ht
    exact hp' io copied ht hreq
  · rw [go.other hta] at ht
    rw [copies_other hE hta, copies_other hE hta]
    exact hK t io copied ht hreq

theorem TrackInv.stop (hK : TrackInv s) (hE : Effect s a s') (go : Goes s a p p' s')
    (hp' : p'.io? = none) : TrackInv s' := by
  refine hK.go hE go fun io copied ht _ => ?_
  rw [hp'] at ht
  cases ht

/-- The `memcpy` of `image_read`, with what it adds to the bytes read. -/
theorem Inv.copied_step [Fintype W] {u : Tid W} (h : Inv n s) (hs : Fuse.step s a = some s')
    (hist : s'.hist = .copied u c off bytes :: s.hist) :
    ∃ io e, Goes s a (.ioBody io e) (.erLock { io with out := io.out ++ bytes } e false) s' ∧
      io.req.isWrite = false ∧ u = a.tid ∧ c = io.cur.chunk ∧ off = io.cur.offset ∧
      bytes.length = io.cur.length := by
  cases h.effect hs with
  | @read io e b out mv hr herr hb tab mem store hist' =>
    rw [hist', List.cons.injEq, Event.copied.injEq] at hist
    obtain ⟨⟨rfl, rfl, rfl, rfl⟩, -⟩ := hist
    have hs := h.stepAt_of_step hs
    rw [mv.old] at hs
    simp only [stepAt] at hs
    rw [if_neg (by rw [show (s.tab.ents e).error = false from herr]; decide)] at hs
    rw [show (s.tab.ents e).data = some b from hb] at hs
    simp only [hr] at hs
    rw [if_neg (by decide), some.injEq] at hs
    subst hs
    exact ⟨io, e, .to mv.old rfl rfl rfl, hr, rfl, rfl, rfl, slice_length⟩
  | _ => simp_all

theorem TrackInv.step [Fintype W] (hK : TrackInv s) (h : Inv n s) (hs : Fuse.step s a = some s') :
    TrackInv s' := by
  have hE := h.effect hs
  cases h.traffic hs with
  | @same p p' go hio hist =>
    have hcopies : p'.io? ≠ none → ∀ write,
      copies write a.tid s'.hist = copies write a.tid s.hist := by
      intro hsome write
      rcases hist with hist | ⟨ev, hev, hist⟩
      · rw [hist]
      · cases ev with
        | copied u c off bytes =>
          obtain ⟨io, e, go', -⟩ := h.copied_step hs hist
          rw [← go.self, ← go.old, go'.self, go'.old] at hio
          simp [Pc.io?] at hio
        | acq u c w | updated c d | updateFailed c d => rw [hist]; rfl
        | call u req | ret u req m out | wrote u c w => cases hev
    refine hK.go hE go fun io copied ht hreq => ?_
    have hsome : p'.io? ≠ none := by rw [ht]; exact some_ne_none _
    rw [hcopies hsome, hcopies hsome]
    exact hK a.tid io copied (by rw [go.old, ← hio, ht]) hreq
  | called go hio hist =>
    refine hK.go hE go fun io copied ht hreq => ?_
    rcases hio with hio | hio
    · rw [hio] at ht
      cases ht
    · rw [hio, some.injEq, Prod.mk.injEq] at ht
      obtain ⟨rfl, rfl⟩ := ht
      have hnone : ∀ write, copies write a.tid s'.hist = [] := fun write => by
        rw [hist]
        exact if_pos rfl
      rw [hnone, hnone]
      exact ⟨rfl, rfl, rfl, Nat.zero_le _, (absurd · (Nat.lt_irrefl 0)), moved_nil _, rfl⟩
  | @next io cur go hcur hist =>
    refine hK.go hE go fun io' copied ht hreq => ?_
    simp only [Pc.io?, some.injEq, Prod.mk.injEq] at ht
    obtain ⟨rfl, rfl⟩ := ht
    rw [hist]
    exact (hK a.tid io true (by rw [go.old]; rfl) hreq).next hreq hcur
  | ended go _ _ | gaveUp go _ | flushed go _ => exact hK.stop hE go rfl
  | @read io₀ e₀ out bytes go₀ _ hist =>
    obtain ⟨io, e, go, hr, -, hc, hoff, hlen⟩ := h.copied_step hs hist
    have hio := (h.ok go.old).1
    refine hK.go hE go fun io' copied ht hreq => ?_
    simp only [Pc.io?, some.injEq, Prod.mk.injEq] at ht
    obtain ⟨rfl, rfl⟩ := ht
    have hself : copies io.req.isWrite a.tid s'.hist = copies io.req.isWrite a.tid s.hist ++
        [Write.onDisk P io.cur.chunk ⟨io.cur.offset, bytes⟩] := by
      rw [hist, hc, hoff]
      exact if_pos ⟨rfl, hr⟩
    have hother : copies (!io.req.isWrite) a.tid s'.hist
        = copies (!io.req.isWrite) a.tid s.hist := by
      rw [hist]
      exact if_neg fun hx => by simp [hr] at hx
    simp only
    rw [hself, hother]
    refine (hK a.tid io false (by rw [go.old]; rfl) hreq).move hio.1.1 rfl hlen ?_
    cases hq : io.req with
    | write start buf => simp [hq, Req.isWrite] at hr
    | read start count | fsync => rfl
  | @written io e go hw hist =>
    have hio := (h.ok go.old).1
    refine hK.go hE go fun io' copied ht hreq => ?_
    simp only [Pc.io?, some.injEq, Prod.mk.injEq] at ht
    obtain ⟨rfl, rfl⟩ := ht
    have hself : copies io.req.isWrite a.tid s'.hist
        = copies io.req.isWrite a.tid s.hist ++ [io.piece.onDisk P io.cur.chunk] := by
      rw [hist]
      exact if_pos ⟨rfl, hw⟩
    have hother : copies (!io.req.isWrite) a.tid s'.hist
        = copies (!io.req.isWrite) a.tid s.hist := by
      rw [hist]
      exact if_neg fun hx => by simp [hw] at hx
    rw [hself, hother]
    refine (hK a.tid io false (by rw [go.old]; rfl) hreq).move hio.1.1 rfl
      (Io.piece_inside hio.1 hw).1 ?_
    cases hq : io.req with
    | read start count | fsync => simp [hq, Req.isWrite] at hw
    | write start buf =>
      simp only [Req.moved, Io.piece, hq, Io.reached]
      exact take_add.symm

/-! ## Giving up -/

/-- The request that has found the error flag of an entry and gives up. -/
def Pc.gaveUp : Pc → Option (Io × Nat)
  | .erLock io e true | .release (.request io true) e => some (io, e)
  | _ => none

/-- The entry of a chunk of the disk has its error flag. -/
def Erroneous (s : St P W) (c : Nat) : Prop :=
  c < P.chunks ∧ ∃ e ∈ s.tab.chunks, (s.core e).chunk = c ∧ (s.core e).error = true

/-- A request only gives up at such an entry, its cursor's. -/
def GiveUpInv (s : St P W) : Prop :=
  ∀ t io e, (s.pc t).gaveUp = some (io, e) →
    CurOk P io.cur ∧ (s.core e).chunk = io.cur.chunk ∧ (s.core e).error = true

theorem Pc.gaveUp_own {p : Pc} {io : Io} (h : p.gaveUp = some (io, e)) : e ∈ p.own := by
  unfold Pc.gaveUp at h
  split at h
  next => cases h; exact mem_singleton.mpr rfl
  next => cases h; exact mem_cons_self ..
  next => cases h

/-- A step changes the data of no entry but one that its thread holds, and then its request does
not give up. -/
theorem Effect.core_kept (hE : Effect s a s') {x : Nat} (hx : x ∈ s.tab.chunks) :
    s'.core x = s.core x ∨ x ∈ (s.pc a.tid).own ∧ (s'.pc a.tid).gaveUp = none := by
  have one : ∀ {p p' : Pc} {e : Nat} {core : Core}, Move s a.tid p p' s' → e ∈ p.own →
      p'.gaveUp = none → OneEnt s s' e core →
      s'.core x = s.core x ∨ x ∈ (s.pc a.tid).own ∧ (s'.pc a.tid).gaveUp = none := by
    intro p p' e core mv ho hno tab
    by_cases hxe : x = e
    · rw [mv.old, mv.self, hxe]
      exact .inr ⟨ho, hno⟩
    · exact .inl (tab.other x hxe)
  cases hE with
  | quiet _ _ tab _ _ _ | called _ _ tab _ _ _ | returned _ _ tab _ _ _ _ _
  | synced _ _ tab _ _ _ | taken _ _ tab _ _ _ | stored _ _ _ tab _ _ _
  | storeFailed _ _ tab _ _ _ | filled _ _ _ tab _ _ _ | fillFailed _ _ _ tab _ _ _
  | refused _ _ tab _ _ _ | read _ _ _ _ tab _ _ _ | written _ _ _ _ tab _ _ _ =>
    exact .inl (tab.core x hx)
  | created _ _ _ _ _ other _ _ _ => exact .inl (other x hx)
  | allocated mv tab _ _ _ _ | fillError mv tab _ _ _ | dirtied mv _ _ tab _ _ _
  | dropped mv _ _ tab _ _ _ => exact one mv (by simp [Pc.own]) rfl tab
  | @stolen _ e r _ mv _ _ _ _ _ _ other _ _ _ =>
    by_cases hxer : x = e ∨ x = r
    · rw [mv.old, mv.self]
      refine .inr ⟨?_, rfl⟩
      rcases hxer with rfl | rfl <;> simp [Pc.own]
    · rw [not_or] at hxer
      exact .inl (other x hxer.1 hxer.2)
  | storeError mv tab _ _ _ => exact one mv (mem_cons_self ..) rfl tab
  | @cleaned k _ mv tab _ _ _ => exact one mv (mem_cons_self ..) (by cases k <;> rfl) tab
  | freed _ _ _ _ _ core _ _ _ => exact .inl (core x)

theorem St.enter_pc {k : Acq} (h : (s.enter t k e).abort = false) :
    (s.enter t k e).pc t = .acqLoop k e := by
  unfold St.enter at h ⊢
  split at h
  next he =>
    rw [if_pos he]
    exact Function.update_self ..
  next => cases h

theorem gaveUp_from [Fintype W] {io : Io} (h' : s'.abort = false) (hs : stepAt s a p = some s')
    (hto : (s'.pc a.tid).gaveUp = some (io, e)) :
    p.gaveUp = some (io, e) ∨ p = .ioBody io e ∧ (s.core e).error = true := by
  have enter : ∀ {s₁ : St P W} {k : Acq} {x : Nat}, some (s₁.enter a.tid k x) ≠ some s' := by
    intro s₁ k x hx
    cases hx
    rw [St.enter_pc h'] at hto
    cases hto
  have goto : ∀ {p' : Pc}, s'.pc = Function.update s.pc a.tid p' → p'.gaveUp = some (io, e) := by
    intro p' hpc
    rwa [hpc, Function.update_self] at hto
  cases p with
  | erLock io' e' failed =>
    simp only [stepAt] at hs
    split at hs
    next =>
      split at hs
      next hw =>
        split at hs
        next =>
          cases hs
          cases h'
        next =>
          obtain ⟨f, rfl⟩ := St.signal_map hs
          have hgo := goto rfl
          rw [hw.2] at hgo
          cases hgo
      next =>
        cases hs
        cases failed with
        | true =>
          have hgo : some (io', e') = some (io, e) := goto rfl
          exact .inl hgo
        | false => cases goto rfl
    next => cases hs
  | ioBody io' e' =>
    simp only [stepAt] at hs
    split at hs
    next herr =>
      cases hs
      have hgo : some (io', e') = some (io, e) := goto rfl
      cases hgo
      exact .inr ⟨rfl, herr⟩
    next =>
      split at hs
      next =>
        cases hs
        cases h'
      next => split at hs <;> cases hs <;> cases goto rfl
  | release k x =>
    simp only [stepAt] at hs
    split at hs
    next =>
      cases hs
      cases h'
    next =>
      split at hs
      next => cases hs
      next s₁ hsig =>
        obtain ⟨f, rfl⟩ := St.signal_eq hsig
        cases hs
        cases k with
        | stop k => cases k <;> cases goto rfl
        | request io failed => cases failed <;> cases goto rfl
        | _ => cases goto rfl
  | cleanLock k x =>
    simp only [stepAt] at hs
    split at hs <;> cases hs
    cases k <;> cases goto rfl
  | acqLoop k x =>
    simp only [stepAt] at hs
    split at hs
    next =>
      cases hs
      cases goto rfl
    next => cases k <;> cases hs <;> cases goto rfl
  | caLoop k =>
    simp only [stepAt] at hs
    split at hs
    next =>
      cases hs
      cases k <;> cases goto rfl
    next => exact absurd hs enter
  | eaLock io =>
    simp only [stepAt] at hs
    split at hs
    next => exact absurd hs enter
    next => cases hs
  | eaReclaim io x =>
    simp only [stepAt] at hs
    split at hs
    next =>
      cases hs
      cases goto rfl
    next => exact absurd hs enter
  | shFree =>
    simp only [stepAt] at hs
    split at hs
    next => exact absurd hs enter
    split at hs <;> cases hs
    · cases goto rfl
    · cases h'
  | shStop =>
    simp only [stepAt] at hs
    split at hs
    next =>
      obtain ⟨f, rfl⟩ := St.signal_map hs
      cases goto rfl
    next => cases hs
  | _ =>
    -- every other step goes on to a place where no request gives up
    simp only [stepAt] at hs
    (repeat' split at hs) <;> cases hs <;> first | cases h' | cases goto rfl

theorem GiveUpInv.step [Fintype W] (hG : GiveUpInv s) (h : Inv n s) (hs : Fuse.step s a = some s') :
    GiveUpInv s' := by
  have hE := h.effect hs
  intro t io e ht
  by_cases hta : t = a.tid
  · subst hta
    -- the entry is one that the step leaves alone
    have keep : ∀ {p : Pc}, s.pc a.tid = p → e ∈ p.own → s'.core e = s.core e := by
      intro p hp ho
      refine (hE.core_kept (h.live hp ho)).resolve_right fun hx => ?_
      rw [hx.2] at ht
      cases ht
    rcases gaveUp_from (h.step hs).alive (h.stepAt_of_step hs) ht with hx | ⟨hp, herr⟩
    · rw [keep rfl (Pc.gaveUp_own hx)]
      exact hG a.tid io e hx
    · have hio := (h.ok hp).1
      rw [keep hp (mem_singleton.mpr rfl)]
      exact ⟨hio.1.1, hio.2, herr⟩
  · obtain ⟨p, p', go⟩ := (h.traffic hs).goes
    rw [go.other hta] at ht
    have ho := Pc.gaveUp_own ht
    have hcore : s'.core e = s.core e :=
      (hE.core_kept (h.live rfl ho)).resolve_right fun hx => hta (h.owner ho hx.1)
    rw [hcore]
    exact hG t io e ht

/-! ## The return value -/

theorem Traffic.ret_cases {req : Req} {m : Int} (hT : Traffic s a s')
    (hret : s'.hist = .ret t req m out :: s.hist) (hreq : req ≠ .fsync) :
    (∃ io cur, s.pc t = .ioNext io ∧ ioChunk P io.cur = (false, cur) ∧ io.req = req ∧
      io.out = out ∧ m = { io with cur }.doneValue) ∨
    ∃ io e, s.pc t = .release (.request io true) e ∧ io.req = req ∧ io.out = out ∧
      m = io.failValue := by
  cases hT with
  | same go hio hist =>
    rcases hist with hist | ⟨ev, hev, hist⟩
    · rw [hist] at hret
      exact absurd hret.symm (cons_ne_self _ _)
    · rw [hist, List.cons.injEq] at hret
      rw [hret.1] at hev
      cases hev
  | called go _ hist | read go _ hist | written go _ hist =>
    rw [hist, List.cons.injEq] at hret
    cases hret.1
  | next go _ hist =>
    rw [hist] at hret
    exact absurd hret.symm (cons_ne_self _ _)
  | @ended io cur go hcur hist =>
    rw [hist, List.cons.injEq, Event.ret.injEq] at hret
    obtain ⟨⟨rfl, rfl, rfl, rfl⟩, -⟩ := hret
    exact .inl ⟨io, cur, go.old, hcur, rfl, rfl, rfl⟩
  | @gaveUp io e go hist =>
    rw [hist, List.cons.injEq, Event.ret.injEq] at hret
    obtain ⟨⟨rfl, rfl, rfl, rfl⟩, -⟩ := hret
    exact .inr ⟨io, e, go.old, rfl, rfl, rfl⟩
  | flushed go hist =>
    rw [hist, List.cons.injEq, Event.ret.injEq] at hret
    exact absurd hret.1.2.1.symm hreq

/-- What the value `m` that a request returns in state `s` says about its moves `ws`. -/
structure Honest (s : St P W) (req : Req) (m : Int) (out : List UInt8) (ws other : List Write) :
    Prop where
  moved : 0 ≤ m → Moved req out m.toNat ws
  short : 0 ≤ m → m < req.count → P.size ≤ req.start + m.toNat ∨
    Erroneous s ((req.start + m.toNat) / P.chunksize)
  nothing : m < 0 → ws = []
  eio : m < 0 → (m = -5 ↔ Erroneous s (req.start / P.chunksize))
  enospc : m < 0 → (m = -28 ↔ req.isWrite = true ∧ 0 < req.count ∧ P.size ≤ req.start)
  other : other = []

omit [DecidableEq W] in
theorem Honest.of_nonneg {req : Req} {k : Nat} (hk : k < 2 ^ 31) (hmoved : Moved req out k ws)
    (hother : other = [])
    (hshort : k < req.count → P.size ≤ req.start + k ∨
      Erroneous s ((req.start + k) / P.chunksize)) : Honest s req (toInt k) out ws other := by
  have hm : toInt k = k := by
    rw [toInt, if_pos hk]
  rw [hm]
  have hno : ¬ (k : Int) < 0 := by omega
  exact ⟨fun _ => hmoved, fun _ hlt => hshort (by omega), fun hx => absurd hx hno,
    fun hx => absurd hx hno, fun hx => absurd hx hno, hother⟩

omit [DecidableEq W] in
theorem Tracked.done {io : Io} (h : Tracked P io true ws other) (hreq : io.req.Bounded P)
    (hcur : Fuse.ioChunk P io.cur = (false, cur)) :
    Honest s io.req { io with cur }.doneValue io.out ws other := by
  have hle := h.le
  have hsmall := hreq.2
  have hmoved : Moved io.req io.out io.reached ws := h.moved
  rw [h.ioChunk hreq] at hcur
  split at hcur
  next hend =>
    cases hcur
    have hvalue : Io.doneValue { io with cur := { io.cur with bufOffset := io.reached } }
        = toInt io.reached := by
      refine if_neg ?_
      simp [h.eof]
    rw [hvalue]
    exact .of_nonneg (by omega) hmoved h.nothing fun hlt => by omega
  next hlt =>
    split at hcur
    next hsize =>
      cases hcur
      unfold Io.doneValue
      simp only [true_and]
      split
      next hw =>
        -- a write that starts at or beyond the end of the disk
        rw [hw.2] at hmoved hsize hlt
        refine ⟨nofun, nofun, fun _ => hmoved.eq_nil, fun _ => ⟨nofun, ?_⟩, fun _ => ?_, h.nothing⟩
        · rintro ⟨hc, -⟩
          exact absurd (chunk_le_div.mp hsize) (not_le.mpr hc)
        · exact ⟨fun _ => ⟨hw.1, by omega, hsize⟩, fun _ => rfl⟩
      next => exact .of_nonneg (by omega) hmoved h.nothing fun _ => .inl hsize
    next => cases hcur

omit [DecidableEq W] in
theorem Tracked.failed {io : Io} (h : Tracked P io false ws other) (hreq : io.req.Bounded P)
    (hcur : CurOk P io.cur) (he : e ∈ s.tab.chunks) (hchunk : (s.core e).chunk = io.cur.chunk)
    (herr : (s.core e).error = true) : Honest s io.req io.failValue io.out ws other := by
  have hle := h.le
  have hsmall := hreq.2
  have hmoved : Moved io.req io.out io.cur.bufOffset ws := h.moved
  obtain ⟨hlt, hin, -, hpos⟩ := hcur
  have hat : (io.req.start + io.cur.bufOffset) / P.chunksize = io.cur.chunk := by
    rw [← h.piece hpos, Nat.mul_comm, Nat.mul_add_div P.chunksize_pos,
      Nat.div_eq_of_lt (by omega), Nat.add_zero]
  have hbad : Erroneous s ((io.req.start + io.cur.bufOffset) / P.chunksize) := by
    rw [hat]
    exact ⟨hlt, e, he, hchunk, herr⟩
  unfold Io.failValue
  split
  next hz =>
    rw [hz] at hmoved hbad hat
    refine ⟨nofun, nofun, fun _ => hmoved.eq_nil, fun _ => ⟨fun _ => hbad, fun _ => rfl⟩,
      fun _ => ⟨nofun, ?_⟩, h.nothing⟩
    rintro ⟨-, -, hsize⟩
    have := chunk_le_div.mp hsize
    rw [Nat.add_zero] at hat
    omega
  next =>
    refine .of_nonneg ?_ hmoved h.nothing fun _ => .inr hbad
    simp only [Io.reached] at hle
    omega

end steps

/-! ## The disk -/

/-- The event is a write to position `q` of the disk. -/
def Event.Covers (q : Nat) : Event P W → Prop
  | .wrote _ c w => (w.onDisk P c).Covers q
  | _ => False

/-- The disk that a history shows. -/
def shownDisk (disk : Nat → Data P) (h : List (Event P W)) : Nat → Option (Data P) :=
  fun c => shown (some (disk c)) c h

section disk

variable {disk : Nat → Data P} {h₀ evs h : List (Event P W)} {q : Nat}

theorem byteAt_move (hM : Base.Always (SoundMove disk) (.wrote t c w :: h)) :
    byteAt (shownDisk disk (.wrote t c w :: h)) q
      = if (w.onDisk P c).Covers q then w.bytes[q - (w.onDisk P c).off]?
        else byteAt (shownDisk disk h) q :=
  byteAt_wrote _ hM.head.1 hM.head.2

theorem byteAt_cons {ev : Event P W} (hM : Base.Always (SoundMove disk) (ev :: h))
    (hf : ∀ c left, ev ≠ .updateFailed c left) (hq : ¬ ev.Covers q) :
    byteAt (shownDisk disk (ev :: h)) q = byteAt (shownDisk disk h) q := by
  cases ev with
  | wrote t c w => exact (byteAt_move hM).trans (if_neg hq)
  | updateFailed c left => exact absurd rfl (hf c left)
  | _ => rfl

theorem byteAt_untouched (hM : Base.Always (SoundMove disk) (evs ++ h₀))
    (hf : ∀ c left, .updateFailed c left ∉ evs) (hq : ∀ ev ∈ evs, ¬ ev.Covers q) :
    byteAt (shownDisk disk (evs ++ h₀)) q = byteAt (shownDisk disk h₀) q := by
  induction evs with
  | nil => rfl
  | cons ev evs ih =>
    have htail : byteAt (shownDisk disk (evs ++ h₀)) q = byteAt (shownDisk disk h₀) q :=
      ih hM.tail (fun c left hx => hf c left (mem_cons_of_mem _ hx))
        fun ev' hx => hq ev' (mem_cons_of_mem _ hx)
    refine (byteAt_cons hM (fun c left hx => ?_) (hq ev (mem_cons_self ..))).trans htail
    exact hf c left (hx ▸ mem_cons_self ..)

theorem Adjoin.of_concat :
    ∀ {ws : List Write} {p : Nat}, Adjoin p (ws ++ [w]) →
    Adjoin p ws ∧ w.off = p + (bytesOf ws).length
  | [], p, h => ⟨trivial, by simpa [bytesOf] using h.1⟩
  | v :: ws, p, h => by
    obtain ⟨hv, hrest⟩ := h
    obtain ⟨hadj, hoff⟩ := Adjoin.of_concat hrest
    refine ⟨⟨hv, hadj⟩, ?_⟩
    rw [hoff]
    simp only [bytesOf, flatMap_cons, length_append]
    omega

variable [DecidableEq W] {req : Req} {start : Nat}

/-- What a thread has written since its request arrived, if nobody else writes there. The
induction is on the events since then, the oldest first; `bytesOf` of the thread's moves grows at
its end. -/
theorem byteAt_written (hM : Base.Always (SoundMove disk) (evs ++ .call t req :: h₀))
    (hcall : ∀ r, .call t r ∉ evs) (hf : ∀ c left, .updateFailed c left ∉ evs)
    (hadj : Adjoin start (copies true t (evs ++ .call t req :: h₀)))
    (hq : ∀ ev ∈ evs, ev.tid? ≠ some t → ¬ ev.Covers q) :
    byteAt (shownDisk disk (evs ++ .call t req :: h₀)) q
      = if start ≤ q ∧ q < start + (bytesOf (copies true t (evs ++ .call t req :: h₀))).length
        then (bytesOf (copies true t (evs ++ .call t req :: h₀)))[q - start]?
        else byteAt (shownDisk disk h₀) q := by
  induction evs with
  | nil =>
    have hnone : copies true t ([] ++ .call t req :: h₀) = [] := if_pos rfl
    rw [hnone, if_neg (by simp only [bytesOf, flatMap_nil, length_nil]; omega)]
    rfl
  | cons ev evs ih =>
    have ih := fun hadj => ih hM.tail (fun r hx => hcall r (mem_cons_of_mem _ hx))
      (fun c left hx => hf c left (mem_cons_of_mem _ hx)) hadj
      fun ev' hx => hq ev' (mem_cons_of_mem _ hx)
    by_cases hmove : ∃ c w, ev = .wrote t c w
    · obtain ⟨c, w, rfl⟩ := hmove
      have hcopies : copies true t (.wrote t c w :: evs ++ .call t req :: h₀)
          = copies true t (evs ++ .call t req :: h₀) ++ [w.onDisk P c] := if_pos ⟨rfl, rfl⟩
      rw [hcopies] at hadj
      obtain ⟨hadj, hoff⟩ := hadj.of_concat
      rw [cons_append] at hM
      rw [hcopies, bytesOf_concat, cons_append, byteAt_move hM, ih hadj]
      generalize bytesOf (copies true t (evs ++ .call t req :: h₀)) = old at hoff
      simp only [Write.Covers, length_append, hoff]
      have hw : (w.onDisk P c).bytes = w.bytes := rfl
      rw [hw]
      by_cases hnew : start + old.length ≤ q
      · by_cases hlt : q < start + old.length + w.bytes.length
        · rw [if_pos ⟨hnew, hlt⟩, if_pos (by omega), getElem?_append_right (by omega)]
          congr 1
          omega
        · rw [if_neg (by omega), if_neg (by omega), if_neg (by omega)]
      · rw [if_neg (by omega)]
        by_cases hold : start ≤ q
        · rw [if_pos (by omega), if_pos (by omega), getElem?_append_left (by omega)]
        · rw [if_neg (by omega), if_neg (by omega)]
    · have hcopies : copies true t (ev :: evs ++ .call t req :: h₀)
          = copies true t (evs ++ .call t req :: h₀) := by
        cases ev with
        | call u r =>
          refine if_neg ?_
          rintro rfl
          exact hcall r (mem_cons_self ..)
        | copied u c off bytes => exact if_neg fun hx => by cases hx.2
        | wrote u c w =>
          refine if_neg fun hx => hmove ⟨c, w, ?_⟩
          rw [hx.1]
        | _ => rfl
      rw [hcopies] at hadj ⊢
      rw [← ih hadj]
      refine byteAt_cons hM (fun c left hx => hf c left (hx ▸ mem_cons_self ..)) ?_
      cases ev with
      | wrote u c w =>
        refine hq _ (mem_cons_self ..) fun hx => hmove ⟨c, w, ?_⟩
        rw [some.inj hx]
      | _ => exact id

omit [DecidableEq W] in
/-- What a `memcpy` of `image_read` takes from a position. -/
theorem copied_byteAt (hmove : SoundMove disk (.copied t c off bytes) h)
    (hcov : (Write.onDisk P c ⟨off, bytes⟩).Covers q) :
    bytes[q - (c * P.chunksize + off)]? = byteAt (shownDisk disk h) q := by
  obtain ⟨hin, d, hd, hbytes⟩ := hmove
  obtain ⟨rfl, hge, hlt⟩ := (Write.covers_onDisk (w := ⟨off, bytes⟩) hin).mp hcov
  have hq := Nat.div_add_mod' q P.chunksize
  simp only at hge hlt
  have hpos : q - (q / P.chunksize * P.chunksize + off) = q % P.chunksize - off := by omega
  have hoff : off + (q % P.chunksize - off) = q % P.chunksize := by omega
  simp only [byteAt, shownDisk, hd, map_some]
  rw [hbytes, hpos, slice, getElem?_map, getElem?_range (by omega), map_some]
  simp only [hoff, Nat.mod_lt _ P.chunksize_pos, dite_true]

/-- What a thread has read since its request arrived, where nobody writes. -/
theorem byteAt_read (hM : Base.Always (SoundMove disk) (evs ++ .call t req :: h₀))
    (hcall : ∀ r, .call t r ∉ evs) (hf : ∀ c left, .updateFailed c left ∉ evs)
    (hadj : Adjoin start (copies false t (evs ++ .call t req :: h₀)))
    (hq : ∀ ev ∈ evs, ¬ ev.Covers q) (hge : start ≤ q)
    (hlt : q < start + (bytesOf (copies false t (evs ++ .call t req :: h₀))).length) :
    (bytesOf (copies false t (evs ++ .call t req :: h₀)))[q - start]?
      = byteAt (shownDisk disk h₀) q := by
  induction evs with
  | nil =>
    have hnone : copies false t ([] ++ .call t req :: h₀) = [] := if_pos rfl
    rw [hnone] at hlt
    exact absurd hlt (by simpa [bytesOf] using hge)
  | cons ev evs ih =>
    have hf' : ∀ c left, .updateFailed c left ∉ evs :=
      fun c left hx => hf c left (mem_cons_of_mem _ hx)
    have hq' : ∀ ev ∈ evs, ¬ ev.Covers q := fun ev' hx => hq ev' (mem_cons_of_mem _ hx)
    have ih := ih hM.tail (fun r hx => hcall r (mem_cons_of_mem _ hx)) hf'
    by_cases hmove : ∃ c off bytes, ev = .copied t c off bytes
    · obtain ⟨c, off, bytes, rfl⟩ := hmove
      have hcopies : copies false t (.copied t c off bytes :: evs ++ .call t req :: h₀)
          = copies false t (evs ++ .call t req :: h₀) ++ [Write.onDisk P c ⟨off, bytes⟩] :=
        if_pos ⟨rfl, rfl⟩
      rw [hcopies] at hadj
      obtain ⟨hadj, hoff⟩ := hadj.of_concat
      have ih := ih hadj hq'
      rw [hcopies, bytesOf_concat, length_append] at hlt
      rw [hcopies, bytesOf_concat]
      generalize bytesOf (copies false t (evs ++ .call t req :: h₀)) = old at hoff hlt ih
      by_cases hold : q < start + old.length
      · rw [getElem?_append_left (by omega)]
        exact ih hold
      · have hcov : (Write.onDisk P c ⟨off, bytes⟩).Covers q := by
          simp only [Write.Covers, hoff]
          omega
        have hbase : byteAt (shownDisk disk (evs ++ .call t req :: h₀)) q
            = byteAt (shownDisk disk h₀) q := byteAt_untouched hM.tail hf' hq'
        have hread := copied_byteAt (h := evs ++ .call t req :: h₀) hM.head hcov
        have hat : c * P.chunksize + off = start + old.length := hoff
        rw [hat, hbase] at hread
        rw [getElem?_append_right (by omega), Nat.sub_sub]
        exact hread
    · have hcopies : copies false t (ev :: evs ++ .call t req :: h₀)
          = copies false t (evs ++ .call t req :: h₀) := by
        cases ev with
        | call u r =>
          refine if_neg ?_
          rintro rfl
          exact hcall r (mem_cons_self ..)
        | copied u c off bytes =>
          refine if_neg fun hx => hmove ⟨c, off, bytes, ?_⟩
          rw [hx.1]
        | wrote u c w => exact if_neg fun hx => by cases hx.2
        | _ => rfl
      rw [hcopies] at hadj hlt ⊢
      exact ih hadj hq' hlt

end disk

/-! ## The whole request -/

/-- What the caller of a request can rely on. The request arrived in state `s₀` and returns `m` in
state `s`, which becomes `s'`; `evs` is what happened in between. -/
structure Truthful [DecidableEq W] [Fintype W] (s₀ s s' : St P W) (t : Tid W)
    (evs : List (Event P W)) (req : Req) (m : Int) (out : List UInt8) : Prop where
  /-- The value counts what was moved, and says why it was not more. -/
  honest : Honest s req m out (copies req.isWrite t s.hist) (copies (!req.isWrite) t s.hist)
  /-- What was read was on the disk, where nobody has written since. -/
  read : req.isWrite = false → ∀ q, req.start ≤ q → q < req.start + m.toNat →
    (∀ ev ∈ evs, ¬ ev.Covers q) → out[q - req.start]? = byteAt (content s₀) q
  /-- What was written is on the disk, where nobody else has written, and nothing else has
  changed. -/
  disk : ∀ q, (∀ ev ∈ evs, ev.tid? ≠ some t → ¬ ev.Covers q) → byteAt (content s') q =
    if req.isWrite = true ∧ req.start ≤ q ∧ q < req.start + m.toNat
    then (req.moved out m.toNat)[q - req.start]? else byteAt (content s₀) q

section whole

variable [DecidableEq W] [Fintype W] {s₀ s s' : St P W} {a : Act P W} {evs : List (Event P W)}
  {req : Req} {m : Int}

omit [DecidableEq W] [Fintype W] in
theorem Honest.adjoin (h : Honest s req m out ws other) :
    Adjoin req.start ws ∧ (bytesOf ws).length = m.toNat ∧
      (0 < m.toNat → bytesOf ws = req.moved out m.toNat) := by
  by_cases hneg : m < 0
  · rw [h.nothing hneg, Int.toNat_of_nonpos (Int.le_of_lt hneg)]
    exact ⟨trivial, rfl, nofun⟩
  · have hmoved := h.moved (Int.not_lt.mp hneg)
    exact ⟨hmoved.adjoin, hmoved.length, fun _ => hmoved.bytes⟩

/-- Every request within `2^31` chunks reports its transfer truthfully, beside any other requests
and with any entries in error, if no `cache_update` fails while it runs. -/
theorem transfer_truthful (allocatable : Nat) (disk : Nat → Data P)
    (hr : Base.Reach step (fun _ _ => True) (init W allocatable disk) s₀)
    (hrun : Base.Reach step (fun _ _ => True) s₀ s) (hs : step s a = some s')
    (hreq : req.Bounded P) (hio : req ≠ .fsync)
    (hcall : s.hist = evs ++ .call t req :: s₀.hist) (hone : ∀ r, .call t r ∉ evs)
    (hret : s'.hist = .ret t req m out :: s.hist)
    (hwb : ∀ c left, .updateFailed c left ∉ evs) : Truthful s₀ s s' t evs req m out := by
  have hrs := hr.trans hrun
  have key : Inv allocatable s ∧ TrackInv s ∧ GiveUpInv s := by
    refine hrs.inv (I := fun s => Inv allocatable s ∧ TrackInv s ∧ GiveUpInv s)
      ⟨inv_init _ _, fun u io copied hx => ?_, fun u io e hx => ?_⟩ ?_
    · cases u <;> cases hx
    · cases u <;> cases hx
    · rintro s a s' ⟨h, hK, hG⟩ - hs
      exact ⟨h.step hs, hK.step h hs, hG.step h hs⟩
  obtain ⟨h, hK, hG⟩ := key
  have hhonest : Honest s req m out (copies req.isWrite t s.hist)
      (copies (!req.isWrite) t s.hist) := by
    rcases (h.traffic hs).ret_cases hret hio with
      ⟨io, cur, hp, hcur, rfl, rfl, rfl⟩ | ⟨io, e, hp, rfl, rfl, rfl⟩
    · exact (hK t io true (by rw [hp]; rfl) hreq).done hreq hcur
    · obtain ⟨hok, hchunk, herr⟩ := hG t io e (by rw [hp]; rfl)
      exact (hK t io false (by rw [hp]; rfl) hreq).failed hreq hok
        (h.live hp (mem_cons_self ..)) hchunk herr
  obtain ⟨hadj, hlen, hbytes⟩ := hhonest.adjoin
  have hother := hhonest.other
  have hbefore : content s₀ = shownDisk disk s₀.hist :=
    funext (content_eq allocatable disk hr).1
  have hafter : content s' = shownDisk disk s.hist := by
    funext c
    rw [(content_eq allocatable disk (hrs.step trivial hs)).1 c, hret]
    rfl
  have hM := (content_eq allocatable disk hrs).2
  rw [hcall] at hadj hlen hbytes hother hM hafter
  refine ⟨hhonest, fun hrd q hge hlt hq => ?_, fun q hq => ?_⟩
  · rw [hrd] at hadj hlen hbytes
    have hread := byteAt_read hM hone hwb hadj hq hge (by omega)
    rw [hbytes (by omega), Req.moved_read hrd] at hread
    rw [hread, hbefore]
  · rw [hbefore, hafter]
    cases hw : req.isWrite with
    | false =>
      rw [hw, Bool.not_false] at hother
      rw [byteAt_written hM hone hwb (hother ▸ trivial : Adjoin 0 _) hq, hother, if_neg nofun,
        if_neg (by simp)]
    | true =>
      rw [hw] at hadj hlen hbytes
      rw [byteAt_written hM hone hwb hadj hq, hlen]
      by_cases hin : req.start ≤ q ∧ q < req.start + m.toNat
      · rw [if_pos hin, if_pos ⟨rfl, hin⟩, hbytes (by omega)]
      · rw [if_neg hin, if_neg fun hx => hin hx.2]

/-- A worker reads two bytes across the boundary of two chunks; the second `cache_get` fails. -/
def shortRun : List (Act tinyParcel (Fin 1)) :=
  Act.call solo (.read 511 2) :: replicate 12 (Act.go solo) ++
  Act.fail solo none :: replicate 3 (Act.go solo)

def readReturns : List (Event tinyParcel (Fin 1)) → Bool
  | .ret u r m _ :: _ => u == solo && r == .read 511 2 && m == 1
  | _ => false

/-- The first byte has been read, and the next step is the return. -/
def readEnds (s : St tinyParcel (Fin 1)) : Bool :=
  match s.hist with
  | [.acq _ _ _, .copied _ _ _ _, .acq _ _ _, .call t req] =>
    t == solo && req == .read 511 2 &&
      (step s (Act.go solo)).any fun s' => readReturns s'.hist
  | _ => false

/-- The read returns one byte. -/
theorem transfer_truthful_short : ∃ s s' evs out,
    Base.Reach step (fun _ _ => True) (init (P := tinyParcel) (Fin 1) 2 fun _ _ => 3) s ∧
    step s (Act.go (.fuse 0)) = some s' ∧
    s.hist = evs ++ .call (.fuse 0) (.read 511 2) :: [] ∧
    s'.hist = .ret (.fuse 0) (.read 511 2) 1 out :: s.hist ∧
    Truthful (init (P := tinyParcel) (Fin 1) 2 fun _ _ => 3) s s' (.fuse 0) evs (.read 511 2) 1
      out := by
  have hrun : (Base.exec step (fun _ _ => true)
      (init (P := tinyParcel) (Fin 1) 2 fun _ _ => 3) shortRun).any readEnds = true := by
    decide +kernel
  obtain ⟨s, hr, hchk⟩ := Base.reach_of_exec_any (D := fun _ _ => True) (fun _ _ _ => trivial)
    shortRun hrun
  unfold readEnds at hchk
  split at hchk
  next t₁ c₁ w₁ t₂ c₂ off bytes t₃ c₃ w₃ t req hcall =>
    simp only [Bool.and_eq_true, beq_iff_eq, Option.any_eq_true] at hchk
    obtain ⟨⟨rfl, rfl⟩, s', hs, hchk⟩ := hchk
    have hret : ∃ out, s'.hist = .ret solo (.read 511 2) 1 out :: s.hist := by
      unfold readReturns at hchk
      split at hchk
      next u r m out past hist =>
        simp only [Bool.and_eq_true, beq_iff_eq] at hchk
        obtain ⟨⟨rfl, rfl⟩, rfl⟩ := hchk
        rcases ((inv_reach hr).effect hs).hist_cases with hsame | ⟨ev, hnew, -⟩
        · rw [hsame, hcall, List.cons.injEq] at hist
          cases hist.1
        · rw [hnew, List.cons.injEq] at hist
          exact ⟨out, by rw [hnew, hist.1]⟩
      next => cases hchk
    obtain ⟨out, hret⟩ := hret
    have hevs : s.hist = [.acq t₁ c₁ w₁, .copied t₂ c₂ off bytes, .acq t₃ c₃ w₃] ++
        .call (.fuse 0) (.read 511 2) :: [] := hcall
    refine ⟨s, s', _, out, hr, hs, hevs, hret, ?_⟩
    exact transfer_truthful 2 (fun _ _ => 3) .init hr hs ⟨by decide, by decide⟩ (by decide) hevs
      (by simp) hret (by simp)
  next => cases hchk

end whole

end OpenIsr.Fuse
