import Mathlib.Data.Fintype.Option
import OpenIsr.Fuse.Table
import OpenIsr.Base.Run
import OpenIsr.Base.Word

/-!
# The threads of the FUSE image and their steps

Any number of FUSE worker threads run `image_read`, `image_write` and `do_fsync`, one
thread runs `entry_cleaner`, and the main thread, once the FUSE loop has returned, runs
`image_shutdown`. `Pc` lists the places where a thread can stand between two steps and
the local variables it needs there; `step` is one thread's next step.

A step is a piece of code that is atomic for the other threads: a piece of a critical
section of the image lock, or one access outside it (`cache_update`, `cache_get`, the
`memcpy`, `entry_set_error`). The lock is an explicit field, so the pieces of one
critical section interleave with other threads' accesses outside the lock, as they do
in the code. `g_cond_wait` gives up the lock and blocks until the thread is signalled;
`g_cond_signal` marks one blocked waiter, if there is one.

What the environment decides is in `Act`: the thread that moves, the request that
arrives, the time, the waiter a signal wakes, whether a `cache_get`, `cache_update` or
`fsync` call fails and what such a failure leaves behind. `hist` is a history
variable, newest event first: no step reads it.

The statistics counters and the shared-memory status map are left out: nothing in
`fuse_image.c` reads them.
-/

namespace OpenIsr.Fuse

open Function
open Base (toInt)
open Table (Cond)

/-- The threads: the main thread, the cleaner and the FUSE workers. -/
inductive Tid (W : Type)
  | main
  | cleaner
  | fuse (w : W)
  deriving DecidableEq

instance {W : Type} [Fintype W] : Fintype (Tid W) :=
  Fintype.ofEquiv (Option (Option W))
    { toFun := fun
        | none => .main
        | some none => .cleaner
        | some (some w) => .fuse w
      invFun := fun
        | .main => none
        | .cleaner => some none
        | .fuse w => some (some w)
      left_inv := by rintro (_ | _ | _) <;> rfl
      right_inv := by rintro (_ | _ | _) <;> rfl }

/-- The local variables of `image_read` and `image_write`; `out` is what `image_read`
has copied to its caller so far. -/
structure Io where
  req : Req
  cur : IoCursor
  out : List UInt8
  deriving DecidableEq, Repr

/-- `whole_chunk` in `image_write`. -/
def Io.wholeChunk (P : Parcel) (io : Io) : Bool :=
  io.req.isWrite && io.cur.length == P.chunksize

/-- The `with_data` argument of `entry_acquire`. -/
def Io.withData (P : Parcel) (io : Io) : Bool := !io.wholeChunk P

/-- The piece `image_write` copies into the chunk. -/
def Io.piece (io : Io) : Write :=
  { off := io.cur.offset
    bytes := match io.req with
      | .write _ buf => (buf.drop io.cur.bufOffset).take io.cur.length
      | _ => [] }

/-- The piece a request writes to its current chunk, if it is a write. -/
def Io.write? (io : Io) : Option Write :=
  if io.req.isWrite then some io.piece else none

/-- Who runs `entry_clean_all`. -/
inductive CleanAll
  | cleaner
  | sync
  | shutdown
  deriving DecidableEq, Repr

/-- The `force` argument. -/
def CleanAll.force : CleanAll → Bool
  | .cleaner => false
  | _ => true

/-- Who called `_entry_acquire`: `entry_acquire` for the request's chunk, or for the
entry it reclaims while it holds `e`; `entry_clean_all`; `image_shutdown`. -/
inductive Acq
  | request (io : Io)
  | reclaim (io : Io) (e : Nat)
  | clean (k : CleanAll)
  | shutdown
  deriving DecidableEq, Repr

/-- Who called `entry_clean`. -/
inductive Clean
  | reclaim (io : Io) (e : Nat)
  | all (k : CleanAll)
  deriving DecidableEq, Repr

/-- Who called `_entry_release`: `entry_acquire` after it took the buffer,
`entry_release` (`failed`: the request gives up), `entry_clean_all` before its next
round or before its `break`, `image_shutdown`. -/
inductive Rel
  | steal (io : Io) (e : Nat)
  | request (io : Io) (failed : Bool)
  | again (k : CleanAll)
  | stop (k : CleanAll)
  | shutdown
  deriving DecidableEq, Repr

/-- Where a thread stands. -/
inductive Pc
  /-- A worker without a request. -/
  | idle
  /-- At the `io_chunk` call of the request loop. -/
  | ioNext (io : Io)
  /-- `entry_acquire`, before it has the lock. -/
  | eaLock (io : Io)
  /-- `_entry_acquire`, at the test of its loop. -/
  | acqLoop (k : Acq) (e : Nat)
  /-- `_entry_acquire`, in `g_cond_wait(ent->available)`. -/
  | acqWait (k : Acq) (e : Nat)
  /-- `entry_acquire` has the busy flag. -/
  | eaData (io : Io) (e : Nat)
  /-- `entry_acquire`, at the test of the loop that waits for a reclaimable entry. -/
  | eaReclaim (io : Io) (e : Nat)
  | eaReclaimWait (io : Io) (e : Nat)
  /-- `entry_acquire` has the busy flag of the entry it reclaims, too. -/
  | eaReclaimed (io : Io) (e r : Nat)
  | cleanStart (k : Clean) (e : Nat)
  /-- `entry_clean`, at its `cache_update` call. -/
  | cleanUpdate (k : Clean) (e : Nat)
  /-- `cache_update` failed. -/
  | cleanFailed (k : Clean) (e : Nat)
  /-- `entry_clean`, before it has the lock back. -/
  | cleanLock (k : Clean) (e : Nat)
  | eaSteal (io : Io) (e r : Nat)
  | release (k : Rel) (e : Nat)
  /-- `entry_acquire` has a buffer and has given up the lock. -/
  | eaFill (io : Io) (e : Nat)
  /-- `cache_get` failed. -/
  | fillFailed (io : Io) (e : Nat)
  /-- `entry_acquire` has returned. -/
  | ioBody (io : Io) (e : Nat)
  /-- `entry_release`, before it has the lock. -/
  | erLock (io : Io) (e : Nat) (failed : Bool)
  /-- `image_sync`, before it has the lock. -/
  | syncLock
  /-- `entry_clean_all`, at the test of its loop. -/
  | caLoop (k : CleanAll)
  /-- `entry_clean_all` has the busy flag. -/
  | caDirty (k : CleanAll) (e : Nat)
  /-- `do_fsync` after `image_sync`. -/
  | syncFlush
  /-- `entry_cleaner`, before it has the lock. -/
  | clLock
  /-- `entry_cleaner`, at the test of its loop. -/
  | clTest
  | clWait (timed : Bool)
  /-- The cleaner has returned. -/
  | clExit
  /-- The main thread in the FUSE loop. -/
  | running
  | shStop
  | shJoin
  | shLock
  /-- `image_shutdown`, at the test of the loop that frees buffers. -/
  | shFree
  | shDrop (e : Nat)
  | shDone
  deriving DecidableEq, Repr

/-- Two places in the code that are told apart by their constructors. -/
theorem Pc.ne_of_ctorIdx {p q : Pc} (h : (p.ctorIdx == q.ctorIdx) = false) : p ≠ q := by
  intro heq
  rw [heq, beq_self_eq_true] at h
  cases h

/-- What a run has done so far. -/
inductive Event (P : Parcel) (W : Type)
  /-- A request arrives. -/
  | call (t : Tid W) (req : Req)
  /-- A request returns `n`; `out` is what it read. -/
  | ret (t : Tid W) (req : Req) (n : Int) (out : List UInt8)
  /-- A request gets the busy flag of its chunk, to read or to make the write `w`. -/
  | acq (t : Tid W) (chunk : Nat) (w : Option Write)
  /-- The `memcpy` of `image_read`. -/
  | copied (t : Tid W) (chunk off : Nat) (bytes : List UInt8)
  /-- The `memcpy` of `image_write`. -/
  | wrote (t : Tid W) (chunk : Nat) (w : Write)
  /-- `cache_update` has stored `d`. -/
  | updated (chunk : Nat) (d : Data P)
  /-- `cache_update` has failed, leaving `left` (`none`: `cache_get` will fail). -/
  | updateFailed (chunk : Nat) (left : Option (Data P))

/-- The state shared by all threads, and where each of them stands. `store c` is what
`cache_get(c)` returns, `none` if it fails. -/
structure St (P : Parcel) (W : Type) where
  tab : Table
  mem : Nat → Data P
  store : Nat → Option (Data P)
  lock : Option (Tid W)
  stopping : Bool
  leaveDirty : Bool
  pc : Tid W → Pc
  signalled : Tid W → Bool
  abort : Bool
  hist : List (Event P W)

/-- A thread's next step, with the choices of the environment. -/
structure Act (P : Parcel) (W : Type) where
  tid : Tid W
  /-- The request an idle worker gets. -/
  req : Req
  /-- `time(NULL)`: seconds since the Epoch. -/
  now : Nat
  now_pos : 0 < now
  /-- The waiter that `g_cond_signal` wakes. -/
  wake : Tid W
  /-- `g_cond_wait` returns without a signal. -/
  spurious : Bool
  /-- The `cache_get`, `cache_update` or `fsync` call of this step succeeds. -/
  ok : Bool
  /-- What is in a new buffer, or in one that `cache_get` failed to fill. -/
  junk : Data P
  /-- What a failed `cache_update` leaves stored. -/
  left : Option (Data P)

variable {P : Parcel} {W : Type} [DecidableEq W] [Fintype W]

/-- The state after `image_init`, with the disk `disk` in the local cache. -/
def init (W : Type) [DecidableEq W] (allocatable : Nat) (disk : Nat → Data P) : St P W :=
  { tab := Table.init allocatable
    mem := fun _ _ => 0
    store := fun c => some (disk c)
    lock := none
    stopping := false
    leaveDirty := false
    pc := fun
      | .main => .running
      | .cleaner => .clLock
      | .fuse _ => .idle
    signalled := fun _ => false
    abort := false
    hist := [] }

namespace St

def goto (s : St P W) (t : Tid W) (p : Pc) : St P W :=
  { s with pc := update s.pc t p }

def record (s : St P W) (ev : Event P W) : St P W := { s with hist := ev :: s.hist }

def unlock (s : St P W) : St P W := { s with lock := none }

def takeLock (s : St P W) (t : Tid W) : St P W := { s with lock := some t }

def setTab (s : St P W) (tab : Table) : St P W := { s with tab }

/-- A failed `g_assert`, or a freed entry dereferenced. -/
def fail (s : St P W) : St P W := { s with abort := true }

/-- `g_cond_wait`: give up the lock and block at `p`. -/
def condWait (s : St P W) (t : Tid W) (p : Pc) : St P W :=
  { s.unlock.goto t p with signalled := update s.signalled t false }

end St

/-- The condition variable a blocked thread waits on. -/
def Pc.waitsOn : Pc → Option Cond
  | .acqWait _ e => some (.available e)
  | .eaReclaimWait _ _ => some .reclaimable
  | .clWait _ => some .cleaner
  | _ => none

/-- `t` is blocked on `c` and no signal has reached it. -/
def St.blockedOn (s : St P W) (c : Cond) (t : Tid W) : Bool :=
  (s.pc t).waitsOn == some c && !s.signalled t

/-- `g_cond_signal`: wakes one blocked thread if there is one; `none` if `wake` is not
blocked although another thread is. -/
def St.signal (s : St P W) (wake : Tid W) : Option Cond → Option (St P W)
  | none => some s
  | some c =>
    if s.blockedOn c wake then some { s with signalled := update s.signalled wake true }
    else if ∃ t, s.blockedOn c t = true then none
    else some s

/-- The entries whose busy flag the callers of the current function hold. -/
def Acq.own : Acq → List Nat
  | .reclaim _ e => [e]
  | _ => []

def Clean.own : Clean → List Nat
  | .reclaim _ e => [e]
  | _ => []

def Rel.own : Rel → List Nat
  | .steal _ e => [e]
  | _ => []

/-- The entries whose busy flag a thread holds. -/
def Pc.own : Pc → List Nat
  | .acqLoop k _ | .acqWait k _ => k.own
  | .eaData _ e | .eaReclaim _ e | .eaReclaimWait _ e => [e]
  | .eaReclaimed _ e r | .eaSteal _ e r => [r, e]
  | .cleanStart k e | .cleanUpdate k e | .cleanFailed k e | .cleanLock k e => e :: k.own
  | .release k e => e :: k.own
  | .eaFill _ e | .fillFailed _ e | .ioBody _ e | .erLock _ e _ => [e]
  | .caDirty _ e | .shDrop e => [e]
  | _ => []

/-- The entry a thread counts as a waiter of. -/
def Pc.wait : Pc → Option Nat
  | .acqLoop _ e | .acqWait _ e => some e
  | _ => none

/-- The entries a thread has pointers to. -/
def Pc.refs (p : Pc) : List Nat := p.own ++ p.wait.toList

/-- Start `_entry_acquire` on `e` for the caller `k`. -/
def St.enter (s : St P W) (t : Tid W) (k : Acq) (e : Nat) : St P W :=
  if e ∈ s.tab.chunks then (s.setTab (s.tab.acquireEnter e)).goto t (.acqLoop k e)
  else s.fail

/-- Where `_entry_acquire` returns to. -/
def Acq.next (k : Acq) (e : Nat) : Pc :=
  match k with
  | .request io => .eaData io e
  | .reclaim io ent => .eaReclaimed io ent e
  | .clean k => .caDirty k e
  | .shutdown => .shDrop e

/-- Where `entry_clean` returns to. -/
def Clean.next (k : Clean) (e : Nat) : Pc :=
  match k with
  | .reclaim io ent => .eaSteal io ent e
  | .all k => .release (.again k) e

/-- The value an unsuccessful chunk makes the request return. -/
def Io.failValue (io : Io) : Int :=
  if io.cur.bufOffset = 0 then -5 else toInt io.cur.bufOffset

/-- The value a request returns when `io_chunk` has returned `FALSE`. -/
def Io.doneValue (io : Io) : Int :=
  if io.req.isWrite ∧ io.cur.eof ∧ io.cur.bufOffset = 0 then -28 else toInt io.cur.bufOffset

/-- The end of `entry_clean_all`. -/
def CleanAll.finish (s : St P W) (t : Tid W) : CleanAll → St P W
  | .cleaner =>
    -- `entry_cleaner` waits; with a timeout if there is a dirty entry left
    s.condWait t (.clWait !s.tab.dirty.isEmpty)
  | .sync => s.unlock.goto t .syncFlush
  | .shutdown => s.goto t .shFree

/-- Where a thread continues after `_entry_release`. -/
def Rel.finish (s : St P W) (t : Tid W) : Rel → St P W
  | .steal io e => s.unlock.goto t (.eaFill io e)
  | .request io failed =>
    if failed then (s.unlock.goto t .idle).record (.ret t io.req io.failValue io.out)
    else s.unlock.goto t (.ioNext io)
  | .again k => s.goto t (.caLoop k)
  | .stop k => k.finish s t
  | .shutdown => s.goto t .shFree

/-- One step of the thread at `p`; `none` if it cannot move. -/
def stepAt (s : St P W) (a : Act P W) : Pc → Option (St P W)
  | .idle =>
    if s.pc .main = .running then
      match a.req with
      | .fsync => some ((s.goto a.tid .syncLock).record (.call a.tid a.req))
      | _ =>
        some ((s.goto a.tid (.ioNext ⟨a.req, ioStart a.req.start a.req.count, []⟩)).record
          (.call a.tid a.req))
    else none
  | .ioNext io =>
    match ioChunk P io.cur with
    | (true, cur) => some (s.goto a.tid (.eaLock { io with cur }))
    | (false, cur) =>
      some ((s.goto a.tid .idle).record
        (.ret a.tid io.req { io with cur }.doneValue io.out))
  | .eaLock io =>
    if s.lock = none then
      let (tab, e) := s.tab.lookupOrNew io.cur.chunk
      some (((s.takeLock a.tid).setTab tab).enter a.tid (.request io) e)
    else none
  | .acqLoop k e =>
    if (s.tab.ents e).busy then some (s.condWait a.tid (.acqWait k e))
    else
      let s' := (s.setTab (s.tab.acquireTake e)).goto a.tid (k.next e)
      match k with
      | .request io => some (s'.record (.acq a.tid io.cur.chunk io.write?))
      | _ => some s'
  | .acqWait k e =>
    if s.lock = none ∧ (s.signalled a.tid ∨ a.spurious) then
      some ((s.takeLock a.tid).goto a.tid (.acqLoop k e))
    else none
  | .eaData io e =>
    if (s.tab.ents e).data ≠ none then some (s.unlock.goto a.tid (.ioBody io e))
    else if 0 < s.tab.allocatable then
      some { (s.setTab (s.tab.allocData e)).unlock.goto a.tid (.eaFill io e) with
        mem := update s.mem s.tab.nextBuf a.junk }
    else some (s.goto a.tid (.eaReclaim io e))
  | .eaReclaim io e =>
    match s.tab.reclaimable with
    | [] => some (s.condWait a.tid (.eaReclaimWait io e))
    | r :: _ => some (s.enter a.tid (.reclaim io e) r)
  | .eaReclaimWait io e =>
    if s.lock = none ∧ (s.signalled a.tid ∨ a.spurious) then
      some ((s.takeLock a.tid).goto a.tid (.eaReclaim io e))
    else none
  | .eaReclaimed io e r =>
    if (s.tab.ents r).dirty ≠ 0 then some (s.goto a.tid (.cleanStart (.reclaim io e) r))
    else some (s.goto a.tid (.eaSteal io e r))
  | .cleanStart k e =>
    match s.tab.cleanStart e with
    | none => some s.fail
    | some tab => some ((s.setTab tab).unlock.goto a.tid (.cleanUpdate k e))
  | .cleanUpdate k e =>
    let ent := s.tab.ents e
    match ent.data with
    | none => some s.fail
    | some b =>
      if a.ok then
        some ({ s.goto a.tid (.cleanLock k e) with
          store := update s.store ent.chunk (some (s.mem b)) }.record
            (.updated ent.chunk (s.mem b)))
      else
        some ({ s.goto a.tid (.cleanFailed k e) with
          store := update s.store ent.chunk a.left }.record
            (.updateFailed ent.chunk a.left))
  | .cleanFailed k e =>
    some { (s.setTab (s.tab.setError e)).goto a.tid (.cleanLock k e) with leaveDirty := true }
  | .cleanLock k e =>
    if s.lock = none then
      some (((s.takeLock a.tid).setTab (s.tab.cleanDone e)).goto a.tid (k.next e))
    else none
  | .eaSteal io e r =>
    match s.tab.stealData e r with
    | none => some s.fail
    | some tab => some ((s.setTab tab).goto a.tid (.release (.steal io e) r))
  | .release k e =>
    match s.tab.entryRelease e with
    | none => some s.fail
    | some (tab, c) =>
      match (s.setTab tab).signal a.wake c with
      | none => none
      | some s' => some (k.finish s' a.tid)
  | .eaFill io e =>
    if io.withData P then
      match (s.tab.ents e).data, s.store (s.tab.ents e).chunk with
      | none, _ => some s.fail
      | some b, some d =>
        if a.ok then
          some { s.goto a.tid (.ioBody io e) with mem := update s.mem b d }
        else
          some { s.goto a.tid (.fillFailed io e) with mem := update s.mem b a.junk }
      | some b, none =>
        some { s.goto a.tid (.fillFailed io e) with mem := update s.mem b a.junk }
    else some (s.goto a.tid (.ioBody io e))
  | .fillFailed io e =>
    some { (s.setTab (s.tab.setError e)).goto a.tid (.ioBody io e) with leaveDirty := true }
  | .ioBody io e =>
    if (s.tab.ents e).error then some (s.goto a.tid (.erLock io e true))
    else
      match (s.tab.ents e).data with
      | none => some s.fail
      | some b =>
        if io.req.isWrite then
          some ({ s.goto a.tid (.erLock io e false) with
            mem := update s.mem b (io.piece.apply (s.mem b)) }.record
              (.wrote a.tid io.cur.chunk io.piece))
        else
          let bytes := slice (s.mem b) io.cur.offset io.cur.length
          some ((s.goto a.tid (.erLock { io with out := io.out ++ bytes } e false)).record
            (.copied a.tid io.cur.chunk io.cur.offset bytes))
  | .erLock io e failed =>
    if s.lock = none then
      if io.req.isWrite ∧ failed = false then
        match s.tab.markDirty e a.now with
        | none => some s.fail
        | some (tab, c) =>
          -- only the cleaner waits on `cleaner.cond`
          (((s.takeLock a.tid).setTab tab).signal .cleaner c).map
            fun s' => s'.goto a.tid (.release (.request io failed) e)
      else some ((s.takeLock a.tid).goto a.tid (.release (.request io failed) e))
    else none
  | .syncLock =>
    if s.lock = none then some ((s.takeLock a.tid).goto a.tid (.caLoop .sync)) else none
  | .caLoop k =>
    match s.tab.dirty with
    | [] => some (k.finish s a.tid)
    | e :: _ => some (s.enter a.tid (.clean k) e)
  | .caDirty k e =>
    if (s.tab.ents e).dirty = 0 then some (s.goto a.tid (.release (.again k) e))
    else if k.force = false ∧ a.now < (s.tab.ents e).dirty + 5 then
      some (s.goto a.tid (.release (.stop k) e))
    else some (s.goto a.tid (.cleanStart (.all k) e))
  | .syncFlush =>
    -- `fsync(state->cache_fd)`; `errno` is EIO
    some ((s.goto a.tid .idle).record (.ret a.tid .fsync (if a.ok then 0 else -5) []))
  | .clLock =>
    if s.lock = none then some ((s.takeLock a.tid).goto a.tid .clTest) else none
  | .clTest =>
    if s.stopping then some (s.unlock.goto a.tid .clExit)
    else some (s.goto a.tid (.caLoop .cleaner))
  | .clWait timed =>
    if s.lock = none ∧ (s.signalled a.tid ∨ timed ∨ a.spurious) then
      some ((s.takeLock a.tid).goto a.tid .clTest)
    else none
  | .clExit => none
  | .running =>
    -- the FUSE loop returns when no request is left
    if ∀ w, s.pc (.fuse w) = .idle then some (s.goto a.tid .shStop) else none
  | .shStop =>
    if s.lock = none then
      (St.signal { s with stopping := true } .cleaner (some .cleaner)).map
        fun s' => s'.goto a.tid .shJoin
    else none
  | .shJoin => if s.pc .cleaner = .clExit then some (s.goto a.tid .shLock) else none
  | .shLock =>
    if s.lock = none then some ((s.takeLock a.tid).goto a.tid (.caLoop .shutdown)) else none
  | .shFree =>
    match s.tab.reclaimable with
    | e :: _ => some (s.enter a.tid .shutdown e)
    | [] => if s.tab.chunks = [] then some (s.unlock.goto a.tid .shDone) else some s.fail
  | .shDrop e =>
    match s.tab.dropData e with
    | none => some s.fail
    | some tab => some ((s.setTab tab).goto a.tid (.release .shutdown e))
  | .shDone => none

/-- One step of the system. -/
def step (s : St P W) (a : Act P W) : Option (St P W) :=
  if s.abort then none
  else if (s.pc a.tid).refs.all (fun e => decide (e ∈ s.tab.chunks)) then stepAt s a (s.pc a.tid)
  else some s.fail

end OpenIsr.Fuse
