import OpenIsr.Base.Run
import Mathlib.Logic.Function.Basic

/-!
# Lock files (parcelkeeper/util.c, client/isr.in)

`acquire_lockfile` opens the file (creating it if there is none), locks it with `fcntl` and
then asks with `fstat` whether the inode it has locked is still linked; if it is not, it closes
it and starts again. `release_lockfile` unlinks the path before it closes the file. The Perl
client's `acquire_lock` and `release_lock` do the same, except that they can wait for the lock.

A process takes one step per system call, in any order with the others, every call may fail,
and a process may die before any of them: the kernel then drops its locks and the file stays
where it is. Nobody else links or unlinks the file, so the number of links of an inode is one
or zero, as it is the one at the path or not.
-/

namespace OpenIsr.Lock.Lockfile

open Function
open Base (Reach exec reach_of_exec_any)

/-- Where a process is in the two functions, with the inode that it has open. -/
inductive Pc
  /-- In neither function and without a lock file. -/
  | idle
  /-- At the top of the loop, before `open`. -/
  | opening
  /-- Before `get_file_lock`. -/
  | opened (i : Nat)
  /-- Before `fstat`. -/
  | locked (i : Nat)
  /-- The inode was not linked: before the `close` that ends the iteration. -/
  | stale (i : Nat)
  /-- Before the `close` of an error path. -/
  | failed (i : Nat)
  /-- After `acquire_lockfile` succeeded and before the `unlink` of `release_lockfile`. -/
  | held (i : Nat)
  /-- After the `unlink` of `release_lockfile`. -/
  | released (i : Nat)
  | dead
  deriving DecidableEq, Repr

variable {P : Type}

/-- The path, the inodes and the processes. -/
structure State (P : Type) where
  /-- The inode linked at the path. -/
  path : Option Nat
  /-- The number of the next inode to be created. -/
  next : Nat
  /-- Which process has the write lock on an inode. -/
  lock : Nat → Option P
  pc : P → Pc

/-- No process has begun; the file may be there, left by one that died. -/
def start (path : Option Nat) : State P where
  path := path
  next := path.elim 0 Nat.succ
  lock := fun _ => none
  pc := fun _ => .idle

/-- A system call, or what else a process does. -/
inductive Op
  /-- `acquire_lockfile` is called. -/
  | call
  | openPath
  /-- `fcntl (F_SETLK)`, or `F_SETLKW` if the caller waits. -/
  | fcntl (wait : Bool)
  | fstat
  | unlink
  | close
  /-- The call that comes next returns an error (other than that the lock is taken). -/
  | error
  | die
  deriving DecidableEq, Repr

/-- `st_nlink` of an inode. -/
def State.nlink (s : State P) (i : Nat) : Nat :=
  if s.path = some i then 1 else 0

variable [DecidableEq P]

def State.goto (s : State P) (p : P) (pc : Pc) : State P :=
  { s with pc := update s.pc p pc }

/-- `close` of the only descriptor for an inode drops the process's lock on it. -/
def State.unlock (s : State P) (p : P) (i : Nat) : State P :=
  { s with lock := fun j => if j = i ∧ s.lock j = some p then none else s.lock j }

/-- One step of the process `p`. -/
def step (s : State P) : P × Op → Option (State P)
  | (p, op) =>
    match s.pc p, op with
    | .dead, _ => none
    | _, .die =>
      some ({ s with lock := fun j => if s.lock j = some p then none else s.lock j }.goto p .dead)
    | .idle, .call => some (s.goto p .opening)
    | .opening, .openPath =>
      match s.path with
      | some i => some (s.goto p (.opened i))
      | none => some ({ s with path := some s.next, next := s.next + 1 }.goto p (.opened s.next))
    | .opening, .error => some (s.goto p .idle)
    | .opened i, .fcntl wait =>
      if s.lock i = none ∨ s.lock i = some p then
        some ({ s with lock := update s.lock i (some p) }.goto p (.locked i))
      else if wait then none
      -- EACCES or EAGAIN: PK_BUSY
      else some (s.goto p (.failed i))
    | .opened i, .error => some (s.goto p (.failed i))
    | .locked i, .fstat => some (s.goto p (if s.nlink i = 1 then .held i else .stale i))
    | .locked i, .error => some (s.goto p (.failed i))
    | .stale i, .close => some ((s.unlock p i).goto p .opening)
    | .failed i, .close => some ((s.unlock p i).goto p .idle)
    -- the path is unlinked, whatever is there, and nobody looks at the result
    | .held i, .unlink => some ({ s with path := none }.goto p (.released i))
    | .held i, .error => some (s.goto p (.released i))
    | .released i, .close => some ((s.unlock p i).goto p .idle)
    | _, _ => none

/-! ## Exclusion -/

/-- What every state of every run satisfies. -/
structure Inv (s : State P) : Prop where
  /-- Who has passed `fcntl` has the lock. -/
  locked : ∀ p i, s.pc p = .locked i ∨ s.pc p = .held i → s.lock i = some p
  /-- Who has passed `fstat` has the inode that is at the path. -/
  linked : ∀ p i, s.pc p = .held i → s.path = some i

omit [DecidableEq P] in
theorem Inv.start (path : Option Nat) : Inv (start path : State P) :=
  ⟨fun _ _ h => h.elim nofun nofun, nofun⟩

omit [DecidableEq P] in
theorem Inv.unique {s : State P} (h : Inv s) {p q : P} {i j : Nat} (hp : s.pc p = .held i)
    (hq : s.pc q = .held j) : p = q := by
  have hij : i = j := Option.some.inj ((h.linked p i hp).symm.trans (h.linked q j hq))
  subst hij
  exact Option.some.inj ((h.locked p i (.inr hp)).symm.trans (h.locked q i (.inr hq)))

/-- A place where a process relies on neither the lock nor the path. -/
def Pc.Outside (pc : Pc) : Prop :=
  ∀ i, pc ≠ .locked i ∧ pc ≠ .held i

section keep

variable {s : State P} {p : P} {pc : Pc} {i : Nat}

/-- The one lemma about where processes are: to move `p`, the facts have to be kept for the
others, and shown for `p` at its new place. -/
theorem Inv.goto
    (hlocked : ∀ q i, q ≠ p → s.pc q = .locked i ∨ s.pc q = .held i → s.lock i = some q)
    (hlinked : ∀ q i, q ≠ p → s.pc q = .held i → s.path = some i)
    (hlock : ∀ i, pc = .locked i ∨ pc = .held i → s.lock i = some p)
    (hlink : ∀ i, pc = .held i → s.path = some i) : Inv (s.goto p pc) := by
  refine ⟨fun q i hq => ?_, fun q i hq => ?_⟩ <;> simp only [State.goto] at hq ⊢ <;>
    by_cases hqp : q = p
  · subst hqp
    rw [update_self] at hq
    exact hlock i hq
  · rw [update_of_ne hqp] at hq
    exact hlocked q i hqp hq
  · subst hqp
    rw [update_self] at hq
    exact hlink i hq
  · rw [update_of_ne hqp] at hq
    exact hlinked q i hqp hq

section

variable (h : Inv s)
include h

theorem Inv.outside (hpc : pc.Outside) : Inv (s.goto p pc) :=
  .goto (fun q i _ => h.locked q i) (fun q i _ => h.linked q i)
    (fun i hi => absurd hi (not_or.mpr (hpc i))) (fun i hi => absurd hi (hpc i).2)

theorem Inv.drop {lock : Nat → Option P}
    (hlock : ∀ i q, q ≠ p → s.lock i = some q → lock i = some q) (hpc : pc.Outside) :
    Inv ({ s with lock := lock }.goto p pc) :=
  .goto (fun q i hq hi => hlock i q hq (h.locked q i hi)) (fun q i _ => h.linked q i)
    (fun i hi => absurd hi (not_or.mpr (hpc i))) (fun i hi => absurd hi (hpc i).2)

theorem Inv.close (i : Nat) (hpc : pc.Outside) : Inv ((s.unlock p i).goto p pc) := by
  refine h.drop (fun j q hq hj => ?_) hpc
  rw [if_neg fun ⟨_, hp⟩ => hq (Option.some.inj (hj.symm.trans hp))]
  exact hj

theorem Inv.die :
    Inv ({ s with lock := fun j => if s.lock j = some p then none else s.lock j }.goto p
      .dead) := by
  refine h.drop (fun j q hq hj => ?_) fun _ => ⟨nofun, nofun⟩
  rw [if_neg fun hp => hq (Option.some.inj (hj.symm.trans hp))]
  exact hj

/-- A new inode is linked at the path: nobody has passed `fstat`, as there was none. -/
theorem Inv.create (hpath : s.path = none) :
    Inv ({ s with path := some s.next, next := s.next + 1 }.goto p (.opened s.next)) := by
  refine .goto (fun q i _ => h.locked q i) (fun q i _ hq => ?_) (fun i hi => hi.elim nofun nofun)
    nofun
  exact absurd (hpath.symm.trans (h.linked q i hq)) nofun

/-- The lock is taken: nobody else has it, so nobody else loses it. -/
theorem Inv.lock (hfree : s.lock i = none ∨ s.lock i = some p) :
    Inv ({ s with lock := update s.lock i (some p) }.goto p (.locked i)) := by
  refine .goto (fun q j hq hj => ?_) (fun q j _ => h.linked q j) (fun j hj => ?_) nofun
  · have hlock := h.locked q j hj
    have hji : j ≠ i := by
      rintro rfl
      rcases hfree with hfree | hfree <;> rw [hlock] at hfree
      · cases hfree
      · exact hq (Option.some.inj hfree)
    exact (update_of_ne hji ..).trans hlock
  · obtain rfl : i = j := Pc.locked.inj (hj.resolve_right nofun)
    exact update_self ..

/-- `fstat`: the link count is what says that the inode is at the path. -/
theorem Inv.fstat (hpc : s.pc p = .locked i) :
    Inv (s.goto p (if s.nlink i = 1 then .held i else .stale i)) := by
  by_cases hpath : s.path = some i
  · rw [State.nlink, if_pos hpath, if_pos rfl]
    refine .goto (fun q i _ => h.locked q i) (fun q i _ => h.linked q i) (fun j hj => ?_)
      (fun j hj => Pc.held.inj hj ▸ hpath)
    obtain rfl : i = j := Pc.held.inj (hj.resolve_left nofun)
    exact h.locked p i (.inl hpc)
  · rw [State.nlink, if_neg hpath, if_neg Nat.zero_ne_one]
    exact h.outside fun _ => ⟨nofun, nofun⟩

/-- `unlink`: the lock is still there, so nobody else has passed `fstat`. -/
theorem Inv.unlink (hpc : s.pc p = .held i) : Inv ({ s with path := none }.goto p (.released i)) :=
  .goto (fun q j _ => h.locked q j) (fun _ _ hq hj => absurd (h.unique hj hpc) hq)
    (fun _ hj => hj.elim nofun nofun) nofun

end

end keep

theorem Inv.step {s s' : State P} (h : Inv s) {a : P × Op} (hs : step s a = some s') : Inv s' := by
  obtain ⟨p, op⟩ := a
  simp only [Lockfile.step] at hs
  split at hs
  -- `open` and `fcntl`, where the result depends on the path and on the lock
  case h_4 =>
    split at hs <;> cases hs
    · exact h.outside fun _ => ⟨nofun, nofun⟩
    next hpath => exact h.create hpath
  case h_6 =>
    split at hs
    next hfree => cases hs; exact h.lock hfree
    split at hs <;> cases hs
    exact h.outside fun _ => ⟨nofun, nofun⟩
  all_goals cases hs
  case h_2 => exact h.die
  case h_8 hpc => exact h.fstat hpc
  -- the three places of `close`
  case h_10 | h_11 | h_14 => exact h.close _ fun _ => ⟨nofun, nofun⟩
  case h_12 hpc => exact h.unlink hpc
  all_goals exact h.outside fun _ => ⟨nofun, nofun⟩

/-- At most one process is between a successful `acquire_lockfile` and the `unlink` of
`release_lockfile`, and the inode that it has locked is the one at the path. -/
theorem lockfile_exclusive {path : Option Nat} {s : State P}
    (h : Reach step (fun _ _ => True) (start path) s) :
    (∀ p q i j, s.pc p = .held i → s.pc q = .held j → p = q) ∧
    ∀ p i, s.pc p = .held i → s.lock i = some p ∧ s.path = some i := by
  have hinv : Inv s := h.inv (.start path) fun _ _ _ hs _ hstep => hs.step hstep
  exact ⟨fun p q i j => hinv.unique, fun p i hp => ⟨hinv.locked p i (.inr hp), hinv.linked p i hp⟩⟩

/-- Process 1 opens the file that process 0 has locked, and locks it when process 0 has released
it: it finds that it is no longer linked and starts again. -/
def handover : List (Nat × Op) :=
  [(0, .call), (0, .openPath), (0, .fcntl false), (0, .fstat), (1, .call), (1, .openPath),
    (0, .unlink), (0, .close), (1, .fcntl false), (1, .fstat), (1, .close), (1, .openPath),
    (1, .fcntl true), (1, .fstat)]

theorem lockfile_handover :
    ∃ s : State Nat, Reach step (fun _ _ => True) (start none) s ∧ s.pc 1 = .held 1 ∧
      (∀ p i, s.pc p = .held i → p = 1) ∧ s.lock 1 = some 1 ∧ s.path = some 1 := by
  have hrun : (exec step (fun _ _ => true) (start none) handover).any
      (fun s => s.pc 1 == .held 1) = true := by decide
  obtain ⟨s, hreach, hpc⟩ := reach_of_exec_any (fun _ _ _ => trivial) _ hrun
  rw [beq_iff_eq] at hpc
  obtain ⟨hone, hlock⟩ := lockfile_exclusive hreach
  exact ⟨s, hreach, hpc, fun p i hp => hone p 1 i 1 hp hpc, hlock 1 1 hpc⟩

end OpenIsr.Lock.Lockfile
