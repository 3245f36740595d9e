import OpenIsr.Base.Run
import Mathlib.Logic.Function.Basic
import Mathlib.Data.Fintype.Basic

/-!
# The parcel lock on the server (locksrv/srv_lock.pm)

`srv_lock -a` creates the file `LOCK` exclusively, writes a nonce into it and prints the nonce
for the client; `srv_lock -r nonce` tests that the file exists, reads the nonce in it, compares
it with its argument and removes the file. Any number of these processes run at once, and the
steps here are the file operations of one of them. A lock file is named by the process that
created it, which creates no other. A hard release (`-R`), which removes the file without reading
it, is left out; `OpenIsr.Client.Session` has it, as a single step.

`Quiet` is the condition on a step under which a soft release removes no other client's lock:
that `LOCK` is not created while a release with another nonce is between its comparison and its
`unlink`. It can fail only where two releases with one nonce overlap (`quiet_of_single`).
-/

namespace OpenIsr.Lock.Nonce

open Function
open Base (Reach exec reach_of_exec_any)

/-- `Server::MAXNONCE`. -/
def maxNonce : Nat := 1000000000

/-- Where a process is; a release has the nonce of its command line. -/
inductive Pc
  | idle
  /-- `acquire`, before `sysopen`. -/
  | acquiring
  /-- `acquire`, before the nonce is written. -/
  | created
  /-- `acquire`, before the nonce is printed. -/
  | written
  /-- `acquire`, after `exit 0`: the client has the nonce. -/
  | acquired
  /-- `release`, before the test for existence. -/
  | releasing (n : Nat)
  /-- `release`, before `stored_nonce`. -/
  | found (n : Nat)
  /-- `release`, before `unlink`. -/
  | checked (n : Nat)
  /-- `release`, after a successful `unlink`. -/
  | released (n : Nat)
  /-- After `errexit`. -/
  | failed
  deriving DecidableEq, Repr

/-- The nonce of a soft release that has been called and has not failed. -/
def Pc.release? : Pc → Option Nat
  | .releasing n | .found n | .checked n | .released n => some n
  | _ => none

variable {P : Type} {p : P} {n : Nat}

structure State (P : Type) where
  /-- Whose file `LOCK` is, if there is one. -/
  lock : Option P
  /-- What a process has written into the file it created. -/
  content : P → Option Nat
  /-- `$server_nonce` of an acquire. -/
  serverNonce : P → Nat
  pc : P → Pc
  /-- For every file that was removed, the nonce of the release and that of the acquire that
  created the file. No step reads it. -/
  removed : List (Nat × Nat)
  /-- The clients that have been given a nonce, until a release with it has removed a file. No
  step reads it. -/
  holds : P → Bool

def start : State P where
  lock := none
  content := fun _ => none
  serverNonce := fun _ => 0
  pc := fun _ => .idle
  removed := []
  holds := fun _ => false

inductive Act (P : Type)
  /-- `srv_lock -a` is run, and draws a nonce. -/
  | acquire (p : P) (n : Nat)
  /-- `srv_lock -r n` is run. -/
  | release (p : P) (n : Nat)
  /-- The next operation of a process. -/
  | next (p : P)
  /-- The next operation fails, or the process is killed. -/
  | abort (p : P)
  deriving DecidableEq, Repr

variable [DecidableEq P] {a : Act P}

def State.goto (s : State P) (p : P) (pc : Pc) : State P :=
  { s with pc := update s.pc p pc }

section

variable (s : State P)
include s

@[grind =] theorem State.goto_pc (p q : P) (pc : Pc) :
    (s.goto p pc).pc q = if q = p then pc else s.pc q :=
  update_apply ..

@[simp, grind =] theorem State.goto_lock (p : P) (pc : Pc) : (s.goto p pc).lock = s.lock := rfl

@[simp, grind =] theorem State.goto_content (p q : P) (pc : Pc) :
    (s.goto p pc).content q = s.content q := rfl

@[simp, grind =] theorem State.goto_serverNonce (p q : P) (pc : Pc) :
    (s.goto p pc).serverNonce q = s.serverNonce q := rfl

@[simp, grind =] theorem State.goto_removed (p : P) (pc : Pc) :
    (s.goto p pc).removed = s.removed := rfl

@[simp, grind =] theorem State.goto_holds (p q : P) (pc : Pc) :
    (s.goto p pc).holds q = s.holds q := rfl

end

/-- The value of `stored_nonce` in the numeric comparison: an empty file gives `undef`, which
is zero. -/
def State.storedNonce (s : State P) (q : P) : Nat :=
  (s.content q).getD 0

/-- The next operation of a process. -/
def State.next (s : State P) (p : P) : Option (State P) :=
  match s.pc p with
  | .acquiring =>
    match s.lock with
    | none => some ({ s with lock := some p }.goto p .created)
    | some _ => some (s.goto p .failed)
  | .created =>
    some ({ s with content := update s.content p (some (s.serverNonce p)) }.goto p
      .written)
  | .written => some ({ s with holds := update s.holds p true }.goto p .acquired)
  | .releasing n =>
    match s.lock with
    | none => some (s.goto p .failed)
    | some _ => some (s.goto p (.found n))
  | .found n =>
    match s.lock with
    | none => some (s.goto p .failed)
    | some q => some (s.goto p (if s.storedNonce q = n then .checked n else .failed))
  | .checked n =>
    match s.lock with
    | none => some (s.goto p .failed)
    | some q =>
      some ({ s with
        lock := none
        removed := (n, s.serverNonce q) :: s.removed
        holds := fun r => s.holds r && s.serverNonce r != n }.goto p (.released n))
  | _ => none

def step (s : State P) : Act P → Option (State P)
  | .acquire p n =>
    if s.pc p = .idle ∧ 1 ≤ n ∧ n ≤ maxNonce then
      some ({ s with serverNonce := update s.serverNonce p n }.goto p .acquiring)
    else none
  | .release p n => if s.pc p = .idle ∧ n ≠ 0 then some (s.goto p (.releasing n)) else none
  | .next p => s.next p
  | .abort p =>
    match s.pc p with
    | .idle | .acquired | .released _ | .failed => none
    | _ => some (s.goto p .failed)

/-! ## The steps that matter -/

/-- The ways in which a step can go. -/
inductive Move (s : State P) : Act P → State P → Prop
  | acquire (p : P) (n : Nat) (hp : s.pc p = .idle) :
      Move s (.acquire p n)
        ({ s with serverNonce := update s.serverNonce p n }.goto p .acquiring)
  | release (p : P) (n : Nat) (hp : s.pc p = .idle) (hn : n ≠ 0) :
      Move s (.release p n) (s.goto p (.releasing n))
  | create (p : P) (hp : s.pc p = .acquiring) (hlock : s.lock = none) :
      Move s (.next p) ({ s with lock := some p }.goto p .created)
  | write (p : P) (hp : s.pc p = .created) :
      Move s (.next p)
        ({ s with content := update s.content p (some (s.serverNonce p)) }.goto p .written)
  | give (p : P) (hp : s.pc p = .written) :
      Move s (.next p) ({ s with holds := update s.holds p true }.goto p .acquired)
  | found (p : P) (n : Nat) (hp : s.pc p = .releasing n) : Move s (.next p) (s.goto p (.found n))
  | checked (p q : P) (n : Nat) (hp : s.pc p = .found n) (hlock : s.lock = some q)
      (hn : s.storedNonce q = n) : Move s (.next p) (s.goto p (.checked n))
  | unlink (p q : P) (n : Nat) (hp : s.pc p = .checked n) (hlock : s.lock = some q) :
      Move s (.next p)
        ({ s with
          lock := none
          removed := (n, s.serverNonce q) :: s.removed
          holds := fun r => s.holds r && s.serverNonce r != n }.goto p (.released n))
  | fail (p : P) (a : Act P) (hp : s.pc p ≠ .idle ∧ s.pc p ≠ .acquired)
      (ha : a = .abort p ∨ a = .next p ∧ (s.pc p = .acquiring → s.lock ≠ none)) :
      Move s a (s.goto p .failed)

variable {s s' : State P}

theorem move_of_next (h : s.next p = some s') : Move s (.next p) s' := by
  unfold State.next at h
  split at h
  next hp =>
    split at h <;> cases h
    next hlock => exact .create p hp hlock
    next hlock => exact .fail p _ (by simp [hp]) (.inr ⟨rfl, fun _ => by simp [hlock]⟩)
  next hp => cases h; exact .write p hp
  next hp => cases h; exact .give p hp
  next n hp =>
    split at h <;> cases h
    next => exact .fail p _ (by simp [hp]) (.inr ⟨rfl, by simp [hp]⟩)
    next => exact .found p n hp
  next n hp =>
    split at h <;> cases h
    next => exact .fail p _ (by simp [hp]) (.inr ⟨rfl, by simp [hp]⟩)
    next q hlock =>
      split
      next hn => exact .checked p q n hp hlock hn
      next => exact .fail p _ (by simp [hp]) (.inr ⟨rfl, by simp [hp]⟩)
  next n hp =>
    split at h <;> cases h
    next => exact .fail p _ (by simp [hp]) (.inr ⟨rfl, by simp [hp]⟩)
    next q hlock => exact .unlink p q n hp hlock
  next => cases h

theorem move_of_step (h : step s a = some s') : Move s a s' := by
  cases a with
  | acquire p n =>
    simp only [step] at h
    split at h <;> cases h
    next hp => exact .acquire p n hp.1
  | release p n =>
    simp only [step] at h
    split at h <;> cases h
    next hp => exact .release p n hp.1 hp.2
  | next p => exact move_of_next h
  | abort p =>
    simp only [step] at h
    split at h <;> cases h
    next h₁ h₂ _ _ => exact .fail p _ ⟨h₁, h₂⟩ (.inl rfl)

/-! ## Files -/

/-- What is in a file is the nonce of the acquire that created it. -/
structure Files (s : State P) : Prop where
  idle : ∀ p, s.pc p = .idle → s.lock ≠ some p ∧ s.content p = none
  content : ∀ p n, s.content p = some n → s.serverNonce p = n
  nonzero : ∀ p n, (s.pc p).release? = some n → n ≠ 0

omit [DecidableEq P] in
theorem Files.start : Files (start : State P) :=
  ⟨fun _ _ => ⟨nofun, rfl⟩, nofun, nofun⟩

theorem Files.step (h : Files s) (hm : Move s a s') : Files s' := by
  obtain ⟨hidle, hcontent, hnonzero⟩ := h
  cases hm <;> constructor <;> grind [Pc.release?, update_apply]

omit [DecidableEq P] in
theorem Files.stored (h : Files s) {q : P} (hp : s.pc p = .found n) (hn : s.storedNonce q = n) :
    s.serverNonce q = n := by
  have hne : n ≠ 0 := h.nonzero p n (by rw [hp]; rfl)
  cases hc : s.content q with
  | none =>
    rw [State.storedNonce, hc, Option.getD_none] at hn
    exact absurd hn.symm hne
  | some m =>
    rw [State.storedNonce, hc, Option.getD_some] at hn
    exact (h.content q m hc).trans hn

/-! ## Releases -/

/-- No release that has made its comparison would now remove the file of another nonce. -/
def Safe (s : State P) : Prop :=
  ∀ p n q, s.pc p = .checked n → s.lock = some q → s.serverNonce q = n

/-- The lock file is not created while a release with another nonce has made its comparison. -/
def Quiet (s : State P) (a : Act P) : Prop :=
  ∀ p, a = .next p → s.pc p = .acquiring → s.lock = none →
    ∀ q n, s.pc q = .checked n → s.serverNonce p = n

/-- A step keeps `Safe` exactly when it is quiet: only the creation of the file can break it. -/
theorem safe_iff_quiet (hf : Files s) (h : Safe s) (hm : Move s a s') : Safe s' ↔ Quiet s a := by
  cases hm with
  | create p hp hlock =>
    constructor
    · intro hsafe p' hp' _ _ q n hq
      obtain rfl : p = p' := Act.next.inj hp'
      refine hsafe q n p ?_ rfl
      rw [State.goto_pc, if_neg]
      · exact hq
      · rintro rfl
        exact absurd (hp.symm.trans hq) nofun
    · intro hquiet q n r hq hr
      obtain rfl : p = r := Option.some.inj hr
      rw [State.goto_pc] at hq
      split at hq
      next => cases hq
      next => exact hquiet p rfl hp hlock q n hq
  | acquire p n hp =>
    refine ⟨fun _ => nofun, fun _ q m r hq hr => ?_⟩
    have hne : r ≠ p := by
      rintro rfl
      exact (hf.idle r hp).1 hr
    have := h q m r
    grind [update_apply]
  | checked p q n hp hlock hn =>
    have := hf.stored hp hn
    refine ⟨fun _ => by grind [Quiet], fun _ => ?_⟩
    intro p' n' q' hp' hq'
    grind [Safe]
  | unlink p q n hp hlock =>
    refine ⟨fun _ => by grind [Quiet], fun _ p' n' q' _ hq' => ?_⟩
    cases hq'
  | _ => grind [Safe, Quiet]

/-- What a soft release removes is the file of an acquire with its nonce. -/
def OwnOnly (s : State P) : Prop :=
  ∀ e ∈ s.removed, e.1 = e.2

theorem OwnOnly.step (h : OwnOnly s) (hs : Safe s) (hm : Move s a s') : OwnOnly s' := by
  cases hm with
  | unlink p q n hp hlock =>
    intro e he
    rcases List.mem_cons.mp he with rfl | he
    · exact (hs p n q hp hlock).symm
    · exact h e he
  | _ => exact h

/-- A state is safe when whatever step comes next removes no other's file. -/
theorem safe_iff (h : OwnOnly s) : Safe s ↔ ∀ a s', step s a = some s' → OwnOnly s' := by
  refine ⟨fun hs a s' hstep => h.step hs (move_of_step hstep), fun hall p n q hp hlock => ?_⟩
  have hstep : step s (.next p) = some ({ s with
      lock := none
      removed := (n, s.serverNonce q) :: s.removed
      holds := fun r => s.holds r && s.serverNonce r != n }.goto p (.released n)) := by
    simp only [step, State.next, hp, hlock]
  exact (hall _ _ hstep _ List.mem_cons_self).symm

theorem quiet_run (h : Reach step Quiet start s) : Files s ∧ Safe s ∧ OwnOnly s := by
  refine h.inv (I := fun s => Files s ∧ Safe s ∧ OwnOnly s) ⟨.start, nofun, nofun⟩ ?_
  intro s a s' ⟨hf, hs, ho⟩ hq hstep
  have hm := move_of_step hstep
  exact ⟨hf.step hm, (safe_iff_quiet hf hs hm).mpr hq, ho.step hs hm⟩

/-! ## Clients -/

/-- Some client has got the nonce `n`. -/
def Given (s : State P) (n : Nat) : Prop :=
  ∃ q, s.pc q = .acquired ∧ s.serverNonce q = n

/-- The nonces that clients get are pairwise different, and clients call `srv_lock -r` with a
nonce that one of them got. -/
def Honest (s : State P) : Act P → Prop
  | .acquire _ _ | .abort _ => True
  | .release _ n => Given s n
  | .next p => s.pc p = .written → ¬ Given s (s.serverNonce p)

/-- Who holds the lock has its file at `LOCK`. -/
structure Held (s : State P) : Prop where
  release : ∀ p n, (s.pc p).release? = some n → Given s n
  pending : ∀ p, s.pc p = .created ∨ s.pc p = .written →
    s.lock = some p ∨ Given s (s.serverNonce p)
  holds : ∀ p, s.holds p = true → s.pc p = .acquired ∧ s.lock = some p

omit [DecidableEq P] in
theorem Held.start : Held (start : State P) :=
  ⟨nofun, fun _ h => h.elim nofun nofun, nofun⟩

theorem Move.given (hm : Move s a s') (n : Nat) (h : Given s n) : Given s' n := by
  obtain ⟨q, hq, hn⟩ := h
  refine ⟨q, ?_⟩
  cases hm <;> grind [update_apply]

theorem Move.release? (hm : Move s a s') (h : (s'.pc p).release? = some n) :
    (s.pc p).release? = some n ∨ a = .release p n := by
  cases hm <;> grind [Pc.release?]

theorem Held.step (h : Held s) (hs : Safe s) (ha : Honest s a) (hm : Move s a s') : Held s' := by
  have hgiven := hm.given
  have hrelease : ∀ p n, (s'.pc p).release? = some n → Given s' n := by
    intro p n hp
    rcases hm.release? hp with hp | rfl
    · exact hgiven n (h.release p n hp)
    · exact hgiven n ha
  obtain ⟨hold, hpending, hholds⟩ := h
  cases hm with
  | give p hp =>
    -- the nonce is new, so no release has removed the file
    have hlock : s.lock = some p := (hpending p (.inr hp)).resolve_right (ha hp)
    refine ⟨hrelease, ?_, ?_⟩ <;> grind [update_apply]
  | unlink p q n hp hlock =>
    have hn := hs p n q hp hlock
    have hold' : Given s n := hold p n (by rw [hp]; rfl)
    refine ⟨hrelease, ?_, ?_⟩ <;> grind
  | acquire p n hp => refine ⟨hrelease, ?_, ?_⟩ <;> grind [update_apply]
  | _ => refine ⟨hrelease, ?_, ?_⟩ <;> grind

/-- In a run whose steps are all quiet a soft release removes only the file of an acquire with
its nonce, and if the clients are honest at most one holds the lock. The first step that is not
quiet leads to a state in which the next step can remove another's file. -/
theorem soft_release_iff :
    (∀ s : State P, Reach step Quiet start s → OwnOnly s) ∧
    (∀ s : State P, Reach step (fun s a => Quiet s a ∧ Honest s a) start s →
      ∀ p q, s.holds p = true → s.holds q = true → p = q) ∧
    ∀ (s s' : State P) (a : Act P), Reach step Quiet start s → step s a = some s' →
      ((∀ a' s'', step s' a' = some s'' → OwnOnly s'') ↔ Quiet s a) := by
  refine ⟨fun s h => (quiet_run h).2.2, fun s h p q hp hq => ?_, fun s s' a h hstep => ?_⟩
  · have hheld : Reach step Quiet start s ∧ Held s := by
      refine h.inv (I := fun s => Reach step Quiet start s ∧ Held s) ⟨.init, .start⟩ ?_
      rintro s a s' ⟨hr, hh⟩ ⟨hquiet, hhonest⟩ hstep
      exact ⟨.step hr hquiet hstep, hh.step (quiet_run hr).2.1 hhonest (move_of_step hstep)⟩
    obtain ⟨-, hlp⟩ := hheld.2.holds p hp
    obtain ⟨-, hlq⟩ := hheld.2.holds q hq
    exact Option.some.inj (hlp.symm.trans hlq)
  · obtain ⟨hf, hs, ho⟩ := quiet_run h
    have hm := move_of_step hstep
    rw [← safe_iff (ho.step hs hm), safe_iff_quiet hf hs hm]

instance [Fintype P] (s : State P) (n : Nat) : Decidable (Given s n) :=
  inferInstanceAs (Decidable (∃ q, s.pc q = .acquired ∧ s.serverNonce q = n))

instance [Fintype P] (s : State P) : (a : Act P) → Decidable (Honest s a)
  | .acquire _ _ | .abort _ => inferInstanceAs (Decidable True)
  | .release _ n => inferInstanceAs (Decidable (Given s n))
  | .next p => inferInstanceAs (Decidable (s.pc p = .written → ¬ Given s (s.serverNonce p)))

/-- One client takes the lock and gives it back, and then another takes it. -/
def handover : List (Act (Fin 3)) :=
  [.acquire 0 1, .next 0, .next 0, .next 0, .release 1 1, .next 1, .next 1, .next 1,
    .acquire 2 2, .next 2, .next 2, .next 2]

theorem soft_release_handover :
    ∃ s : State (Fin 3), Reach step (fun s a => Quiet s a ∧ Honest s a) start s ∧
      s.removed = [(1, 1)] ∧ s.holds 2 = true ∧ ∀ p, s.holds p = true → p = 2 := by
  have hrun : (exec step (fun s a => Honest s a ∧ ∀ p q, s.pc p = .acquiring →
      (s.pc q).release?.all (fun n => s.pc q = .released n)) start handover).any
      (fun s => s.removed == [(1, 1)] && s.holds 2) = true := by decide
  have hquiet : ∀ (s : State (Fin 3)) (a : Act (Fin 3)), decide (Honest s a ∧ ∀ p q,
      s.pc p = .acquiring → (s.pc q).release?.all (fun n => s.pc q = .released n)) = true →
      Quiet s a ∧ Honest s a := by
    intro s a h
    obtain ⟨hhonest, hnone⟩ := of_decide_eq_true h
    refine ⟨fun p _ hp _ q n hq => ?_, hhonest⟩
    have hall := hnone p q hp
    rw [hq] at hall
    simp [Pc.release?] at hall
  obtain ⟨s, hreach, hs⟩ := reach_of_exec_any hquiet _ hrun
  rw [Bool.and_eq_true, beq_iff_eq] at hs
  exact ⟨s, hreach, hs.1, hs.2, fun p hp => soft_release_iff.2.1 s hreach p 2 hp hs.2⟩

/-- A release is called twice with nonce 1, and both are past the comparison when the first of
them removes the file. A second client takes the lock; the other release removes its file, and a
third client takes the lock too. -/
def overtaken : List (Act (Fin 5)) :=
  [.acquire 0 1, .next 0, .next 0, .next 0, .release 1 1, .release 2 1, .next 1, .next 2,
    .next 1, .next 2, .next 1, .acquire 3 2, .next 3, .next 3, .next 3, .next 2,
    .acquire 4 3, .next 4, .next 4, .next 4]

theorem soft_release_overtaken :
    ∃ s : State (Fin 5), Reach step Honest start s ∧ (1, 2) ∈ s.removed ∧ s.holds 3 = true ∧
      s.holds 4 = true := by
  have hrun : (exec step (fun s a => Honest s a) start overtaken).any
      (fun s => s.removed.contains (1, 2) && s.holds 3 && s.holds 4) = true := by decide
  obtain ⟨s, hreach, hs⟩ := reach_of_exec_any (fun _ _ h => of_decide_eq_true h) _ hrun
  simp only [Bool.and_eq_true, List.contains_iff_mem] at hs
  exact ⟨s, hreach, hs.1.1, hs.1.2, hs.2⟩

/-! ## Releases that do not overlap -/

/-- No two releases with one nonce are past their comparison at once. -/
def Single (s : State P) (a : Act P) : Prop :=
  ∀ p n, a = .next p → s.pc p = .found n → ∀ q, s.pc q ≠ .checked n

/-- What a release has compared stays at `LOCK` until it removes it. -/
structure Guarded (s : State P) : Prop where
  lock : ∀ p n, s.pc p = .checked n → ∃ q, s.lock = some q ∧ s.serverNonce q = n
  unique : ∀ p q n, s.pc p = .checked n → s.pc q = .checked n → p = q

omit [DecidableEq P] in
theorem Guarded.quiet (h : Guarded s) (a : Act P) : Quiet s a := by
  intro p _ _ hlock q n hq
  obtain ⟨r, hr, -⟩ := h.lock q n hq
  exact absurd (hlock.symm.trans hr) nofun

theorem Guarded.step (h : Guarded s) (hf : Files s) (ha : Single s a) (hm : Move s a s') :
    Guarded s' := by
  obtain ⟨hlock, hunique⟩ := h
  cases hm with
  | acquire p n hp =>
    have hidle := (hf.idle p hp).1
    constructor <;> grind [update_apply]
  | checked p q n hp hq hn =>
    have hnonce := hf.stored hp hn
    have hsingle := ha p n rfl hp
    constructor <;> grind
  | unlink p q n hp hq =>
    -- a release that is still past its comparison has compared the same file
    have hother : ∀ r m, s.pc r = .checked m → r = p := by
      intro r m hr
      obtain ⟨f, hf', hm⟩ := hlock r m hr
      obtain ⟨g, hg, hn⟩ := hlock p n hp
      obtain rfl : f = g := Option.some.inj (hf'.symm.trans hg)
      rw [← hm, hn] at hr
      exact hunique r p n hr hp
    constructor <;> grind
  | _ => constructor <;> grind

/-- If they never overlap, every step is quiet. -/
theorem quiet_of_single (h : Reach step Single start s) : Reach step Quiet start s := by
  suffices hall : Reach step Quiet start s ∧ Guarded s from hall.1
  refine h.inv (I := fun s => Reach step Quiet start s ∧ Guarded s)
    ⟨.init, ⟨nofun, nofun⟩⟩ ?_
  rintro s a s' ⟨hr, hg⟩ ha hstep
  exact ⟨.step hr (hg.quiet a) hstep, hg.step (quiet_run hr).1 ha (move_of_step hstep)⟩

end OpenIsr.Lock.Nonce
