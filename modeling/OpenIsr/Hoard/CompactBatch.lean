import OpenIsr.Hoard.Compact

/-!
# What a batch of moves reports

`_compact_hoard_iteration` has one variable, `ret`, for the result of each move and for that of the
batch. It is `PK_IOERR` until the first move and `PK_SUCCESS` after it. So once a chunk has been
moved, a query or a `COMMIT` that fails for good is reported as a success, though the transaction is
rolled back (`batch_lies`). And if `begin_immediate` fails, `bad` rolls back and gives up the lock a
second time. `batch_honest_iff` says that nothing else goes wrong.

A run of the batch is determined by what becomes of its steps, one after the other.
-/

namespace OpenIsr.Hoard

open Cache (PkErr)

def Compact.hasReturned (s : Compact) : Bool :=
  match s.pc with
  | .returned _ => true
  | _ => false

/-- `_compact_hoard_iteration` from `s` on; none if it has not returned after these steps. -/
def runBatch : List CompactAct → Compact → Option Compact
  | [], s => if s.hasReturned then some s else none
  | a :: acts, s =>
    if s.hasReturned then some s else (compactStep [] s a).bind (runBatch acts)

/-- It has returned PK_SUCCESS iff its transaction was committed, and the index is as before
otherwise; the lock has been released as often as it was taken. -/
structure Honest (s s' : Compact) : Prop where
  success : s'.pc = .returned .success ↔ s'.commits = s.commits + 1
  index : s'.pc ≠ .returned .success → s'.chunks = s.chunks
  lock : s'.taken + s.released = s'.released + s.taken

/-- A failure for good at a place where `ret` or the lock is not as `bad` expects it. -/
def misreported (s : Compact) (a : CompactAct) : Bool :=
  match a, s.pc with
  | .fail, .start => true
  | .fail, .chunk | .fail, .slot _ | .fail, .commit => 0 < s.moved
  | _, _ => false

/-- No step fails at such a place. -/
def reportable : List CompactAct → Compact → Bool
  | [], _ => true
  | a :: acts, s =>
    s.hasReturned || (!misreported s a && ((compactStep [] s a).map (reportable acts)).getD true)

/-! ## Steps -/

variable {s₀ s s' : Compact} {a : CompactAct} {e : PkErr}

/-- The transaction is still open, or none has been opened, and the lock is held `n` times. -/
structure Pending (s₀ : Compact) (n : Nat) (s : Compact) : Prop where
  chunks : s.chunks = s₀.chunks
  commits : s.commits = s₀.commits
  lock : s.taken + s₀.released = s.released + s₀.taken + n

/-- What holds before each statement of a run in which no failure has been misreported. -/
def BatchInv (s₀ s : Compact) : Prop :=
  match s.pc with
  | .start => Pending s₀ 0 s ∧ s.ret ≠ .success ∧ s.moved = 0
  | .chunk | .slot _ | .commit => Pending s₀ 1 s ∧ (s.ret = .success ↔ 0 < s.moved)
  | .read .. | .write .. | .clear .. | .fill .. => Pending s₀ 1 s
  | .rollback retry => Pending s₀ 1 s ∧ (retry = false → s.ret ≠ .success)
  | .returned _ => Honest s₀ s
  | .crash => True
  | _ => False

theorem hoardReadChunk_ne_success {f : HoardFile} {chunksize : Option Nat}
    {offset length crypto : Int} {tag : Tag}
    (h : hoardReadChunk f chunksize offset length crypto tag = .error e) : e ≠ .success := by
  rintro rfl
  unfold hoardReadChunk at h
  split at h
  · cases h
  split at h
  · cases h
  simp only at h
  split at h
  · cases h
  split at h
  · cases h
  split at h
  · cases h
  · cases h

section

variable (h : Pending s₀ 1 s)
include h

theorem Pending.moveFails (he : e ≠ .success) (retry : Bool) :
    BatchInv s₀ (s.moveFails e retry) := ⟨⟨h.chunks, h.commits, h.lock⟩, fun _ => he⟩

theorem Pending.readChunk (fails : Bool) (src : Fetched) (dest : Int) :
    BatchInv s₀ (s.readChunk fails src dest) := by
  unfold Compact.readChunk
  split
  next => exact h.moveFails (by decide) false
  next got hgot =>
    split
    next => trivial
    split
    next e he => exact h.moveFails (hoardReadChunk_ne_success he) false
    next => exact ⟨h.chunks, h.commits, h.lock⟩

theorem Pending.writeChunk (src : Fetched) (dest : Int) (buf : List UInt8) (written : Nat) :
    BatchInv s₀ (s.writeChunk src dest buf written) := by
  unfold Compact.writeChunk
  split
  next => exact ⟨h.chunks, h.commits, h.lock⟩
  next e file hne heq =>
    have hfile : Pending s₀ 1 { s with file } := ⟨h.chunks, h.commits, h.lock⟩
    exact hfile.moveFails (fun he => hne (he ▸ rfl)) false

theorem Pending.fetchChunk (hret : s.ret = .success ↔ 0 < s.moved) : BatchInv s₀ s.fetchChunk := by
  unfold Compact.fetchChunk
  split
  · exact ⟨⟨h.chunks, h.commits, h.lock⟩, hret⟩
  · exact ⟨⟨h.chunks, h.commits, h.lock⟩, hret⟩

theorem Pending.fetchSlot (hret : s.ret = .success ↔ 0 < s.moved) (src : Fetched) :
    BatchInv s₀ (s.fetchSlot src) := by
  unfold Compact.fetchSlot
  split
  next => exact ⟨⟨h.chunks, h.commits, h.lock⟩, hret⟩
  split
  · exact ⟨⟨h.chunks, h.commits, h.lock⟩, hret⟩
  · exact ⟨h.chunks, h.commits, h.lock⟩

theorem Pending.fillSlot (src : Fetched) (dest : Int) : BatchInv s₀ (s.fillSlot src dest) := by
  unfold Compact.fillSlot
  split
  next => exact h.moveFails (by decide) false
  next => exact ⟨⟨h.chunks, h.commits, h.lock⟩, iff_of_true rfl (Nat.succ_pos _)⟩

theorem Pending.committed : BatchInv s₀ s.committed := by
  refine ⟨iff_of_true rfl (congrArg (· + 1) h.commits), fun hne => absurd rfl hne, ?_⟩
  have hlock := h.lock
  simp only [Compact.committed]
  omega

theorem Pending.rolledBack {retry : Bool} (hret : retry = false → s.ret ≠ .success) :
    BatchInv s₀ (s.rolledBack retry) := by
  have hlock : s.taken + s₀.released = s.released + 1 + s₀.taken := by
    rw [h.lock]
    omega
  cases retry with
  | true => exact ⟨⟨h.chunks, h.commits, hlock⟩, PkErr.noConfusion, rfl⟩
  | false =>
    refine ⟨iff_of_false (fun heq => ?_) (fun heq => ?_), fun _ => h.chunks, hlock⟩
    · exact hret rfl (CompactPc.returned.inj heq)
    · exact absurd (h.commits.symm.trans heq) (Nat.succ_ne_self _).symm

end

theorem BatchInv.step (h : BatchInv s₀ s) (hret : s.hasReturned = false)
    (hok : misreported s a = false) (hs : compactStep [] s a = some s') : BatchInv s₀ s' := by
  have hinv := h
  unfold BatchInv at h
  unfold misreported at hok
  cases hpc : s.pc with
  | start =>
    simp only [compactStep, hpc] at h hs hok
    obtain ⟨hp, hne, hm⟩ := h
    have hlock := hp.lock
    cases a with
    | ok =>
      cases hs
      refine ⟨⟨hp.chunks, hp.commits, ?_⟩, iff_of_false hne ?_⟩
      · simp only [Compact.begun]
        omega
      · exact (lt_irrefl 0 <| hm ▸ ·)
    | busy =>
      cases hs
      exact hinv
    | fail => cases hok
    | short n => cases hs
  | chunk =>
    simp only [compactStep, hpc] at h hs hok
    cases a with
    | ok =>
      cases hs
      exact h.1.fetchChunk h.2
    | busy =>
      cases hs
      exact ⟨⟨h.1.chunks, h.1.commits, h.1.lock⟩, fun hx => by cases hx⟩
    | fail =>
      cases hs
      exact ⟨⟨h.1.chunks, h.1.commits, h.1.lock⟩, fun _ => mt h.2.mp (of_decide_eq_false hok)⟩
    | short n => cases hs
  | slot src =>
    simp only [compactStep, hpc] at h hs hok
    cases a with
    | ok =>
      cases hs
      exact h.1.fetchSlot h.2 src
    | busy =>
      cases hs
      exact ⟨⟨h.1.chunks, h.1.commits, h.1.lock⟩, fun hx => by cases hx⟩
    | fail =>
      cases hs
      exact ⟨⟨h.1.chunks, h.1.commits, h.1.lock⟩, fun _ => mt h.2.mp (of_decide_eq_false hok)⟩
    | short n => cases hs
  | read src dest =>
    simp only [hpc] at h
    obtain ⟨fails, rfl⟩ := step_read hpc hs
    exact h.readChunk fails src dest
  | write src dest buf =>
    simp only [hpc] at h
    obtain ⟨written, rfl⟩ := step_write hpc hs
    exact h.writeChunk src dest buf written
  | clear src dest =>
    simp only [compactStep, hpc] at h hs
    refine statement_ind hs ?_ fun retry => h.moveFails (by decide) retry
    exact ⟨h.chunks, h.commits, h.lock⟩
  | fill src dest =>
    simp only [compactStep, hpc] at h hs
    exact statement_ind hs (h.fillSlot src dest) fun retry => h.moveFails (by decide) retry
  | commit =>
    simp only [compactStep, hpc] at h hs hok
    cases a with
    | ok =>
      cases hs
      exact h.1.committed
    | busy =>
      cases hs
      exact hinv
    | fail =>
      cases hs
      exact ⟨⟨h.1.chunks, h.1.commits, h.1.lock⟩, fun _ => mt h.2.mp (of_decide_eq_false hok)⟩
    | short n => cases hs
  | rollback retry =>
    simp only [hpc] at h
    rcases step_rollback hpc hs with rfl | rfl
    · exact h.1.rolledBack h.2
    · exact hinv
  | returned ret => simp only [Compact.hasReturned, hpc, Bool.true_eq_false] at hret
  | crash =>
    simp only [compactStep, hpc] at hs
    cases hs
  | gc | count | truncStart | truncLast | truncAllocated | truncDelete | truncFile | truncCommit
  | truncRollback | vacuum | finished =>
    simp only [hpc] at h

/-! ## After a failure that is misreported -/

/-- The batch is about to return, with a success it has not had or with a lock it does not hold. -/
structure Doomed (s₀ s : Compact) : Prop where
  pc : s.pc = .rollback false
  commits : s.commits = s₀.commits
  wrong : s.ret = .success ∨ Pending s₀ 0 s

theorem BatchInv.doomed (h : BatchInv s₀ s) (hbad : misreported s a = true)
    (hs : compactStep [] s a = some s') : Doomed s₀ s' := by
  unfold misreported at hbad
  unfold compactStep at hs
  unfold BatchInv at h
  split at hbad
  next hpc =>
    simp only [hpc] at h hs
    cases hs
    obtain ⟨hp, -, -⟩ := h
    have hlock := hp.lock
    refine ⟨rfl, hp.commits, .inr ⟨hp.chunks, hp.commits, ?_⟩⟩
    show s.taken + 1 + s₀.released = s.released + 1 + s₀.taken + 0
    omega
  next hpc =>
    simp only [hpc] at h hs
    cases hs
    exact ⟨rfl, h.1.commits, .inl (h.2.mpr (of_decide_eq_true hbad))⟩
  next hpc =>
    simp only [hpc] at h hs
    cases hs
    exact ⟨rfl, h.1.commits, .inl (h.2.mpr (of_decide_eq_true hbad))⟩
  next hpc =>
    simp only [hpc] at h hs
    cases hs
    exact ⟨rfl, h.1.commits, .inl (h.2.mpr (of_decide_eq_true hbad))⟩
  next => cases hbad

theorem Doomed.not_honest (h : Doomed s₀ s) :
    ∀ {acts : List CompactAct}, runBatch acts s = some s' → ¬ Honest s₀ s' := by
  have hret : s.hasReturned = false := by simp only [Compact.hasReturned, h.pc]
  intro acts
  induction acts with
  | nil =>
    intro hrun
    simp only [runBatch, hret, Bool.false_eq_true, if_false] at hrun
    cases hrun
  | cons a acts ih =>
    intro hrun
    simp only [runBatch, hret, Bool.false_eq_true, if_false] at hrun
    obtain ⟨s₁, hs, hrun⟩ := Option.bind_eq_some_iff.mp hrun
    unfold compactStep at hs
    simp only [h.pc] at hs
    cases a with
    | ok =>
      cases hs
      -- it has returned
      have hs' : s' = s.rolledBack false := by
        cases acts <;> exact (Option.some.inj hrun).symm
      rw [hs']
      intro hhonest
      rcases h.wrong with hsuccess | hlock
      · have heq := hhonest.success.mp (congrArg CompactPc.returned hsuccess)
        exact Nat.succ_ne_self _ (heq.symm.trans h.commits)
      · have heq := hhonest.lock
        have hheld := hlock.lock
        simp only [Compact.rolledBack, Bool.false_eq_true, if_false] at heq
        omega
    | busy =>
      cases hs
      exact ih hrun
    | fail | short n => cases hs

theorem BatchInv.honest_iff {acts : List CompactAct} :
    ∀ {s : Compact}, BatchInv s₀ s → runBatch acts s = some s' →
      (Honest s₀ s' ↔ reportable acts s = true) := by
  have hhonest : ∀ {s : Compact}, BatchInv s₀ s → s.hasReturned = true → Honest s₀ s := by
    intro s h hret
    unfold Compact.hasReturned at hret
    split at hret
    next hpc => simpa only [BatchInv, hpc] using h
    next => cases hret
  induction acts with
  | nil =>
    intro s h hrun
    simp only [runBatch, Option.ite_none_right_eq_some, Option.some.injEq] at hrun
    obtain ⟨hret, rfl⟩ := hrun
    exact iff_of_true (hhonest h hret) rfl
  | cons a acts ih =>
    intro s h hrun
    unfold runBatch at hrun
    unfold reportable
    split at hrun
    next hret =>
      cases hrun
      rw [hret, Bool.true_or]
      exact iff_of_true (hhonest h hret) rfl
    next hret =>
      rw [Bool.not_eq_true] at hret
      obtain ⟨s₁, hs, hrun⟩ := Option.bind_eq_some_iff.mp hrun
      rw [hret, hs, Bool.false_or, Option.map_some, Option.getD_some]
      cases hbad : misreported s a with
      | true => exact iff_of_false ((h.doomed hbad hs).not_honest hrun) Bool.false_ne_true
      | false =>
        rw [Bool.not_false, Bool.true_and]
        exact ih (h.step hret hbad hs) hrun

/-- Whatever fails in `_compact_hoard_iteration`: when it returns, it tells what has happened,
leaves the index alone if it has not changed it, and has released the lock as often as taken it, iff
`begin_immediate` has not failed, and neither a query nor `COMMIT` has after a move. -/
theorem batch_honest_iff (chunks : List (Chunk Tag)) (file : List UInt8) (acts : List CompactAct)
    {s : Compact} (hrun : runBatch acts (compactHoardBatch chunks file) = some s) :
    Honest (compactHoardBatch chunks file) s ↔
      reportable acts (compactHoardBatch chunks file) = true := by
  have hinv : BatchInv (compactHoardBatch chunks file) (compactHoardBatch chunks file) :=
    ⟨⟨rfl, rfl, rfl⟩, PkErr.noConfusion, rfl⟩
  exact hinv.honest_iff hrun

theorem runBatch_readMovable (tag : Tag) (file : List UInt8) (acts : List CompactAct) :
    runBatch (.ok :: .ok :: .ok :: .ok :: acts) (compactHoardBatch (movable tag) file) =
      runBatch acts ((readMovable tag file).readChunk false ⟨tag, 256, 1, aesSha1⟩ 0) := rfl

theorem reportable_readMovable (tag : Tag) (file : List UInt8) (acts : List CompactAct) :
    reportable (.ok :: .ok :: .ok :: .ok :: acts) (compactHoardBatch (movable tag) file) =
      reportable acts ((readMovable tag file).readChunk false ⟨tag, 256, 1, aesSha1⟩ 0) := rfl

/-- The only chunk of the hoard cache is moved, the database is busy once at the `COMMIT`, and the
batch tells so. -/
theorem batch_honest_movable :
    ∃ s, runBatch [.ok, .ok, .ok, .ok, .ok, .ok, .ok, .ok, .ok, .busy, .ok]
        (compactHoardBatch (movable sevenTag) movableFile) = some s ∧
      s.pc = .returned .success ∧ s.commits = 1 ∧
      Honest (compactHoardBatch (movable sevenTag) movableFile) s := by
  obtain ⟨s, hrun, hpc, hcommits⟩ : ∃ s, runBatch
      [.ok, .ok, .ok, .ok, .ok, .ok, .ok, .ok, .ok, .busy, .ok]
      (compactHoardBatch (movable sevenTag) movableFile) = some s ∧
      s.pc = .returned .success ∧ s.commits = 1 := by
    rw [runBatch_readMovable, readChunk_readMovable]
    generalize sevenTag = tag
    generalize movableFile = file
    exact ⟨_, rfl, rfl, rfl⟩
  refine ⟨s, hrun, hpc, hcommits, (batch_honest_iff _ _ _ hrun).mpr ?_⟩
  rw [reportable_readMovable, readChunk_readMovable]
  generalize sevenTag = tag
  generalize movableFile = file
  rfl

/-- The only chunk of the hoard cache is moved, the query for the next one fails, and the batch
returns PK_SUCCESS. The move has been rolled back. -/
theorem batch_lies :
    ∃ s, runBatch [.ok, .ok, .ok, .ok, .ok, .ok, .ok, .fail, .ok]
        (compactHoardBatch (movable sevenTag) movableFile) = some s ∧
      s.pc = .returned .success ∧ s.commits = 0 ∧ s.chunks = movable sevenTag ∧
      ¬ Honest (compactHoardBatch (movable sevenTag) movableFile) s := by
  rw [runBatch_readMovable, readChunk_readMovable]
  -- what is in the tag and in the file does not matter any more
  generalize sevenTag = tag
  generalize movableFile = file
  exact ⟨_, rfl, rfl, rfl, rfl, fun h => absurd (h.success.mp rfl) Nat.noConfusion⟩

end OpenIsr.Hoard
