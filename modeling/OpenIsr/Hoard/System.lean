import Mathlib.Data.Fintype.Basic
import OpenIsr.Hoard.Index
import OpenIsr.Base.Run

/-!
# Processes that share a hoard cache

Any number of Parcelkeeper processes work on one hoard cache. A process takes a read lock on the
hoard file in `hoard_init` and gives it up at the end of `hoard_try_cleanup`, or when it dies; in
between it is live. A step is a transaction of one process. It sees the tables as the last committed
transaction has left them, and either it is committed or it leaves them as they are: its statements
failed, the database was busy, or the process goes on to die. The slot cache is a temporary table of
the same connection, so it is rolled back with the rest.

A chunk is written to the hoard file before the transaction is committed. `St.writes` has the
offsets, and does not ask what becomes of the transaction.
-/

namespace OpenIsr.Hoard

/-- A live process. It has `conf` if it was started for a parcel, and `ident`, its `hoard_ident`,
after `get_parcel_ident`. -/
structure Proc (T U : Type) where
  slots : List (Slot T)
  conf : Option (Config U)
  ident : Option Int
  deriving DecidableEq, Repr

/-- The tables of the hoard cache, and the live processes. -/
@[ext] structure St (P T U : Type) where
  chunks : List (Chunk T)
  parcels : List (Parcel U)
  refs : List (Ref T)
  procs : P → Option (Proc T U)

/-- What a process does next. -/
inductive Op (T U : Type)
  /-- `hoard_init`, until the slot cache exists. -/
  | start (conf : Option (Config U))
  | getParcelIdent (pick : Int)
  | putChunk (tag : T) (length crypto : Int)
  | flushSlotCache
  | invalidateChunk (offset : Int) (tag : T)
  | invalidateSlotChunk (offset : Int)
  | gc
  | compactIteration
  | truncate
  | syncRefs (newChunks : Bool) (keys prevKeys : List T)
  | rmhoard (uuid : U)
  /-- `hoard_try_cleanup`, the end of `hoard_shutdown`. -/
  | cleanup (gc : Bool)
  | die
  deriving DecidableEq, Repr

/-- A step: which process, what it does, and whether its transaction is committed. -/
structure Act (P T U : Type) where
  proc : P
  op : Op T U
  commit : Bool

/-- What a transaction leaves if it is committed, and where it writes to the hoard file. -/
structure Txn (T U : Type) where
  chunks : List (Chunk T)
  parcels : List (Parcel U)
  refs : List (Ref T)
  proc : Proc T U
  writes : List Int

variable {P T U : Type} {q : P}

/-- A new hoard cache that nobody uses. -/
def init : St P T U := { chunks := [], parcels := [], refs := [], procs := fun _ => none }

/-- A transaction that changes nothing. -/
def St.txn (s : St P T U) (proc : Proc T U) : Txn T U :=
  { chunks := s.chunks, parcels := s.parcels, refs := s.refs, proc, writes := [] }

def St.setProc [DecidableEq P] (s : St P T U) (p : P) (proc : Option (Proc T U)) : St P T U :=
  { s with procs := Function.update s.procs p proc }

section procs

variable [DecidableEq P] (s : St P T U) (p : P) (proc : Option (Proc T U))

@[simp] theorem St.setProc_self : (s.setProc p proc).procs p = proc := Function.update_self ..

theorem St.setProc_ne (h : q ≠ p) : (s.setProc p proc).procs q = s.procs q :=
  Function.update_of_ne h ..

end procs

variable [DecidableEq T] [DecidableEq U]

/-- The transaction of a live process; `none` if it fails, or is not one that is run in this way. -/
def transaction (s : St P T U) (proc : Proc T U) : Op T U → Option (Txn T U)
  | .getParcelIdent pick =>
    match proc.conf, proc.ident with
    | some conf, none =>
      (getParcelIdent s.parcels conf pick).map fun (parcels, ident) =>
        { s.txn proc with parcels, proc := { proc with ident := some ident } }
    | _, _ => none
  | .putChunk tag length crypto =>
    (hoardPutChunk ⟨s.chunks, proc.slots⟩ tag length crypto).map fun (v, offset) =>
      { s.txn proc with chunks := v.chunks, proc := { proc with slots := v.slots }
                        writes := offset.toList }
  | .flushSlotCache =>
    let v := flushSlotCache ⟨s.chunks, proc.slots⟩
    some { s.txn proc with chunks := v.chunks, proc := { proc with slots := v.slots } }
  | .invalidateChunk offset tag =>
    some { s.txn proc with chunks := hoardInvalidateChunk s.chunks offset tag }
  | .invalidateSlotChunk offset =>
    some { s.txn proc with
      proc := { proc with slots := hoardInvalidateSlotChunk proc.slots offset } }
  | .gc => some { s.txn proc with chunks := hoardGc s.chunks s.refs }
  | .compactIteration =>
    let r := compactHoardIteration s.chunks
    some { s.txn proc with chunks := r.chunks, writes := r.moves }
  | .truncate =>
    (compactHoardTruncate s.chunks).map fun (chunks, _) => { s.txn proc with chunks }
  | .syncRefs newChunks keys prevKeys =>
    proc.ident.map fun ident =>
      { s.txn proc with refs := hoardSyncRefs s.refs ident newChunks keys prevKeys }
  | .rmhoard uuid => some { s.txn proc with refs := rmhoard s.parcels s.refs uuid }
  | .start _ | .cleanup _ | .die => none

theorem transaction_put {s : St P T U} {proc : Proc T U} {tag : T} {length crypto : Int}
    {v : View T} {offset : Option Int}
    (h : hoardPutChunk ⟨s.chunks, proc.slots⟩ tag length crypto = some (v, offset)) :
    transaction s proc (.putChunk tag length crypto) =
      some { s.txn proc with chunks := v.chunks, proc := { proc with slots := v.slots }
                             writes := offset.toList } := by
  simp only [transaction, h, Option.map_some]

/-- The offsets at which a step writes to the hoard file. -/
def St.writes (s : St P T U) (a : Act P T U) : List Int :=
  match s.procs a.proc with
  | none => []
  | some proc => ((transaction s proc a.op).map Txn.writes).getD []

variable [DecidableEq P] [Fintype P]

/-- The state after a committed transaction of `p`. -/
def St.apply (s : St P T U) (p : P) (t : Txn T U) : St P T U :=
  { chunks := t.chunks, parcels := t.parcels, refs := t.refs
    procs := Function.update s.procs p (some t.proc) }

omit [DecidableEq T] [DecidableEq U] [Fintype P] in
@[simp] theorem St.apply_self (s : St P T U) (p : P) (t : Txn T U) :
    (s.apply p t).procs p = some t.proc := Function.update_self ..

omit [DecidableEq T] [DecidableEq U] [Fintype P] in
theorem St.apply_ne (s : St P T U) {p : P} (t : Txn T U) (h : q ≠ p) :
    (s.apply p t).procs q = s.procs q := Function.update_of_ne h ..

/-- One step of the system. -/
def step (s : St P T U) (a : Act P T U) : Option (St P T U) :=
  match s.procs a.proc, a.op with
  | none, .start conf => some (s.setProc a.proc (some { slots := [], conf, ident := none }))
  | none, _ => none
  | some _, .start _ => none
  | some _, .die => some (s.setProc a.proc none)
  | some _, .cleanup gc =>
    -- the write lock is to be had if nobody else has a lock
    if a.commit ∧ ∀ q, q ≠ a.proc → s.procs q = none then
      some ({ s with chunks := cleanChunks s.chunks s.refs gc
                     parcels := cleanParcels s.parcels s.refs }.setProc a.proc none)
    else some (s.setProc a.proc none)
  | some proc, op =>
    match transaction s proc op with
    | none => some s
    | some t => if a.commit then some (s.apply a.proc t) else some s

/-- What a step can do: a process starts, or ends, with or without a cleanup, or a live process runs
a transaction, which is committed or not. -/
theorem step_cases {s s' : St P T U} {a : Act P T U} (h : step s a = some s') :
    (s.procs a.proc = none ∧ ∃ conf, a.op = .start conf ∧
      s' = s.setProc a.proc (some { slots := [], conf, ident := none })) ∨
    s' = s.setProc a.proc none ∨
    ((∀ q, q ≠ a.proc → s.procs q = none) ∧ ∃ gc, a.op = .cleanup gc ∧
      s' = { s with chunks := cleanChunks s.chunks s.refs gc
                    parcels := cleanParcels s.parcels s.refs }.setProc a.proc none) ∨
    (∃ proc t, s.procs a.proc = some proc ∧ transaction s proc a.op = some t ∧
      s' = s.apply a.proc t) ∨
    s' = s := by
  unfold step at h
  split at h
  next conf hp hop =>
    cases h
    exact .inl ⟨hp, conf, hop, rfl⟩
  next => cases h
  next => cases h
  next =>
    cases h
    exact .inr (.inl rfl)
  next gc hp hop =>
    split at h
    next hl =>
      cases h
      exact .inr (.inr (.inl ⟨hl.2, gc, hop, rfl⟩))
    next =>
      cases h
      exact .inr (.inl rfl)
  next op proc hp _ _ _ =>
    split at h
    next =>
      cases h
      exact .inr (.inr (.inr (.inr rfl)))
    next t ht =>
      split at h
      next =>
        cases h
        exact .inr (.inr (.inr (.inl ⟨proc, t, hp, ht, rfl⟩)))
      next =>
        cases h
        exact .inr (.inr (.inr (.inr rfl)))

theorem step_start {s : St P T U} {p : P} {conf : Option (Config U)} {commit : Bool}
    (hp : s.procs p = none) : step s ⟨p, .start conf, commit⟩ =
      some (s.setProc p (some { slots := [], conf, ident := none })) := by
  simp only [step, hp]

theorem step_commit {s : St P T U} {p : P} {proc : Proc T U} {op : Op T U} {t : Txn T U}
    (hp : s.procs p = some proc) (ht : transaction s proc op = some t) :
    step s ⟨p, op, true⟩ = some (s.apply p t) := by
  cases op with
  | start conf | cleanup gc | die => cases ht
  | _ => simp only [step, hp, ht, if_true]

end OpenIsr.Hoard
