import OpenIsr.Fuse.Cursor

/-!
# The chunk cache: entries, queues and the operations under the image lock

`struct cache_entry`, the hash table `image.chunks`, the `dirty` and `reclaimable`
queues and `image.allocatable`, with the operations `fuse_image.c` performs on them
while it holds the image lock.

Entries and buffers are heap objects that the C code allocates, hands over and frees,
so both have identities here: an entry is a number below `nextEnt`, a buffer a number
below `nextBuf`, and `chunks` lists the entries that are in the hash table. An entry is
freed exactly when it leaves the table, so `e ∈ chunks` is also "not freed".

A `GList` link is NULL or the node that holds the entry, so a link field is a `Bool`
beside the queue. A `g_assert` that fails is `none`.
-/

namespace OpenIsr.Fuse

/-- `struct cache_entry`. The condition variable `available` is the entry itself
(`Cond.available`); `dirty` is 0 if clean. -/
structure Entry where
  chunk : Nat
  busy : Bool
  waiters : Nat
  dirtyLink : Bool
  reclaimableLink : Bool
  data : Option Nat
  dirty : Nat
  error : Bool
  deriving DecidableEq, Repr

/-- `g_slice_new0(struct cache_entry)` with its chunk number set. -/
def Entry.new (chunk : Nat) : Entry :=
  { chunk, busy := false, waiters := 0, dirtyLink := false, reclaimableLink := false,
    data := none, dirty := 0, error := false }

/-- `queue_push_tail_with_link`. -/
def queuePushTailWithLink (queue : List Nat) (link : Bool) (e : Nat) : Option (List Nat × Bool) :=
  if link then none else some (queue ++ [e], true)

/-- `queue_delete_with_link`. -/
def queueDeleteWithLink (queue : List Nat) (link : Bool) (e : Nat) : List Nat × Bool :=
  if link then (queue.erase e, false) else (queue, link)

variable {queue : List Nat} {e : Nat}

/-- Deleting an entry whose link tells whether it is queued takes it off the queue. -/
theorem queueDeleteWithLink_spec {link : Bool} (hlink : link = true ↔ e ∈ queue)
    (hnd : queue.Nodup) :
    (∀ x, x ∈ (queueDeleteWithLink queue link e).1 ↔ x ∈ queue ∧ x ≠ e) ∧
    (queueDeleteWithLink queue link e).2 = false ∧
    (queueDeleteWithLink queue link e).1.Nodup := by
  unfold queueDeleteWithLink
  cases hl : link with
  | true =>
    refine ⟨fun x => ?_, rfl, hnd.erase e⟩
    rw [if_pos rfl, hnd.mem_erase_iff, and_comm]
  | false =>
    have he : e ∉ queue := fun h => by rw [hlink.mpr h] at hl; cases hl
    refine ⟨fun x => ?_, rfl, hnd⟩
    rw [if_neg (by simp)]
    exact ⟨fun hx => ⟨hx, fun hxe => he (hxe ▸ hx)⟩, And.left⟩

theorem nodup_push (hnd : queue.Nodup) (he : e ∉ queue) : (queue ++ [e]).Nodup := by
  refine List.nodup_append.mpr ⟨hnd, by simp, ?_⟩
  intro x hx y hy hxy
  rw [List.mem_singleton] at hy
  rw [hxy, hy] at hx
  exact he hx

/-- The fields of `state->fuse->image` that the image lock protects. -/
structure Table where
  chunks : List Nat
  ents : Nat → Entry
  dirty : List Nat
  reclaimable : List Nat
  allocatable : Nat
  nextEnt : Nat
  nextBuf : Nat

namespace Table

/-- The table `image_init` sets up. -/
def init (allocatable : Nat) : Table :=
  { chunks := [], ents := fun _ => Entry.new 0, dirty := [], reclaimable := [],
    allocatable, nextEnt := 0, nextBuf := 0 }

def setEnt (tab : Table) (e : Nat) (ent : Entry) : Table :=
  { tab with ents := Function.update tab.ents e ent }

@[simp] theorem setEnt_self (tab : Table) (e : Nat) (ent : Entry) :
    (tab.setEnt e ent).ents e = ent := Function.update_self ..

theorem setEnt_ne {e' : Nat} (tab : Table) (ent : Entry) (h : e' ≠ e) :
    (tab.setEnt e ent).ents e' = tab.ents e' := Function.update_of_ne h ..

section

variable (tab : Table) (e) (ent : Entry)
include tab e ent

@[simp] theorem setEnt_chunks : (tab.setEnt e ent).chunks = tab.chunks := rfl

@[simp] theorem setEnt_dirty : (tab.setEnt e ent).dirty = tab.dirty := rfl

@[simp] theorem setEnt_reclaimable : (tab.setEnt e ent).reclaimable = tab.reclaimable := rfl

@[simp] theorem setEnt_nextEnt : (tab.setEnt e ent).nextEnt = tab.nextEnt := rfl

@[simp] theorem setEnt_nextBuf : (tab.setEnt e ent).nextBuf = tab.nextBuf := rfl

@[simp] theorem setEnt_allocatable : (tab.setEnt e ent).allocatable = tab.allocatable := rfl

end

theorem setEnt_proj {β : Type} (f : Entry → β) {tab : Table} {ent : Entry}
    (h : f ent = f (tab.ents e)) (e' : Nat) : f ((tab.setEnt e ent).ents e') = f (tab.ents e') := by
  by_cases he : e' = e
  · subst he; rw [setEnt_self, h]
  · rw [setEnt_ne _ _ he]

/-- `g_hash_table_lookup(image.chunks, &chunk)`. -/
def lookup (tab : Table) (chunk : Nat) : Option Nat :=
  tab.chunks.find? fun e => (tab.ents e).chunk == chunk

/-- The lookup of `entry_acquire`, which allocates the entry if there is none. -/
def lookupOrNew (tab : Table) (chunk : Nat) : Table × Nat :=
  match tab.lookup chunk with
  | some e => (tab, e)
  | none =>
    ({ tab with
        chunks := tab.chunks ++ [tab.nextEnt]
        ents := Function.update tab.ents tab.nextEnt (Entry.new chunk)
        nextEnt := tab.nextEnt + 1 }, tab.nextEnt)

/-- `_entry_acquire` up to its loop: off the reclaimable queue, one more waiter. -/
def acquireEnter (tab : Table) (e : Nat) : Table :=
  let ent := tab.ents e
  let (q, link) := queueDeleteWithLink tab.reclaimable ent.reclaimableLink e
  { tab.setEnt e { ent with reclaimableLink := link, waiters := ent.waiters + 1 } with
    reclaimable := q }

/-- `_entry_acquire` after its loop: the busy flag is ours. -/
def acquireTake (tab : Table) (e : Nat) : Table :=
  let ent := tab.ents e
  tab.setEnt e { ent with busy := true, waiters := ent.waiters - 1 }

/-- The condition variable a step signals. -/
inductive Cond
  | available (e : Nat)
  | reclaimable
  | cleaner
  deriving DecidableEq, Repr

/-- `_entry_release`. -/
def entryRelease (tab : Table) (e : Nat) : Option (Table × Option Cond) :=
  let ent := { tab.ents e with busy := false }
  if 0 < ent.waiters then
    some (tab.setEnt e ent, some (.available e))
  else if ent.data = none then
    -- no data buffer and no waiters: the entry goes away
    if ent.reclaimableLink then none
    else some ({ tab.setEnt e ent with chunks := tab.chunks.erase e }, none)
  else
    match queuePushTailWithLink tab.reclaimable ent.reclaimableLink e with
    | none => none
    | some (q, link) =>
      some ({ tab.setEnt e { ent with reclaimableLink := link } with reclaimable := q },
        some .reclaimable)

/-- `g_slice_alloc` of a buffer while `image.allocatable > 0`. -/
def allocData (tab : Table) (e : Nat) : Table :=
  { tab.setEnt e { tab.ents e with data := some tab.nextBuf } with
    allocatable := tab.allocatable - 1, nextBuf := tab.nextBuf + 1 }

/-- `ent->data = reclaim->data; reclaim->data = NULL`, after the assertion. -/
def stealData (tab : Table) (e r : Nat) : Option Table :=
  match (tab.ents r).data with
  | none => none
  | some b =>
    let tab := tab.setEnt e { tab.ents e with data := some b }
    some (tab.setEnt r { tab.ents r with data := none })

/-- `entry_clean` up to its `cache_update` call. -/
def cleanStart (tab : Table) (e : Nat) : Option Table :=
  let ent := tab.ents e
  if ent.dirty = 0 ∨ ent.dirtyLink = false ∨ ent.data = none then none
  else
    let (q, link) := queueDeleteWithLink tab.dirty ent.dirtyLink e
    some { tab.setEnt e { ent with dirtyLink := link } with dirty := q }

/-- `entry_clean` after its `cache_update` call. -/
def cleanDone (tab : Table) (e : Nat) : Table :=
  tab.setEnt e { tab.ents e with dirty := 0 }

/-- `entry_set_error`, its effect on the entry. -/
def setError (tab : Table) (e : Nat) : Table :=
  tab.setEnt e { tab.ents e with error := true }

/-- The part of `entry_release` that marks the entry dirty at time `now`. -/
def markDirty (tab : Table) (e now : Nat) : Option (Table × Option Cond) :=
  let ent := tab.ents e
  if ent.dirty ≠ 0 then some (tab, none)
  else
    match queuePushTailWithLink tab.dirty ent.dirtyLink e with
    | none => none
    | some (q, link) =>
      some ({ tab.setEnt e { ent with dirty := now, dirtyLink := link } with dirty := q },
        if q.head? = some e then some .cleaner else none)

/-- `image_shutdown` frees one buffer: its two assertions, then `ent->data = NULL`. -/
def dropData (tab : Table) (e : Nat) : Option Table :=
  let ent := tab.ents e
  if ent.dirty ≠ 0 ∨ ent.data = none then none
  else some (tab.setEnt e { ent with data := none })

/-! ## What the operations leave behind when their assertions hold -/

variable {tab tab' : Table} {r now : Nat}

theorem stealData_eq (h : tab.stealData e r = some tab') (hne : e ≠ r) :
    ∃ b, (tab.ents r).data = some b ∧
      tab' = (tab.setEnt e { tab.ents e with data := some b }).setEnt r
        { tab.ents r with data := none } := by
  unfold stealData at h
  split at h
  next => cases h
  next b hb =>
    simp only [Option.some.injEq] at h
    rw [Table.setEnt_ne _ _ (Ne.symm hne)] at h
    exact ⟨b, hb, h.symm⟩

theorem cleanStart_eq (h : tab.cleanStart e = some tab') :
    ∃ q link, tab' = { tab.setEnt e { tab.ents e with dirtyLink := link } with dirty := q } := by
  simp only [cleanStart] at h
  split at h
  next => cases h
  simp only [Option.some.injEq] at h
  exact ⟨_, _, h.symm⟩

theorem markDirty_eq {c : Option Cond} (h : tab.markDirty e now = some (tab', c)) :
    ((tab.ents e).dirty ≠ 0 ∧ tab' = tab ∧ c = none) ∨
    ((tab.ents e).dirty = 0 ∧ ∃ q link, tab' =
      { tab.setEnt e { tab.ents e with dirty := now, dirtyLink := link } with dirty := q }) := by
  simp only [markDirty] at h
  split at h
  next hd =>
    simp only [Option.some.injEq, Prod.mk.injEq] at h
    exact .inl ⟨hd, h.1.symm, h.2.symm⟩
  next hd =>
    split at h
    next => cases h
    next q link _ =>
      simp only [Option.some.injEq, Prod.mk.injEq] at h
      exact .inr ⟨by simpa using hd, q, link, h.1.symm⟩

theorem dropData_eq (h : tab.dropData e = some tab') :
    tab' = tab.setEnt e { tab.ents e with data := none } := by
  simp only [dropData] at h
  split at h
  next => cases h
  next => simpa using h.symm

theorem dropData_dirty (h : tab.dropData e = some tab') : (tab.ents e).dirty = 0 := by
  simp only [dropData] at h
  split at h
  next => cases h
  next hno => exact not_not.mp fun hne => hno (.inl hne)

end Table

end OpenIsr.Fuse
