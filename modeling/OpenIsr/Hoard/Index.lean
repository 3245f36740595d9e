import Mathlib.Data.List.Sort
import OpenIsr.Base.Rows
import OpenIsr.Base.Word

/-!
# The hoard cache index

The tables `chunks`, `parcels` and `refs` of the hoard cache, the table `temp.slots` in which each
process keeps the slots it has reserved, and the statements that `hoard.c` and `hoard_modes.c` run
on them. A table is the list of its rows in the order of insertion; a statement is a function on it.

A statement that fails ends its transaction with a rollback, so the functions here are those of
transactions whose statements go through. `none` is an error that the statements themselves lead to:
a constraint that the code does not expect to be violated, or a negative file length.

`T` is the type of tags, `U` that of parcel UUIDs. Offsets count sectors of 512 bytes. The hoard
cache works for chunks of 128 KB only (`hoard_init`), so the distance of two slots is 256. A column
is read with `sqlite3_column_int`, and what is computed from it is an `int`.
-/

namespace OpenIsr.Hoard

open Base (updateWhere wrapInt)

/-- A tag is the digest of a chunk. -/
abbrev Tag := List UInt8

/-- A row of `chunks`. `tag` is NULL in a row that holds no chunk. -/
structure Chunk (T : Type) where
  tag : Option T
  offset : Int
  length : Int
  crypto : Int
  allocated : Int
  deriving DecidableEq, Repr

/-- A row of `temp.slots`. -/
structure Slot (T : Type) where
  tag : Option T
  offset : Int
  length : Int
  crypto : Int
  deriving DecidableEq, Repr

/-- What a process knows of its parcel. -/
structure Config (U : Type) where
  uuid : U
  server : String
  user : String
  name : String
  deriving DecidableEq, Repr

/-- A row of `parcels`. -/
structure Parcel (U : Type) extends Config U where
  parcel : Int
  deriving DecidableEq, Repr

/-- A row of `refs`. -/
structure Ref (T : Type) where
  parcel : Int
  tag : T
  deriving DecidableEq, Repr

/-- What a transaction on the slots sees: the shared table and the process's own. -/
structure View (T : Type) where
  chunks : List (Chunk T)
  slots : List (Slot T)
  deriving DecidableEq, Repr

/-- `EXPAND_CHUNKS` -/
def expandChunks : Nat := 256

/-- `chunksize >> 9` -/
def slotSectors : Int := 256

variable {T U : Type}

/-- A row of `chunks` with an offset, `allocated`, and defaults. -/
def Chunk.new (offset : Int) : Chunk T :=
  { tag := none, offset, length := 0, crypto := 0, allocated := 1 }

/-- `INSERT INTO temp.slots (offset) VALUES (?)` -/
def Slot.new (offset : Int) : Slot T := { tag := none, offset, length := 0, crypto := 0 }

/-- `SET tag = NULL, length = 0, crypto = 0, allocated = 0` -/
def Chunk.clear (c : Chunk T) : Chunk T :=
  { c with tag := none, length := 0, crypto := 0, allocated := 0 }

/-- `SET allocated = n` -/
def Chunk.setAllocated (n : Int) (c : Chunk T) : Chunk T := { c with allocated := n }

/-- The offsets of the slot cache. -/
def slotOffsets (slots : List (Slot T)) : List Int := slots.map (·.offset)

def chunkOffsets (chunks : List (Chunk T)) : List Int := chunks.map (·.offset)

/-! ## The slot cache -/

/-- Where new slots start: behind the last one, or at 0 if the table is empty. -/
def expandStart (chunks : List (Chunk T)) : Int :=
  match (chunkOffsets chunks).max? with
  | none => 0
  | some offset => wrapInt (wrapInt offset + slotSectors)

/-- `start + i * step` for `i < needed`. -/
def newOffsets (start : Int) (needed : Nat) : List Int :=
  (List.range needed).map fun i : Nat => wrapInt (start + i * slotSectors)

/-- The first half of `expand_slot_cache`: up to 256 unallocated slots go to the slot cache. The
number is the count of rows inserted. -/
def reclaimSlots (v : View T) : View T × Nat :=
  -- the index on `(allocated, offset)` delivers them in order
  let free := (chunkOffsets (v.chunks.filter (·.allocated = 0))).insertionSort (· ≤ ·)
  let found := (free.take expandChunks).filter (· ∉ slotOffsets v.slots)
  let slots := v.slots ++ found.map Slot.new
  ({ chunks := updateWhere v.chunks (·.offset ∈ slotOffsets slots) (Chunk.setAllocated 1), slots },
    found.length)

/-- The second half: new slots behind the last one. -/
def addSlots (v : View T) (needed : Nat) : Option (View T) :=
  let new := newOffsets (expandStart v.chunks) needed
  if (slotOffsets v.slots ++ new).Nodup then
    let slots := v.slots ++ new.map Slot.new
    some { chunks := v.chunks ++ ((slotOffsets slots).filter (· ∉ chunkOffsets v.chunks)).map
             Chunk.new
           slots }
  else none

/-- `expand_slot_cache` -/
def expandSlotCache (v : View T) : Option (View T) :=
  let (v, count) := reclaimSlots v
  if expandChunks - count = 0 then some v else addSlots v (expandChunks - count)

variable [DecidableEq T] [DecidableEq U]

/-- `_flush_slot_cache` for one slot in use. If another slot has the tag already, `tag` is not
UNIQUE, and this one becomes free. -/
def flushSlot (chunks : List (Chunk T)) (slot : Slot T) : List (Chunk T) :=
  if slot.offset ∈ chunkOffsets chunks ∧
      ∃ c ∈ chunks, c.tag = slot.tag ∧ c.offset ≠ slot.offset then
    updateWhere chunks (·.offset = slot.offset) (Chunk.setAllocated 0)
  else
    updateWhere chunks (·.offset = slot.offset) fun c =>
      { c with tag := slot.tag, length := slot.length, crypto := slot.crypto, allocated := 1 }

/-- `_flush_slot_cache` -/
def flushSlotCache (v : View T) : View T :=
  let chunks := (v.slots.filter (·.tag ≠ none)).foldl flushSlot v.chunks
  let unused := slotOffsets (v.slots.filter (·.tag = none))
  { chunks := updateWhere chunks (·.offset ∈ unused) (Chunk.setAllocated 0), slots := [] }

/-- `SELECT offset FROM temp.slots WHERE tag ISNULL LIMIT 1` -/
def unusedSlot (slots : List (Slot T)) : Option Int :=
  (slots.find? (·.tag = none)).map (·.offset)

/-- `allocate_slot`. One round of flush and expand is enough: `expand_slot_cache` leaves unused
slots (`unusedSlot_expand`). -/
def allocateSlot (v : View T) : Option (View T × Int) :=
  match unusedSlot v.slots with
  | some offset => some (v, offset)
  | none =>
    match expandSlotCache (flushSlotCache v) with
    | none => none
    | some v => (unusedSlot v.slots).map fun offset => (v, offset)

/-- The transaction of `hoard_put_chunk`, up to its write at the offset it returns; it returns none
if the tag is there already. -/
def hoardPutChunk (v : View T) (tag : T) (length crypto : Int) : Option (View T × Option Int) :=
  if some tag ∈ v.slots.map (·.tag) ∨ some tag ∈ v.chunks.map (·.tag) then some (v, none)
  else
    (allocateSlot v).map fun (v, offset) =>
      ({ v with slots := updateWhere v.slots (·.offset = offset) fun slot =>
          { slot with tag := some tag, length, crypto } }, some offset)

/-- The tag is there already. -/
def View.Lists (v : View T) (tag : T) : Prop :=
  some tag ∈ v.slots.map (·.tag) ∨ some tag ∈ v.chunks.map (·.tag)

instance (v : View T) (tag : T) : Decidable (v.Lists tag) :=
  inferInstanceAs (Decidable (some tag ∈ v.slots.map (·.tag) ∨ some tag ∈ v.chunks.map (·.tag)))

/-- `_hoard_invalidate_chunk` -/
def hoardInvalidateChunk (chunks : List (Chunk T)) (offset : Int) (tag : T) : List (Chunk T) :=
  if ∃ c ∈ chunks, c.offset = offset ∧ c.tag = some tag then
    updateWhere chunks (·.offset = offset) Chunk.clear
  else chunks

/-- `_hoard_invalidate_slot_chunk` -/
def hoardInvalidateSlotChunk (slots : List (Slot T)) (offset : Int) : List (Slot T) :=
  updateWhere slots (·.offset = offset) fun slot =>
    { slot with tag := none, length := 0, crypto := 0 }

/-- `_hoard_gc` -/
def hoardGc (chunks : List (Chunk T)) (refs : List (Ref T)) : List (Chunk T) :=
  updateWhere chunks (fun c => ∃ tag ∈ c.tag, tag ∉ refs.map (·.tag)) Chunk.clear

/-! ## Compaction -/

/-- The next row of `SELECT ... WHERE tag NOTNULL ORDER BY offset DESC`, after the one at `below`.
The rows are read from the index on `offset` while the loop changes them. -/
def nextChunk (chunks : List (Chunk T)) (below : Option Int) : Option (Chunk T) :=
  (chunks.filter fun c => c.tag ≠ none ∧ ∀ b ∈ below, c.offset < b).maxOn? (·.offset)

/-- `SELECT offset FROM chunks WHERE allocated == 0 ORDER BY offset ASC LIMIT 1` -/
def lowestFree (chunks : List (Chunk T)) : Option (Chunk T) :=
  (chunks.filter (·.allocated = 0)).minOn? (·.offset)

/-- `_compact_hoard_move_chunk`, the updates after its write at `dest`. -/
def moveChunk (chunks : List (Chunk T)) (c : Chunk T) (dest : Int) : List (Chunk T) :=
  updateWhere (updateWhere chunks (·.offset = c.offset) Chunk.clear) (·.offset = dest) fun slot =>
    { slot with tag := c.tag, length := c.length, crypto := c.crypto, allocated := 1 }

/-- What `_compact_hoard_iteration` leaves: the table, the offsets it has written to, and whether
it is done. -/
structure Compacted (T : Type) where
  chunks : List (Chunk T)
  moves : List Int
  done : Bool
  deriving DecidableEq, Repr

/-- The loop of `_compact_hoard_iteration`, which has `n` rounds left. -/
def compactLoop : Nat → Option Int → List (Chunk T) → Compacted T
  | 0, _, chunks => { chunks, moves := [], done := false }
  | n + 1, below, chunks =>
    match nextChunk chunks below with
    -- `chunk_qry` is NULL only if there never was a row
    | none => { chunks, moves := [], done := below.isNone }
    | some c =>
      match lowestFree chunks with
      | none => { chunks, moves := [], done := true }
      | some slot =>
        if c.offset ≤ slot.offset then { chunks, moves := [], done := true }
        else
          let rest := compactLoop n (some c.offset) (moveChunk chunks c slot.offset)
          { rest with moves := slot.offset :: rest.moves }

/-- `_compact_hoard_iteration` moves at most 16 chunks. -/
def compactHoardIteration (chunks : List (Chunk T)) : Compacted T := compactLoop 16 none chunks

/-- The sector behind the last allocated slot. -/
def truncateOffset (chunks : List (Chunk T)) : Int :=
  match (chunkOffsets (chunks.filter (·.allocated = 1))).max? with
  | none => 0
  | some offset => wrapInt (wrapInt offset + slotSectors)

/-- `_compact_hoard_truncate`: the table, and the sector at which the file is cut. `ftruncate` fails
for a negative length. -/
def compactHoardTruncate (chunks : List (Chunk T)) : Option (List (Chunk T) × Int) :=
  let offset := truncateOffset chunks
  if offset < 0 then none else some (chunks.filter (·.offset < offset), offset)

/-! ## Parcels and references -/

/-- The row number SQLite gives to a new row: one more than the largest; if that is the largest
there is, some number that is not in use. -/
def newRowid (parcels : List (Parcel U)) (pick : Int) : Option Int :=
  match (parcels.map (·.parcel)).max? with
  | none => some 1
  | some n =>
    if n < 2 ^ 63 - 1 then some (n + 1)
    else if pick ∉ parcels.map (·.parcel) then some pick else none

/-- `INSERT OR IGNORE INTO parcels` -/
def insertParcel (parcels : List (Parcel U)) (conf : Config U) (pick : Int) :
    Option (List (Parcel U)) :=
  if conf.uuid ∈ parcels.map (·.uuid) then some parcels
  else (newRowid parcels pick).map fun parcel => parcels ++ [{ conf with parcel }]

/-- `get_parcel_ident`: the table, and the new `hoard_ident`. -/
def getParcelIdent (parcels : List (Parcel U)) (conf : Config U) (pick : Int) :
    Option (List (Parcel U) × Int) :=
  match insertParcel parcels conf pick with
  | none => none
  | some parcels =>
    (parcels.find? (·.uuid = conf.uuid)).map fun found =>
      let ident := wrapInt found.parcel
      (updateWhere parcels
        (fun row => row.parcel = ident ∧
          (row.server ≠ conf.server ∨ row.user ≠ conf.user ∨ row.name ≠ conf.name))
        fun row => { row with server := conf.server, user := conf.user, name := conf.name }, ident)

/-- `hoard_sync_refs`, with the tags of the current and of the previous keyring. -/
def hoardSyncRefs (refs : List (Ref T)) (ident : Int) (newChunks : Bool) (keys prevKeys : List T) :
    List (Ref T) :=
  let newrefs := (if newChunks then keys else prevKeys).dedup
  let refs :=
    if newChunks then refs else refs.filter fun r => ¬ (r.parcel = ident ∧ r.tag ∉ newrefs)
  refs ++ (newrefs.map (Ref.mk ident)).filter (· ∉ refs)

/-- `rmhoard` -/
def rmhoard (parcels : List (Parcel U)) (refs : List (Ref T)) (uuid : U) : List (Ref T) :=
  match parcels.find? (·.uuid = uuid) with
  | none => refs
  | some row => refs.filter (·.parcel ≠ wrapInt row.parcel)

/-- The loop of `hoard_try_cleanup` over the parcels: those without references go. -/
def cleanParcels (parcels : List (Parcel U)) (refs : List (Ref T)) : List (Parcel U) :=
  parcels.foldl (fun rows row =>
    if wrapInt row.parcel ∈ refs.map (·.parcel) then rows
    else rows.filter (·.parcel ≠ wrapInt row.parcel)) parcels

/-- The part of `hoard_try_cleanup` that is about `chunks`; `gc` tells whether it collects
garbage. -/
def cleanChunks (chunks : List (Chunk T)) (refs : List (Ref T)) (gc : Bool) : List (Chunk T) :=
  let chunks := updateWhere chunks (fun c => c.allocated = 1 ∧ c.tag = none) (Chunk.setAllocated 0)
  if gc then hoardGc chunks refs else chunks

end OpenIsr.Hoard
