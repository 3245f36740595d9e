import OpenIsr.Hoard.File

/-!
# Compaction, statement by statement

`compact_hoard` collects garbage, moves chunks from the end of the hoard file to free slots in front
of them, and cuts the file. Here it is a state machine that takes one step for each SQL statement
and each access to the hoard file. A step goes through, or the database is busy, or it fails for
good; a write may stop halfway. What a process leaves when it dies is the index as it was last
committed, and the file.

`_compact_hoard_iteration` moves up to 16 chunks in one transaction. It looks at the rows with tags
from the last one down, through the index on `offset`, and changes them on the way. Each column is
fetched into an `int`.

The process runs without a parcel (`checkhoard`), so nothing limits the length of what
`_hoard_read_chunk` reads into the buffer, which has room for one slot.
-/

namespace OpenIsr.Hoard

open Option
open Base (updateWhere wrapInt pread pwrite ftruncate)
open Cache (PkErr)

/-- A row of `chunks` as `query_row` delivers it. -/
structure Fetched where
  tag : Tag
  offset : Int
  length : Int
  crypto : Int
  deriving DecidableEq, Repr

def Chunk.fetch (c : Chunk Tag) : Fetched :=
  { tag := c.tag.getD [], offset := wrapInt c.offset, length := wrapInt c.length,
    crypto := wrapInt c.crypto }

/-- The next statement. -/
inductive CompactPc
  /-- The transaction of `hoard_gc`. -/
  | gc
  /-- `_compact_hoard_count_moves`, which changes nothing. -/
  | count
  /-- `begin_immediate` -/
  | start
  /-- The chunk query, for its next row. -/
  | chunk
  /-- The slot query. -/
  | slot (src : Fetched)
  | read (src : Fetched) (dest : Int)
  | write (src : Fetched) (dest : Int) (buf : List UInt8)
  /-- The first `UPDATE` of `_compact_hoard_move_chunk`, -/
  | clear (src : Fetched) (dest : Int)
  /-- and the second one. -/
  | fill (src : Fetched) (dest : Int)
  | commit
  /-- At `bad`. -/
  | rollback (retry : Bool)
  /-- `_compact_hoard_iteration` has returned. -/
  | returned (ret : PkErr)
  /-- `begin` in `_compact_hoard_truncate`, -/
  | truncStart
  /-- its two queries for the largest offset, -/
  | truncLast
  | truncAllocated
  | truncDelete (offset : Int)
  | truncFile (offset : Int)
  | truncCommit
  | truncRollback (retry : Bool)
  | vacuum
  /-- `compact_hoard` has returned. -/
  | finished (ret : PkErr)
  /-- The buffer is overrun. -/
  | crash
  deriving DecidableEq, Repr

/-- `chunks` is the index as it was last committed and `work` is what the transaction sees of it.
`below` is the offset of the row the chunk query has delivered last. `moved`, `done` and `ret` are
the variables of `_compact_hoard_iteration`; `taken` and `released` count its calls of `db_get` and
`db_put`, and `commits` its transactions that were committed. -/
structure Compact where
  chunks : List (Chunk Tag)
  work : List (Chunk Tag)
  file : List UInt8
  pc : CompactPc
  below : Option Int
  moved : Nat
  done : Bool
  ret : PkErr
  taken : Nat
  released : Nat
  commits : Nat
  deriving DecidableEq, Repr

/-- What becomes of a step. -/
inductive CompactAct
  | ok
  | busy
  | fail
  /-- `pwrite` stops after `n` bytes. -/
  | short (n : Nat)
  deriving DecidableEq, Repr

/-- An SQL statement; `bad` tells where its failure leads to. -/
def statement (a : CompactAct) (next : Compact) (bad : Bool → Compact) : Option Compact :=
  match a with
  | .ok => some next
  | .busy => some (bad true)
  | .fail => some (bad false)
  | .short _ => none

namespace Compact

/-- The label `again` of `_compact_hoard_iteration`. -/
def again (s : Compact) : Compact :=
  { s with pc := .start, below := none, moved := 0, done := false, ret := .ioerr }

/-- The label `bad`. -/
def bad (s : Compact) (retry : Bool) : Compact := { s with pc := .rollback retry }

/-- A move that returns `e`. -/
def moveFails (s : Compact) (e : PkErr) (retry : Bool) : Compact := { s with ret := e }.bad retry

/-- After `begin_immediate`. `_begin` gives the lock back if it fails. -/
def begun (s : Compact) : Compact :=
  { s with work := s.chunks, taken := s.taken + 1, pc := .chunk }

def notBegun (s : Compact) : Compact :=
  { s with taken := s.taken + 1, released := s.released + 1 }.bad false

/-- The chunk query delivers a row, up to 16 times. Each row but the last one leads to a move, so
`moved` is the number of rows so far. -/
def fetchChunk (s : Compact) : Compact :=
  match if s.moved < 16 then nextChunk s.work s.below else none with
  -- `chunk_qry` is NULL only if there never was a row
  | none => { s with done := s.below.isNone, pc := .commit }
  | some c => { s with below := some c.offset, pc := .slot c.fetch }

/-- The slot query, and the comparison of offsets. -/
def fetchSlot (s : Compact) (src : Fetched) : Compact :=
  match lowestFree s.work with
  | none => { s with done := true, pc := .commit }
  | some slot =>
    if src.offset ≤ wrapInt slot.offset then { s with done := true, pc := .commit }
    else { s with pc := .read src (wrapInt slot.offset) }

/-- `_hoard_read_chunk`; the last query before it was not busy. -/
def readChunk (s : Compact) (fails : Bool) (src : Fetched) (dest : Int) : Compact :=
  match hoardReadChunk ⟨s.file, fun _ => fails⟩ none src.offset src.length src.crypto src.tag with
  | .error .badformat => s.moveFails .badformat false
  | got =>
    if slotBytes < (pread s.file (src.offset.toNat * 512) src.length.toNat).length then
      { s with pc := .crash }
    else
      match got with
      | .error e => s.moveFails e false
      | .ok buf => { s with pc := .write src dest buf }

/-- `_hoard_write_chunk` -/
def writeChunk (s : Compact) (src : Fetched) (dest : Int) (buf : List UInt8) (written : Nat) :
    Compact :=
  match hoardWriteChunk s.file dest buf written with
  | (.success, file) => { s with file, pc := .clear src dest }
  | (e, file) => { s with file }.moveFails e false

def clearSource (s : Compact) (src : Fetched) (dest : Int) : Compact :=
  { s with work := updateWhere s.work (·.offset = src.offset) Chunk.clear, pc := .fill src dest }

/-- The row of the slot gets the chunk, unless another row has its tag: `tag` is UNIQUE. -/
def fillSlot (s : Compact) (src : Fetched) (dest : Int) : Compact :=
  if dest ∈ chunkOffsets s.work ∧ ∃ c ∈ s.work, c.tag = some src.tag ∧ c.offset ≠ dest then
    s.moveFails .ioerr false
  else
    { s with
      work := updateWhere s.work (·.offset = dest) fun slot =>
        { slot with
          tag := some src.tag, length := src.length, crypto := src.crypto, allocated := 1 }
      ret := .success, moved := s.moved + 1, pc := .chunk }

def committed (s : Compact) : Compact :=
  { s with chunks := s.work, commits := s.commits + 1, released := s.released + 1,
           pc := .returned .success }

def rolledBack (s : Compact) (retry : Bool) : Compact :=
  let s := { s with work := s.chunks, released := s.released + 1 }
  if retry then s.again else { s with pc := .returned s.ret }

/-- The loop of `compact_hoard`. -/
def next (s : Compact) (ret : PkErr) : Compact :=
  if ret ≠ .success then { s with pc := .finished ret }
  else if s.done then { s with pc := .truncStart } else s.again

def truncBad (s : Compact) (retry : Bool) : Compact := { s with pc := .truncRollback retry }

/-- `ftruncate` fails for a negative length. -/
def cut (s : Compact) (offset : Int) : Compact :=
  if offset < 0 then s.truncBad false
  else { s with file := ftruncate s.file (offset.toNat * 512), pc := .truncCommit }

def truncRolledBack (s : Compact) (retry : Bool) : Compact :=
  { s with work := s.chunks, pc := if retry then .truncStart else .finished .ioerr }

/-- A statement that is made again if the database is busy, and whose failure ends `compact_hoard`.
-/
def orEnd (s : Compact) (retry : Bool) : Compact :=
  if retry then s else { s with pc := .finished .ioerr }

end Compact

/-- One step of `compact_hoard`. Some of the loops that wait for a busy database are in the
functions of `wrapper.c`. -/
def compactStep (refs : List (Ref Tag)) (s : Compact) (a : CompactAct) : Option Compact :=
  match s.pc with
  | .gc => statement a { s with chunks := hoardGc s.chunks refs, pc := .count } s.orEnd
  | .count => statement a s.again s.orEnd
  | .start => statement a s.begun fun busy => if busy then s else s.notBegun
  | .chunk => statement a s.fetchChunk s.bad
  | .slot src => statement a (s.fetchSlot src) s.bad
  | .read src dest =>
    match a with
    | .ok => some (s.readChunk false src dest)
    | .fail => some (s.readChunk true src dest)
    | _ => none
  | .write src dest buf =>
    match a with
    | .ok => some (s.writeChunk src dest buf slotBytes)
    | .fail => some (s.writeChunk src dest buf 0)
    | .short n => if n < slotBytes then some (s.writeChunk src dest buf n) else none
    | .busy => none
  | .clear src dest => statement a (s.clearSource src dest) (s.moveFails .ioerr)
  | .fill src dest => statement a (s.fillSlot src dest) (s.moveFails .ioerr)
  | .commit => statement a s.committed fun busy => if busy then s else s.bad false
  | .rollback retry =>
    -- a ROLLBACK that finds no transaction has done its work
    match a with
    | .ok => some (s.rolledBack retry)
    | .busy => some s
    | _ => none
  | .returned ret => if a = .ok then some (s.next ret) else none
  | .truncStart => statement a { s with work := s.chunks, pc := .truncLast } s.orEnd
  | .truncLast => statement a { s with pc := .truncAllocated } s.truncBad
  | .truncAllocated => statement a { s with pc := .truncDelete (truncateOffset s.work) } s.truncBad
  | .truncDelete offset =>
    statement a { s with work := s.work.filter (·.offset < offset), pc := .truncFile offset }
      s.truncBad
  | .truncFile offset =>
    match a with
    | .ok => some (s.cut offset)
    | .fail => some (s.truncBad false)
    | _ => none
  | .truncCommit =>
    statement a { s with chunks := s.work, pc := .vacuum } fun busy =>
      if busy then s else s.truncBad false
  | .truncRollback retry =>
    match a with
    | .ok => some (s.truncRolledBack retry)
    | .busy => some s
    | _ => none
  | .vacuum => statement a { s with pc := .finished .success } s.orEnd
  | .finished _ | .crash => none

/-- A call of `compact_hoard`. -/
def compactHoard (chunks : List (Chunk Tag)) (file : List UInt8) : Compact :=
  { chunks, work := chunks, file, pc := .gc, below := none, moved := 0, done := false,
    ret := .ioerr, taken := 0, released := 0, commits := 0 }

/-- A call of `_compact_hoard_iteration`. -/
def compactHoardBatch (chunks : List (Chunk Tag)) (file : List UInt8) : Compact :=
  { compactHoard chunks file with pc := .start }

/-! ## Steps -/

variable {refs : List (Ref Tag)} {s s' : Compact} {a : CompactAct} {src : Fetched} {dest : Int}
  {buf : List UInt8} {retry : Bool}

theorem statement_ind {next : Compact} {bad : Bool → Compact} {P : Compact → Prop}
    (h : statement a next bad = some s') (hnext : P next)
    (hbad : ∀ retry, P (bad retry)) : P s' := by
  cases a with
  | ok =>
    cases h
    exact hnext
  | busy =>
    cases h
    exact hbad true
  | fail =>
    cases h
    exact hbad false
  | short n => cases h

theorem step_read (hpc : s.pc = .read src dest) (h : compactStep refs s a = some s') :
    ∃ fails, s' = s.readChunk fails src dest := by
  simp only [compactStep, hpc] at h
  split at h
  · exact ⟨false, (some.inj h).symm⟩
  · exact ⟨true, (some.inj h).symm⟩
  · cases h

theorem step_write (hpc : s.pc = .write src dest buf) (h : compactStep refs s a = some s') :
    ∃ written, s' = s.writeChunk src dest buf written := by
  simp only [compactStep, hpc] at h
  split at h
  · exact ⟨_, (some.inj h).symm⟩
  · exact ⟨_, (some.inj h).symm⟩
  · split at h
    · exact ⟨_, (some.inj h).symm⟩
    · cases h
  · cases h

theorem step_rollback (hpc : s.pc = .rollback retry) (h : compactStep refs s a = some s') :
    s' = s.rolledBack retry ∨ s' = s := by
  simp only [compactStep, hpc] at h
  split at h
  · exact .inl (some.inj h).symm
  · exact .inr (some.inj h).symm
  · cases h

theorem step_truncRollback (hpc : s.pc = .truncRollback retry)
    (h : compactStep refs s a = some s') : s' = s.truncRolledBack retry ∨ s' = s := by
  simp only [compactStep, hpc] at h
  split at h
  · exact .inl (some.inj h).symm
  · exact .inr (some.inj h).symm
  · cases h

theorem Compact.readChunk_eq
    (hread : hoardReadChunk ⟨s.file, fun _ => false⟩ none src.offset src.length src.crypto src.tag
      = .ok buf) (hlen : buf.length ≤ slotBytes) :
    s.readChunk false src dest = { s with pc := .write src dest buf } := by
  obtain ⟨-, -, -, -, -, hbuf, -⟩ := hoardReadChunk_eq_ok.mp hread
  unfold Compact.readChunk
  rw [hread]
  simp only [hbuf, if_neg (not_lt.mpr hlen)]

/-! ## A small hoard cache

Its only chunk is behind a free slot. -/

def sevenTag : Tag := Cache.iuChunkCryptoDigest [7]

def movable (tag : Tag) : List (Chunk Tag) :=
  [{ tag := none, offset := 0, length := 0, crypto := 0, allocated := 0 },
   { tag := some tag, offset := 256, length := 1, crypto := aesSha1, allocated := 1 }]

def movableFile : List UInt8 := List.replicate slotBytes 0 ++ [7]

theorem sevenTag_length : sevenTag.length = cryptoHashlen aesSha1 := by
  rw [sevenTag, Cache.iuChunkCryptoDigest_eq]
  exact Crypto.sha1_length _

theorem pread_movableFile : pread movableFile slotBytes 1 = [7] := by
  rw [pread, movableFile, List.drop_left' List.length_replicate]
  rfl

theorem hoardReadChunk_movable (chunksize : Option Nat) (h : ∀ n ∈ chunksize, 1 ≤ n) :
    hoardReadChunk ⟨movableFile, fun _ => false⟩ chunksize 256 1 aesSha1 sevenTag = .ok [7] := by
  refine hoardReadChunk_eq_ok.mpr ⟨sevenTag_length, by decide, by decide, fun n hn => ?_, rfl,
    pread_movableFile, rfl, rfl⟩
  exact_mod_cast h n hn

/-- Before the read of the first move. -/
def readMovable (tag : Tag) (file : List UInt8) : Compact :=
  { compactHoardBatch (movable tag) file with
    pc := .read ⟨tag, 256, 1, aesSha1⟩ 0, below := some 256, taken := 1 }

theorem readChunk_readMovable :
    (readMovable sevenTag movableFile).readChunk false ⟨sevenTag, 256, 1, aesSha1⟩ 0 =
      { readMovable sevenTag movableFile with pc := .write ⟨sevenTag, 256, 1, aesSha1⟩ 0 [7] } :=
  Compact.readChunk_eq (hoardReadChunk_movable none nofun) (by decide)

end OpenIsr.Hoard
