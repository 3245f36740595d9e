import OpenIsr.Hoard.File

/-!
# Looking up a chunk in the hoard cache (hoard_get_chunk in parcelkeeper/hoard.c)

`hoard_get_chunk` looks the tag up in the slot cache and then in the index, reads the chunk, and if
that fails invalidates the entry and starts again. The wrapper around the invalidation returns
nothing, so that the loop does not know whether the entry is gone. If it is not, the next round is
the same as this one.

There are at most two entries that can be in the way, one in each table. `get_chunk_ends_iff` says
when the loop ends: as many invalidations are committed as there are entries in the way, and each of
them has an offset that is the same as an `int`. The invalidation goes by the `int`, and otherwise
misses its row.
-/

namespace OpenIsr.Hoard

open List Option
open Base (updateWhere wrapInt)
open Cache (PkErr)

/-- What is in the tables about a chunk, and whether that is from the slot cache. -/
structure Entry where
  slotCache : Bool
  offset : Int
  length : Int
  deriving DecidableEq, Repr

/-- The two queries of `hoard_get_chunk`, before the columns are fetched. -/
def findSlot (slots : List (Slot Tag)) (tag : Tag) : Option Entry :=
  (slots.find? (·.tag = some tag)).map fun slot => ⟨true, slot.offset, slot.length⟩

def findChunk (chunks : List (Chunk Tag)) (tag : Tag) : Option Entry :=
  (chunks.find? (·.tag = some tag)).map fun c => ⟨false, c.offset, c.length⟩

def findEntry (v : View Tag) (tag : Tag) : Option Entry :=
  (findSlot v.slots tag).or (findChunk v.chunks tag)

/-- Reading the chunk of an entry. The parcel has chunks of 128 KB. -/
def readEntry (f : HoardFile) (tag : Tag) (e : Entry) : Except PkErr (List UInt8) :=
  hoardReadChunk f (some slotBytes) (wrapInt e.offset) (wrapInt e.length) aesSha1 tag

/-- `hoard_invalidate_slot_chunk` or `hoard_invalidate_chunk`, if the transaction is committed. -/
def invalidateEntry (v : View Tag) (tag : Tag) (e : Entry) : View Tag :=
  if e.slotCache then
    { v with slots := hoardInvalidateSlotChunk v.slots (wrapInt e.offset) }
  else { v with chunks := hoardInvalidateChunk v.chunks (wrapInt e.offset) tag }

/-- The loop of `hoard_get_chunk`, for a number of rounds; `none` if it has not returned by then.
The outcome of a round is whether its invalidation is committed. -/
def getChunkLoop (f : HoardFile) (tag : Tag) :
    List Bool → View Tag → Option (Except PkErr (List UInt8))
  | [], _ => none
  | commits :: outcomes, v =>
    match findEntry v tag with
    | none => some (.error .notfound)
    | some e =>
      match readEntry f tag e with
      | .ok buf => some (.ok buf)
      | .error _ => getChunkLoop f tag outcomes (if commits then invalidateEntry v tag e else v)

/-- `hoard_get_chunk` -/
def hoardGetChunk (hoardDir : Bool) (f : HoardFile) (tag : Tag) (outcomes : List Bool)
    (v : View Tag) : Option (Except PkErr (List UInt8)) :=
  if hoardDir then getChunkLoop f tag outcomes v else some (.error .notfound)

/-! ## What is in the way -/

/-- The offset of an entry that cannot be read. -/
def obstacle (f : HoardFile) (tag : Tag) (e : Entry) : Option Int :=
  match readEntry f tag e with
  | .ok _ => none
  | .error _ => some e.offset

/-- The offsets of the entries that the loop fails to read, if it gets past the first. -/
def obstacles (f : HoardFile) (v : View Tag) (tag : Tag) : List Int :=
  let behind := ((findChunk v.chunks tag).bind (obstacle f tag)).toList
  match findSlot v.slots tag with
  | none => behind
  | some e =>
    match obstacle f tag e with
    | none => []
    | some offset => offset :: behind

/-- The schema of the two tables. -/
structure Unique (v : View Tag) : Prop where
  slots : (v.slots.filterMap (·.tag)).Nodup
  chunks : (v.chunks.filterMap (·.tag)).Nodup

/-- As far as one tag is concerned. -/
structure Once (v : View Tag) (tag : Tag) : Prop where
  slots : Base.OnceIn v.slots (·.tag) tag
  chunks : Base.OnceIn v.chunks (·.tag) tag

theorem Unique.once {v : View Tag} (h : Unique v) (tag : Tag) : Once v tag :=
  ⟨Base.onceIn_of_nodup h.slots tag, Base.onceIn_of_nodup h.chunks tag⟩

section round

variable {f : HoardFile} {v : View Tag} {tag : Tag} {e : Entry} {err : PkErr}

theorem obstacle_of_error (h : readEntry f tag e = .error err) :
    obstacle f tag e = some e.offset := by
  rw [obstacle, h]

theorem findSlot_invalidate {slots : List (Slot Tag)} (h : Base.OnceIn slots (·.tag) tag)
    (he : findSlot slots tag = some e) (offset : Int) :
    findSlot (hoardInvalidateSlotChunk slots offset) tag
      = if e.offset = offset then none else some e := by
  obtain ⟨slot, hslot, rfl⟩ := map_eq_some_iff.mp he
  have htag : slot.tag = some tag := by simpa using find?_some hslot
  have hfind := h.find?_updateWhere (p := (·.offset = offset))
    (f := fun slot => { slot with tag := none, length := 0, crypto := 0 }) (fun _ => rfl)
    (mem_of_find?_eq_some hslot) htag
  rw [findSlot, hoardInvalidateSlotChunk, hfind]
  by_cases hoff : slot.offset = offset <;> simp [hoff]

theorem findChunk_invalidate {chunks : List (Chunk Tag)} (h : Base.OnceIn chunks (·.tag) tag)
    (he : findChunk chunks tag = some e) (offset : Int) :
    findChunk (hoardInvalidateChunk chunks offset tag) tag
      = if e.offset = offset then none else some e := by
  obtain ⟨c, hc, rfl⟩ := map_eq_some_iff.mp he
  have htag : c.tag = some tag := by simpa using find?_some hc
  have hmem := mem_of_find?_eq_some hc
  unfold hoardInvalidateChunk
  by_cases hoff : c.offset = offset
  · have hfind := h.find?_updateWhere (p := (·.offset = offset)) (f := Chunk.clear) (fun _ => rfl)
      hmem htag
    rw [if_pos ⟨c, hmem, hoff, htag⟩, findChunk, hfind]
    simp [hoff]
  · -- the statement before the update finds that the row is not there
    have hguard : ¬ ∃ c ∈ chunks, c.offset = offset ∧ c.tag = some tag := by
      intro ⟨c', hmem', hoff', htag'⟩
      obtain rfl := h c hmem c' hmem' htag htag'
      exact hoff hoff'
    rw [if_neg hguard, he, if_neg hoff]

theorem Once.invalidateEntry (h : Once v tag) (e : Entry) :
    Once (invalidateEntry v tag e) tag := by
  unfold Hoard.invalidateEntry
  split
  next => exact ⟨h.slots.updateWhere fun _ => rfl, h.chunks⟩
  refine ⟨h.slots, ?_⟩
  show Base.OnceIn (hoardInvalidateChunk v.chunks (wrapInt e.offset) tag) (·.tag) tag
  unfold hoardInvalidateChunk
  split
  next => exact h.chunks.updateWhere fun _ => rfl
  next => exact h.chunks

theorem obstacle_eq_none_iff : obstacle f tag e = none ↔ ∃ buf, readEntry f tag e = .ok buf := by
  unfold obstacle
  cases readEntry f tag e with
  | ok buf => exact iff_of_true rfl ⟨buf, rfl⟩
  | error err => exact iff_of_false nofun nofun

/-- There is nothing in the way iff the entry that is found, if there is one, can be read. -/
theorem obstacles_eq_nil_iff :
    obstacles f v tag = [] ↔ ∀ e ∈ findEntry v tag, ∃ buf, readEntry f tag e = .ok buf := by
  unfold obstacles findEntry
  cases findSlot v.slots tag with
  | none =>
    rw [none_or]
    cases findChunk v.chunks tag with
    | none => simp
    | some e => simp [obstacle_eq_none_iff]
  | some e =>
    rw [some_or]
    simp only [mem_some_iff, forall_eq', ← obstacle_eq_none_iff]
    cases obstacle f tag e <;> simp

/-- Otherwise it is the first obstacle that it fails to read; and a committed invalidation takes it
away iff its offset fits an `int`. -/
theorem obstacles_invalidate (h : Once v tag) (he : findEntry v tag = some e)
    (hread : readEntry f tag e = .error err) :
    ∃ rest, obstacles f v tag = e.offset :: rest ∧
      obstacles f (invalidateEntry v tag e) tag
        = if e.offset = wrapInt e.offset then rest else e.offset :: rest := by
  have hobstacle := obstacle_of_error hread
  unfold findEntry at he
  cases hslot : findSlot v.slots tag with
  | some e' =>
    rw [hslot, some_or] at he
    obtain rfl := some.inj he
    have hcache : e'.slotCache = true := by
      obtain ⟨slot, -, rfl⟩ := map_eq_some_iff.mp hslot
      rfl
    refine ⟨((findChunk v.chunks tag).bind (obstacle f tag)).toList, ?_, ?_⟩
    · simp only [obstacles, hslot, hobstacle]
    · simp only [obstacles, invalidateEntry, hcache, if_true, findSlot_invalidate h.slots hslot]
      by_cases hfits : e'.offset = wrapInt e'.offset
      · simp only [if_pos hfits]
      · simp only [if_neg hfits, hobstacle]
  | none =>
    rw [hslot, none_or] at he
    have hcache : e.slotCache = false := by
      obtain ⟨c, -, rfl⟩ := map_eq_some_iff.mp he
      rfl
    refine ⟨[], ?_, ?_⟩
    · simp only [obstacles, hslot, he, bind_some, hobstacle, toList_some]
    · simp only [obstacles, invalidateEntry, hcache, Bool.false_eq_true, if_false, hslot,
        findChunk_invalidate h.chunks he]
      by_cases hfits : e.offset = wrapInt e.offset
      · simp only [if_pos hfits, bind_none, toList_none]
      · simp only [if_neg hfits, bind_some, hobstacle, toList_some]

/-! ## The loop -/

/-- Without an obstacle the loop returns in the first round, -/
theorem getChunkLoop_free (hfree : obstacles f v tag = []) (commits : Bool) (outcomes : List Bool) :
    (getChunkLoop f tag (commits :: outcomes) v).isSome = true := by
  rw [getChunkLoop]
  cases he : findEntry v tag with
  | none => rfl
  | some e =>
    obtain ⟨buf, hbuf⟩ := obstacles_eq_nil_iff.mp hfree e he
    simp only [hbuf, isSome_some]

/-- and otherwise it goes on, with one obstacle less if it could take it away. -/
theorem getChunkLoop_step (h : Once v tag) {offset : Int} {rest : List Int}
    (hobs : obstacles f v tag = offset :: rest) (commits : Bool) (outcomes : List Bool) :
    ∃ v', Once v' tag ∧
      obstacles f v' tag = (if commits ∧ offset = wrapInt offset then rest else offset :: rest) ∧
      getChunkLoop f tag (commits :: outcomes) v = getChunkLoop f tag outcomes v' := by
  have hfound : ∃ e err, findEntry v tag = some e ∧ readEntry f tag e = .error err := by
    by_contra hnot
    have hnil : obstacles f v tag = [] := by
      refine obstacles_eq_nil_iff.mpr fun e he => ?_
      cases hread : readEntry f tag e with
      | ok buf => exact ⟨buf, rfl⟩
      | error err => exact absurd ⟨e, err, he, hread⟩ hnot
    cases hobs.symm.trans hnil
  obtain ⟨e, err, he, hread⟩ := hfound
  obtain ⟨rest', hobs', hafter⟩ := obstacles_invalidate h he hread
  obtain ⟨rfl, rfl⟩ := List.cons.inj (hobs.symm.trans hobs')
  simp only [getChunkLoop, he, hread]
  cases commits with
  | true => exact ⟨_, h.invalidateEntry e, by simpa using hafter, by rw [if_pos rfl]⟩
  | false => exact ⟨v, h, by simpa using hobs, by rw [if_neg Bool.false_ne_true]⟩

/-- It has returned after one round more than the given ones iff these have taken all obstacles
away. -/
theorem getChunkLoop_iff (last : Bool) (outcomes : List Bool) :
    ∀ {v : View Tag}, Once v tag →
      ((getChunkLoop f tag (outcomes ++ [last]) v).isSome = true ↔
        (∀ o ∈ obstacles f v tag, o = wrapInt o) ∧
          (obstacles f v tag).length ≤ outcomes.count true) := by
  induction outcomes with
  | nil =>
    intro v h
    cases hobs : obstacles f v tag with
    | nil => simp [getChunkLoop_free hobs]
    | cons offset rest =>
      obtain ⟨v', -, -, hloop⟩ := getChunkLoop_step h hobs last []
      simp [hloop, getChunkLoop]
  | cons commits outcomes ih =>
    intro v h
    rw [cons_append]
    cases hobs : obstacles f v tag with
    | nil => simp [getChunkLoop_free hobs]
    | cons offset rest =>
      obtain ⟨v', h', hobs', hloop⟩ := getChunkLoop_step h hobs commits (outcomes ++ [last])
      rw [hloop, ih h', hobs']
      cases commits with
      | false => simp
      | true =>
        by_cases hfits : offset = wrapInt offset
        · simp [← hfits]
        · -- an offset that does not fit stays where it is
          simp [hfits]

end round

/-- The tag of a chunk that is in the slot cache, but not in the file. -/
def lostTag : Tag := replicate 20 7

def lostView : View Tag := { chunks := [], slots := [⟨some lostTag, 0, 1, 2⟩] }

def emptyFile : HoardFile := { data := [], broken := fun _ => false }

theorem unique_lost : Unique lostView := ⟨by decide, by decide⟩

theorem obstacles_lost : obstacles emptyFile lostView lostTag = [0] := by decide

end OpenIsr.Hoard
