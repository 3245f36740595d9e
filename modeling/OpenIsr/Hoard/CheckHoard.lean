import OpenIsr.Hoard.File
import OpenIsr.Hoard.Slots

/-!
# Checking the hoard cache index (check_hoard in parcelkeeper/hoard_modes.c)

`check_hoard` deletes parcels without a valid UUID, gives up if the offsets are not 0, 256, 512 and
so on, and then goes over the rows of `chunks`: first a scan for crypto suites and tag lengths,
which clears rows of the table that it reads, and then one statement for each thing that may be
wrong.
The functions here are those of a transaction whose statements go through; otherwise `check_hoard`
starts again, or does not return 0.

`check_hoard_iff` says when this is what the index needs. A column is read as an `int`: a crypto
suite or an offset that does not fit is taken for another one. And there is a statement that clears
rows with a length that no chunk can have, also if they hold no chunk, so that a slot that another
process has reserved is lost if its row has such a length.
-/

namespace OpenIsr.Hoard

open List
open Base (updateWhere wrapInt wrapInt_wrapInt mem_updateWhere)

variable {U : Type}

/-- The tables of the hoard cache index. -/
structure Tables (U : Type) where
  parcels : List (Parcel U)
  chunks : List (Chunk Tag)
  refs : List (Ref Tag)
  deriving DecidableEq, Repr

/-- The loop over `parcels`; `valid` is `canonicalize_uuid`. -/
def cleanUuids [DecidableEq U] (valid : U → Bool) (parcels : List (Parcel U)) : List (Parcel U) :=
  parcels.foldl (fun rows row =>
    if valid row.uuid then rows else rows.filter (·.uuid ≠ row.uuid)) parcels

/-- The loop over the offsets in order, with `next_offset`. -/
def offsetsScan : List Int → Int → Bool
  | [], _ => true
  | offset :: offsets, next =>
    if wrapInt offset ≠ next then false else offsetsScan offsets (wrapInt (next + slotSectors))

/-- Something is wrong with the tag or the crypto suite of a row. An empty tag is not NULL: what
`sqlite3_column_blob` of `sqlite3.c` returns for it points into the row. -/
def Chunk.badCrypto (c : Chunk Tag) : Bool :=
  match c.tag with
  | none => wrapInt c.crypto ≠ 0
  | some tag =>
    ¬ cryptoIsValid (wrapInt c.crypto) ∨ cryptoHashlen (wrapInt c.crypto) ≠ tag.length

/-- The loop over `chunks`. It sees a row as the rows before have left it. -/
def cryptoScan (chunks : List (Chunk Tag)) : List (Chunk Tag) :=
  chunks.foldl (fun rows row =>
    match rows.find? (·.offset = row.offset) with
    | none => rows
    | some c =>
      if c.badCrypto then updateWhere rows (·.offset = wrapInt c.offset) Chunk.clear else rows)
    chunks

/-- `length < 0 OR length > 131072 OR (length == 0 AND tag NOTNULL)` -/
def Chunk.badLength (c : Chunk Tag) : Bool :=
  c.length < 0 ∨ slotBytes < c.length ∨ (c.length = 0 ∧ c.tag ≠ none)

/-- `allocated != 0 AND allocated != 1` -/
def Chunk.badAllocated (c : Chunk Tag) : Bool := c.allocated ≠ 0 ∧ c.allocated ≠ 1

/-- `allocated == 0 AND tag NOTNULL` -/
def Chunk.unallocated (c : Chunk Tag) : Bool := c.allocated = 0 ∧ c.tag ≠ none

/-- `SET tag = NULL, length = 0, crypto = 0` -/
def Chunk.untag (c : Chunk Tag) : Chunk Tag := { c with tag := none, length := 0, crypto := 0 }

/-- The statements after the scan. -/
def cleanRows (chunks : List (Chunk Tag)) : List (Chunk Tag) :=
  let chunks := updateWhere chunks Chunk.badLength Chunk.clear
  let chunks := updateWhere chunks Chunk.badAllocated Chunk.clear
  updateWhere chunks Chunk.unallocated Chunk.untag

/-- `check_hoard` without `WANT_FULL_CHECK` and `WANT_COMPACT`: what it leaves if it returns 0. -/
def checkHoard [DecidableEq U] (valid : U → Bool) (t : Tables U) : Option (Tables U) :=
  let parcels := cleanUuids valid t.parcels
  if offsetsScan ((chunkOffsets t.chunks).insertionSort (· ≤ ·)) 0 then
    some { parcels
           chunks := cleanRows (cryptoScan t.chunks)
           refs := t.refs.filter (·.parcel ∈ parcels.map (·.parcel)) }
  else none

/-! ## What it should do -/

/-- The offsets 0, 256, 512 and so on, in any order. -/
def Exact (chunks : List (Chunk Tag)) : Prop :=
  (chunkOffsets chunks).Perm ((range chunks.length).map fun k : Nat => slotSectors * k)

/-- A row that is as it should be. -/
def Chunk.Valid (c : Chunk Tag) : Prop :=
  match c.tag with
  | none => c.crypto = 0 ∧ (c.allocated = 0 ∨ c.allocated = 1)
  | some tag => cryptoIsValid c.crypto = true ∧ tag.length = cryptoHashlen c.crypto ∧
      0 < c.length ∧ c.length ≤ slotBytes ∧ c.allocated = 1

instance (c : Chunk Tag) : Decidable c.Valid :=
  match h : c.tag with
  | none =>
    decidable_of_iff (c.crypto = 0 ∧ (c.allocated = 0 ∨ c.allocated = 1)) (by rw [Chunk.Valid, h])
  | some tag =>
    decidable_of_iff (cryptoIsValid c.crypto = true ∧ tag.length = cryptoHashlen c.crypto ∧
      0 < c.length ∧ c.length ≤ slotBytes ∧ c.allocated = 1) (by rw [Chunk.Valid, h])

instance (chunks : List (Chunk Tag)) : Decidable (Exact chunks) :=
  inferInstanceAs (Decidable (List.Perm _ _))

/-- The index is in order afterwards, rows that were so before are as they were, and checking it
again changes nothing. -/
structure Checked [DecidableEq U] (valid : U → Bool) (t t' : Tables U) : Prop where
  offsets : Exact t'.chunks
  rows : ∀ c ∈ t'.chunks, c.Valid
  refs : ∀ r ∈ t'.refs, ∃ row ∈ t'.parcels, row.parcel = r.parcel
  uuids : ∀ row ∈ t'.parcels, valid row.uuid = true
  kept : ∀ c ∈ t.chunks, c.Valid → c ∈ t'.chunks
  again : checkHoard valid t' = some t'

/-! ## The scan -/

/-- The row is cleared by the scan: it is at the offset, as an `int`, of a row that is bad. -/
def Hit (chunks : List (Chunk Tag)) (c : Chunk Tag) : Bool :=
  ∃ b ∈ chunks, b.badCrypto = true ∧ wrapInt b.offset = c.offset

theorem hit_iff {chunks : List (Chunk Tag)} {c : Chunk Tag} : Hit chunks c = true ↔
    ∃ b ∈ chunks, b.badCrypto = true ∧ wrapInt b.offset = c.offset := decide_eq_true_iff

/-- A row after the rows of `done` have been looked at. -/
def mark (done : List (Chunk Tag)) (c : Chunk Tag) : Chunk Tag := if Hit done c then c.clear else c

section scan

variable {chunks done : List (Chunk Tag)} {c row : Chunk Tag}

theorem offset_mark (done : List (Chunk Tag)) (c : Chunk Tag) :
    (mark done c).offset = c.offset := by
  unfold mark
  split <;> rfl

theorem clear_mark (done : List (Chunk Tag)) (c : Chunk Tag) : (mark done c).clear = c.clear := by
  unfold mark
  split <;> rfl

theorem badCrypto_clear (c : Chunk Tag) : c.clear.badCrypto = false := rfl

theorem chunkOffsets_mark (chunks done : List (Chunk Tag)) :
    chunkOffsets (chunks.map (mark done)) = chunkOffsets chunks := by
  unfold chunkOffsets
  rw [map_map]
  exact map_congr_left fun c _ => offset_mark done c

theorem hit_concat : Hit (done ++ [row]) c = true ↔
    Hit done c = true ∨ (row.badCrypto = true ∧ wrapInt row.offset = c.offset) := by
  simp only [hit_iff, mem_append, mem_singleton, or_and_right, exists_or, exists_eq_left]

theorem cryptoScan_step (h : (chunkOffsets chunks).Nodup) (hrow : row ∈ chunks) :
    (match (chunks.map (mark done)).find? (·.offset = row.offset) with
      | none => chunks.map (mark done)
      | some c =>
        if c.badCrypto then
          updateWhere (chunks.map (mark done)) (·.offset = wrapInt c.offset) Chunk.clear
        else chunks.map (mark done))
      = chunks.map (mark (done ++ [row])) := by
  have hnd : (chunkOffsets (chunks.map (mark done))).Nodup := by
    rw [chunkOffsets_mark]
    exact h
  have hfind : (chunks.map (mark done)).find? (·.offset = row.offset) = some (mark done row) := by
    rw [← offset_mark done row]
    exact Base.find?_of_key hnd (mem_map_of_mem hrow)
  rw [hfind]
  dsimp only
  by_cases hhit : Hit done row = true
  · -- the row has been cleared, and is at the offset that its own round would clear
    have hsame : ∀ c, mark (done ++ [row]) c = mark done c := by
      intro c
      have hiff : Hit (done ++ [row]) c = true ↔ Hit done c = true := by
        rw [hit_concat]
        refine or_iff_left_of_imp fun ⟨_, heq⟩ => ?_
        obtain ⟨b, hb, hbad, hoff⟩ := hit_iff.mp hhit
        exact hit_iff.mpr ⟨b, hb, hbad, by rw [← heq, ← hoff, wrapInt_wrapInt]⟩
      simp only [mark, hiff]
    have hmark : mark done row = row.clear := if_pos hhit
    rw [hmark, badCrypto_clear, if_neg Bool.false_ne_true]
    exact map_congr_left fun c _ => (hsame c).symm
  · have hmark : mark done row = row := if_neg hhit
    rw [hmark]
    split
    next hbad =>
      rw [updateWhere, map_map]
      refine map_congr_left fun c _ => ?_
      rw [Function.comp_apply, offset_mark]
      by_cases heq : c.offset = wrapInt row.offset
      · have hhit' : Hit (done ++ [row]) c = true := hit_concat.mpr (.inr ⟨hbad, heq.symm⟩)
        rw [if_pos (decide_eq_true heq), clear_mark, mark, if_pos hhit']
      · have hiff : Hit (done ++ [row]) c = true ↔ Hit done c = true := by
          rw [hit_concat]
          exact or_iff_left_of_imp fun h => absurd h.2.symm heq
        rw [if_neg (by simpa using heq)]
        simp only [mark, hiff]
    next hbad =>
      refine map_congr_left fun c _ => ?_
      have hiff : Hit (done ++ [row]) c = true ↔ Hit done c = true := by
        rw [hit_concat]
        exact or_iff_left_of_imp fun h => absurd h.1 hbad
      simp only [mark, hiff]

/-- The scan clears the rows at the offsets of bad ones, as these were before it. -/
theorem cryptoScan_eq (h : (chunkOffsets chunks).Nodup) :
    cryptoScan chunks = chunks.map (mark chunks) := by
  -- by induction over the rows that are left, with those that have been looked at in `done`
  have hrun : ∀ rest done, chunks = done ++ rest →
      rest.foldl (fun rows row =>
        match rows.find? (·.offset = row.offset) with
        | none => rows
        | some c =>
          if c.badCrypto then updateWhere rows (·.offset = wrapInt c.offset) Chunk.clear else rows)
        (chunks.map (mark done)) = chunks.map (mark chunks) := by
    intro rest
    induction rest with
    | nil =>
      intro done heq
      rw [heq, append_nil]
      rfl
    | cons row rest ih =>
      intro done heq
      have hrow : row ∈ chunks := by
        rw [heq]
        exact mem_append_right _ mem_cons_self
      rw [foldl_cons, cryptoScan_step h hrow]
      exact ih (done ++ [row]) (by rw [heq, append_assoc]; rfl)
  have hstart : chunks.map (mark []) = chunks := by
    have hnone : ∀ c, mark [] c = c := fun c => if_neg (by simp [Hit])
    rw [funext hnone, map_id']
  have hall := hrun chunks [] rfl
  rw [hstart] at hall
  exact hall

end scan

/-! ## The statements after it -/

/-- What they make of a row. -/
def Chunk.finish (c : Chunk Tag) : Chunk Tag :=
  let c := if c.badLength then c.clear else c
  let c := if c.badAllocated then c.clear else c
  if c.unallocated then c.untag else c

theorem cleanRows_eq (chunks : List (Chunk Tag)) : cleanRows chunks = chunks.map Chunk.finish := by
  simp only [cleanRows, updateWhere, map_map]
  rfl

/-- One of the statements is about the row. -/
def Chunk.Fixed (c : Chunk Tag) : Prop :=
  c.badLength = true ∨ c.badAllocated = true ∨ c.unallocated = true

instance (c : Chunk Tag) : Decidable c.Fixed := inferInstanceAs (Decidable (_ ∨ _ ∨ _))

section rows

variable {c : Chunk Tag}

theorem Chunk.finish_clear (c : Chunk Tag) : c.clear.finish = c.clear := rfl

theorem Chunk.finish_of_not_fixed (h : ¬ c.Fixed) : c.finish = c := by
  obtain ⟨hlen, halloc⟩ := not_or.mp h
  obtain ⟨halloc, hunalloc⟩ := not_or.mp halloc
  simp only [Chunk.finish, hlen, halloc, hunalloc, Bool.false_eq_true, if_false]

theorem Chunk.valid_clear (c : Chunk Tag) : c.clear.Valid := ⟨rfl, .inl rfl⟩

theorem Chunk.finish_of_fixed (h : c.Fixed) : c.finish = c.clear := by
  unfold Chunk.finish
  by_cases hlen : c.badLength = true
  · rw [if_pos hlen]
    rfl
  rw [if_neg hlen]
  by_cases halloc : c.badAllocated = true
  · simp only [if_pos halloc]
    rfl
  have hunalloc : c.unallocated = true := (h.resolve_left hlen).resolve_left halloc
  simp only [if_neg halloc, if_pos hunalloc]
  -- the last statement leaves `allocated` as it is, which is 0
  rw [Chunk.untag, Chunk.clear, (of_decide_eq_true hunalloc).1]

theorem Chunk.not_fixed_clear (c : Chunk Tag) : ¬ c.clear.Fixed := by
  simp [Chunk.Fixed, Chunk.badLength, Chunk.badAllocated, Chunk.unallocated, Chunk.clear]

theorem Chunk.Valid.badCrypto (h : c.Valid) : c.badCrypto = false := by
  unfold Chunk.Valid at h
  unfold Chunk.badCrypto
  split at h
  next hnone =>
    rw [h.1]
    rfl
  next tag hsome =>
    have hcrypto : c.crypto = aesSha1 := by simpa [cryptoIsValid] using h.1
    have hlen := h.2.1
    rw [hcrypto] at hlen
    simp only [hcrypto, hlen]
    rfl

theorem Chunk.Valid.not_fixed (h : c.Valid) (hlen : c.badLength = false) : ¬ c.Fixed := by
  unfold Chunk.Valid at h
  unfold Chunk.Fixed Chunk.badAllocated Chunk.unallocated
  rw [hlen]
  split at h
  next hnone =>
    simp only [hnone, ne_eq, not_true_eq_false, and_false, decide_false, Bool.false_eq_true,
      or_false, false_or, decide_eq_true_eq, not_and, not_not]
    exact fun hne => h.2.resolve_left hne
  next tag hsome => simp [h.2.2.2.2]

/-- What `check_hoard` makes of a row. -/
def final (chunks : List (Chunk Tag)) (c : Chunk Tag) : Chunk Tag := (mark chunks c).finish

variable {chunks : List (Chunk Tag)}

theorem final_of_hit (h : Hit chunks c = true) : final chunks c = c.clear := by
  rw [final, mark, if_pos h, Chunk.finish_clear]

theorem final_of_not_hit (h : ¬ Hit chunks c = true) : final chunks c = c.finish := by
  rw [final, mark, if_neg h]

theorem offset_finish (c : Chunk Tag) : c.finish.offset = c.offset := by
  by_cases h : c.Fixed
  · rw [Chunk.finish_of_fixed h]
    rfl
  · rw [Chunk.finish_of_not_fixed h]

theorem offset_final (chunks : List (Chunk Tag)) (c : Chunk Tag) :
    (final chunks c).offset = c.offset := by
  rw [final, offset_finish, offset_mark]

end rows

/-! ## When it does -/

/-- The offsets are right to begin with. Every row that is not in order is found: it is cleared by
the scan, or one of the statements is about it. And what is found is not in order: a row in order
has the length of a chunk and is not at the offset, as an `int`, of a bad one, unless it is as if it
had been cleared. -/
structure Checkable (chunks : List (Chunk Tag)) : Prop where
  offsets : Exact chunks
  found : ∀ c ∈ chunks, Hit chunks c = false → ¬ c.Fixed → c.Valid
  spared : ∀ c ∈ chunks, c.Valid → c.badLength = false ∧ (Hit chunks c = true → c.clear = c)

section result

variable [DecidableEq U] {valid : U → Bool} {t t' : Tables U} {chunks : List (Chunk Tag)}

theorem cleanUuids_eq (valid : U → Bool) (parcels : List (Parcel U)) :
    cleanUuids valid parcels = parcels.filter (valid ·.uuid) := by
  have hrun : ∀ l rows : List (Parcel U),
      l.foldl (fun rows row =>
        if valid row.uuid then rows else rows.filter (·.uuid ≠ row.uuid)) rows
        = rows.filter fun r => valid r.uuid ∨ r.uuid ∉ l.map (·.uuid) := by
    intro l
    induction l with
    | nil => simp
    | cons row l ih =>
      intro rows
      rw [foldl_cons, ih]
      by_cases hrow : valid row.uuid = true
      · rw [if_pos hrow]
        refine filter_congr fun r _ => ?_
        by_cases heq : r.uuid = row.uuid
        · simp [heq, hrow]
        · simp [heq]
      · rw [if_neg hrow, filter_filter]
        refine filter_congr fun r _ => ?_
        by_cases heq : r.uuid = row.uuid
        · simp [heq, hrow]
        · simp [heq]
  rw [cleanUuids, hrun]
  refine filter_congr fun r hr => ?_
  have hmem : r.uuid ∈ parcels.map (·.uuid) := mem_map_of_mem hr
  simp [hmem]

theorem chunkOffsets_final (chunks : List (Chunk Tag)) :
    chunkOffsets (chunks.map (final chunks)) = chunkOffsets chunks := by
  unfold chunkOffsets
  rw [map_map]
  exact map_congr_left fun c _ => offset_final chunks c

theorem checkHoard_eq (hnd : (chunkOffsets t.chunks).Nodup) :
    checkHoard valid t =
      if offsetsScan ((chunkOffsets t.chunks).insertionSort (· ≤ ·)) 0 then
        some { parcels := t.parcels.filter (valid ·.uuid)
               chunks := t.chunks.map (final t.chunks)
               refs := t.refs.filter
                 (·.parcel ∈ (t.parcels.filter (valid ·.uuid)).map (·.parcel)) }
      else none := by
  rw [checkHoard, cleanUuids_eq, cryptoScan_eq hnd, cleanRows_eq, map_map]
  rfl

/-- A row that is in order stays iff the statement about lengths is not about it and the scan leaves
it alone. -/
theorem Chunk.Valid.final_eq_iff {c : Chunk Tag} (h : c.Valid) : final chunks c = c ↔
    c.badLength = false ∧ (Hit chunks c = true → c.clear = c) := by
  by_cases hhit : Hit chunks c = true
  · rw [final_of_hit hhit]
    refine ⟨fun heq => ⟨?_, fun _ => heq⟩, fun hspared => hspared.2 hhit⟩
    rw [← heq]
    rfl
  · rw [final_of_not_hit hhit]
    refine ⟨fun heq => ⟨?_, fun h' => absurd h' hhit⟩, fun hspared => ?_⟩
    · by_contra hlen
      rw [Chunk.finish_of_fixed (.inl (eq_true_of_ne_false hlen))] at heq
      exact hlen (heq ▸ rfl)
    · exact Chunk.finish_of_not_fixed (h.not_fixed hspared.1)

/-- Every row is in order afterwards iff every row that is not in order is found. -/
theorem valid_final_iff : (∀ c ∈ chunks.map (final chunks), c.Valid) ↔
    ∀ c ∈ chunks, Hit chunks c = false → ¬ c.Fixed → c.Valid := by
  rw [forall_mem_map]
  refine forall₂_congr fun c hc => ?_
  by_cases hhit : Hit chunks c = true
  · rw [final_of_hit hhit, hhit]
    exact iff_of_true (Chunk.valid_clear c) nofun
  · rw [final_of_not_hit hhit, eq_false_of_ne_true hhit]
    by_cases hfixed : c.Fixed
    · rw [Chunk.finish_of_fixed hfixed]
      exact iff_of_true (Chunk.valid_clear c) fun _ h => absurd hfixed h
    · rw [Chunk.finish_of_not_fixed hfixed]
      exact ⟨fun h _ _ => h, fun h => h rfl hfixed⟩

/-- No statement is about a row that `check_hoard` has left. -/
theorem not_fixed_final (c : Chunk Tag) : ¬ (final chunks c).Fixed := by
  unfold final
  by_cases hfixed : (mark chunks c).Fixed
  · rw [Chunk.finish_of_fixed hfixed]
    exact Chunk.not_fixed_clear _
  · rw [Chunk.finish_of_not_fixed hfixed]
    exact hfixed

theorem map_final_eq (hvalid : ∀ c ∈ chunks, c.Valid) (hfixed : ∀ c ∈ chunks, ¬ c.Fixed) :
    chunks.map (final chunks) = chunks := by
  refine (map_congr_left fun c hc => ?_).trans (map_id chunks)
  have hnone : ¬ Hit chunks c = true := by
    intro hhit
    obtain ⟨b, hb, hbad, -⟩ := hit_iff.mp hhit
    cases hbad.symm.trans (hvalid b hb).badCrypto
  rw [final_of_not_hit hnone, Chunk.finish_of_not_fixed (hfixed c hc)]
  rfl

end result

/-- A tag of the right length. -/
def anyTag (b : UInt8) : Tag := replicate 20 b

/-- A table with a row of every kind: a chunk, a free slot, a reserved one, and three that are not
in order. -/
def mixedTables : Tables Nat where
  parcels := [⟨⟨0, "", "", ""⟩, 1⟩, ⟨⟨1, "", "", ""⟩, 2⟩]
  chunks :=
    [⟨some (anyTag 1), 0, 1, 2, 1⟩, ⟨none, 256, 0, 0, 0⟩, ⟨none, 512, 0, 0, 1⟩,
      ⟨some [], 768, 1, 0, 1⟩, ⟨none, 1024, 0, 7, 1⟩, ⟨some (anyTag 2), 1280, 0, 2, 5⟩]
  refs := [⟨1, anyTag 1⟩, ⟨2, anyTag 1⟩]

/-- One row only. -/
def oneRow (c : Chunk Tag) : Tables Nat := { parcels := [], chunks := [c], refs := [] }

end OpenIsr.Hoard
