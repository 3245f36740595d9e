import OpenIsr.Hoard.Exclusive

/-!
# The hoard command

`hoard()` lists the tags of the previous keyring that are not in the hoard cache, and fetches a
chunk for each of them that nobody else has stored in the meantime. `transport_fetch_chunk` stores
what it has fetched with `hoard_put_chunk`, and does not look at the result. So a chunk whose
`hoard_put_chunk` fails counts as hoarded, and `hoard()` may return 0 without it.

Other processes go on while `hoard()` runs, and any call may fail, or find the database busy, in
which case it is made again.
-/

namespace OpenIsr.Hoard

open List Option
open Base (updateWhere mem_updateWhere mem_updateWhere_of mem_updateWhere_of_not)

variable {P T U : Type} {p : P} {crypto : Int} {t : Txn Tag U}

/-! ## Tags are kept -/

/-- Some slot of the hoard cache holds a chunk with this tag. -/
def HasTag (chunks : List (Chunk T)) (tag : T) : Prop := ∃ c ∈ chunks, c.tag = some tag

/-- The tag is in the hoard cache, or in the slot cache. -/
def View.Has (v : View T) (tag : T) : Prop :=
  HasTag v.chunks tag ∨ ∃ slot ∈ v.slots, slot.tag = some tag

variable {chunks chunks' : List (Chunk T)} {own own' : List Int} {tag : T}

theorem Takes.hasTag (h : Takes chunks own chunks' own') (ho : Owns chunks own)
    (htag : HasTag chunks tag) : HasTag chunks' tag := by
  obtain ⟨c, hc, hct⟩ := htag
  refine ⟨c, h.kept c hc (fun hf => ?_) fun hown => ?_, hct⟩
  · rw [hf.2] at hct
    cases hct
  · rw [(ho.reserved_of_mem hc hown).2] at hct
    cases hct

theorem TableOk.moveChunk_hasTag (h : TableOk chunks) {c slot : Chunk T} (hc : c ∈ chunks)
    (hslot : slot ∈ chunks) (hfree : slot.Free) (hne : slot.offset ≠ c.offset)
    (htag : HasTag chunks tag) : HasTag (Hoard.moveChunk chunks c slot.offset) tag := by
  obtain ⟨d, hd, hdt⟩ := htag
  have hds : d.offset ≠ slot.offset := by
    intro heq
    rw [h.eq_of_offset hd hslot heq, hfree.2] at hdt
    cases hdt
  by_cases hdc : d.offset = c.offset
  · rw [h.eq_of_offset hd hc hdc] at hdt
    have hkept : slot ∈ updateWhere chunks (·.offset = c.offset) Chunk.clear :=
      mem_updateWhere_of_not hslot (decide_eq_false hne)
    exact ⟨_, mem_updateWhere_of hkept (decide_eq_true rfl), hdt⟩
  · exact ⟨d, mem_updateWhere_of_not (mem_updateWhere_of_not hd (decide_eq_false hdc))
      (decide_eq_false hds), hdt⟩

theorem TableOk.compactLoop_hasTag (n : Nat) : ∀ {chunks : List (Chunk T)}, TableOk chunks →
    ∀ below : Option Int, HasTag chunks tag →
      HasTag (Hoard.compactLoop n below chunks).chunks tag := by
  induction n with
  | zero => exact fun _ _ htag => htag
  | succ n ih =>
    intro chunks h below htag
    unfold Hoard.compactLoop
    split
    next => exact htag
    next c hnext =>
      split
      next => exact htag
      next slot hlow =>
        split
        next => exact htag
        next hlt =>
          obtain ⟨hc, hct, -⟩ := nextChunk_spec hnext
          obtain ⟨hslot, hz⟩ := lowestFree_spec hlow
          have hfree := h.free hslot hz
          refine ih (h.moveChunk hc hct hslot hfree).table _ ?_
          exact h.moveChunk_hasTag hc hslot hfree (ne_of_lt (not_le.mp hlt)) htag

section cache

variable [DecidableEq T] {v : View T}

theorem flushSlot_hasTag {slot : Slot T} (hmem : slot.offset ∈ chunkOffsets chunks)
    (htag : slot.tag = some tag) : HasTag (flushSlot chunks slot) tag := by
  unfold flushSlot
  split
  next hx =>
    obtain ⟨-, c, hc, hct, hne⟩ := hx
    exact ⟨c, mem_updateWhere_of_not hc (decide_eq_false hne), hct.trans htag⟩
  next =>
    obtain ⟨c, hc, hco⟩ := mem_chunkOffsets.mp hmem
    exact ⟨_, mem_updateWhere_of hc (decide_eq_true hco), htag⟩

theorem Owns.flushSlots_hasTag {slots : List (Slot T)} {rest : List Int} :
    ∀ {chunks : List (Chunk T)}, Owns chunks (slotOffsets slots ++ rest) →
      ∀ slot ∈ slots, slot.tag = some tag → HasTag (slots.foldl Hoard.flushSlot chunks) tag := by
  induction slots with
  | nil => exact fun _ => nofun
  | cons first slots ih =>
    intro chunks h slot hslot htag
    have hone : Takes chunks _ _ (slotOffsets slots ++ rest) := h.flushSlot
    rcases mem_cons.mp hslot with rfl | hslot
    · obtain ⟨c, hc, hco, -⟩ := h.reserved slot.offset (mem_cons_self ..)
      have hnow := flushSlot_hasTag (mem_chunkOffsets.mpr ⟨c, hc, hco⟩) htag
      exact hone.owns.flushSlots.hasTag hone.owns hnow
    · exact ih hone.owns slot hslot htag

section

variable (h : Owns v.chunks (slotOffsets v.slots))
include h

theorem Owns.flushSlotCache_hasTag (htag : v.Has tag) :
    HasTag (Hoard.flushSlotCache v).chunks tag := by
  rcases htag with htag | ⟨slot, hslot, htag⟩
  · exact h.flushSlotCache.hasTag h htag
  · have hperm := h.perm (slotOffsets_split v.slots)
    have hmem : slot ∈ v.slots.filter (·.tag ≠ none) :=
      mem_filter.mpr ⟨hslot, by simp [htag]⟩
    obtain ⟨c, hc, hct⟩ := hperm.owns.flushSlots_hasTag slot hmem htag
    -- freeing the unused slots changes no tag
    unfold Hoard.flushSlotCache
    by_cases hx : c.offset ∈ slotOffsets (v.slots.filter (·.tag = none))
    · exact ⟨_, mem_updateWhere_of hc (decide_eq_true hx), hct⟩
    · exact ⟨c, mem_updateWhere_of_not hc (decide_eq_false hx), hct⟩

theorem Owns.allocateSlot_has {v' : View T} {o : Int}
    (halloc : Hoard.allocateSlot v = some (v', o)) (hrange : InRange v'.chunks) :
    (∀ tag, v.Has tag → v'.Has tag) ∧ ∃ slot ∈ v'.slots, slot.offset = o ∧ slot.tag = none := by
  have hfound : ∀ {slots : List (Slot T)}, unusedSlot slots = some o →
      ∃ slot ∈ slots, slot.offset = o ∧ slot.tag = none := by
    intro slots hu
    obtain ⟨slot, hslot, rfl⟩ := map_eq_some_iff.mp hu
    exact ⟨slot, mem_of_find?_eq_some hslot, rfl, by simpa using find?_some hslot⟩
  unfold Hoard.allocateSlot at halloc
  split at halloc
  next hx =>
    cases halloc
    exact ⟨fun _ => id, hfound hx⟩
  next =>
    split at halloc
    next => cases halloc
    next w hexp =>
      obtain ⟨o', ho, heq⟩ := map_eq_some_iff.mp halloc
      cases heq
      have hflush := h.flushSlotCache
      have hgrow := Owns.expandSlotCache (v := Hoard.flushSlotCache v) hflush.owns hexp hrange
      refine ⟨fun tag htag => .inl ?_, hfound ho⟩
      exact hgrow.hasTag hflush.owns (h.flushSlotCache_hasTag htag)

theorem Owns.hoardPutChunk_has {v' : View T} {new : T} {length : Int} {offset : Option Int}
    (hput : Hoard.hoardPutChunk v new length crypto = some (v', offset))
    (hrange : InRange v'.chunks) : v'.Has new ∧ ∀ tag, v.Has tag → v'.Has tag := by
  unfold Hoard.hoardPutChunk at hput
  split at hput
  next hx =>
    cases hput
    refine ⟨hx.symm.imp (fun hc => ?_) fun hs => ?_, fun _ => id⟩
    · obtain ⟨c, hc, hct⟩ := mem_map.mp hc
      exact ⟨c, hc, hct⟩
    · obtain ⟨slot, hslot, hst⟩ := mem_map.mp hs
      exact ⟨slot, hslot, hst⟩
  next =>
    obtain ⟨⟨w, o⟩, halloc, heq⟩ := map_eq_some_iff.mp hput
    cases heq
    have hown := (h.allocateSlot halloc hrange).1.owns
    obtain ⟨hhas, slot, hslot, hso, hunused⟩ := h.allocateSlot_has halloc hrange
    refine ⟨.inr ⟨_, mem_updateWhere_of hslot (decide_eq_true hso), rfl⟩, fun tag htag => ?_⟩
    refine (hhas tag htag).imp_right ?_
    rintro ⟨slot', hslot', htag'⟩
    refine ⟨slot', mem_updateWhere_of_not hslot' (decide_eq_false fun heq => ?_), htag'⟩
    rw [Base.eq_of_key hown.nodup hslot' hslot (heq.trans hso.symm), hunused] at htag'
    cases htag'

end

end cache

/-! ## Other processes -/

section others

variable [DecidableEq T] [DecidableEq U] [DecidableEq P] [Fintype P] {s s' : St P T U}
  {a : Act P T U} {proc : Proc T U}

/-- The tag is in the hoard cache, or in the slot cache of the process. -/
def St.Present (s : St P T U) (p : P) (tag : T) : Prop :=
  HasTag s.chunks tag ∨ ∃ proc, s.procs p = some proc ∧ ∃ slot ∈ proc.slots, slot.tag = some tag

/-- Neither garbage collection nor invalidation. -/
def Op.quiet : Op T U → Bool
  | .gc | .invalidateChunk _ _ | .invalidateSlotChunk _ | .cleanup true => false
  | _ => true

omit [DecidableEq P] [Fintype P] in
theorem SlotsInv.transaction_hasTag (h : SlotsInv s) {op : Op T U} {t : Txn T U}
    (hp : s.procs p = some proc) (hq : op.quiet = true) (ht : transaction s proc op = some t)
    (hrange : InRange t.chunks) {tag : T} (htag : HasTag s.chunks tag) : HasTag t.chunks tag := by
  have hown := h.owns p proc hp
  cases op with
  | getParcelIdent pick =>
    simp only [transaction] at ht
    split at ht
    next =>
      obtain ⟨r, -, rfl⟩ := map_eq_some_iff.mp ht
      exact htag
    next => cases ht
  | putChunk new length crypto =>
    obtain ⟨⟨v, offset⟩, hput, rfl⟩ := map_eq_some_iff.mp ht
    exact (Owns.hoardPutChunk (v := ⟨s.chunks, proc.slots⟩) hown hput hrange).1.hasTag hown htag
  | flushSlotCache =>
    cases ht
    exact (Owns.flushSlotCache (v := ⟨s.chunks, proc.slots⟩) hown).hasTag hown htag
  | compactIteration =>
    cases ht
    exact h.table.compactLoop_hasTag 16 none htag
  | truncate =>
    obtain ⟨⟨chunks, offset⟩, htrunc, rfl⟩ := map_eq_some_iff.mp ht
    obtain ⟨c, hc, hct⟩ := htag
    refine ⟨c, (compactHoardTruncate_spec h.range htrunc).2 c hc ?_, hct⟩
    refine (h.table.row c hc).resolve_left fun hf => ?_
    rw [hf.2] at hct
    cases hct
  | syncRefs newChunks keys prevKeys =>
    obtain ⟨ident, -, rfl⟩ := map_eq_some_iff.mp ht
    exact htag
  | rmhoard uuid =>
    cases ht
    exact htag
  | gc | invalidateChunk offset tag | invalidateSlotChunk offset => cases hq
  | start conf | cleanup gc | die => cases ht

/-- A step of another process leaves a live process, and what it can find, alone. -/
theorem SlotsInv.step_other (h : SlotsInv s) (hp : s.procs p = some proc) (hne : a.proc ≠ p)
    (hq : a.op.quiet = true) (hfits : Fits s a) (hs : Hoard.step s a = some s') :
    s'.procs p = some proc ∧ ∀ tag, s.Present p tag → s'.Present p tag := by
  rcases step_cases hs with ⟨-, conf, -, rfl⟩ | rfl | ⟨hlast, gc, -, rfl⟩ |
    ⟨proc', t, hp', ht, rfl⟩ | rfl
  · have hsame := St.setProc_ne s a.proc (some { slots := [], conf, ident := none }) hne.symm
    exact ⟨hsame.trans hp, fun tag htag => htag.imp_right fun ⟨x, hx, hslot⟩ =>
      ⟨x, hsame.trans hx, hslot⟩⟩
  · have hsame := St.setProc_ne s a.proc none hne.symm
    exact ⟨hsame.trans hp, fun tag htag => htag.imp_right fun ⟨x, hx, hslot⟩ =>
      ⟨x, hsame.trans hx, hslot⟩⟩
  · -- it does not get the write lock
    rw [hlast p hne.symm] at hp
    cases hp
  · have hsame := St.apply_ne s t hne.symm
    refine ⟨hsame.trans hp, fun tag htag => htag.imp (fun hc => ?_) fun ⟨x, hx, hslot⟩ =>
      ⟨x, hsame.trans hx, hslot⟩⟩
    exact h.transaction_hasTag hp' hq ht (hfits proc' t hp' ht) hc
  · exact ⟨hp, fun _ => id⟩

end others

/-! ## The command -/

/-- What `hoard()` reads of a row of `prev.keys`. -/
structure Key where
  chunk : Int
  tag : Tag
  deriving DecidableEq, Repr

/-- What `hoard()` runs with: the previous keyring, `parcel->hashlen` and `parcel->crypto`, and
`WANT_CHECK`. -/
structure Job where
  prev : List Key
  hashlen : Nat
  crypto : Int
  check : Bool

/-- `INSERT OR IGNORE INTO temp.to_hoard`, of a row of `prev.keys WHERE tag NOT IN (SELECT tag FROM
hoard.chunks)`. Many rows of `chunks` have no tag; `NOT IN` in the SQLite of the source tree (3.5.9)
only looks for the tag among them, and is never NULL. -/
def addRow (chunks : List (Chunk Tag)) (rows : List Key) (key : Key) : List Key :=
  if some key.tag ∈ chunks.map (·.tag) ∨ key.tag ∈ rows.map (·.tag) then rows else rows ++ [key]

/-- The rows of `temp.to_hoard`: the keys whose tag is not in the hoard cache, each tag once. -/
def toHoard (prev : List Key) (chunks : List (Chunk Tag)) : List Key :=
  prev.foldl (addRow chunks) []

/-- How a call ends. -/
inductive Outcome
  | ok
  | busy
  | fail
  deriving DecidableEq, Repr

/-- `PK_SQLERR` -/
def pkSqlErr : Nat := 13

/-- Where `hoard()` stands; `table` is `temp.to_hoard`, and `rest` what is left of it. -/
inductive HoardPc
  /-- At `build_hoard_table`. -/
  | build
  /-- At the `begin` before the loop. -/
  | again (table : List Key)
  /-- At the test of the loop. -/
  | loop (table rest : List Key)
  | needFetch (table : List Key) (key : Key) (rest : List Key)
  /-- In `transport_fetch_chunk`, at the loop over `transport_get`. -/
  | fetch (table : List Key) (key : Key) (rest : List Key)
  /-- In `transport_fetch_chunk`, at `hoard_put_chunk`. -/
  | put (table : List Key) (key : Key) (rest : List Key)
  /-- At `query_next`. -/
  | next (table rest : List Key)
  /-- At `out_early`, with `ret`. -/
  | drop (ret : Nat)
  | done (ret : Nat)
  deriving DecidableEq, Repr

structure HoardSt (P U : Type) where
  sys : St P Tag U
  pc : HoardPc

/-- A step of another process, or of the one that runs `hoard()`. `length` is the length of the
chunk that has been fetched. -/
inductive HoardAct (P U : Type)
  | other (a : Act P Tag U)
  | own (outcome : Outcome) (length : Int)

section command

variable [DecidableEq U] [DecidableEq P]

/-- `hoard_put_chunk` in `transport_fetch_chunk`. If the database is busy it tries again; in all
other cases the row counts as done. -/
def putStep (job : Job) (p : P) (s : St P Tag U) (proc : Proc Tag U) (outcome : Outcome)
    (length : Int) (table : List Key) (key : Key) (rest : List Key) : HoardSt P U :=
  match outcome, transaction s proc (.putChunk key.tag length job.crypto) with
  | .busy, _ => ⟨s, .put table key rest⟩
  | .ok, some t => ⟨s.apply p t, .next table rest⟩
  | _, _ => ⟨s, .next table rest⟩

/-- One step of `hoard()`, run by the process `p`. -/
def hoardStep (job : Job) (p : P) (s : St P Tag U) (proc : Proc Tag U) (outcome : Outcome)
    (length : Int) : HoardPc → Option (HoardSt P U)
  | .build =>
    match outcome with
    | .busy => some ⟨s, .build⟩
    | .fail => some ⟨s, .done 1⟩
    | .ok =>
      let table := toHoard job.prev s.chunks
      if job.check then
        some ⟨s, .done (if Base.wrapInt table.length = 0 then 0 else 1)⟩
      else some ⟨s, .again table⟩
  | .again table =>
    match outcome with
    | .busy => some ⟨s, .again table⟩
    | .fail => some ⟨s, .drop 1⟩
    | .ok => some ⟨s, .loop table table⟩
  | .loop _ [] => some ⟨s, .drop 0⟩
  | .loop table (key :: rest) =>
    if key.tag.length = job.hashlen then some ⟨s, .needFetch table key rest⟩
    else some ⟨s, .drop 1⟩
  | .needFetch table key rest =>
    match outcome with
    | .busy => some ⟨s, .needFetch table key rest⟩
    | .fail => some ⟨s, .fetch table key rest⟩
    | .ok =>
      if some key.tag ∈ s.chunks.map (·.tag) then some ⟨s, .next table rest⟩
      else some ⟨s, .fetch table key rest⟩
  | .fetch table key rest =>
    match outcome with
    | .ok => some ⟨s, .put table key rest⟩
    | _ => some ⟨s, .drop 1⟩
  | .put table key rest => some (putStep job p s proc outcome length table key rest)
  | .next table rest =>
    match outcome with
    | .busy => some ⟨s, .again table⟩
    | .fail => some ⟨s, .drop 1⟩
    | .ok => some ⟨s, .loop table rest⟩
  | .drop ret =>
    match outcome with
    -- the `begin` fails; if the `DROP TABLE` fails, nothing follows from it
    | .fail => some ⟨s, .done pkSqlErr⟩
    | _ => some ⟨s, .done ret⟩
  | .done _ => none

variable [Fintype P]

/-- One step while `p` runs `hoard()` and the others neither collect garbage nor invalidate
chunks. -/
def hoarding (job : Job) (p : P) (x : HoardSt P U) : HoardAct P U → Option (HoardSt P U)
  | .other a =>
    if a.proc ≠ p ∧ a.op.quiet then (step x.sys a).map fun s => ⟨s, x.pc⟩ else none
  | .own outcome length =>
    match x.sys.procs p with
    | none => none
    | some proc => hoardStep job p x.sys proc outcome length x.pc

/-- No offset wraps around; every `hoard_put_chunk` that `hoard()` makes succeeds, once the database
is not busy; and the rows that a check counts fit in 32 bits. -/
def Stores (job : Job) (p : P) (x : HoardSt P U) : HoardAct P U → Prop
  | .other a => Fits x.sys a
  | .own outcome length =>
    (∀ table key rest proc, x.pc = .put table key rest → x.sys.procs p = some proc →
      outcome = .busy ∨ outcome = .ok ∧
        ∃ t, transaction x.sys proc (.putChunk key.tag length job.crypto) = some t ∧
          InRange t.chunks) ∧
    (x.pc = .build → job.check = true →
      (toHoard job.prev x.sys.chunks).length < 2 ^ 32)

end command

/-! ## What is still to be hoarded -/

theorem tag_addRow (chunks : List (Chunk Tag)) (rows : List Key) (key : Key) :
    HasTag chunks key.tag ∨ key.tag ∈ (addRow chunks rows key).map (·.tag) := by
  unfold addRow
  split
  next hx =>
    refine hx.imp_left fun hc => ?_
    obtain ⟨c, hc, hct⟩ := mem_map.mp hc
    exact ⟨c, hc, hct⟩
  next =>
    rw [map_append]
    exact .inr (mem_append_right _ (mem_singleton.mpr rfl))

theorem subset_foldl_addRow (chunks : List (Chunk Tag)) (l rows : List Key) :
    rows ⊆ l.foldl (addRow chunks) rows := by
  induction l generalizing rows with
  | nil => exact List.Subset.refl _
  | cons key l ih =>
    refine List.Subset.trans ?_ (ih (addRow chunks rows key))
    unfold addRow
    split
    next => exact List.Subset.refl _
    next => exact subset_append_left ..

theorem mem_toHoard {chunks : List (Chunk Tag)} {prev : List Key} {key : Key} (h : key ∈ prev) :
    HasTag chunks key.tag ∨ key.tag ∈ (toHoard prev chunks).map (·.tag) := by
  obtain ⟨before, after, rfl⟩ := append_of_mem h
  unfold toHoard
  rw [foldl_append, foldl_cons]
  exact (tag_addRow ..).imp_right fun hmem =>
    map_subset _ (subset_foldl_addRow chunks after _) hmem

/-- A tag of the keyring that cannot be found is in `rows`. -/
def Left (job : Job) (p : P) (s : St P Tag U) (rows : List Key) : Prop :=
  ∀ key ∈ job.prev, s.Present p key.tag ∨ key.tag ∈ rows.map (·.tag)

/-- The rows of which this holds: all of the table, in case the loop starts again, and those that
are left. -/
def HoardPc.left : HoardPc → List (List Key)
  | .build => []
  | .again table => [table]
  | .loop table rest | .next table rest => [table, rest]
  | .needFetch table key rest | .fetch table key rest | .put table key rest =>
    [table, key :: rest]
  | .drop ret | .done ret => if ret = 0 then [[]] else []

section run

variable [DecidableEq U] [DecidableEq P] {job : Job} {s s' : St P Tag U} {proc : Proc Tag U}
  {x x' : HoardSt P U} {length : Int} {rest : List Key}

omit [DecidableEq U] [DecidableEq P] in
theorem Left.mono {rows : List Key} (h : Left job p s rows)
    (hkept : ∀ tag, s.Present p tag → s'.Present p tag) : Left job p s' rows :=
  fun key hkey => (h key hkey).imp_left (hkept key.tag)

omit [DecidableEq U] [DecidableEq P] in
theorem Left.tail {key : Key} (h : Left job p s (key :: rest)) (hfound : s.Present p key.tag) :
    Left job p s rest := by
  intro k hk
  refine (h k hk).elim .inl fun hmem => ?_
  rcases mem_cons.mp hmem with heq | hrest
  · rw [heq]
    exact .inl hfound
  · exact .inr hrest

/-- The invariant while `hoard()` runs. -/
structure HoardInv (job : Job) (p : P) (x : HoardSt P U) : Prop where
  slots : SlotsInv x.sys
  live : ∃ proc, x.sys.procs p = some proc
  left : ∀ rows ∈ x.pc.left, Left job p x.sys rows

theorem SlotsInv.put (h : SlotsInv s) {tag : Tag} (hp : s.procs p = some proc)
    (ht : transaction s proc (.putChunk tag length crypto) = some t) (hrange : InRange t.chunks) :
    SlotsInv (s.apply p t) ∧ (s.apply p t).Present p tag ∧
      ∀ x, s.Present p x → (s.apply p t).Present p x := by
  have hinv := h.apply hp hrange (h.fair hp ht hrange)
  obtain ⟨⟨v, offset⟩, hput, rfl⟩ := map_eq_some_iff.mp ht
  obtain ⟨hnew, hold⟩ := Owns.hoardPutChunk_has (v := ⟨s.chunks, proc.slots⟩) (h.owns p proc hp)
    hput hrange
  have hpresent : ∀ x, v.Has x → St.Present (s.apply p { s.txn proc with
      chunks := v.chunks, proc := { proc with slots := v.slots }, writes := offset.toList }) p x :=
    fun x hx => hx.imp_right fun hslot => ⟨_, St.apply_self .., hslot⟩
  refine ⟨hinv, hpresent tag hnew, fun x hx => hpresent x (hold x (hx.imp_right ?_))⟩
  rintro ⟨proc', hp', hslot⟩
  rw [hp, some.injEq] at hp'
  rwa [hp']

theorem HoardInv.hoardStep (h : HoardInv job p x) {outcome : Outcome}
    (hp : x.sys.procs p = some proc)
    (hput : ∀ table key rest proc, x.pc = .put table key rest → x.sys.procs p = some proc →
      outcome = .busy ∨ outcome = .ok ∧
        ∃ t, transaction x.sys proc (.putChunk key.tag length job.crypto) = some t ∧
          InRange t.chunks)
    (hcheck : x.pc = .build → job.check = true → (toHoard job.prev x.sys.chunks).length < 2 ^ 32)
    (hs : Hoard.hoardStep job p x.sys proc outcome length x.pc = some x') : HoardInv job p x' := by
  obtain ⟨s, pc⟩ := x
  obtain ⟨hslots, hlive, hleft⟩ := h
  simp only at hslots hlive hleft hp hs hput hcheck
  have goto : ∀ {pc' : HoardPc}, some (⟨s, pc'⟩ : HoardSt P U) = some x' →
      (∀ rows ∈ pc'.left, Left job p s rows) → HoardInv job p x' := by
    intro pc' heq hrows
    cases heq
    exact ⟨hslots, hlive, hrows⟩
  have hfail : ∀ rows ∈ (HoardPc.drop 1).left, Left job p s rows := forall_mem_nil _
  cases pc with
  | build =>
    cases outcome with
    | busy | fail => exact goto hs (forall_mem_nil _)
    | ok =>
      have hall : Left job p s (toHoard job.prev s.chunks) := fun key hkey =>
        (mem_toHoard hkey).imp_left .inl
      simp only [Hoard.hoardStep] at hs
      split at hs
      next hc =>
        refine goto hs fun rows hrows => ?_
        have hlen := hcheck rfl hc
        generalize toHoard job.prev s.chunks = table at hall hlen hrows
        by_cases hz : Base.wrapInt table.length = 0
        · have hnil : table = [] := by
            refine eq_nil_of_length_eq_zero ?_
            simp only [Base.wrapInt, Int.bmod_def] at hz
            omega
          rw [if_pos hz] at hrows
          rw [mem_singleton.mp hrows, ← hnil]
          exact hall
        · rw [if_neg hz] at hrows
          cases hrows
      next =>
        refine goto hs fun rows hrows => ?_
        rw [mem_singleton.mp hrows]
        exact hall
  | again table =>
    have htable := hleft table (mem_singleton.mpr rfl)
    cases outcome with
    | busy => exact goto hs hleft
    | fail => exact goto hs hfail
    | ok =>
      refine goto hs fun rows hrows => ?_
      rcases mem_cons.mp hrows with rfl | hrows
      · exact htable
      · rw [mem_singleton.mp hrows]
        exact htable
  | loop table rest =>
    cases rest with
    | nil => exact goto hs fun rows hrows => hleft rows (mem_cons_of_mem _ hrows)
    | cons key rest =>
      simp only [Hoard.hoardStep] at hs
      split at hs
      next => exact goto hs hleft
      next => exact goto hs hfail
  | needFetch table key rest =>
    cases outcome with
    | busy | fail => exact goto hs hleft
    | ok =>
      simp only [Hoard.hoardStep] at hs
      split at hs
      next hmem =>
        obtain ⟨c, hc, hct⟩ := mem_map.mp hmem
        refine goto hs fun rows hrows => ?_
        rcases mem_cons.mp hrows with rfl | hrows
        · exact hleft rows (mem_cons_self ..)
        · rw [mem_singleton.mp hrows]
          have hrest := hleft (key :: rest) (mem_cons_of_mem _ (mem_singleton.mpr rfl))
          exact hrest.tail (.inl ⟨c, hc, hct⟩)
      next => exact goto hs hleft
  | fetch table key rest =>
    cases outcome with
    | ok => exact goto hs hleft
    | busy | fail => exact goto hs hfail
  | put table key rest =>
    simp only [Hoard.hoardStep] at hs
    rcases hput table key rest proc rfl hp with rfl | ⟨rfl, t, ht, hrange⟩
    · exact goto hs hleft
    · simp only [putStep, ht] at hs
      cases hs
      obtain ⟨hinv, hfound, hkept⟩ := hslots.put hp ht hrange
      refine ⟨hinv, ⟨_, St.apply_self ..⟩, fun rows hrows => ?_⟩
      rcases mem_cons.mp hrows with rfl | hrows
      · exact (hleft rows (mem_cons_self ..)).mono hkept
      · rw [mem_singleton.mp hrows]
        have hrest := hleft (key :: rest) (mem_cons_of_mem _ (mem_singleton.mpr rfl))
        exact (hrest.mono hkept).tail hfound
  | next table rest =>
    cases outcome with
    | busy =>
      refine goto hs fun rows hrows => hleft rows ?_
      rw [mem_singleton.mp hrows]
      exact mem_cons_self ..
    | fail => exact goto hs hfail
    | ok => exact goto hs hleft
  | drop ret =>
    cases outcome with
    | fail => exact goto hs (forall_mem_nil _)
    | ok | busy => exact goto hs hleft
  | done ret => cases hs

variable [Fintype P]

theorem HoardInv.step {a : HoardAct P U} (h : HoardInv job p x) (hok : Stores job p x a)
    (hs : hoarding job p x a = some x') : HoardInv job p x' := by
  obtain ⟨proc, hp⟩ := h.live
  cases a with
  | other a =>
    simp only [hoarding] at hs
    split at hs
    next hq =>
      obtain ⟨s', hstep, rfl⟩ := map_eq_some_iff.mp hs
      obtain ⟨hlive, hkept⟩ := h.slots.step_other hp hq.1 hq.2 hok hstep
      refine ⟨h.slots.step hok hstep, ⟨proc, hlive⟩, fun rows hrows => ?_⟩
      exact (h.left rows hrows).mono hkept
    next => cases hs
  | own outcome length =>
    simp only [hoarding, hp] at hs
    exact h.hoardStep hp hok.1 hok.2 hs

/-- If every `hoard_put_chunk` that `hoard()` makes succeeds, 0 means that the tag of every row of
the previous keyring can be found. -/
theorem hoard_complete {s₀ : St P Tag U} (job : Job) (p : P) (h₀ : SlotsInv s₀)
    (hp : s₀.procs p ≠ none)
    (hr : Base.Reach (hoarding job p) (Stores job p) ⟨s₀, .build⟩ ⟨s, .done 0⟩) :
    ∀ key ∈ job.prev, s.Present p key.tag := by
  obtain ⟨proc, hproc⟩ := ne_none_iff_exists'.mp hp
  have hinit : HoardInv job p ⟨s₀, .build⟩ := ⟨h₀, ⟨proc, hproc⟩, forall_mem_nil _⟩
  have h : HoardInv job p ⟨s, .done 0⟩ := hr.inv hinit fun _ _ _ hi hok hs => hi.step hok hs
  intro key hkey
  exact (h.left [] (mem_singleton.mpr rfl) key hkey).resolve_right not_mem_nil

theorem reach_own {pc pc' : HoardPc} (outcome : Outcome) (length : Int)
    (hr : Base.Reach (hoarding job p) (Stores job p) x ⟨s, pc⟩) (hp : s.procs p = some proc)
    (hpc : ∀ table key rest, pc ≠ .put table key rest) (hcheck : job.check = false)
    (hs : hoardStep job p s proc outcome length pc = some ⟨s, pc'⟩) :
    Base.Reach (hoarding job p) (Stores job p) x ⟨s, pc'⟩ := by
  refine hr.step (a := .own outcome length) ⟨fun table key rest _ h => ?_, fun _ hc => ?_⟩ ?_
  · exact absurd h (hpc table key rest)
  · rw [hcheck] at hc
    cases hc
  · simp only [hoarding, hp]
    exact hs

theorem reach_put {table : List Key} {key : Key}
    (hr : Base.Reach (hoarding job p) (Stores job p) x ⟨s, .put table key rest⟩)
    (hp : s.procs p = some proc)
    (ht : transaction s proc (.putChunk key.tag length job.crypto) = some t)
    (hrange : InRange t.chunks) :
    Base.Reach (hoarding job p) (Stores job p) x ⟨s.apply p t, .next table rest⟩ := by
  refine hr.step (a := .own .ok length) ⟨fun table' key' rest' proc' hpc hp' => ?_, nofun⟩ ?_
  · cases hpc
    rw [hp, some.injEq] at hp'
    exact .inr ⟨rfl, t, hp' ▸ ht, hrange⟩
  · simp only [hoarding, hp, hoardStep, putStep, ht]

end run

/-- A keyring with one tag, of the length of a SHA-1 hash. -/
def oneKey : Job := { prev := [⟨0, replicate 20 7⟩], hashlen := 20, crypto := 2, check := false }

/-- One process, which has not stored anything yet. -/
def fresh : St Unit Tag Nat := init.setProc () (some { slots := [], conf := none, ident := none })

theorem slotsInv_fresh : SlotsInv fresh := by
  refine slotsInv_init.setProc () fun x hx => ?_
  cases hx
  rfl

theorem hoard_complete_one : ∃ s, Base.Reach (hoarding oneKey ()) (Stores oneKey ())
    ⟨fresh, .build⟩ ⟨s, .done 0⟩ ∧ SlotsInv fresh ∧ s.Present () (replicate 20 7) := by
  let key : Key := ⟨0, replicate 20 7⟩
  let proc : Proc Tag Nat := { slots := [], conf := none, ident := none }
  let reached := Base.Reach (hoarding oneKey ()) (Stores oneKey ()) ⟨fresh, .build⟩
  have hfetched : reached ⟨fresh, .put [key] key []⟩ := by
    have h₁ : reached ⟨fresh, .again [key]⟩ := reach_own .ok 0 .init rfl nofun rfl rfl
    have h₂ : reached ⟨fresh, .loop [key] [key]⟩ := reach_own .ok 0 h₁ rfl nofun rfl rfl
    have h₃ : reached ⟨fresh, .needFetch [key] key []⟩ := reach_own .ok 0 h₂ rfl nofun rfl rfl
    have h₄ : reached ⟨fresh, .fetch [key] key []⟩ := reach_own .ok 0 h₃ rfl nofun rfl rfl
    exact reach_own .ok 0 h₄ rfl nofun rfl rfl
  obtain ⟨v, o, hput, hrange⟩ := hoardPutChunk_empty key.tag 512 oneKey.crypto
  have ht : transaction fresh proc (.putChunk key.tag 512 oneKey.crypto) = some _ :=
    transaction_put hput
  obtain ⟨s, proc', hp, hstored⟩ : ∃ s proc', s.procs () = some proc' ∧
      reached ⟨s, .next [key] []⟩ := ⟨_, _, St.apply_self .., reach_put hfetched rfl ht hrange⟩
  have hdone : reached ⟨s, .done 0⟩ := by
    have h₁ : reached ⟨s, .loop [key] []⟩ := reach_own .ok 0 hstored hp nofun rfl rfl
    have h₂ : reached ⟨s, .drop 0⟩ := reach_own .ok 0 h₁ hp nofun rfl rfl
    exact reach_own .ok 0 h₂ hp nofun rfl rfl
  exact ⟨s, hdone, slotsInv_fresh,
    hoard_complete oneKey () slotsInv_fresh nofun hdone key (mem_singleton.mpr rfl)⟩

/-- The hoard file cannot be written: `hoard_put_chunk` fails, and `hoard()` returns 0. -/
theorem hoard_misses : SlotsInv fresh ∧ ∃ s, Base.Reach (hoarding oneKey ()) (fun _ _ => True)
    ⟨fresh, .build⟩ ⟨s, .done 0⟩ ∧ ∃ key ∈ oneKey.prev, ¬ s.Present () key.tag := by
  have hrun : Base.exec (hoarding oneKey ()) (fun _ _ => true) ⟨fresh, .build⟩
      [.own .ok 0, .own .ok 0, .own .ok 0, .own .ok 0, .own .ok 0, .own .fail 512, .own .ok 0,
        .own .ok 0, .own .ok 0] = some ⟨fresh, .done 0⟩ := rfl
  refine ⟨slotsInv_fresh, fresh, Base.reach_of_exec (fun _ _ _ => trivial) _ .init hrun,
    ⟨0, replicate 20 7⟩, mem_singleton.mpr rfl, ?_⟩
  rintro (⟨c, hc, -⟩ | ⟨proc, hp, slot, hslot, -⟩)
  · cases hc
  · cases hp
    cases hslot

end OpenIsr.Hoard
