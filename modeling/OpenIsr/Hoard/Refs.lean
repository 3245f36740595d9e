import Mathlib.Data.Set.Basic
import OpenIsr.Hoard.System

/-!
# References and their parcels

A process asks for the number of its parcel once, in `hoard_init`, and uses it until it ends. The
numbers are row numbers, which SQLite hands out again when the last row is gone. What makes this
safe is that rows go in `hoard_try_cleanup` only, when no other process is live, and only those
without references. So the row of a live process stays, and no reference is left behind to be
inherited by a new row.

`hoard_ident` is an `int`, and a row number is not: the one of the parcel with number 2^31 is read
as -2^31. `IdentFits` excludes that.
-/

namespace OpenIsr.Hoard

open List
open Base
    (updateWhere mem_updateWhere_of_not map_updateWhere updateWhere_eq_self nodup_insert wrapInt
  wrapInt_eq)

variable {P T U : Type} {n : Nat} {parcels : List (Parcel U)} {t : Txn T U} {uuid : U}
  {ident pick i : Int} {conf : Config U} {c : Chunk T} {tag : T} {p : P} {newChunks : Bool}

/-- The UUID and the number of each parcel. -/
def parcelKeys (parcels : List (Parcel U)) : List (U × Int) :=
  parcels.map fun row => (row.uuid, row.parcel)

/-- The tags that the parcel with this UUID references. -/
def St.refsOf (s : St P T U) (uuid : U) : Set T :=
  { tag | ∃ ident, (uuid, ident) ∈ parcelKeys s.parcels ∧ ⟨ident, tag⟩ ∈ s.refs }

/-- UUIDs and numbers are unique, and numbers are positive and fit in an `int`. -/
structure KeysOk (keys : List (U × Int)) : Prop where
  uuid : (keys.map Prod.fst).Nodup
  ident : (keys.map Prod.snd).Nodup
  range : ∀ k ∈ keys, 1 ≤ k.2 ∧ k.2 < 2 ^ 31

theorem mem_parcelKeys :
    (uuid, ident) ∈ parcelKeys parcels ↔ ∃ row ∈ parcels, row.uuid = uuid ∧ row.parcel = ident := by
  simp only [parcelKeys, mem_map, Prod.mk.injEq]

theorem parcelKeys_snd (parcels : List (Parcel U)) :
    (parcelKeys parcels).map Prod.snd = parcels.map (·.parcel) := by
  unfold parcelKeys
  rw [map_map]
  rfl

/-! ## Row numbers -/

theorem newRowid_fresh {n : Int} (h : newRowid parcels pick = some n) :
    n ∉ parcels.map (·.parcel) := by
  unfold newRowid at h
  split at h
  next hmax =>
    rw [max?_eq_none_iff] at hmax
    rw [hmax]
    exact not_mem_nil
  next m hmax =>
    split at h
    next =>
      cases h
      intro hmem
      have hle := (max?_eq_some_iff.mp hmax).2 _ hmem
      omega
    next =>
      split at h
      next hpick =>
        cases h
        exact hpick
      next => cases h

/-- Row numbers count up from 1 as long as they are far from the end. -/
theorem newRowid_pos {n : Int} (h : newRowid parcels pick = some n)
    (hok : KeysOk (parcelKeys parcels)) : 1 ≤ n := by
  unfold newRowid at h
  split at h
  next =>
    cases h
    exact Int.le_refl 1
  next m hmax =>
    have hm := (max?_eq_some_iff.mp hmax).1
    rw [← parcelKeys_snd] at hm
    obtain ⟨k, hk, rfl⟩ := mem_map.mp hm
    have hrange := hok.range k hk
    rw [if_pos (by omega)] at h
    cases h
    omega

section ident

variable [DecidableEq U] {parcels' : List (Parcel U)}

theorem KeysOk.insert (h : KeysOk (parcelKeys parcels))
    (hins : insertParcel parcels conf pick = some parcels')
    (hfits : ∀ row ∈ parcels', row.uuid = conf.uuid → row.parcel < 2 ^ 31) :
    KeysOk (parcelKeys parcels') ∧ ∀ k ∈ parcelKeys parcels, k ∈ parcelKeys parcels' := by
  unfold insertParcel at hins
  split at hins
  next =>
    cases hins
    exact ⟨h, fun _ hk => hk⟩
  next hnew =>
    obtain ⟨n, hn, rfl⟩ := Option.map_eq_some_iff.mp hins
    have hkeys : parcelKeys (parcels ++ [{ conf with parcel := n }]) =
        parcelKeys parcels ++ [(conf.uuid, n)] := map_append
    have hlt : n < 2 ^ 31 := hfits _ (mem_append_right _ (mem_singleton.mpr rfl)) rfl
    rw [hkeys]
    refine ⟨⟨?_, ?_, fun k hk => ?_⟩, fun k hk => mem_append_left _ hk⟩
    · have huuid : (parcelKeys parcels).map Prod.fst = parcels.map (·.uuid) := by
        unfold parcelKeys
        rw [map_map]
        rfl
      exact nodup_insert h.uuid (huuid ▸ hnew)
    · exact nodup_insert h.ident (parcelKeys_snd parcels ▸ newRowid_fresh hn)
    · rcases mem_append.mp hk with hk | hk
      · exact h.range k hk
      · rw [mem_singleton.mp hk]
        exact ⟨newRowid_pos hn h, hlt⟩

theorem getParcelIdent_spec (h : getParcelIdent parcels conf pick = some (parcels', ident)) :
    ∃ rows row, insertParcel parcels conf pick = some rows ∧ row ∈ rows ∧ row.uuid = conf.uuid ∧
      ident = wrapInt row.parcel ∧ parcelKeys parcels' = parcelKeys rows := by
  unfold getParcelIdent at h
  split at h
  next => cases h
  next rows hins =>
    obtain ⟨row, hrow, heq⟩ := Option.map_eq_some_iff.mp h
    cases heq
    have huuid : row.uuid = conf.uuid := by simpa using find?_some hrow
    exact ⟨rows, row, hins, mem_of_find?_eq_some hrow, huuid, rfl, map_updateWhere fun _ => rfl⟩

end ident

/-! ## The statements on `refs` and `parcels` -/

section statements

variable {refs : List (Ref T)} {chunks : List (Chunk T)}

theorem mem_hoardSyncRefs [DecidableEq T] {keys prevKeys tags : List T} {r : Ref T}
    (htags : (if newChunks then keys else prevKeys) = tags) :
    r ∈ hoardSyncRefs refs ident newChunks keys prevKeys ↔
      (r ∈ refs ∧ (newChunks = true ∨ r.parcel ≠ ident ∨ r.tag ∈ tags)) ∨
        (r.parcel = ident ∧ r.tag ∈ tags) := by
  have hnew : r ∈ (tags.dedup.map (Ref.mk ident)) ↔ r.parcel = ident ∧ r.tag ∈ tags := by
    rw [mem_map]
    constructor
    · rintro ⟨tag, htag, rfl⟩
      exact ⟨rfl, mem_dedup.mp htag⟩
    · rintro ⟨rfl, htag⟩
      exact ⟨r.tag, mem_dedup.mpr htag, rfl⟩
  have hold : r ∈ (if newChunks then refs else refs.filter fun r =>
        ¬ (r.parcel = ident ∧ r.tag ∉ tags.dedup)) ↔
      r ∈ refs ∧ (newChunks = true ∨ r.parcel ≠ ident ∨ r.tag ∈ tags) := by
    cases newChunks with
    | true => simp
    | false => simp [mem_filter, mem_dedup, imp_iff_not_or]
  rw [← hold, ← hnew]
  simp only [hoardSyncRefs, htags, mem_append, mem_filter, decide_eq_true_eq]
  refine ⟨Or.imp_right And.left, fun hx => ?_⟩
  by_cases hr : r ∈ (if newChunks then refs else refs.filter fun r =>
    ¬ (r.parcel = ident ∧ r.tag ∉ tags.dedup))
  · exact .inl hr
  · exact .inr ⟨hx.resolve_left hr, hr⟩

theorem rmhoard_subset [DecidableEq U] (uuid : U) :
    ∀ r ∈ rmhoard parcels refs uuid, r ∈ refs := by
  intro r hr
  unfold rmhoard at hr
  split at hr
  next => exact hr
  next => exact mem_of_mem_filter hr

/-- The loop of `hoard_try_cleanup` only deletes, and spares a parcel with references. -/
theorem cleanParcels_spec (refs : List (Ref T)) (l : List (Parcel U)) : ∀ rows : List (Parcel U),
    (l.foldl (fun rows row => if wrapInt row.parcel ∈ refs.map (·.parcel) then rows
      else rows.filter (·.parcel ≠ wrapInt row.parcel)) rows).Sublist rows ∧
    ∀ x ∈ rows, x.parcel ∈ refs.map (·.parcel) →
      x ∈ l.foldl (fun rows row => if wrapInt row.parcel ∈ refs.map (·.parcel) then rows
        else rows.filter (·.parcel ≠ wrapInt row.parcel)) rows := by
  induction l with
  | nil => exact fun rows => ⟨List.Sublist.refl _, fun x hx _ => hx⟩
  | cons row l ih =>
    intro rows
    simp only [foldl_cons]
    split
    next => exact ih rows
    next hno =>
      obtain ⟨hsub, hkept⟩ := ih (rows.filter (·.parcel ≠ wrapInt row.parcel))
      refine ⟨hsub.trans filter_sublist, fun x hx href => hkept x ?_ href⟩
      refine mem_filter.mpr ⟨hx, decide_eq_true fun heq => hno ?_⟩
      rw [← heq]
      exact href

theorem KeysOk.sublist {keys keys' : List (U × Int)} (h : KeysOk keys) (hsub : keys'.Sublist keys) :
    KeysOk keys' :=
  ⟨h.uuid.sublist (hsub.map _), h.ident.sublist (hsub.map _),
    fun k hk => h.range k (hsub.subset hk)⟩

/-- Garbage collection leaves a row alone whose tag is referenced. -/
theorem mem_hoardGc [DecidableEq T] (hc : c ∈ chunks) (htag : c.tag = some tag)
    (href : tag ∈ refs.map (·.tag)) : c ∈ hoardGc chunks refs := by
  refine mem_updateWhere_of_not hc (decide_eq_false ?_)
  rintro ⟨x, hx, hno⟩
  rw [htag] at hx
  cases hx
  exact hno href

theorem mem_cleanChunks [DecidableEq T] {gc : Bool} (hc : c ∈ chunks) (htag : c.tag = some tag)
    (href : tag ∈ refs.map (·.tag)) : c ∈ cleanChunks chunks refs gc := by
  have hkept : c ∈ updateWhere chunks (fun c => c.allocated = 1 ∧ c.tag = none)
      (Chunk.setAllocated 0) := by
    refine mem_updateWhere_of_not hc (decide_eq_false fun hx => ?_)
    rw [htag] at hx
    cases hx.2
  unfold cleanChunks
  split
  next => exact mem_hoardGc hkept htag href
  next => exact hkept

end statements

/-! ## The invariant -/

/-- The number a process has is the one of its parcel, and references belong to parcels. -/
structure RefsInv (s : St P T U) : Prop where
  keys : KeysOk (parcelKeys s.parcels)
  ident : ∀ p proc ident, s.procs p = some proc → proc.ident = some ident →
    ∃ conf, proc.conf = some conf ∧ (conf.uuid, ident) ∈ parcelKeys s.parcels
  refs : ∀ r ∈ s.refs, ∃ uuid, (uuid, r.parcel) ∈ parcelKeys s.parcels

section invariant

variable {s s' : St P T U} {a : Act P T U} {keys : List (U × Int)}

/-- The number that `get_parcel_ident` finds, or gives, to the parcel of its process fits in an
`int`. -/
def IdentFits [DecidableEq U] (s : St P T U) (a : Act P T U) : Prop :=
  ∀ proc conf pick parcels, s.procs a.proc = some proc → proc.conf = some conf →
    a.op = .getParcelIdent pick → insertParcel s.parcels conf pick = some parcels →
    ∀ row ∈ parcels, row.uuid = conf.uuid → row.parcel < 2 ^ 31

theorem refsInv_init : RefsInv (init : St P T U) :=
  ⟨⟨nodup_nil, nodup_nil, nofun⟩, nofun, nofun⟩

section procs

variable [DecidableEq P]

theorem RefsInv.setProc (h : RefsInv s) (p : P) {proc : Option (Proc T U)}
    (hnone : ∀ x, proc = some x → x.ident = none) : RefsInv (s.setProc p proc) := by
  refine ⟨h.keys, fun q x ident hx hident => ?_, h.refs⟩
  by_cases hq : q = p
  · rw [hq, St.setProc_self] at hx
    rw [hnone x hx] at hident
    cases hident
  · rw [St.setProc_ne _ _ _ hq] at hx
    exact h.ident q x ident hx hident

theorem RefsInv.apply (h : RefsInv s) (hkeys : KeysOk (parcelKeys t.parcels))
    (hsub : ∀ k ∈ parcelKeys s.parcels, k ∈ parcelKeys t.parcels)
    (hident : ∀ ident, t.proc.ident = some ident →
      ∃ conf, t.proc.conf = some conf ∧ (conf.uuid, ident) ∈ parcelKeys t.parcels)
    (hrefs : ∀ r ∈ t.refs, ∃ uuid, (uuid, r.parcel) ∈ parcelKeys t.parcels) :
    RefsInv (s.apply p t) := by
  refine ⟨hkeys, fun q x ident hx hxi => ?_, hrefs⟩
  by_cases hq : q = p
  · rw [hq, St.apply_self, Option.some.injEq] at hx
    rw [← hx] at hxi ⊢
    exact hident ident hxi
  · rw [St.apply_ne _ _ hq] at hx
    obtain ⟨conf, hconf, hmem⟩ := h.ident q x ident hx hxi
    exact ⟨conf, hconf, hsub _ hmem⟩

variable [DecidableEq T] [DecidableEq U]

theorem RefsInv.transaction (h : RefsInv s) (hfits : IdentFits s a) {proc : Proc T U}
    (hp : s.procs a.proc = some proc) (ht : transaction s proc a.op = some t) :
    RefsInv (s.apply a.proc t) := by
  have hown := h.ident a.proc proc
  have same : t.parcels = s.parcels → t.refs = s.refs → t.proc.conf = proc.conf →
      t.proc.ident = proc.ident → RefsInv (s.apply a.proc t) := by
    intro hparcels hrefs hconf hident
    refine h.apply ?_ ?_ ?_ ?_ <;> rw [hparcels]
    · exact h.keys
    · exact fun _ hk => hk
    · rw [hident, hconf]
      exact fun ident hi => hown ident hp hi
    · rw [hrefs]
      exact h.refs
  cases hop : a.op with
  | getParcelIdent pick =>
    rw [hop] at ht
    simp only [Hoard.transaction] at ht
    split at ht
    next conf hconf hnone =>
      obtain ⟨⟨parcels, ident⟩, hget, rfl⟩ := Option.map_eq_some_iff.mp ht
      obtain ⟨rows, row, hins, hrow, huuid, rfl, hkeys⟩ := getParcelIdent_spec hget
      have hlt := hfits proc conf pick rows hp hconf hop hins
      obtain ⟨hok, hsub⟩ := h.keys.insert hins hlt
      have hmem : (row.uuid, row.parcel) ∈ parcelKeys rows :=
        mem_parcelKeys.mpr ⟨row, hrow, rfl, rfl⟩
      have hpos := (hok.range _ hmem).1
      have hwrap : wrapInt row.parcel = row.parcel :=
        wrapInt_eq (by omega) (hlt row hrow huuid)
      refine h.apply (t := { s.txn proc with
        parcels, proc := { proc with ident := some (wrapInt row.parcel) } }) ?_ ?_ ?_ ?_
      · show KeysOk (parcelKeys parcels)
        rw [hkeys]
        exact hok
      · show ∀ k ∈ _, k ∈ parcelKeys parcels
        rw [hkeys]
        exact hsub
      · intro ident hident
        cases hident
        refine ⟨conf, hconf, ?_⟩
        show _ ∈ parcelKeys parcels
        rw [hkeys, hwrap, ← huuid]
        exact hmem
      · intro r hr
        obtain ⟨uuid, hx⟩ := h.refs r hr
        refine ⟨uuid, ?_⟩
        show _ ∈ parcelKeys parcels
        rw [hkeys]
        exact hsub _ hx
    next => cases ht
  | syncRefs newChunks keys prevKeys =>
    rw [hop] at ht
    obtain ⟨ident, hident, rfl⟩ := Option.map_eq_some_iff.mp ht
    refine h.apply h.keys (fun _ hk => hk) (fun i hi => hown i hp hi) fun r hr => ?_
    rcases (mem_hoardSyncRefs rfl).mp hr with hold | hnew
    · exact h.refs r hold.1
    · obtain ⟨conf, -, hmem⟩ := hown ident hp hident
      rw [hnew.1]
      exact ⟨conf.uuid, hmem⟩
  | rmhoard uuid =>
    rw [hop] at ht
    cases ht
    exact h.apply h.keys (fun _ hk => hk) (fun i hi => hown i hp hi) fun r hr =>
      h.refs r (rmhoard_subset uuid r hr)
  | putChunk tag length crypto | truncate =>
    rw [hop] at ht
    obtain ⟨r, -, rfl⟩ := Option.map_eq_some_iff.mp ht
    exact same rfl rfl rfl rfl
  | flushSlotCache | invalidateChunk offset tag | invalidateSlotChunk offset | gc
  | compactIteration =>
    rw [hop] at ht
    cases ht
    exact same rfl rfl rfl rfl
  | start conf | cleanup gc | die =>
    rw [hop] at ht
    cases ht

variable [Fintype P]

theorem RefsInv.step (h : RefsInv s) (hfits : IdentFits s a) (hs : Hoard.step s a = some s') :
    RefsInv s' := by
  rcases step_cases hs with ⟨-, conf, -, rfl⟩ | rfl | ⟨hlast, gc, -, rfl⟩ |
    ⟨proc, t, hp, ht, rfl⟩ | rfl
  · refine h.setProc a.proc fun x hx => ?_
    cases hx
    rfl
  · exact h.setProc a.proc nofun
  · obtain ⟨hsub, hkept⟩ := cleanParcels_spec s.refs s.parcels s.parcels
    refine ⟨h.keys.sublist (hsub.map _), fun q x ident hx => ?_, fun r hr => ?_⟩
    · -- nobody is live any more
      by_cases hq : q = a.proc
      · rw [hq, St.setProc_self] at hx
        cases hx
      · rw [St.setProc_ne _ _ _ hq] at hx
        have hgone := hlast q hq
        rw [show s.procs q = some x from hx] at hgone
        cases hgone
    · obtain ⟨uuid, hmem⟩ := h.refs r hr
      obtain ⟨row, hrow, huuid, hparcel⟩ := mem_parcelKeys.mp hmem
      refine ⟨uuid, mem_parcelKeys.mpr ⟨row, hkept row hrow ?_, huuid, hparcel⟩⟩
      rw [hparcel]
      exact mem_map_of_mem hr
  · exact h.transaction hfits hp ht
  · exact h

theorem refsInv_reach (hr : Base.Reach step IdentFits (init : St P T U) s) : RefsInv s :=
  hr.inv (I := RefsInv) refsInv_init fun _ _ _ hi hf hs => hi.step hf hs

end procs

/-! ## What a parcel references -/

theorem KeysOk.ident_unique (h : KeysOk keys) {j : Int} (hi : (uuid, i) ∈ keys)
    (hj : (uuid, j) ∈ keys) : i = j :=
  congrArg Prod.snd (inj_on_of_nodup_map h.uuid hi hj rfl)

theorem KeysOk.uuid_unique (h : KeysOk keys) {u v : U} (hu : (u, i) ∈ keys) (hv : (v, i) ∈ keys) :
    u = v :=
  congrArg Prod.fst (inj_on_of_nodup_map h.ident hu hv rfl)

variable [DecidableEq T] [DecidableEq U] [DecidableEq P] {proc : Proc T U}

theorem RefsInv.sync_other (h : RefsInv s) {keys prevKeys : List T} (hp : s.procs p = some proc)
    (hconf : proc.conf = some conf)
    (ht : Hoard.transaction s proc (.syncRefs newChunks keys prevKeys) = some t)
    (hu : uuid ≠ conf.uuid) :
    (s.apply p t).refsOf uuid = s.refsOf uuid := by
  obtain ⟨ident, hident, rfl⟩ := Option.map_eq_some_iff.mp ht
  obtain ⟨conf', hconf', hmem⟩ := h.ident p proc ident hp hident
  rw [hconf, Option.some.injEq] at hconf'
  subst hconf'
  ext tag
  refine exists_congr fun i => and_congr_right fun (hi : (uuid, i) ∈ parcelKeys s.parcels) => ?_
  have hne : i ≠ ident := fun heq => hu (h.keys.uuid_unique hi (heq ▸ hmem))
  refine (mem_hoardSyncRefs rfl).trans ⟨fun hx => ?_, fun hx => .inl ⟨hx, .inr (.inl hne)⟩⟩
  exact hx.elim And.left fun hnew => absurd hnew.1 hne

theorem RefsInv.sync_own (h : RefsInv s) {keys prevKeys : List T} (hp : s.procs p = some proc)
    (hconf : proc.conf = some conf)
    (ht : Hoard.transaction s proc (.syncRefs newChunks keys prevKeys) = some t) :
    (s.apply p t).refsOf conf.uuid = if newChunks then s.refsOf conf.uuid ∪ { tag | tag ∈ keys }
      else { tag | tag ∈ prevKeys } := by
  obtain ⟨ident, hident, rfl⟩ := Option.map_eq_some_iff.mp ht
  obtain ⟨conf', hconf', hmem⟩ := h.ident p proc ident hp hident
  rw [hconf, Option.some.injEq] at hconf'
  subst hconf'
  have hof : ∀ (refs : List (Ref T)) tag, (∃ i, (conf.uuid, i) ∈ parcelKeys s.parcels ∧
      (⟨i, tag⟩ : Ref T) ∈ refs) ↔ (⟨ident, tag⟩ : Ref T) ∈ refs := by
    intro refs tag
    refine ⟨fun ⟨i, hi, hr⟩ => ?_, fun hr => ⟨ident, hmem, hr⟩⟩
    rwa [h.keys.ident_unique hmem hi]
  ext tag
  have hnew := (hof (hoardSyncRefs s.refs ident newChunks keys prevKeys) tag).trans
    (mem_hoardSyncRefs rfl)
  have hold : tag ∈ s.refsOf conf.uuid ↔ (⟨ident, tag⟩ : Ref T) ∈ s.refs := hof s.refs tag
  refine hnew.trans ?_
  cases newChunks with
  | true => simp [hold]
  | false =>
    simp only [Bool.false_eq_true, if_false, false_or, ne_eq, not_true, true_and]
    exact ⟨fun hx => hx.elim And.right id, .inr⟩

variable [Fintype P]

/-- Garbage collection, alone or as part of the cleanup, does not touch a chunk that is
referenced. -/
theorem gc_keeps (hop : a.op = .gc ∨ ∃ gc, a.op = .cleanup gc) (hs : step s a = some s')
    (hc : c ∈ s.chunks) (htag : c.tag = some tag) (href : tag ∈ s.refs.map (·.tag)) :
    c ∈ s'.chunks := by
  rcases step_cases hs with ⟨-, conf, -, rfl⟩ | rfl | ⟨-, gc, -, rfl⟩ |
    ⟨proc, t, -, ht, rfl⟩ | rfl
  · exact hc
  · exact hc
  · exact mem_cleanChunks hc htag href
  · rcases hop with hop | ⟨gc, hop⟩
    · rw [hop] at ht
      cases ht
      exact mem_hoardGc hc htag href
    · rw [hop] at ht
      cases ht
  · exact hc

/-- References stay with their parcel. In every state of every run in which the numbers of parcels
fit in an `int`, a live process has the number of the parcel with its UUID; `hoard_sync_refs`
changes the references of that UUID only, to the tags of the previous keyring, or by those of the
current one; and no garbage collection frees a chunk that is referenced. -/
theorem refs_stay (hr : Base.Reach step IdentFits (init : St P T U) s) :
    (∀ p proc ident, s.procs p = some proc → proc.ident = some ident → ∃ conf,
      proc.conf = some conf ∧ (∃ row ∈ s.parcels, row.uuid = conf.uuid ∧ row.parcel = ident) ∧
        ∀ row ∈ s.parcels, row.uuid = conf.uuid → row.parcel = ident) ∧
    (∀ p proc conf newChunks keys prevKeys t, s.procs p = some proc → proc.conf = some conf →
      transaction s proc (.syncRefs newChunks keys prevKeys) = some t →
      (∀ uuid, uuid ≠ conf.uuid → (s.apply p t).refsOf uuid = s.refsOf uuid) ∧
      (s.apply p t).refsOf conf.uuid = if newChunks then s.refsOf conf.uuid ∪ { tag | tag ∈ keys }
        else { tag | tag ∈ prevKeys }) ∧
    ∀ a s', (a.op = .gc ∨ ∃ gc, a.op = .cleanup gc) → step s a = some s' →
      ∀ c ∈ s.chunks, ∀ tag uuid, c.tag = some tag → tag ∈ s.refsOf uuid → c ∈ s'.chunks := by
  have h := refsInv_reach hr
  refine ⟨fun p proc ident hp hident => ?_, fun p proc conf newChunks _ _ t hp hconf ht =>
    ⟨fun uuid hu => h.sync_other hp hconf ht hu, h.sync_own hp hconf ht⟩, ?_⟩
  · obtain ⟨conf, hconf, hmem⟩ := h.ident p proc ident hp hident
    refine ⟨conf, hconf, mem_parcelKeys.mp hmem, fun row hrow huuid => ?_⟩
    exact h.keys.ident_unique (mem_parcelKeys.mpr ⟨row, hrow, huuid, rfl⟩) hmem
  · rintro a s' hop hs c hc tag uuid htag ⟨ident, -, href⟩
    exact gc_keeps hop hs hc htag (mem_map.mpr ⟨_, href, rfl⟩)

end invariant

/-- The first of two processes. -/
def procA : Fin 2 := ⟨0, Nat.two_pos⟩

/-- The second one. -/
def procB : Fin 2 := ⟨1, Nat.one_lt_two⟩

/-- Both come for a parcel, and the first one lists its tags. -/
def twoParcels : List (Act (Fin 2) Nat Nat) :=
  [⟨procA, .start (some ⟨10, "", "", ""⟩), true⟩, ⟨procA, .getParcelIdent 0, true⟩,
    ⟨procB, .start (some ⟨20, "", "", ""⟩), true⟩, ⟨procB, .getParcelIdent 0, true⟩,
    ⟨procA, .syncRefs false [9] [7, 8, 7], true⟩]

/-- `IdentFits` for parcels that have no more than small numbers. -/
def smallIdents (s : St (Fin 2) Nat Nat) (a : Act (Fin 2) Nat Nat) : Bool :=
  match s.procs a.proc, a.op with
  | some proc, .getParcelIdent pick =>
    match proc.conf with
    | some conf => (insertParcel s.parcels conf pick).all fun rows =>
        rows.all fun row => decide (row.parcel < 100)
    | none => true
  | _, _ => true

theorem identFits_of_small {s : St (Fin 2) Nat Nat} {a : Act (Fin 2) Nat Nat}
    (h : smallIdents s a = true) : IdentFits s a := by
  intro proc conf pick rows hp hconf hop hins row hrow _
  simp only [smallIdents, hp, hop, hconf, hins, Option.all_some, all_eq_true,
    decide_eq_true_eq] at h
  have := h row hrow
  omega

theorem refs_stay_two : ∃ s proc conf, Base.Reach step IdentFits (init : St (Fin 2) Nat Nat) s ∧
    s.procs 1 = some proc ∧ proc.ident = some 2 ∧ proc.conf = some conf ∧
    (∃ row ∈ s.parcels, row.uuid = conf.uuid ∧ row.parcel = 2) ∧
    ∀ t, transaction s proc (.syncRefs false [9] [7]) = some t →
      (s.apply 1 t).refsOf conf.uuid = { tag | tag ∈ [7] } := by
  have hrun : (Base.exec step smallIdents (init : St (Fin 2) Nat Nat) twoParcels).any
      (fun s => (s.procs 1).any fun proc => proc.ident == some 2) = true := by
    decide +kernel
  obtain ⟨s, hs, hchk⟩ := Base.reach_of_exec_any (fun _ _ => identFits_of_small) twoParcels hrun
  obtain ⟨proc, hp, hident⟩ := (Option.any_eq_true ..).mp hchk
  rw [beq_iff_eq] at hident
  obtain ⟨hnumber, hsync, -⟩ := refs_stay hs
  obtain ⟨conf, hconf, hrow, -⟩ := hnumber 1 proc 2 hp hident
  exact ⟨s, proc, conf, hs, hp, hident, hconf, hrow, fun t ht =>
    (hsync 1 proc conf false [9] [7] t hp hconf ht).2⟩

/-! ## A number that does not fit -/

/-- A parcel without a server, user or name. -/
def bare (uuid : Nat) : Config Nat := { uuid, server := "", user := "", name := "" }

/-- The parcels with the UUIDs below `n`, in the order in which they came. -/
def manyParcels (n : Nat) : List (Parcel Nat) :=
  (List.range n).map fun k => { bare k with parcel := k + 1 }

theorem manyParcels_succ (n : Nat) :
    manyParcels (n + 1) = manyParcels n ++ [{ bare n with parcel := n + 1 }] := by
  unfold manyParcels
  rw [range_succ, map_append]
  rfl

theorem mem_manyParcels {row : Parcel Nat} (h : row ∈ manyParcels n) :
    ∃ k < n, row = { bare k with parcel := k + 1 } := by
  obtain ⟨k, hk, rfl⟩ := mem_map.mp h
  exact ⟨k, mem_range.mp hk, rfl⟩

theorem newRowid_manyParcels (hn : (n : Int) < 2 ^ 63 - 1) (pick : Int) :
    newRowid (manyParcels n) pick = some (n + 1) := by
  cases n with
  | zero => rfl
  | succ m =>
    have hmax : ((manyParcels (m + 1)).map (·.parcel)).max? = some ((m : Int) + 1) := by
      rw [max?_eq_some_iff]
      refine ⟨mem_map.mpr ⟨{ bare m with parcel := m + 1 }, ?_, rfl⟩, fun i hi => ?_⟩
      · rw [manyParcels_succ]
        exact mem_append_right _ (mem_singleton.mpr rfl)
      · obtain ⟨row, hrow, rfl⟩ := mem_map.mp hi
        obtain ⟨k, hk, rfl⟩ := mem_manyParcels hrow
        show (k : Int) + 1 ≤ m + 1
        omega
    unfold newRowid
    rw [hmax]
    exact if_pos (by push_cast at hn; omega)

/-- The next parcel gets the next number, and its process what an `int` can hold of it. -/
theorem getParcelIdent_manyParcels (hn : (n : Int) < 2 ^ 63 - 1) (pick : Int) :
    getParcelIdent (manyParcels n) (bare n) pick = some (manyParcels (n + 1), wrapInt (n + 1)) := by
  have hnew : ∀ row ∈ manyParcels n, row.uuid ≠ n := by
    intro row hrow
    obtain ⟨k, hk, rfl⟩ := mem_manyParcels hrow
    exact ne_of_lt hk
  have hins : insertParcel (manyParcels n) (bare n) pick = some (manyParcels (n + 1)) := by
    unfold insertParcel
    rw [if_neg fun hx => ?_, newRowid_manyParcels hn, manyParcels_succ]
    · rfl
    · obtain ⟨row, hrow, huuid⟩ := mem_map.mp hx
      exact hnew row hrow huuid
  have hfind : (manyParcels (n + 1)).find? (·.uuid = (bare n).uuid) =
      some { bare n with parcel := n + 1 } := by
    rw [manyParcels_succ, find?_append, find?_eq_none.mpr fun row hrow => ?_]
    · simp
    · have hne : row.uuid ≠ (bare n).uuid := hnew row hrow
      simpa using hne
  have hsame : ∀ row ∈ manyParcels (n + 1), decide (row.parcel = wrapInt (n + 1) ∧
      (row.server ≠ (bare n).server ∨ row.user ≠ (bare n).user ∨ row.name ≠ (bare n).name)) =
        false := by
    intro row hrow
    obtain ⟨k, -, rfl⟩ := mem_manyParcels hrow
    simp [bare]
  simp only [getParcelIdent, hins, hfind, Option.map_some, updateWhere_eq_self hsame]

/-- Nobody is live, and there are `n` parcels. -/
def crowded (n : Nat) : St Unit Nat Nat :=
  { chunks := [], parcels := manyParcels n, refs := [], procs := fun _ => none }

/-- The process of the last of `n + 1` parcels is live. -/
def joined (n : Nat) : St Unit Nat Nat :=
  { chunks := [], parcels := manyParcels (n + 1), refs := []
    procs := fun _ => some { slots := [], conf := some (bare n), ident := some (wrapInt (n + 1)) } }

theorem reach_joined (hn : (n : Int) < 2 ^ 63 - 1)
    (h : Base.Reach step (fun _ _ => True) init (crowded n)) :
    Base.Reach step (fun _ _ => True) init (joined n) := by
  let proc : Proc Nat Nat := { slots := [], conf := some (bare n), ident := none }
  have hstart := h.step (a := ⟨(), .start (some (bare n)), true⟩) trivial (step_start rfl)
  have ht : transaction ((crowded n).setProc () (some proc)) proc (.getParcelIdent 0) =
      some { (crowded n).txn proc with
        parcels := manyParcels (n + 1), proc := { proc with ident := some (wrapInt (n + 1)) } } :=
    congrArg (Option.map _) (getParcelIdent_manyParcels hn 0)
  have hjoin := hstart.step trivial (step_commit (St.setProc_self ..) ht)
  have heq : ((crowded n).setProc () (some proc)).apply () { (crowded n).txn proc with
      parcels := manyParcels (n + 1), proc := { proc with ident := some (wrapInt (n + 1)) } } =
        joined n := St.ext rfl rfl rfl (funext fun () => St.apply_self ..)
  rwa [heq] at hjoin

theorem reach_crowded : ∀ n : Nat, (n : Int) < 2 ^ 63 - 1 →
    Base.Reach step (fun _ _ => True) init (crowded n) := by
  intro n
  induction n with
  | zero => exact fun _ => .init
  | succ n ih =>
    intro hn
    have hn' : (n : Int) < 2 ^ 63 - 1 := by
      push_cast at hn
      omega
    have hdie : step (joined n) ⟨(), .die, true⟩ = some ((joined n).setProc () none) := rfl
    have hgone : (joined n).setProc () none = crowded (n + 1) :=
      St.ext rfl rfl rfl (funext fun () => St.setProc_self ..)
    exact (reach_joined hn' (ih hn')).step trivial (hgone ▸ hdie)

/-- A process whose number has become negative has the number of no parcel. -/
theorem joined_ident (hn : (n : Int) < 2 ^ 63 - 1) (hneg : wrapInt (n + 1) < 0) :
    ∃ (s : St Unit Nat Nat) (proc : Proc Nat Nat) (conf : Config Nat) (ident : Int),
      Base.Reach step (fun _ _ => True) init s ∧ s.procs () = some proc ∧ proc.conf = some conf ∧
        proc.ident = some ident ∧ conf.uuid ∈ s.parcels.map (·.uuid) ∧
        ∀ row ∈ s.parcels, row.parcel ≠ ident := by
  refine ⟨joined n, _, bare n, wrapInt (n + 1), reach_joined hn (reach_crowded n hn), rfl, rfl, rfl,
    ?_, fun row hrow => ?_⟩
  · refine mem_map.mpr ⟨{ bare n with parcel := n + 1 }, ?_, rfl⟩
    show _ ∈ manyParcels (n + 1)
    rw [manyParcels_succ]
    exact mem_append_right _ (mem_singleton.mpr rfl)
  · obtain ⟨k, -, rfl⟩ := mem_manyParcels hrow
    show (k : Int) + 1 ≠ wrapInt (n + 1)
    omega

/-- The parcel with the number 2^31: its process takes the number to be -2^31. -/
theorem ident_wraps : ∃ (s : St Unit Nat Nat) (proc : Proc Nat Nat) (conf : Config Nat)
    (ident : Int), Base.Reach step (fun _ _ => True) init s ∧ s.procs () = some proc ∧
      proc.conf = some conf ∧ proc.ident = some ident ∧ conf.uuid ∈ s.parcels.map (·.uuid) ∧
      ∀ row ∈ s.parcels, row.parcel ≠ ident :=
  joined_ident (n := 2 ^ 31 - 1) (by decide) (by decide)

end OpenIsr.Hoard
