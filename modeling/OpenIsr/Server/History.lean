import OpenIsr.Base.Run
import OpenIsr.Server.Rollback

/-!
# The history of a parcel

The disk of a version is spread over the versions from it on: a chunk is in the first of them that
has it (`disk`). `srv_commit`, `srv_rollback` and `prune` keep the disks of all versions that they
do not remove, and `srv_rollback` makes a version with the disk of an older one (`history_kept`).

The keyrings are taken to give the tags of the chunks, `tag` being what makes a tag of data, and for
`srv_rollback`, which compares tags only, chunks of the two versions with equal tags to be equal.
-/

namespace OpenIsr.Server

open Base List Option

/-- A chunk on the disk of version `v`: it is in the first version from `v` on that has it. -/
def disk (cfg : Cfg) (s : Store) (v c : Nat) : Option (List UInt8) :=
  (List.range' v (s.lastver + 1 - v)).findSome? fun w => chunk cfg (s.hdkOf w) c

/-- The keyring gives the tags of the disk. -/
def Tagged (cfg : Cfg) (tag : List UInt8 → List UInt8) (k : Keyring)
    (disk : Nat → Option (List UInt8)) : Prop :=
  ∀ c < cfg.numchunks, (k.lookup (c : Int)).map (·.tag) = (disk c).map tag

/-- A parcel with the versions from `first` to `last`. -/
structure Parcel (cfg : Cfg) (tag : List UInt8 → List UInt8) (s : Store) (first last : Nat) :
    Prop where
  pos : 0 < first
  le : first ≤ last
  lt : last < 10 ^ 6
  versions : ∀ n, n ∈ s.versions ↔ first ≤ n ∧ n ≤ last
  link : s.last = some last
  present : ∀ n v, s.versions.lookup n = some v → v.cfg.isSome ∧ v.hdk.isSome
  complete : ∀ c < cfg.numchunks, (chunk cfg (s.hdkOf last) c).isSome
  chunks : ∀ n < last, ∀ d f, (content (s.hdkOf n) d f).isSome → IsChunk cfg d f
  keyring : ∀ n v, s.versions.lookup n = some v →
    ∃ k, v.keyring = some (some k) ∧ Tagged cfg tag k (disk cfg s n)

/-! ## Runs of the scripts -/

inductive Script
  | commit (cache : VersionDir) (fails : Op → Bool)
  | rollback (targetver : Nat)
  | prune (retain : Int) (reply : Bool)

/-- A run of a script. Of the runs of `srv_commit` only those that succeed count. -/
def runScript (cfg : Cfg) (s : Store) : Script → Option Store
  | .commit cache fails =>
    let c := srvCommit cfg fails { s with cache := some cache }
    if c.ok then some c.store else none
  | .rollback targetver => some (srvRollback cfg s targetver).store
  | .prune retain reply => some (prune s retain reply)

/-- The uploads that count, and what is assumed of the tags. -/
def Allowed (cfg : Cfg) (tag : List UInt8 → List UInt8) (s : Store) : Script → Prop
  | .commit cache fails =>
    s.lastver + 1 < 10 ^ 6 ∧
      (∀ d f, (content cache.hdk d f).isSome → IsChunk cfg d f) ∧
      let s' := (srvCommit cfg fails { s with cache := some cache }).store
      ∃ k, cache.keyring = some (some k) ∧ Tagged cfg tag k (disk cfg s' s'.lastver)
  | .rollback targetver =>
    s.lastver + 1 < 10 ^ 6 ∧ (targetver ∈ s.versions →
      ∀ c < cfg.numchunks, (disk cfg s targetver c).map tag = (disk cfg s s.lastver c).map tag →
        disk cfg s targetver c = disk cfg s s.lastver c)
  | .prune _ _ => True

/-! ## The disk -/

section disk

variable {cfg : Cfg} {s s' : Store} {first last v : Nat}

theorem names_max (hversions : ∀ n, n ∈ s.versions ↔ first ≤ n ∧ n ≤ last) (hle : first ≤ last)
    (hlt : last < 10 ^ 6) : s.lastver = last := by
  have hmax : (s.versions.keys.map verName).max? = some (verName last) := by
    rw [max?_eq_some_iff]
    refine ⟨mem_map_of_mem (AList.mem_keys.mp ((hversions last).mpr ⟨hle, le_rfl⟩)), ?_⟩
    intro name hname
    obtain ⟨n, hn, rfl⟩ := mem_map.mp hname
    have hn := (hversions n).mp (AList.mem_keys.mpr hn)
    exact (padded_le_iff (by decide) (by omega) hlt).mpr hn.2
  rw [Store.lastver, hmax, map_some, getD_some, verName, value_padded]

theorem names_min (hversions : ∀ n, n ∈ s.versions ↔ first ≤ n ∧ n ≤ last) (hle : first ≤ last)
    (hlt : last < 10 ^ 6) : s.firstver = first := by
  have hmin : (s.versions.keys.map verName).min? = some (verName first) := by
    rw [min?_eq_some_iff]
    refine ⟨mem_map_of_mem (AList.mem_keys.mp ((hversions first).mpr ⟨le_rfl, hle⟩)), ?_⟩
    intro name hname
    obtain ⟨n, hn, rfl⟩ := mem_map.mp hname
    have hn := (hversions n).mp (AList.mem_keys.mpr hn)
    exact (padded_le_iff (by decide) (by omega) (by omega)).mpr hn.1
  rw [Store.firstver, hmin, map_some, getD_some, verName, value_padded]

theorem mem_versions_of_content {n : Nat} {d f : Name} (h : (content (s.hdkOf n) d f).isSome) :
    n ∈ s.versions := by
  by_contra hno
  rw [Store.hdkOf, AList.lookup_eq_none.mpr hno] at h
  cases h

theorem disk_lastver (cfg : Cfg) (s : Store) (c : Nat) :
    disk cfg s s.lastver c = chunk cfg (s.hdkOf s.lastver) c := by
  rw [disk, Nat.add_sub_cancel_left, range'_one, findSome?_singleton]

theorem disk_of_lt (cfg : Cfg) (hv : v < s.lastver) (c : Nat) :
    disk cfg s v c = (chunk cfg (s.hdkOf v) c).or (disk cfg s (v + 1) c) := by
  rw [disk, show s.lastver + 1 - v = (s.lastver - v) + 1 by omega, range'_succ,
    findSome?_cons, disk, show s.lastver + 1 - (v + 1) = s.lastver - v by omega]
  cases chunk cfg (s.hdkOf v) c <;> rfl

theorem disk_eq_or (cfg : Cfg) (hv : v ≤ s.lastver) (c : Nat) :
    disk cfg s v c
      = ((List.range' v (s.lastver - v)).findSome? fun w => chunk cfg (s.hdkOf w) c).or
          (disk cfg s s.lastver c) := by
  rw [disk_lastver, disk, show s.lastver + 1 - v = (s.lastver - v) + 1 by omega,
    range'_1_concat, findSome?_append, findSome?_singleton,
    show v + (s.lastver - v) = s.lastver by omega]

theorem disk_congr (hlast : s'.lastver = s.lastver) (hhdk : ∀ w, v ≤ w → s'.hdkOf w = s.hdkOf w)
    (c : Nat) : disk cfg s' v c = disk cfg s v c := by
  rw [disk, disk, hlast]
  refine findSome?_congr fun w hw => ?_
  rw [hhdk w (left_le_of_mem_range' hw)]

end disk

/-! ## A commit -/

section commit

variable {cfg : Cfg} {tag : List UInt8 → List UInt8} {s s' : Store} {first last : Nat}
  {cache l : VersionDir} {h : Hdk}

theorem Parcel.lastver (hp : Parcel cfg tag s first last) : s.lastver = last :=
  names_max hp.versions hp.le hp.lt

theorem Parcel.noNext (hp : Parcel cfg tag s first last) : s.versions.lookup (last + 1) = none := by
  rw [AList.lookup_eq_none, hp.versions]
  omega

theorem hdkOf_eq {n : Nat} {v : VersionDir} (hv : s.versions.lookup n = some v) :
    s.hdkOf n = v.hdk := by
  rw [Store.hdkOf, hv]
  rfl

section

variable (hcom : Committed cfg s cache l h s')
include hcom

theorem Committed.hdkOf_other {n : Nat} (hn : n ≠ s.lastver) (hn' : n ≠ s.lastver + 1) :
    s'.hdkOf n = s.hdkOf n := by
  rw [Store.hdkOf, Store.hdkOf, hcom.other n hn hn']

theorem Committed.disk_next (hl : s.versions.lookup s.lastver = some l)
    (hlast : s'.lastver = s.lastver + 1) {c : Nat} (hc : c < cfg.numchunks) :
    disk cfg s' s'.lastver c = (chunk cfg (some h) c).or (disk cfg s s.lastver c) := by
  obtain ⟨v', hv', -, -, -, hin, hout⟩ := hcom.next
  rw [disk_lastver, disk_lastver, hlast, hdkOf_eq hv', hdkOf_eq hl]
  by_cases hup : Uploaded cfg h (chunkDir cfg c) (chunkFile cfg c)
  · obtain ⟨data, hdata⟩ := isSome_iff_exists.mp ((uploaded_chunk hc).mp hup)
    rw [chunk, hin _ _ hup, hdata]
    exact hdata
  · rw [chunk, hout _ _ hup, not_isSome_iff_eq_none.mp (mt (uploaded_chunk hc).mpr hup)]
    rfl

theorem Committed.disk_old (hl : s.versions.lookup s.lastver = some l)
    (hlast : s'.lastver = s.lastver + 1) {c : Nat} (hcomplete : (chunk cfg l.hdk c).isSome)
    {v : Nat} (hv : v ≤ s.lastver) : disk cfg s' v c = disk cfg s v c := by
  obtain ⟨v', hv', -, -, -, hin, hout⟩ := hcom.next
  obtain ⟨l', hl', -, -, -, hlin, hlout⟩ := hcom.last
  -- from the last version back
  induction hv using Nat.decreasingInduction with
  | self =>
    rw [disk_of_lt cfg (by omega), ← hlast, disk_lastver, disk_lastver, hlast, hdkOf_eq hl',
      hdkOf_eq hv', hdkOf_eq hl]
    by_cases hup : Uploaded cfg h (chunkDir cfg c) (chunkFile cfg c)
    · obtain ⟨data, hdata⟩ := isSome_iff_exists.mp hcomplete
      rw [chunk, hlin _ _ hup, ← chunk, hdata, some_or]
    · rw [chunk, hlout _ _ hup, none_or, chunk, hout _ _ hup]
      rfl
  | of_succ v hv ih =>
    rw [disk_of_lt (s := s) cfg hv, ← ih, ← hcom.hdkOf_other (by omega) (by omega)]
    exact disk_of_lt cfg (by omega) c

end

theorem Parcel.upload (hp : Parcel cfg tag s first last) (cache : Option VersionDir) :
    Parcel cfg tag { s with cache := cache } first last :=
  ⟨hp.pos, hp.le, hp.lt, hp.versions, hp.link, hp.present, hp.complete, hp.chunks, hp.keyring⟩

/-- What a commit does to the disks. -/
structure DiskCommitted (cfg : Cfg) (s : Store) (cache l : VersionDir) (h : Hdk) (s' : Store) :
    Prop extends Committed cfg s cache l h s' where
  lastver : s'.lastver = s.lastver + 1
  old : ∀ n ≤ s.lastver, ∀ c < cfg.numchunks, disk cfg s' n c = disk cfg s n c
  new : ∀ c < cfg.numchunks,
    disk cfg s' s'.lastver c = (chunk cfg (some h) c).or (disk cfg s s.lastver c)

section

variable (hp : Parcel cfg tag s first last)
include hp

theorem Parcel.diskCommitted (hbound : last + 1 < 10 ^ 6) (hl : s.versions.lookup last = some l)
    (hcom : Committed cfg s cache l h s') : DiskCommitted cfg s cache l h s' := by
  obtain rfl := hp.lastver
  have hle := hp.le
  have hlast : s'.lastver = s.lastver + 1 :=
    names_max (hcom.versions hp.versions hp.le) (by omega) hbound
  have hcomplete : ∀ c < cfg.numchunks, (chunk cfg l.hdk c).isSome := fun c hc => by
    have := hp.complete c hc
    rwa [hdkOf_eq hl] at this
  exact ⟨hcom, hlast, fun n hn c hc => hcom.disk_old hl hlast (hcomplete c hc) hn,
    fun c hc => hcom.disk_next hl hlast hc⟩

theorem Parcel.commit_done (hbound : last + 1 < 10 ^ 6) (hcache : s.cache = some cache)
    {fails : Op → Bool} (hok : (srvCommit cfg fails s).ok = true) :
    ∃ h l, cache.hdk = some h ∧ cache.cfg.isSome ∧ s.versions.lookup last = some l ∧
      DiskCommitted cfg s cache l h (srvCommit cfg fails s).store := by
  obtain rfl := hp.lastver
  obtain ⟨cache', h, l, hcache', hh, hl, hcp, -, hcom⟩ := srvCommit_committed hp.noNext hok
  cases hcache.symm.trans hcache'
  simp only [VersionDir.present, Bool.and_eq_true] at hcp
  exact ⟨h, l, hh, hcp.1.1, hl, hp.diskCommitted hbound hl hcom⟩

theorem Parcel.commit_ok (hcache : s.cache = some cache) (hh : cache.hdk = some h)
    (hcfg : cache.cfg.isSome) (hkeyring : cache.keyring.isSome)
    (hchunks : ∀ d f, (content (some h) d f).isSome → IsChunk cfg d f) :
    (srvCommit cfg (fun _ => false) s).ok = true := by
  obtain rfl := hp.lastver
  obtain ⟨l, hl⟩ := isSome_iff_exists.mp
    (AList.lookup_isSome.mpr ((hp.versions s.lastver).mpr ⟨hp.le, le_rfl⟩))
  have hcp : cache.present = true := by
    simp only [VersionDir.present, hcfg, hkeyring, hh, isSome_some, Bool.and_self]
  have hlp : l.present = true := by
    obtain ⟨hcfg, hhdk⟩ := hp.present _ l hl
    obtain ⟨k, hk, -⟩ := hp.keyring _ l hl
    simp only [VersionDir.present, hcfg, hk, hhdk, isSome_some, Bool.and_self]
  refine (srvCommit_ok hcache hh hl hcp hlp (by rw [hp.link]; rfl) hp.noNext).mpr ?_
  intro d f hup
  obtain ⟨c, hc, rfl, rfl⟩ := hchunks d f (content_of_uploaded hup)
  have := hp.complete c hc
  rwa [hdkOf_eq hl] at this

theorem Parcel.commit (hbound : last + 1 < 10 ^ 6) (hl : s.versions.lookup last = some l)
    (hcom : DiskCommitted cfg s cache l h s') (hcfg : cache.cfg.isSome)
    (hchunks : ∀ d f, (content (some h) d f).isSome → IsChunk cfg d f)
    (hk : ∃ k, cache.keyring = some (some k) ∧ Tagged cfg tag k (disk cfg s' s'.lastver)) :
    Parcel cfg tag s' first (last + 1) := by
  obtain rfl := hp.lastver
  have hversions := hcom.versions hp.versions hp.le
  have hle := hp.le
  obtain ⟨l', hl', hlcfg, hlkey, hlhdk, -, hlout⟩ := hcom.last
  obtain ⟨v', hv', hvcfg, hvkey, hvhdk, -, -⟩ := hcom.next
  refine ⟨hp.pos, by omega, hbound, hversions, hcom.link, fun n v hv => ?_, fun c hc => ?_,
    fun n hn d f hsome => ?_, fun n v hv => ?_⟩
  · by_cases hn' : n = s.lastver + 1
    · subst hn'
      cases hv'.symm.trans hv
      exact ⟨hvcfg ▸ hcfg, hvhdk⟩
    by_cases hn : n = s.lastver
    · subst hn
      cases hl'.symm.trans hv
      exact ⟨hlcfg ▸ (hp.present _ _ hl).1, hlhdk⟩
    · exact hp.present n v ((hcom.other n hn hn').symm.trans hv)
  · rw [← hcom.lastver, ← disk_lastver, hcom.new c hc, disk_lastver]
    exact isSome_or.trans (by rw [hp.complete c hc, Bool.or_true])
  · by_cases hn' : n = s.lastver
    · subst hn'
      rw [hdkOf_eq hl'] at hsome
      by_cases hup : Uploaded cfg h d f
      · exact hchunks d f (content_of_uploaded hup)
      · rw [hlout d f hup] at hsome
        cases hsome
    · rw [hcom.hdkOf_other hn' (by omega)] at hsome
      exact hp.chunks n (by omega) d f hsome
  · by_cases hn' : n = s.lastver + 1
    · subst hn'
      cases hv'.symm.trans hv
      rw [hvkey, ← hcom.lastver]
      exact hk
    · -- a version that there was has its keyring and its disk
      have hn : n ≤ s.lastver := by
        have := (hversions n).mp (AList.lookup_isSome.mp (by rw [hv]; rfl))
        omega
      obtain ⟨u, hu, hkeyring⟩ : ∃ u, s.versions.lookup n = some u ∧ v.keyring = u.keyring := by
        by_cases hn : n = s.lastver
        · subst hn
          cases hl'.symm.trans hv
          exact ⟨l, hl, hlkey⟩
        · exact ⟨v, (hcom.other n hn hn').symm.trans hv, rfl⟩
      obtain ⟨k, hk, htag⟩ := hp.keyring n u hu
      exact ⟨k, hkeyring.trans hk, fun c hc => by rw [hcom.old n hn c hc, htag c hc]⟩

end

end commit

/-! ## A rollback -/

section rollback

variable {cfg : Cfg} {tag : List UInt8 → List UInt8} {s : Store} {first last v : Nat}

theorem keydiff_iff {k k' : Keyring} {d d' : Nat → Option (List UInt8)} (hk : Tagged cfg tag k d)
    (hk' : Tagged cfg tag k' d') {c : Nat} (hc : c < cfg.numchunks) (hd : (d c).isSome)
    (hd' : (d' c).isSome) : keydiff k k' c = true ↔ (d c).map tag ≠ (d' c).map tag := by
  obtain ⟨x, hx⟩ := isSome_iff_exists.mp hd
  obtain ⟨y, hy⟩ := isSome_iff_exists.mp hd'
  have hk := hk c hc
  have hk' := hk' c hc
  rw [hx] at hk
  rw [hy] at hk'
  obtain ⟨e, he, htag⟩ := map_eq_some_iff.mp hk
  obtain ⟨e', he', htag'⟩ := map_eq_some_iff.mp hk'
  rw [hx, hy, keydiff, he, he']
  simp only [htag, htag', ne_eq, decide_eq_true_eq, map_some, some.injEq]

section

variable (hp : Parcel cfg tag s first last)
include hp

theorem Parcel.disk_isSome {c : Nat} (hc : c < cfg.numchunks) (hv : v ≤ last) :
    (disk cfg s v c).isSome := by
  obtain rfl := hp.lastver
  rw [disk_eq_or cfg hv, disk_lastver, isSome_or, hp.complete c hc, Bool.or_true]

theorem Parcel.rollback_upload (hv : first ≤ v) (hlt : v < last)
    (hfaith : ∀ c < cfg.numchunks, (disk cfg s v c).map tag = (disk cfg s last c).map tag →
      disk cfg s v c = disk cfg s last c) :
    ∃ target hdk, s.versions.lookup v = some target ∧
      (srvRollback cfg s v).store = (srvCommit cfg (fun _ => false)
        { s with cache := some ⟨target.cfg, target.keyring, some hdk⟩ }).store ∧
      (srvRollback cfg s v).ok = (srvCommit cfg (fun _ => false)
        { s with cache := some ⟨target.cfg, target.keyring, some hdk⟩ }).ok ∧
      (∀ d f, (content (some hdk) d f).isSome → IsChunk cfg d f) ∧
      ∀ c < cfg.numchunks, (chunk cfg (some hdk) c).or (disk cfg s last c) = disk cfg s v c := by
  obtain rfl := hp.lastver
  have hle := hp.le
  have hpos := hp.pos
  have hlookup : ∀ n, first ≤ n → n ≤ s.lastver → ∃ d, s.versions.lookup n = some d :=
    fun n hn hn' =>
      isSome_iff_exists.mp (AList.lookup_isSome.mpr ((hp.versions n).mpr ⟨hn, hn'⟩))
  obtain ⟨target, htarget⟩ := hlookup v hv hlt.le
  obtain ⟨l, hl⟩ := hlookup s.lastver hle le_rfl
  obtain ⟨k, hk, htagged⟩ := hp.keyring v target htarget
  obtain ⟨k', hk', htagged'⟩ := hp.keyring s.lastver l hl
  obtain ⟨config, hconfig⟩ := isSome_iff_exists.mp (hp.present v target htarget).1
  have hhdk : ∀ n ∈ List.range' v (s.lastver - v), (s.hdkOf n).isSome := by
    intro n hn
    obtain ⟨hn, hn'⟩ := mem_range'_1.mp hn
    obtain ⟨d, hd⟩ := hlookup n (by omega) (by omega)
    rw [hdkOf_eq hd]
    exact (hp.present n d hd).2
  obtain ⟨hdk, hloop, hchunk, hfiles⟩ := chunk_rollbackLoop cfg (keydiff k k')
    (List.range' v (s.lastver - v)) hhdk
  have heq : srvRollback cfg s v = ⟨(srvCommit cfg (fun _ => false)
        { s with cache := some ⟨target.cfg, target.keyring, some hdk⟩ }).store,
      (srvCommit cfg (fun _ => false)
        { s with cache := some ⟨target.cfg, target.keyring, some hdk⟩ }).ok⟩ := by
    rw [srvRollback, if_neg (by omega), htarget]
    dsimp only
    rw [if_neg (by omega), hl, bind_some, hk, hk']
    dsimp only
    rw [hloop, hconfig]
    rfl
  refine ⟨target, hdk, htarget, by rw [heq], by rw [heq], fun d f hsome => ?_, fun c hc => ?_⟩
  · obtain ⟨n, hn, hsome⟩ := hfiles d f hsome
    obtain ⟨-, hn'⟩ := mem_range'_1.mp hn
    exact hp.chunks n (by omega) d f hsome
  · have hdiff := keydiff_iff htagged htagged' hc (hp.disk_isSome hc hlt.le)
      (hp.disk_isSome hc le_rfl)
    rw [hchunk]
    split
    next => rw [← disk_eq_or cfg hlt.le]
    next hsame =>
      -- nothing has been copied: by its tag the chunk is that of the last version
      rw [none_or]
      exact (hfaith c hc (not_not.mp (mt hdiff.mpr hsame))).symm

theorem Parcel.rollback (hv : first ≤ v) (hlt : v < last) (hbound : last + 1 < 10 ^ 6)
    (hfaith : ∀ c < cfg.numchunks, (disk cfg s v c).map tag = (disk cfg s last c).map tag →
      disk cfg s v c = disk cfg s last c) :
    (srvRollback cfg s v).ok = true ∧
      Parcel cfg tag (srvRollback cfg s v).store first (last + 1) ∧
      (∀ n ≤ last, ∀ c < cfg.numchunks, disk cfg (srvRollback cfg s v).store n c = disk cfg s n c) ∧
      (∀ c < cfg.numchunks, disk cfg (srvRollback cfg s v).store (last + 1) c = disk cfg s v c) ∧
      ∃ w w', s.versions.lookup v = some w ∧
        (srvRollback cfg s v).store.versions.lookup (last + 1) = some w' ∧
        w'.keyring = w.keyring := by
  obtain ⟨target, hdk, htarget, hstore, hok, hchunks, hnew⟩ := hp.rollback_upload hv hlt hfaith
  obtain ⟨k, hk, htagged⟩ := hp.keyring v target htarget
  have hp' := hp.upload (some ⟨target.cfg, target.keyring, some hdk⟩)
  rw [hstore, hok]
  have hok := hp'.commit_ok rfl rfl (hp.present v target htarget).1 (by rw [hk]; rfl) hchunks
  obtain ⟨h, l, hh, hcfg, hl, hcom⟩ := hp'.commit_done hbound rfl hok
  cases hh
  obtain rfl := hp.lastver
  have hdisk : ∀ c < cfg.numchunks, _ = disk cfg s v c := fun c hc =>
    (hcom.new c hc).trans (hnew c hc)
  obtain ⟨w', hw', -, hkeyring, -⟩ := hcom.next
  refine ⟨hok, hp'.commit hbound hl hcom hcfg hchunks ⟨k, hk, fun c hc => ?_⟩, hcom.old,
    fun c hc => ?_, target, w', htarget, hw', hkeyring⟩
  · rw [hdisk c hc]
    exact htagged c hc
  · rw [← hdisk c hc, hcom.lastver]
    rfl

end

end rollback

/-! ## Pruning -/

section prune

variable {cfg : Cfg} {tag : List UInt8 → List UInt8} {s : Store} {first last : Nat}

theorem Parcel.prune (hp : Parcel cfg tag s first last) (retain : Int) (reply : Bool) :
    ∃ first', first ≤ first' ∧ Parcel cfg tag (prune s retain reply) first' last ∧
      ∀ n, first' ≤ n → ∀ c, disk cfg (prune s retain reply) n c = disk cfg s n c := by
  obtain rfl := hp.lastver
  rcases prune_cases s retain reply with heq | ⟨first', hfirst, hle, hlink, -, hlookup⟩
  · rw [heq]
    exact ⟨first, le_rfl, hp, fun _ _ _ => rfl⟩
  · rw [names_min hp.versions hp.le hp.lt] at hfirst hlookup
    generalize Server.prune s retain reply = s' at *
    have hkept : ∀ n, first' ≤ n → s'.versions.lookup n = s.versions.lookup n := fun n hn => by
      rw [hlookup, if_neg (by omega)]
    have hfound : ∀ n v,
      s'.versions.lookup n = some v → s.versions.lookup n = some v ∧ first' ≤ n := by
      intro n v hv
      rw [hlookup] at hv
      split at hv
      next => cases hv
      next hn =>
        have := (hp.versions n).mp (AList.lookup_isSome.mp (by rw [hv]; rfl))
        exact ⟨hv, by omega⟩
    have hversions : ∀ n, n ∈ s'.versions ↔ first' ≤ n ∧ n ≤ s.lastver := by
      intro n
      rw [← AList.lookup_isSome, hlookup]
      split
      next => simp; omega
      next => rw [AList.lookup_isSome, hp.versions]; omega
    have hlast : s'.lastver = s.lastver := names_max hversions hle hp.lt
    have hhdk : ∀ n, first' ≤ n → s'.hdkOf n = s.hdkOf n := fun n hn => by
      rw [Store.hdkOf, Store.hdkOf, hkept n hn]
    have hdisk : ∀ n, first' ≤ n → ∀ c, disk cfg s' n c = disk cfg s n c := fun n hn c =>
      disk_congr hlast (fun w hw => hhdk w (hn.trans hw)) c
    refine ⟨first', hfirst.le,
      ⟨by omega, hle, hp.lt, hversions, hlink.trans hp.link, fun n v hv => ?_,
      fun c hc => ?_, fun n hn d f hsome => ?_, fun n v hv => ?_⟩, hdisk⟩
    · exact hp.present n v (hfound n v hv).1
    · rw [hhdk _ hle]
      exact hp.complete c hc
    · rw [hhdk n ((hversions n).mp (mem_versions_of_content hsome)).1] at hsome
      exact hp.chunks n hn d f hsome
    · obtain ⟨hv, hn⟩ := hfound n v hv
      obtain ⟨k, hk, htagged⟩ := hp.keyring n v hv
      exact ⟨k, hk, fun c hc => by rw [hdisk n hn c, htagged c hc]⟩

end prune

/-! ## Histories -/

section history

variable {cfg : Cfg} {tag : List UInt8 → List UInt8} {s s₀ s₁ s₂ s' : Store} {first last : Nat}

theorem srvRollback_none {v : Nat} (hno : v = 0 ∨ v ∉ s.versions ∨ v = s.lastver) :
    (srvRollback cfg s v).store = s := by
  unfold srvRollback
  split
  next => rfl
  next hpos =>
    split
    next => rfl
    next target htarget =>
      rcases hno with rfl | hno | rfl
      · exact absurd Nat.one_pos hpos
      · rw [AList.lookup_eq_none.mpr hno] at htarget
        cases htarget
      · rw [if_pos rfl]

theorem Parcel.step (hp : Parcel cfg tag s first last) {a : Script} (hallowed : Allowed cfg tag s a)
    (hrun : runScript cfg s a = some s') :
    ∃ first' last', first ≤ first' ∧ last ≤ last' ∧ Parcel cfg tag s' first' last' ∧
      ∀ n, first' ≤ n → n ≤ last → ∀ c < cfg.numchunks, disk cfg s' n c = disk cfg s n c := by
  obtain rfl := hp.lastver
  cases a with
  | commit cache fails =>
    obtain ⟨hbound, hchunks, hk⟩ := hallowed
    have hp' := hp.upload (some cache)
    unfold runScript at hrun
    dsimp only at hrun
    split at hrun
    next hok =>
      cases hrun
      obtain ⟨h, l, hh, hcfg, hl, hcom⟩ := hp'.commit_done hbound rfl hok
      rw [hh] at hchunks
      exact ⟨first, _, le_rfl, Nat.le_succ _, hp'.commit hbound hl hcom hcfg hchunks hk,
        fun n _ hn => hcom.old n hn⟩
    next => cases hrun
  | rollback v =>
    obtain ⟨hbound, hfaith⟩ := hallowed
    cases hrun
    by_cases hv : first ≤ v ∧ v < s.lastver
    · obtain ⟨-, hp', hold, -⟩ :=
        hp.rollback hv.1 hv.2 hbound (hfaith ((hp.versions v).mpr ⟨hv.1, hv.2.le⟩))
      exact ⟨first, _, le_rfl, Nat.le_succ _, hp', fun n _ hn => hold n hn⟩
    · rw [srvRollback_none (by rw [hp.versions]; omega)]
      exact ⟨first, _, le_rfl, le_rfl, hp, fun _ _ _ _ _ => rfl⟩
  | prune retain reply =>
    cases hrun
    obtain ⟨first', hfirst, hp', hdisk⟩ := hp.prune retain reply
    exact ⟨first', _, hfirst, le_rfl, hp', fun n hn _ c _ => hdisk n hn c⟩

theorem Parcel.reach (hp : Parcel cfg tag s₁ first last)
    (hr : Reach (runScript cfg) (Allowed cfg tag) s₁ s₂) :
    ∃ first' last', first ≤ first' ∧ last ≤ last' ∧ Parcel cfg tag s₂ first' last' ∧
      ∀ n, first' ≤ n → n ≤ last → ∀ c < cfg.numchunks, disk cfg s₂ n c = disk cfg s₁ n c := by
  refine Reach.inv (I := fun s => ∃ first' last', first ≤ first' ∧ last ≤ last' ∧
    Parcel cfg tag s first' last' ∧ ∀ n, first' ≤ n → n ≤ last → ∀ c < cfg.numchunks,
      disk cfg s n c = disk cfg s₁ n c) ?_ ?_ hr
  · exact ⟨first, last, le_rfl, le_rfl, hp, fun _ _ _ _ _ => rfl⟩
  · rintro s a s' ⟨first', last', hfirst, hlast, hp', hdisk⟩ hallowed hrun
    obtain ⟨first'', last'', hfirst', hlast', hp'', hdisk'⟩ := hp'.step hallowed hrun
    refine ⟨first'', last'', by omega, by omega, hp'', fun n hn hn' c hc => ?_⟩
    rw [hdisk' n hn (by omega) c hc, hdisk n (by omega) hn' c hc]

/-- A version that has not been removed has the disk that it had at any earlier time, and a rollback
to it makes a new last version with its keyring and its disk. -/
theorem history_kept {n : Nat} (hp : Parcel cfg tag s₀ n n)
    (hr₁ : Reach (runScript cfg) (Allowed cfg tag) s₀ s₁)
    (hr₂ : Reach (runScript cfg) (Allowed cfg tag) s₁ s₂) :
    (∀ v ∈ s₁.versions, v ∈ s₂.versions → ∀ c < cfg.numchunks, disk cfg s₂ v c = disk cfg s₁ v c) ∧
    ∀ v ∈ s₂.versions, v ≠ s₂.lastver → Allowed cfg tag s₂ (.rollback v) →
      (srvRollback cfg s₂ v).ok = true ∧
      (srvRollback cfg s₂ v).store.lastver = s₂.lastver + 1 ∧
      (srvRollback cfg s₂ v).store.last = some (s₂.lastver + 1) ∧
      (∃ w w', s₂.versions.lookup v = some w ∧
        (srvRollback cfg s₂ v).store.versions.lookup (s₂.lastver + 1) = some w' ∧
        w'.keyring = w.keyring) ∧
      ∀ c < cfg.numchunks,
        disk cfg (srvRollback cfg s₂ v).store (s₂.lastver + 1) c = disk cfg s₂ v c := by
  obtain ⟨first₁, last₁, -, -, hp₁, -⟩ := hp.reach hr₁
  obtain ⟨first₂, last₂, -, hlast, hp₂, hdisk⟩ := hp₁.reach hr₂
  refine ⟨fun v hv₁ hv₂ c hc => ?_, fun v hv hne ⟨hbound, hfaith⟩ => ?_⟩
  · exact hdisk v ((hp₂.versions v).mp hv₂).1 ((hp₁.versions v).mp hv₁).2 c hc
  · obtain rfl := hp₂.lastver
    obtain ⟨hfirst, hle⟩ := (hp₂.versions v).mp hv
    obtain ⟨hok, hp', -, hnew, hkeyring⟩ := hp₂.rollback hfirst (by omega) hbound (hfaith hv)
    exact ⟨hok, hp'.lastver, hp'.link, hkeyring, hnew⟩

end history

/-- A parcel of one chunk, whose tags are the data, and one version. -/
def oneParcel : Store where
  versions := AList.insert 1 ⟨some [], some (some (AList.insert 0 ⟨[7], [], 0⟩ ∅)), some oneHdk⟩ ∅
  last := some 1
  cache := none

theorem parcel_one : Parcel oneCfg id oneParcel 1 1 := by
  have hlookup : ∀ n v, oneParcel.versions.lookup n = some v → n = 1 ∧
      v = ⟨some [], some (some (AList.insert 0 ⟨[7], [], 0⟩ ∅)), some oneHdk⟩ := by
    intro n v hv
    by_cases hn : n = 1
    · subst hn
      exact ⟨rfl, (some.inj hv).symm⟩
    · rw [oneParcel, AList.lookup_insert_ne hn] at hv
      cases hv
  refine ⟨Nat.one_pos, le_rfl, by decide, fun n => ?_, rfl, fun n v hv => ?_, fun c hc => ?_,
    fun n hn d f h => ?_, fun n v hv => ?_⟩
  · rw [oneParcel, AList.mem_insert]
    simp only [AList.notMem_empty, or_false]
    omega
  · obtain ⟨-, rfl⟩ := hlookup n v hv
    exact ⟨rfl, rfl⟩
  · obtain rfl : c = 0 := Nat.lt_one_iff.mp hc
    rfl
  · obtain ⟨v, hv⟩ :=
      isSome_iff_exists.mp (AList.lookup_isSome.mpr (mem_versions_of_content h))
    exact absurd (hlookup n v hv).1 hn.ne
  · obtain ⟨rfl, rfl⟩ := hlookup n v hv
    refine ⟨_, rfl, fun c hc => ?_⟩
    obtain rfl : c = 0 := Nat.lt_one_iff.mp hc
    rfl

/-- The data is changed, and changed back. -/
theorem history_kept_one : ∃ s, Reach (runScript oneCfg) (Allowed oneCfg id) oneParcel s ∧
    disk oneCfg s 1 0 = some [7] ∧ disk oneCfg s 2 0 = some [8] ∧
    disk oneCfg (srvRollback oneCfg s 1).store 3 0 = some [7] := by
  have hp := parcel_one.upload (some oneChange)
  have hok := hp.commit_ok rfl rfl rfl rfl fun d f => oneChange_chunks
  obtain ⟨h, l, hh, hcfg, hl, hcom⟩ := hp.commit_done (by decide) rfl hok
  cases hh
  have hallowed : Allowed oneCfg id oneParcel (.commit oneChange fun _ => false) := by
    refine ⟨by decide, fun d f => oneChange_chunks, _, rfl, fun c hc => ?_⟩
    rw [hcom.new c hc]
    obtain rfl : c = 0 := Nat.lt_one_iff.mp hc
    rfl
  have hr : Reach (runScript oneCfg) (Allowed oneCfg id) oneParcel
      (srvCommit oneCfg (fun _ => false) { oneParcel with cache := some oneChange }).store :=
    .step .init hallowed (if_pos hok)
  have hlast : _ = 2 := hcom.lastver
  have hnew := (hcom.new 0 Nat.one_pos).trans (c := some [8]) rfl
  have hmem := (hcom.versions hp.versions le_rfl 1).mpr ⟨le_rfl, by decide⟩
  have hkept := history_kept parcel_one .init hr
  have hold := (hkept.1 1 (by decide) hmem 0 Nat.one_pos).trans (c := some [7]) rfl
  obtain ⟨-, -, -, -, hback⟩ := hkept.2 1 hmem (by rw [hlast]; decide)
    ⟨by rw [hlast]; decide, fun _ c _ h => by rwa [Option.map_id, id, id] at h⟩
  have hback := hback 0 Nat.one_pos
  rw [hlast] at hnew hback
  exact ⟨_, hr, hold, hnew, hback.trans hold⟩

end OpenIsr.Server
