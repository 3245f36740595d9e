import OpenIsr.Client.Session

/-!
# The server in a session

`Sound` is what holds of the parcel on the server: it has the versions of a parcel, whose keyrings
have a row for each chunk. A commit of an upload that `copy_for_upload` has made keeps it, if
`srv_checkparcel` has accepted the upload (`Sound.commit`). The keyring with which the chunks were
compared for the upload need not be that of the last version.
-/

namespace OpenIsr.Client

open Option
open Server (VersionDir Store content chunk disk keydiff Parcel DiskCommitted IsChunk Tagged)
open Cache (Keyring UploadOk iuChunkCryptoDigest)

variable {M : Type} {T : ParcelCfg M} {s s' : Store} {r : Remote} {n : Nat} {u : VersionDir}
  {k k' prev : Keyring}

/-- The keyring has a row for each chunk. -/
def Rows (T : ParcelCfg M) (k : Keyring) : Prop :=
  ∀ i, (k.lookup i).isSome ↔ 0 ≤ i ∧ i < T.parcel.chunks

structure Sound (T : ParcelCfg M) (s : Store) : Prop where
  parcel : ∃ first, Parcel T.server iuChunkCryptoDigest s first s.lastver
  rows : ∀ n v k, s.versions.lookup n = some v → v.keyring = some (some k) → Rows T k

/-- No version is lost, and none is changed. -/
def Keeps (T : ParcelCfg M) (s s' : Store) : Prop :=
  ∀ n v, s.versions.lookup n = some v → ∃ v', s'.versions.lookup n = some v' ∧ v'.cfg = v.cfg ∧
    v'.keyring = v.keyring ∧ ∀ c < T.parcel.chunks, disk T.server s' n c = disk T.server s n c

theorem Keeps.refl (T : ParcelCfg M) (s : Store) : Keeps T s s :=
  fun _ v hv => ⟨v, hv, rfl, rfl, fun _ _ => rfl⟩

theorem Keeps.trans {s₁ s₂ s₃ : Store} (h : Keeps T s₁ s₂) (h' : Keeps T s₂ s₃) :
    Keeps T s₁ s₃ := by
  intro n v hv
  obtain ⟨v', hv', hcfg, hkeyring, hdisk⟩ := h n v hv
  obtain ⟨v'', hv'', hcfg', hkeyring', hdisk'⟩ := h' n v' hv'
  exact ⟨v'', hv'', hcfg'.trans hcfg, hkeyring'.trans hkeyring,
    fun c hc => (hdisk' c hc).trans (hdisk c hc)⟩

/-- What `copy_dirtychunks` makes: `prev` is the keyring that it has compared with. -/
structure Copied (T : ParcelCfg M) (u : VersionDir) (k prev : Keyring) : Prop where
  cfg : u.cfg.isSome
  keyring : u.keyring = some (some k)
  hdk : ∃ dest, u.hdk = some dest ∧ UploadOk T.parcel k prev dest
  rows : Rows T k
  prevRows : Rows T prev

/-! ## Keyrings -/

theorem keydiff_iff_of_rows (hk : Rows T k) (hk' : Rows T k') {i : Int} (hpos : 0 ≤ i)
    (hlt : i < T.parcel.chunks) :
    keydiff k k' i = true ↔ (k.lookup i).map (·.tag) ≠ (k'.lookup i).map (·.tag) := by
  obtain ⟨e, he⟩ := isSome_iff_exists.mp ((hk i).mpr ⟨hpos, hlt⟩)
  obtain ⟨e', he'⟩ := isSome_iff_exists.mp ((hk' i).mpr ⟨hpos, hlt⟩)
  simp only [keydiff, he, he', map_some, ne_eq, decide_eq_true_eq, some.injEq]

theorem Rows.of_keydiff (hk : Rows T k) {i : Int} (h : keydiff k k' i = true) :
    0 ≤ i ∧ i < T.parcel.chunks := by
  obtain ⟨e, he⟩ := Cache.lookup_of_keydiff h
  exact (hk i).mp (by rw [he]; rfl)

/-- A successful `copy_for_upload`. -/
theorem copied_of_copyForUpload {env : Cache.UploadEnv} {st : Cache.Store} {x : List UInt8}
    (hk : Rows T k) (hprev : Rows T prev)
    (hret : (Cache.copyForUpload T.parcel env { st with keys := k } prev (some ∅)).ended
      = .returned 0) :
    Copied T ⟨some x, some (some k), some (Cache.copyForUpload T.parcel env
      { st with keys := k } prev (some ∅)).dest⟩ k prev := by
  have hfits : Cache.Fits k prev := by
    intro i h
    have hi := hk.of_keydiff h
    have := T.parcel.chunks_lt
    omega
  obtain ⟨hsound, hpresent⟩ := Cache.copyForUpload_zero rfl hret
  exact ⟨rfl, rfl, ⟨_, rfl, hfits.uploadOk hsound hpresent⟩, hk, hprev⟩

/-- An upload has the chunks in which the two keyrings differ. -/
theorem Copied.isSome_file (hu : Copied T u k prev) {c : Nat} (hc : c < T.parcel.chunks) :
    (chunk T.server u.hdk c).isSome = keydiff prev k c := by
  obtain ⟨dest, hdest, hok⟩ := hu.hdk
  rw [hdest]
  exact Server.hdkErrors_eq_zero.mp (hok.check T.chunksPerDir_pos) c hc

theorem Copied.tag (hu : Copied T u k prev) {c : Nat} (hc : c < T.parcel.chunks)
    {data : List UInt8} (hdata : chunk T.server u.hdk c = some data) :
    (k.lookup (c : Int)).map (·.tag) = some (iuChunkCryptoDigest data) := by
  have hdiff := hu.isSome_file hc
  rw [hdata, Cache.keydiff_comm] at hdiff
  obtain ⟨dest, hdest, hok⟩ := hu.hdk
  obtain ⟨e, data', he, hdata', htag⟩ := hok.tags c hdiff.symm
  rw [hdest] at hdata
  rw [← Cache.formChunkPath_eq] at hdata'
  cases hdata.symm.trans hdata'
  rw [he, htag]
  rfl

/-- Every file of an upload is a chunk. -/
theorem Copied.isChunk (hu : Copied T u k prev) {d f : Server.Name}
    (h : (content u.hdk d f).isSome) : IsChunk T.server d f := by
  obtain ⟨dest, hdest, hok⟩ := hu.hdk
  rw [hdest] at h
  obtain ⟨i, hi, hpath⟩ := (hok.files d f).mp h
  obtain ⟨hpos, hlt⟩ := hu.rows.of_keydiff hi
  obtain ⟨c, rfl⟩ := Int.eq_ofNat_of_zero_le hpos
  rw [← Cache.formChunkPath_eq] at hpath
  exact ⟨c, Int.ofNat_lt.mp hlt, congrArg Prod.fst hpath, congrArg Prod.snd hpath⟩

/-! ## The last version -/

theorem Sound.upload (hs : Sound T s) (cache : Option VersionDir) :
    Sound T { s with cache } :=
  ⟨hs.parcel.imp fun _ hp => hp.upload cache, hs.rows⟩

/-- The last version has a keyring and a memory image. -/
theorem Sound.last (hs : Sound T s) : ∃ v k, s.versions.lookup s.lastver = some v ∧
    Client.last s = some v ∧ v.keyring = some (some k) ∧ lastKeyring s = some k ∧ Rows T k ∧
    Tagged T.server iuChunkCryptoDigest k (disk T.server s s.lastver) := by
  obtain ⟨first, hp⟩ := hs.parcel
  obtain ⟨v, hv⟩ := isSome_iff_exists.mp
    (AList.lookup_isSome.mpr ((hp.versions s.lastver).mpr ⟨hp.le, le_rfl⟩))
  obtain ⟨k, hk, htagged⟩ := hp.keyring _ v hv
  have hlast : Client.last s = some v := by rw [Client.last, hp.link, bind_some, hv]
  refine ⟨v, k, hv, hlast, hk, ?_, hs.rows _ v k hv hk, htagged⟩
  rw [lastKeyring, hlast, bind_some, hk]
  rfl

/-- As long as there is no newer version, the last one is the same. -/
theorem Keeps.last (hkeeps : Keeps T s s') (hs : Sound T s) (hs' : Sound T s')
    (hlast : s'.lastver = s.lastver) :
    lastKeyring s' = lastKeyring s ∧ lastCfg s' = lastCfg s := by
  obtain ⟨v, -, hlookup, hv, -⟩ := hs.last
  obtain ⟨v', -, hlookup', hv', -⟩ := hs'.last
  obtain ⟨w, hw, hcfg, hkeyring, -⟩ := hkeeps _ v hlookup
  rw [hlast] at hlookup'
  cases hlookup'.symm.trans hw
  simp only [lastKeyring, lastCfg, hv, hv', bind_some, hcfg, hkeyring, and_self]

/-! ## Commits -/

theorem Sound.committed {cache l : VersionDir} {h : Server.Hdk} {first : Nat} (hs : Sound T s)
    (hl : s.versions.lookup s.lastver = some l) (hcom : DiskCommitted T.server s cache l h s')
    (hp : Parcel T.server iuChunkCryptoDigest s' first (s.lastver + 1))
    (hnew : ∀ k, cache.keyring = some (some k) → Rows T k) : Sound T s' ∧ Keeps T s s' := by
  obtain ⟨l', hl', hcfg, hkeyring, -⟩ := hcom.last
  obtain ⟨v', hv', -, hvkeyring, -⟩ := hcom.next
  have hother := hcom.other
  refine ⟨⟨⟨first, hcom.lastver ▸ hp⟩, fun m v k hv hk => ?_⟩, fun m v hv => ?_⟩
  · have hrows := hs.rows
    grind
  · obtain ⟨first', hp'⟩ := hs.parcel
    have hm := ((hp'.versions m).mp (AList.lookup_isSome.mp (by rw [hv]; rfl))).2
    have hold := hcom.old m hm
    by_cases hlast : m = s.lastver
    · subst hlast
      cases hl.symm.trans hv
      exact ⟨l', hl', hcfg, hkeyring, hold⟩
    · exact ⟨v, (hother m hlast (by omega)).trans hv, rfl, rfl, hold⟩

/-- What `srv_checkparcel` has seen when it has accepted an upload. -/
theorem Sound.accepted (hs : Sound T r.store) (hu : Copied T u k prev) (hup : r.uploads n = some u)
    (hcheck : Server.srvCheckparcel T.server (r.dir n) = true)
    (hk' : lastKeyring r.store = some k') :
    ∀ c < T.parcel.chunks, (chunk T.server u.hdk c).isSome = keydiff k' k c := by
  obtain ⟨v, k₁, hlookup, -, hk₁, hlast, -⟩ := hs.last
  cases hk'.symm.trans hlast
  obtain ⟨pred, curr, l, l', hacc⟩ := Server.accepted_of_check hcheck
  obtain rfl : u = pred := some.inj (hup.symm.trans hacc.cache)
  obtain rfl : v = curr := some.inj (hlookup.symm.trans hacc.last)
  obtain rfl : k' = l := some.inj (some.inj (hk₁.symm.trans hacc.currKeyring))
  obtain rfl : k = l' := some.inj (some.inj (hu.keyring.symm.trans hacc.predKeyring))
  exact hacc.files

/-- The server after an upload has been committed that `srv_checkparcel` has accepted. -/
theorem Sound.commit (hs : Sound T r.store) (hu : Copied T u k prev) (hup : r.uploads n = some u)
    (hcheck : Server.srvCheckparcel T.server (r.dir n) = true)
    (hbound : r.store.lastver + 1 < 10 ^ 6) :
    let c := Server.srvCommit T.server (fun _ => false) (r.dir n)
    c.ok = true ∧ Sound T c.store ∧ Keeps T r.store c.store ∧ lastKeyring c.store = some k ∧
      lastCfg c.store = u.cfg := by
  dsimp only
  have hs' : Sound T (r.dir n) := hs.upload _
  obtain ⟨dest, hdest, -⟩ := hu.hdk
  obtain ⟨-, k', -, -, -, hlast, hrows', htagged⟩ := hs.last
  have hfiles := hs.accepted hu hup hcheck hlast
  obtain ⟨first, hp⟩ := hs'.parcel
  have hchunks : ∀ d f, (content (some dest) d f).isSome → IsChunk T.server d f := by
    intro d f h
    exact hu.isChunk (by rwa [hdest])
  have hok := hp.commit_ok hup hdest hu.cfg (by rw [hu.keyring]; rfl) hchunks
  obtain ⟨h, l, hh, hcfg, hl, hcom⟩ := hp.commit_done hbound hup hok
  cases hdest.symm.trans hh
  -- a chunk that is not in the upload has the tag of the last version
  have hnew : Tagged T.server iuChunkCryptoDigest k
      (disk T.server (Server.srvCommit T.server (fun _ => false) (r.dir n)).store
        (Server.srvCommit T.server (fun _ => false) (r.dir n)).store.lastver) := by
    intro c hc
    rw [hcom.new c hc, ← hdest]
    cases hchunk : chunk T.server u.hdk c with
    | none =>
      have hsame : ¬ keydiff k' k c = true := by
        rw [← hfiles c hc, hchunk]
        exact Bool.false_ne_true
      have heq := not_not.mp (mt (keydiff_iff_of_rows hrows' hu.rows (Int.natCast_nonneg c)
        (Int.ofNat_lt.mpr hc)).mpr hsame)
      exact heq.symm.trans (htagged c hc)
    | some data => exact hu.tag hc hchunk
  have hnext := hs'.committed hl hcom
    (hp.commit hbound hl hcom hcfg hchunks ⟨k, hu.keyring, hnew⟩) fun k₁ hk₁ => by
      cases some.inj (hu.keyring.symm.trans hk₁)
      exact hu.rows
  obtain ⟨v, hv, hvcfg, hvkeyring, -⟩ := hcom.next
  have hlast' : Client.last (Server.srvCommit T.server (fun _ => false) (r.dir n)).store
      = some v := by
    rw [Client.last, hcom.link, bind_some, hv]
  refine ⟨hok, hnext.1, hnext.2, ?_, ?_⟩
  · rw [lastKeyring, hlast', bind_some, hvkeyring, hu.keyring]
    rfl
  · rw [lastCfg, hlast', bind_some, hvcfg]

theorem Sound.rollback {v : Nat} (hs : Sound T r.store)
    (hallowed : Server.Allowed T.server iuChunkCryptoDigest r.store (.rollback v)) :
    Sound T (r.rollback T.server n v).store ∧
      Keeps T r.store (r.rollback T.server n v).store := by
  have hs' : Sound T (r.dir n) := hs.upload _
  obtain ⟨first, hp⟩ := hs'.parcel
  obtain ⟨hbound, hfaith⟩ := hallowed
  unfold Remote.rollback
  split
  next => exact ⟨hs, .refl T _⟩
  next hne =>
    dsimp only
    by_cases hv : first ≤ v ∧ v < r.store.lastver
    · -- the upload is made of an older version
      have hfaith := hfaith ((hp.versions v).mpr ⟨hv.1, hv.2.le⟩)
      obtain ⟨target, hdk, htarget, hstore, hres, -⟩ := hp.rollback_upload hv.1 hv.2 hfaith
      obtain ⟨hok, hparcel, -⟩ := hp.rollback hv.1 hv.2 hbound hfaith
      obtain ⟨h, l, -, -, hl, hcom⟩ :=
        (hp.upload (some ⟨target.cfg, target.keyring, some hdk⟩)).commit_done hbound rfl
          (hres.symm.trans hok)
      rw [← hstore] at hcom
      have hnext := (hs'.upload (some ⟨target.cfg, target.keyring, some hdk⟩)).committed hl hcom
        hparcel fun k hk => hs.rows v target k htarget hk
      exact ⟨hnext.1.upload _, hnext.2⟩
    · have hno : v ∉ (r.dir n).versions := fun hmem => by
        have hle : first ≤ v ∧ v ≤ r.store.lastver := (hp.versions v).mp hmem
        omega
      have hsame : (Server.srvRollback T.server (r.dir n) v).store = r.dir n :=
        Server.srvRollback_none (.inr (.inl hno))
      dsimp only [Remote.commit]
      rw [hsame]
      exact ⟨hs.upload _, .refl T _⟩

end OpenIsr.Client
