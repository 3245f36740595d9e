import OpenIsr.Server.AllOrNothing

/-!
# The check before a commit (srv_checkparcel)

Before a commit `srv_checkparcel` compares the upload with the last version. It goes over the
numbers of the chunks, and `srv_commit` over the files that there are. `check_iff` says when an
upload that the check has accepted is committed: there must be no other files in it, and the files
that the check does not look for must be there.
-/

namespace OpenIsr.Server

open Base List

/-! ## The script -/

/-- The errors of the loop that compares the files of the upload with the differences of the
keyrings. -/
def hdkErrors (cfg : Cfg) (diff : Int → Bool) (h : Option Hdk) : Nat :=
  ((range cfg.numchunks).filter fun i => (chunk cfg h i).isSome != diff i).length

/-- `$expectchunks` for a directory. -/
def expectchunks (cfg : Cfg) (i : Nat) : Nat :=
  if i = getNumdirs cfg - 1 then
    if cfg.numchunks % cfg.chunksperdir = 0 then cfg.chunksperdir
    else cfg.numchunks % cfg.chunksperdir
  else cfg.chunksperdir

/-- The errors of the loop that counts the files of the last version. -/
def countErrors (cfg : Cfg) (h : Option Hdk) : Nat :=
  ((range (getNumdirs cfg)).filter fun i =>
    match h.bind fun h => h.lookup (padded 4 i) with
    | none => true
    | some dir => (visibleFiles dir).length != expectchunks cfg i).length

/-- `srv_checkparcel` for an upload, without the check of the contents: whether it accepts it. -/
def srvCheckparcel (cfg : Cfg) (s : Store) : Bool :=
  match s.last, s.cache, s.versions.lookup s.lastver with
  | some m, some pred, some curr =>
    if m ∉ s.versions ∨ verName m ≠ verName s.lastver then false
    else if s.lastver < 1 then false
    else
      match curr.keyring, pred.keyring with
      | some (some currkeyring), some (some predkeyring) =>
        (if currkeyring.entries.length ≠ cfg.numchunks then 1 else 0) +
          hdkErrors cfg (keydiff currkeyring predkeyring) pred.hdk + countErrors cfg curr.hdk == 0
      | _, _ => false
  | _, _, _ => false

/-! ## What it has checked -/

section check

variable {cfg : Cfg} {s : Store} {h : Option Hdk} {i : Nat}

theorem hdkErrors_eq_zero {diff : Int → Bool} :
    hdkErrors cfg diff h = 0 ↔ ∀ c < cfg.numchunks, (chunk cfg h c).isSome = diff c := by
  rw [hdkErrors, length_eq_zero_iff, filter_eq_nil_iff]
  simp

theorem countErrors_eq_zero :
    countErrors cfg h = 0 ↔ ∀ i < getNumdirs cfg, ∃ dir, subdir h (padded 4 i) = some dir ∧
      (visibleFiles dir).length = expectchunks cfg i := by
  rw [countErrors, length_eq_zero_iff, filter_eq_nil_iff]
  refine forall_congr' fun i => imp_congr mem_range ?_
  rw [subdir]
  split
  next hno => simp [hno]
  next dir hdir => simp [hdir]

/-- What an accepted upload is like. -/
structure Accepted (cfg : Cfg) (s : Store) (pred curr : VersionDir) (k k' : Keyring) : Prop where
  link : s.last = some s.lastver
  cache : s.cache = some pred
  pos : 0 < s.lastver
  last : s.versions.lookup s.lastver = some curr
  currKeyring : curr.keyring = some (some k)
  predKeyring : pred.keyring = some (some k')
  entries : k.entries.length = cfg.numchunks
  files : ∀ c < cfg.numchunks, (chunk cfg pred.hdk c).isSome = keydiff k k' c
  count : ∀ i < getNumdirs cfg, ∃ dir, subdir curr.hdk (padded 4 i) = some dir ∧
    (visibleFiles dir).length = expectchunks cfg i

theorem accepted_of_check (h : srvCheckparcel cfg s = true) :
    ∃ pred curr k k', Accepted cfg s pred curr k k' := by
  unfold srvCheckparcel at h
  split at h
  next m pred curr hlink hcache hlast =>
    split at h
    next => cases h
    next hm =>
      obtain ⟨-, hname⟩ := not_or.mp hm
      split at h
      next => cases h
      next hpos =>
        split at h
        next k k' hk hk' =>
          obtain ⟨herr, hcount⟩ := Nat.add_eq_zero_iff.mp (beq_iff_eq.mp h)
          obtain ⟨hentries, hfiles⟩ := Nat.add_eq_zero_iff.mp herr
          refine ⟨pred, curr, k, k', ?_, hcache, Nat.one_le_iff_ne_zero.mpr (by omega), hlast, hk,
            hk', ?_, hdkErrors_eq_zero.mp hfiles, countErrors_eq_zero.mp hcount⟩
          · rw [hlink, padded_injective 6 (not_not.mp hname)]
          · simpa using hentries
        next => cases h
  next => cases h

theorem Accepted.check {pred curr : VersionDir} {k k' : Keyring}
    (hacc : Accepted cfg s pred curr k k') : srvCheckparcel cfg s = true := by
  have hmem : s.lastver ∈ s.versions := AList.lookup_isSome.mp (by rw [hacc.last]; rfl)
  have hpos : ¬ s.lastver < 1 := by
    have := hacc.pos
    omega
  simp only [srvCheckparcel, hacc.link, hacc.cache, hacc.last, hmem, not_true_eq_false, ne_eq,
    or_self, if_false, hpos, hacc.currKeyring, hacc.predKeyring, hacc.entries,
    hdkErrors_eq_zero.mpr hacc.files, countErrors_eq_zero.mpr hacc.count, beq_self_eq_true]

/-! ## The files of a directory -/

theorem getNumdirs_eq (cfg : Cfg) :
    getNumdirs cfg = cfg.numchunks / cfg.chunksperdir
      + if cfg.numchunks % cfg.chunksperdir = 0 then 0 else 1 := by
  have hpos := cfg.chunksperdir_pos
  have hN := Nat.div_add_mod cfg.numchunks cfg.chunksperdir
  have hr := Nat.mod_lt cfg.numchunks hpos
  unfold getNumdirs
  split
  next hzero =>
    rw [show cfg.numchunks + cfg.chunksperdir - 1
        = cfg.chunksperdir * (cfg.numchunks / cfg.chunksperdir) + (cfg.chunksperdir - 1) by omega,
      Nat.mul_add_div hpos, Nat.div_eq_of_lt (Nat.sub_lt hpos Nat.one_pos)]
  next hne =>
    rw [show cfg.numchunks + cfg.chunksperdir - 1
        = cfg.chunksperdir * (cfg.numchunks / cfg.chunksperdir)
          + (cfg.chunksperdir + (cfg.numchunks % cfg.chunksperdir - 1)) by omega,
      Nat.mul_add_div hpos, Nat.add_div_left _ hpos,
      Nat.div_eq_of_lt ((Nat.sub_le _ 1).trans_lt hr)]

theorem lt_expectchunks {k : Nat} (hi : i < getNumdirs cfg) :
    k < expectchunks cfg i ↔ k < cfg.chunksperdir ∧ i * cfg.chunksperdir + k < cfg.numchunks := by
  have hN := Nat.div_add_mod cfg.numchunks cfg.chunksperdir
  have hr := Nat.mod_lt cfg.numchunks cfg.chunksperdir_pos
  have hnum := getNumdirs_eq cfg
  -- a directory that is full
  have hfull : i < cfg.numchunks / cfg.chunksperdir →
      (i * cfg.chunksperdir + cfg.chunksperdir ≤ cfg.numchunks) := by
    intro hlt
    have hle := Nat.mul_le_mul_left cfg.chunksperdir hlt
    rw [Nat.mul_succ, Nat.mul_comm cfg.chunksperdir i] at hle
    omega
  unfold expectchunks
  split at hnum
  next hzero =>
    have := hfull (by omega)
    rw [if_pos hzero, ite_self]
    omega
  next hne =>
    rw [if_neg hne]
    by_cases hlast : i = cfg.numchunks / cfg.chunksperdir
    · rw [if_pos (by omega), hlast, Nat.mul_comm]
      omega
    · have := hfull (by omega)
      rw [if_neg (by omega)]
      omega

theorem chunkDir_mul_add (i : Nat) {k : Nat} (hk : k < cfg.chunksperdir) :
    chunkDir cfg (i * cfg.chunksperdir + k) = padded 4 i ∧
      chunkFile cfg (i * cfg.chunksperdir + k) = padded 4 k := by
  have hpos := cfg.chunksperdir_pos
  rw [chunkDir, chunkFile, Nat.mul_comm, Nat.mul_add_div hpos, Nat.div_eq_of_lt hk,
    Nat.mul_add_mod, Nat.mod_eq_of_lt hk]
  exact ⟨rfl, rfl⟩

theorem isChunk_of_visible {dir : Dir} {f : Name}
    (hcomplete : ∀ c < cfg.numchunks, (chunk cfg h c).isSome) (hi : i < getNumdirs cfg)
    (hdir : subdir h (padded 4 i) = some dir)
    (hcount : (visibleFiles dir).length = expectchunks cfg i) (hf : f ∈ visibleFiles dir) :
    IsChunk cfg (padded 4 i) f := by
  have hnodup : ((range (expectchunks cfg i)).map (padded 4)).Nodup :=
    nodup_range.map (padded_injective 4)
  have hsub : (range (expectchunks cfg i)).map (padded 4) ⊆ visibleFiles dir := by
    intro f hf
    obtain ⟨k, hk, rfl⟩ := mem_map.mp hf
    obtain ⟨hk, hlt⟩ := (lt_expectchunks hi).mp (mem_range.mp hk)
    obtain ⟨hd, hf'⟩ := chunkDir_mul_add i hk
    have hsome := hcomplete _ hlt
    rw [chunk, hd, hf', content_eq, hdir] at hsome
    exact mem_visibleFiles.mpr ⟨AList.lookup_isSome.mp hsome, visible_padded 4 k⟩
  have hperm := (subperm_of_subset hnodup hsub).perm_of_length_le
    (by rw [length_map, length_range, hcount])
  obtain ⟨k, hk, rfl⟩ := mem_map.mp (hperm.mem_iff.mpr hf)
  obtain ⟨hk, hlt⟩ := (lt_expectchunks hi).mp (mem_range.mp hk)
  obtain ⟨hd, hf'⟩ := chunkDir_mul_add i hk
  exact ⟨_, hlt, hd.symm, hf'.symm⟩

end check

/-! ## What the check is for -/

/-- The files that `srv_commit` needs are in the upload, and those that it finds are chunks. -/
structure Committable (cfg : Cfg) (cache : VersionDir) : Prop where
  hdk : ∃ h, cache.hdk = some h ∧ ∀ d f, Uploaded cfg h d f → IsChunk cfg d f
  cfg : cache.cfg.isSome

/-- The upload is committed, and the parcel is again as it should be, with the uploaded keyring. -/
def CommitsWell (cfg : Cfg) (s : Store) (first last : Nat) (cache : VersionDir) : Prop :=
  (srvCommit cfg (fun _ => false) s).ok = true ∧
    VersionStore cfg (srvCommit cfg (fun _ => false) s).store first (last + 1) ∧
    ∃ v, (srvCommit cfg (fun _ => false) s).store.versions.lookup (last + 1) = some v ∧
      v.keyring = cache.keyring

section sufficient

variable {cfg : Cfg} {s : Store} {first last : Nat} {cache curr : VersionDir} {k k' : Keyring}

theorem Committed.versionStore {h : Hdk} {s' : Store} (hs : VersionStore cfg s first s.lastver)
    (hacc : Accepted cfg s cache curr k k') (hh : cache.hdk = some h) (hcfg : cache.cfg.isSome)
    (hcom : Committed cfg s cache curr h s') : VersionStore cfg s' first (s.lastver + 1) := by
  have hversions := hcom.versions hs.versions hs.first_le
  obtain ⟨hlink, -, hother, ⟨l', hl', hlcfg, hlkey, hlhdk, hlin, hlout⟩,
    ⟨v', hv', hvcfg, hvkey, hvhdk, hvin, hvout⟩⟩ := hcom
  have hle := hs.first_le
  have hfiles := hacc.files
  rw [hh] at hfiles
  refine ⟨by omega, hversions, hlink, fun n v hv => ?_, fun v hv c hc => ?_,
    fun n v w kv kw hn hv hw hkv hkw c hc => ?_⟩
  · by_cases hn' : n = s.lastver + 1
    · subst hn'
      cases hv'.symm.trans hv
      exact ⟨hvcfg ▸ hcfg, ⟨k', hvkey.trans hacc.predKeyring⟩, hvhdk⟩
    by_cases hn : n = s.lastver
    · subst hn
      cases hl'.symm.trans hv
      obtain ⟨hcurr, -, -⟩ := hs.whole _ _ hacc.last
      exact ⟨hlcfg ▸ hcurr, ⟨k, hlkey.trans hacc.currKeyring⟩, hlhdk⟩
    · exact hs.whole n v ((hother n hn hn').symm.trans hv)
  · cases hv'.symm.trans hv
    by_cases hup : Uploaded cfg h (chunkDir cfg c) (chunkFile cfg c)
    · rw [chunk, hvin _ _ hup]
      exact content_of_uploaded hup
    · rw [chunk, hvout _ _ hup]
      exact hs.complete curr hacc.last c hc
  · by_cases hlast : n = s.lastver
    · -- the version that was the last has kept what has been replaced
      subst hlast
      cases hl'.symm.trans hv
      cases hv'.symm.trans hw
      obtain rfl : k = kv := by
        simpa using (hlkey.trans hacc.currKeyring).symm.trans hkv
      obtain rfl : k' = kw := by
        simpa using (hvkey.trans hacc.predKeyring).symm.trans hkw
      rw [← hfiles c hc]
      by_cases hup : Uploaded cfg h (chunkDir cfg c) (chunkFile cfg c)
      · rw [(uploaded_chunk hc).mp hup, chunk, hlin _ _ hup]
        exact hs.complete curr hacc.last c hc
      · rw [Bool.eq_false_iff.mpr (mt (uploaded_chunk hc).mpr hup), chunk, hlout _ _ hup]
        rfl
    · rw [hother n hlast (by omega)] at hv
      by_cases hlast' : n + 1 = s.lastver
      · rw [hlast'] at hw
        cases hl'.symm.trans hw
        exact hs.delta n v curr kv kw (by omega) hv (hlast' ▸ hacc.last) hkv (hlkey.symm.trans hkw)
          c hc
      · exact hs.delta n v w kv kw (by omega) hv
          ((hother (n + 1) hlast' (by omega)).symm.trans hw) hkv hkw c hc

theorem Accepted.isChunk (hs : VersionStore cfg s first s.lastver)
    (hacc : Accepted cfg s cache curr k k') {h : Hdk} {d f : Name} (hup : Uploaded cfg h d f)
    (hcont : (content curr.hdk d f).isSome) : IsChunk cfg d f := by
  obtain ⟨⟨i, hi, rfl⟩, -, -, -, hvisible⟩ := hup
  obtain ⟨dir, hdir, hcount⟩ := hacc.count i hi
  rw [content_eq, hdir] at hcont
  exact isChunk_of_visible (hs.complete curr hacc.last) hi hdir hcount
    (mem_visibleFiles.mpr ⟨AList.lookup_isSome.mp hcont, hvisible⟩)

/-- An upload that has been accepted is committed exactly if the files that `srv_commit` needs are
there and there are no others that it would take for chunks. -/
theorem check_iff (hs : VersionStore cfg s first last) (hcache : s.cache = some cache)
    (hcheck : srvCheckparcel cfg s = true) :
    CommitsWell cfg s first last cache ↔ Committable cfg cache := by
  obtain ⟨cache', curr, k, k', hacc⟩ := accepted_of_check hcheck
  cases hcache.symm.trans hacc.cache
  cases hacc.link.symm.trans hs.link
  have hlast : curr.present = true := by
    obtain ⟨hcfg, ⟨k, hk⟩, hhdk⟩ := hs.whole _ _ hacc.last
    simp only [VersionDir.present, hcfg, hk, hhdk, Option.isSome_some, Bool.and_self]
  have hnext : s.versions.lookup (s.lastver + 1) = none := by
    rw [AList.lookup_eq_none, hs.versions]
    omega
  constructor
  · rintro ⟨hok, -, -⟩
    obtain ⟨cache', h, -, hcache', hh, -, hcp, -⟩ := srvCommit_committed hnext hok
    cases hcache.symm.trans hcache'
    have hcontent :=
      (srvCommit_ok hcache hh hacc.last hcp hlast (by rw [hs.link]; rfl) hnext).mp hok
    refine ⟨⟨h, hh, fun d f hup => hacc.isChunk hs hup (hcontent d f hup)⟩, ?_⟩
    simp only [VersionDir.present, Bool.and_eq_true] at hcp
    exact hcp.1.1
  · rintro ⟨⟨h, hh, hchunks⟩, hcfg⟩
    have hcp : cache.present = true := by
      simp only [VersionDir.present, hcfg, hacc.predKeyring, hh, Option.isSome_some, Bool.and_self]
    have hcontent : ∀ d f, Uploaded cfg h d f → (content curr.hdk d f).isSome := fun d f hup => by
      obtain ⟨c, hc, rfl, rfl⟩ := hchunks d f hup
      exact hs.complete curr hacc.last c hc
    have hok :=
      (srvCommit_ok hcache hh hacc.last hcp hlast (by rw [hs.link]; rfl) hnext).mpr hcontent
    obtain ⟨cache', h', l, hcache', hh', hl, -, -, hcom⟩ := srvCommit_committed hnext hok
    cases hcache.symm.trans hcache'
    cases hh.symm.trans hh'
    cases hacc.last.symm.trans hl
    obtain ⟨v, hv, -, hkeyring, -⟩ := hcom.next
    exact ⟨hok, hcom.versionStore hs hacc hh hcfg, v, hv, hkeyring⟩

end sufficient

/-- The parcel of one chunk, with the upload `h` that has the keyring of the last version. -/
def oneUpload (h : Hdk) : Store :=
  { oneStore with cache := some ⟨some [], some (some oneKeys), some h⟩ }

theorem check_oneUpload {h : Hdk} (hno : chunk oneCfg (some h) 0 = none) :
    srvCheckparcel oneCfg (oneUpload h) = true := by
  refine Accepted.check ⟨rfl, rfl, Nat.one_pos, rfl, rfl, rfl, rfl, fun c hc => ?_, fun i hi => ?_⟩
  · obtain rfl : c = 0 := Nat.lt_one_iff.mp hc
    rw [hno]
    rfl
  · obtain rfl : i = 0 := Nat.lt_one_iff.mp hi
    refine ⟨AList.insert (padded 4 0) [7] ∅, rfl, ?_⟩
    rw [visibleFiles, length_mergeSort]
    rfl

/-- The check accepts an upload with a file that is no chunk, and `srv_commit` fails at it after it
has moved the chunks. -/
theorem check_junk :
    let s := oneUpload (AList.insert (padded 4 0) (AList.insert ['j'] [] ∅) ∅)
    VersionStore oneCfg s 1 1 ∧ srvCheckparcel oneCfg s = true ∧
      ∀ cache, ¬ CommitsWell oneCfg s 1 1 cache := by
  refine ⟨versionStore_one _, check_oneUpload rfl, ?_⟩
  rintro cache ⟨hok, -, -⟩
  have hcontent := (srvCommit_ok rfl rfl rfl rfl rfl rfl rfl).mp hok (padded 4 0) ['j']
    ⟨⟨0, Nat.one_pos, rfl⟩, AList.insert ['j'] [] ∅, rfl, by decide, rfl⟩
  cases hcontent

/-- An upload with a chunk that takes the place of another, and its keyring. -/
theorem check_changed :
    let s := { oneStore with cache := some oneChange }
    srvCheckparcel oneCfg s = true ∧ CommitsWell oneCfg s 1 1 oneChange := by
  have hcheck : srvCheckparcel oneCfg { oneStore with cache := some oneChange } = true := by
    decide +kernel
  refine ⟨hcheck,
    (check_iff (versionStore_one _) rfl hcheck).mpr ⟨⟨_, rfl, fun d f hup => ?_⟩, rfl⟩⟩
  exact oneChange_chunks (content_of_uploaded hup)

end OpenIsr.Server
