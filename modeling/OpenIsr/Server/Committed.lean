import OpenIsr.Server.Commit

/-!
# A commit that runs to completion

If no operation fails of itself, `srv_commit` runs to completion exactly if every file that it finds
in the upload has a counterpart in the last version (`runOps_ok_iff`). `Committed` says what the
parcel is like afterwards.
-/

namespace OpenIsr.Server

open Base List Option

/-! ## A run of operations -/

section run

variable {cfg : Cfg} {h : Hdk} {n : Nat} {w₀ : Work}

/-- How a run ends. -/
structure Ran (n : Nat) (fails : Op → Bool) (w₀ : Work) (all done : List Op) (w : Work)
    (ok : Bool) :
    Prop where
  progress : Progress n w₀ done w
  ended : if ok then done = all
    else ∃ op rest, all = done ++ op :: rest ∧ (fails op = true ∨ applyOp n w op = none)

theorem ran_runOps (fails : Op → Bool)
    {before ops : List Op} {w : Work} (hops : commitOps cfg h = before ++ ops)
    (hw : Progress n w₀ before w) :
    Ran n fails w₀ (commitOps cfg h) (before ++ (runOps n fails ops w).1)
      (runOps n fails ops w).2.1 (runOps n fails ops w).2.2 := by
  induction ops generalizing before w with
  | nil => exact ⟨by rw [runOps, append_nil]; exact hw, by rw [runOps, hops]; rfl⟩
  | cons op ops ih =>
    unfold runOps
    cases happly : if fails op then none else applyOp n w op with
    | none =>
      refine ⟨by rw [append_nil]; exact hw, op, ops, by rw [append_nil, hops], ?_⟩
      split at happly
      next hfails => exact .inl hfails
      next => exact .inr happly
    | some w' =>
      have hstep : applyOp n w op = some w' := by
        split at happly
        next => cases happly
        next => exact happly
      have hfits := fits_of_split hops
      have hops' : commitOps cfg h = (before ++ [op]) ++ ops := by rw [hops, append_cons]
      have := ih hops' (hw.step hstep hfits)
      rw [append_assoc, singleton_append] at this
      exact this

end run

/-- What `srv_commit` finds when it begins, after its checks. -/
structure Ready (h : Hdk) (w : Work) : Prop where
  link : w.link.isSome
  next : w.next = none
  last : w.last.hdk.isSome
  cache : w.cache.hdk = some h
  cfg : w.cache.cfg.isSome
  keyring : w.cache.keyring.isSome

section run

variable {cfg : Cfg} {h : Hdk} {n : Nat} {w₀ w : Work} {done rest : List Op} {op : Op} {d f : Name}

theorem renameFile_isSome {src dst : Hdk} (hdata : (content (some src) d f).isSome)
    (hdir : (subdir (some dst) d).isSome) : (renameFile src dst d f).isSome := by
  obtain ⟨dir', hdir'⟩ := isSome_iff_exists.mp hdir
  obtain ⟨data, hdata⟩ := isSome_iff_exists.mp hdata
  obtain ⟨dir, hdir, hfile⟩ := bind_eq_some_iff.mp hdata
  have hsrc : src.lookup d = some dir := hdir
  have hdst : dst.lookup d = some dir' := hdir'
  simp only [renameFile, hsrc, hdst, hfile, isSome_some]

theorem subdir_of_content {h : Option Hdk} (hdata : (content h d f).isSome) :
    (subdir h d).isSome := by
  rw [content_eq] at hdata
  exact isSome_of_isSome_bind hdata

theorem exists_nextHdk (hw : w.nextHdk.isSome) :
    ∃ cfg keyring h, w.next = some ⟨cfg, keyring, some h⟩ ∧ w.nextHdk = some h := by
  obtain ⟨h, hh⟩ := isSome_iff_exists.mp hw
  obtain ⟨⟨cfg, keyring, hdk⟩, hv, hhdk⟩ := bind_eq_some_iff.mp hh
  obtain rfl : hdk = some h := hhdk
  exact ⟨cfg, keyring, h, hv, hh⟩

theorem uploaded_of_mem (hop : .moveOut d f ∈ commitOps cfg h ∨ .moveIn d f ∈ commitOps cfg h) :
    Uploaded cfg h d f := by
  rcases hop with hop | hop <;>
  · rcases mem_commitOps.mp hop with hop | ⟨d', f', hup, hop⟩
    · simp at hop
    · obtain ⟨rfl, rfl⟩ : d = d' ∧ f = f' := by simpa using hop
      exact hup

theorem content_of_uploaded (hup : Uploaded cfg h d f) : (content (some h) d f).isSome := by
  obtain ⟨-, dir, hdir, hf, -⟩ := hup
  have hsub : subdir (some h) d = some dir := hdir
  rw [content_eq, hsub]
  exact AList.lookup_isSome.mpr hf

theorem applyOp_isSome (hready : Ready h w₀) (hp : Progress n w₀ done w)
    (hops : commitOps cfg h = done ++ op :: rest)
    (hchunk : ∀ d f, op = .moveOut d f → (content w₀.last.hdk d f).isSome) :
    (applyOp n w op).isSome := by
  have hfits := fits_of_split hops
  have hop : op ∈ commitOps cfg h := by
    rw [hops]
    exact mem_append_right _ mem_cons_self
  have hfixed : ∀ x ∈ [.mkdirNext, .moveHdk, .mkdirHdk, .moveCfg, .moveKeyring, .unlink, .symlink],
      x.rank < op.rank → x ∈ done :=
    fun x hx hlt => mem_done_of_rank hops (mem_commitOps.mpr (.inl hx)) hlt
  cases op with
  | mkdirNext =>
    have hnone : w.next = none :=
      not_isSome_iff_eq_none.mp fun hsome => notMem_done hops (hp.next.mp hsome)
    rw [applyOp, hnone]
    rfl
  | moveHdk =>
    obtain ⟨⟨cfg, keyring, hdk⟩, hv⟩ :=
      isSome_iff_exists.mp (hp.next.mpr (hfixed .mkdirNext (by decide) (by decide)))
    obtain ⟨h', hh'⟩ := isSome_iff_exists.mp (hp.lastHdk.mpr (.inl (notMem_done hops)))
    have hnone : hdk = none := by
      have hno := mt hp.nextHdk.mp (notMem_done hops)
      rw [Work.nextHdk, hv] at hno
      exact not_isSome_iff_eq_none.mp hno
    rw [applyOp, hv, hnone, hh']
    rfl
  | mkdirHdk =>
    have hnone : w.last.hdk = none := by
      refine not_isSome_iff_eq_none.mp fun hsome => ?_
      rcases hp.lastHdk.mp hsome with hno | hmem
      · exact hno hfits.1
      · exact notMem_done hops hmem
    rw [applyOp, hnone]
    rfl
  | moveCfg =>
    obtain ⟨v, hv⟩ :=
      isSome_iff_exists.mp (hp.next.mpr (hfixed .mkdirNext (by decide) (by decide)))
    obtain ⟨c, hc⟩ := isSome_iff_exists.mp hready.cfg
    rw [applyOp, hv, hp.cacheCfg (notMem_done hops), hc]
    rfl
  | moveKeyring =>
    obtain ⟨v, hv⟩ :=
      isSome_iff_exists.mp (hp.next.mpr (hfixed .mkdirNext (by decide) (by decide)))
    obtain ⟨k, hk⟩ := isSome_iff_exists.mp hready.keyring
    rw [applyOp, hv, hp.cacheKeyring (notMem_done hops), hk]
    rfl
  | mkdirDir d =>
    obtain ⟨h', hh'⟩ := isSome_iff_exists.mp (hp.lastHdk.mpr (.inr hfits.1))
    have hnew : d ∉ h' := by
      have hno := mt (hp.lastDirs hfits.1 d).mp (notMem_done hops)
      rw [hh'] at hno
      exact AList.lookup_eq_none.mp (not_isSome_iff_eq_none.mp hno)
    simp only [applyOp, hh', if_neg hnew, isSome_some]
  | moveOut d f =>
    obtain ⟨hmoved, hout, hin⟩ := hfits
    have hmk : .mkdirHdk ∈ done := hfixed .mkdirHdk (by decide) (by simp [Op.rank])
    obtain ⟨c, k, h₁, hv, hh₁⟩ := exists_nextHdk (hp.nextHdk.mpr hmoved)
    obtain ⟨h₂, hh₂⟩ := isSome_iff_exists.mp (hp.lastHdk.mpr (.inr hmk))
    have hdata : (content (some h₁) d f).isSome := by
      rw [← hh₁, hp.nextContent, if_neg hin, if_pos ⟨hmoved, hout⟩]
      exact hchunk d f rfl
    have hdir : (subdir (some h₂) d).isSome := by
      rw [← hh₂, hp.lastDirs hmk d]
      have hmem : .mkdirDir d ∈ commitOps cfg h :=
        mem_commitOps.mpr (.inr ⟨d, f, uploaded_of_mem (.inl hop), .inl rfl⟩)
      exact mem_done hops hmem (by simp) fun hno => hno.2.2.2 d f rfl rfl
    simp only [applyOp, hv, hh₂, isSome_map, renameFile_isSome hdata hdir]
  | moveIn d f =>
    obtain ⟨hout, hin⟩ := hfits
    have hmoved : .moveHdk ∈ done := hfixed .moveHdk (by decide) (by simp [Op.rank])
    obtain ⟨c, k, h₁, hv, hh₁⟩ := exists_nextHdk (hp.nextHdk.mpr hmoved)
    have hup := uploaded_of_mem (.inr hop)
    have hdata : (content w.cache.hdk d f).isSome := by
      rw [hp.cacheContent, if_neg hin, hready.cache]
      exact content_of_uploaded hup
    obtain ⟨h₂, hh₂⟩ : ∃ h₂, w.cache.hdk = some h₂ := by
      cases hw : w.cache.hdk with
      | none => rw [hw] at hdata; cases hdata
      | some h₂ => exact ⟨h₂, rfl⟩
    have hdir : (subdir (some h₁) d).isSome := by
      rw [← hh₁, hp.nextDirs hmoved d]
      exact subdir_of_content (hp.moved d f hout)
    rw [hh₂] at hdata
    simp only [applyOp, hv, hh₂, isSome_map, renameFile_isSome hdata hdir]
  | unlink =>
    obtain ⟨m, hm⟩ := isSome_iff_exists.mp hready.link
    have hlink := hp.link
    rw [if_neg (notMem_done hops), hm] at hlink
    rw [applyOp, hlink]
    rfl
  | symlink =>
    have hunlink : .unlink ∈ done := hfits
    have hlink := hp.link
    rw [if_pos hunlink, if_neg (notMem_done hops)] at hlink
    rw [applyOp, hlink]
    rfl

/-- Without failures from outside a commit runs to completion exactly if each file in the upload
takes the place of one in the last version. -/
theorem runOps_ok_iff (cfg : Cfg) (n : Nat) (hready : Ready h w₀) :
    (runOps n (fun _ => false) (commitOps cfg h) w₀).2.2 = true ↔
      ∀ d f, Uploaded cfg h d f → (content w₀.last.hdk d f).isSome := by
  have hran := ran_runOps (fun _ => false) (nil_append (commitOps cfg h)).symm
    (Progress.nil n w₀ hready.next hready.last)
  rw [nil_append] at hran
  constructor
  · intro hok d f hup
    have hended := hran.ended
    rw [hok, if_pos rfl] at hended
    refine hran.progress.moved d f ?_
    rw [hended]
    exact mem_commitOps.mpr (.inr ⟨d, f, hup, .inr (.inl rfl)⟩)
  · intro hall
    by_contra hfail
    have hended := hran.ended
    rw [if_neg hfail] at hended
    obtain ⟨op, rest, hops, hno | hno⟩ := hended
    · cases hno
    · have :=
        applyOp_isSome hready hran.progress hops fun d f hop => hall d f (uploaded_of_mem (.inl ?_))
      · rw [hno] at this
        cases this
      · rw [← hop, hops]
        exact mem_append_right _ mem_cons_self

end run

/-! ## The store -/

section store

variable {cfg : Cfg} {s : Store} {first last : Nat}

theorem lastver_mem {n : Nat} (h : n ∈ s.versions) : s.lastver ∈ s.versions := by
  have hne : s.versions.keys.map verName ≠ [] :=
    ne_nil_of_mem (mem_map_of_mem (AList.mem_keys.mpr h))
  obtain ⟨name, hname⟩ := isSome_iff_exists.mp (isSome_max?_of_ne_nil hne)
  obtain ⟨k, hk, rfl⟩ := mem_map.mp (max?_mem hname)
  rw [Store.lastver, hname, map_some, getD_some, verName, value_padded]
  exact AList.mem_keys.mp hk

theorem VersionStore.lastver_eq (hs : VersionStore cfg s first last)
    (hnext : s.versions.lookup (s.lastver + 1) = none) : s.lastver = last := by
  have hmem := (hs.versions _).mp (lastver_mem ((hs.versions last).mpr ⟨hs.first_le, le_rfl⟩))
  have hno : s.lastver + 1 ∉ s.versions := AList.lookup_eq_none.mp hnext
  rw [hs.versions] at hno
  omega

theorem lookup_store (s : Store) (w : Work) (m : Nat) :
    (w.store s).versions.lookup m
      = if m = s.lastver + 1 ∧ w.next.isSome then w.next
        else if m = s.lastver then some w.last else s.versions.lookup m := by
  have hins : (s.versions.insert s.lastver w.last).lookup m
      = if m = s.lastver then some w.last else s.versions.lookup m := by
    split
    next heq =>
      rw [heq]
      exact AList.lookup_insert _
    next hne => exact AList.lookup_insert_ne hne
  unfold Work.store
  cases w.next with
  | none => simp only [isSome_none, Bool.false_eq_true, and_false, if_false, hins]
  | some next =>
    simp only [isSome_some, and_true]
    split
    next heq =>
      rw [heq]
      exact AList.lookup_insert _
    next hne => rw [AList.lookup_insert_ne hne, hins]

end store

/-! ## The parcel after a commit -/

/-- `s'` is `s` after the upload `cache`, with the chunks `h`, has been committed; `l` is the
version that was the last. -/
structure Committed (cfg : Cfg) (s : Store) (cache l : VersionDir) (h : Hdk) (s' : Store)
    : Prop where
  link : s'.last = some (s.lastver + 1)
  noCache : s'.cache = none
  other : ∀ m, m ≠ s.lastver → m ≠ s.lastver + 1 → s'.versions.lookup m = s.versions.lookup m
  last : ∃ v, s'.versions.lookup s.lastver = some v ∧ v.cfg = l.cfg ∧ v.keyring = l.keyring ∧
    v.hdk.isSome ∧ (∀ d f, Uploaded cfg h d f → content v.hdk d f = content l.hdk d f) ∧
    ∀ d f, ¬ Uploaded cfg h d f → content v.hdk d f = none
  next : ∃ v, s'.versions.lookup (s.lastver + 1) = some v ∧ v.cfg = cache.cfg ∧
    v.keyring = cache.keyring ∧ v.hdk.isSome ∧
    (∀ d f, Uploaded cfg h d f → content v.hdk d f = content (some h) d f) ∧
    ∀ d f, ¬ Uploaded cfg h d f → content v.hdk d f = content l.hdk d f

section commit

variable {cfg : Cfg} {s : Store} {cache l : VersionDir} {h : Hdk}

theorem Progress.committed {w : Work} (hh : cache.hdk = some h)
    (hp : Progress (s.lastver + 1) ⟨s.last, l, none, cache⟩ (commitOps cfg h) w) :
    Committed cfg s cache l h { w.store s with cache := none } := by
  have hfixed : ∀ x ∈ [.mkdirNext, .moveHdk, .mkdirHdk, .moveCfg, .moveKeyring, .unlink, .symlink],
      x ∈ commitOps cfg h := fun x hx => mem_commitOps.mpr (.inl hx)
  have hmoved : .moveHdk ∈ commitOps cfg h := hfixed _ (by decide)
  have hout : ∀ d f, .moveOut d f ∈ commitOps cfg h ↔ Uploaded cfg h d f := fun d f =>
    ⟨fun h => uploaded_of_mem (.inl h),
      fun hup => mem_commitOps.mpr (.inr ⟨d, f, hup, .inr (.inl rfl)⟩)⟩
  have hin : ∀ d f, .moveIn d f ∈ commitOps cfg h ↔ Uploaded cfg h d f := fun d f =>
    ⟨fun h => uploaded_of_mem (.inr h),
      fun hup => mem_commitOps.mpr (.inr ⟨d, f, hup, .inr (.inr rfl)⟩)⟩
  obtain ⟨c, k, h₁, hv, hh₁⟩ := exists_nextHdk (hp.nextHdk.mpr hmoved)
  have hcfg := hp.nextCfg (hfixed _ (by decide))
  have hkeyring := hp.nextKeyring (hfixed _ (by decide))
  rw [hv] at hcfg hkeyring
  refine ⟨?_, rfl, fun m hm hm' => ?_, ⟨w.last, ?_, hp.lastCfg, hp.lastKeyring,
    hp.lastHdk.mpr (.inr (hfixed _ (by decide))), fun d f hup => ?_, fun d f hno => ?_⟩,
    ⟨⟨c, k, some h₁⟩, ?_, hcfg, hkeyring, rfl, fun d f hup => ?_, fun d f hno => ?_⟩⟩
  · rw [show Store.last _ = w.link from rfl, hp.link, if_pos (hfixed _ (by decide)),
      if_pos (hfixed _ (by decide))]
  · exact (lookup_store s w m).trans (by rw [if_neg fun h => hm' h.1, if_neg hm])
  · exact (lookup_store s w _).trans (by rw [if_neg (by omega), if_pos rfl])
  · rw [hp.lastContent, if_neg fun hno => hno.2 ((hout d f).mpr hup)]
  · rw [hp.lastContent, if_pos ⟨hmoved, mt (hout d f).mp hno⟩]
  · exact (lookup_store s w _).trans (by rw [hv]; exact if_pos ⟨rfl, rfl⟩)
  · rw [← hh₁, hp.nextContent, if_pos ((hin d f).mpr hup), hh]
  · rw [← hh₁, hp.nextContent, if_neg (mt (hin d f).mp hno), if_pos ⟨hmoved, mt (hout d f).mp hno⟩]

theorem Committed.versions {s' : Store} {first : Nat} (hcom : Committed cfg s cache l h s')
    (hversions : ∀ n, n ∈ s.versions ↔ first ≤ n ∧ n ≤ s.lastver) (hle : first ≤ s.lastver)
    (n : Nat) : n ∈ s'.versions ↔ first ≤ n ∧ n ≤ s.lastver + 1 := by
  obtain ⟨-, -, hother, ⟨l', hl', -⟩, ⟨v', hv', -⟩⟩ := hcom
  by_cases hn' : n = s.lastver + 1
  · subst hn'
    exact iff_of_true (AList.lookup_isSome.mp (by rw [hv']; rfl)) ⟨by omega, le_rfl⟩
  by_cases hn : n = s.lastver
  · subst hn
    exact iff_of_true (AList.lookup_isSome.mp (by rw [hl']; rfl)) ⟨hle, by omega⟩
  rw [← AList.lookup_isSome, hother n hn hn', AList.lookup_isSome, hversions]
  omega

theorem srvCommit_cases (cfg : Cfg) (fails : Op → Bool) (s : Store) :
    srvCommit cfg fails s = ⟨[], s, false⟩ ∨
    ∃ cache h last, s.cache = some cache ∧ cache.hdk = some h ∧
      s.versions.lookup s.lastver = some last ∧ cache.present = true ∧ last.present = true ∧
      ∀ done w ok, runOps (s.lastver + 1) fails (commitOps cfg h)
          ⟨s.last, last, s.versions.lookup (s.lastver + 1), cache⟩ = (done, w, ok) →
        srvCommit cfg fails s
          = ⟨done, if ok then { w.store s with cache := none } else w.store s, ok⟩ := by
  unfold srvCommit
  split
  next cache last hcache hlast =>
    split
    next => exact .inl rfl
    next h hh =>
      split
      next => exact .inl rfl
      next hpresent =>
        simp only [Bool.or_eq_true, Bool.not_eq_true', not_or, Bool.not_eq_false] at hpresent
        refine .inr ⟨cache, h, last, hcache, hh, hlast, hpresent.1, hpresent.2,
          fun done w ok hrun => ?_⟩
        dsimp only
        rw [hrun]
  next => exact .inl rfl

theorem srvCommit_committed {fails : Op → Bool} (hnext : s.versions.lookup (s.lastver + 1) = none)
    (hok : (srvCommit cfg fails s).ok = true) :
    ∃ cache h l, s.cache = some cache ∧ cache.hdk = some h ∧
      s.versions.lookup s.lastver = some l ∧ cache.present = true ∧ l.present = true ∧
      Committed cfg s cache l h (srvCommit cfg fails s).store := by
  rcases srvCommit_cases cfg fails s with heq | ⟨cache, h, l, hcache, hh, hl, hcp, hlp, hrun⟩
  · rw [heq] at hok
    cases hok
  refine ⟨cache, h, l, hcache, hh, hl, hcp, hlp, ?_⟩
  rw [hnext] at hrun
  rcases hres : runOps (s.lastver + 1) fails (commitOps cfg h) ⟨s.last, l, none, cache⟩
    with ⟨done, w, ok⟩
  have heq := hrun done w ok hres
  rw [heq] at hok ⊢
  obtain rfl : ok = true := hok
  have hhdk : l.hdk.isSome := by
    simp only [VersionDir.present, Bool.and_eq_true] at hlp
    exact hlp.2
  have hran := ran_runOps fails (nil_append (commitOps cfg h)).symm
    (Progress.nil (s.lastver + 1) ⟨s.last, l, none, cache⟩ rfl hhdk)
  rw [nil_append, hres] at hran
  have hp := hran.progress
  rw [show done = commitOps cfg h from hran.ended] at hp
  exact hp.committed hh

theorem srvCommit_ok (hcache : s.cache = some cache) (hh : cache.hdk = some h)
    (hl : s.versions.lookup s.lastver = some l) (hcp : cache.present = true)
    (hlp : l.present = true) (hlink : s.last.isSome)
    (hnext : s.versions.lookup (s.lastver + 1) = none) :
    (srvCommit cfg (fun _ => false) s).ok = true ↔
      ∀ d f, Uploaded cfg h d f → (content l.hdk d f).isSome := by
  have hok : (srvCommit cfg (fun _ => false) s).ok
      = (runOps (s.lastver + 1) (fun _ => false) (commitOps cfg h)
        ⟨s.last, l, none, cache⟩).2.2 := by
    simp only [srvCommit, hcache, hl, hh, hcp, hlp, Bool.not_true, Bool.or_self, Bool.false_eq_true,
      if_false, hnext]
  simp only [VersionDir.present, Bool.and_eq_true] at hcp hlp
  rw [hok]
  exact runOps_ok_iff cfg (s.lastver + 1) ⟨hlink, rfl, hlp.2, hh, hcp.1.1, hcp.1.2⟩

/-! ## Chunks in an upload -/

theorem visible_padded (w n : Nat) : visible (padded w n) = true := by
  have hdigit : ∀ c t, padded w n = c :: t → c.isDigit = true := fun c t h =>
    isDigit_of_mem_padded (h ▸ mem_cons_self)
  unfold visible
  split
  next t h => exact absurd (hdigit _ t h) (by decide)
  next t h => exact absurd (hdigit _ t h) (by decide)
  next => rfl

theorem uploaded_chunk {h : Hdk} {c : Nat} (hc : c < cfg.numchunks) :
    Uploaded cfg h (chunkDir cfg c) (chunkFile cfg c) ↔ (chunk cfg (some h) c).isSome := by
  constructor
  · exact content_of_uploaded
  · intro hsome
    obtain ⟨data, hdata⟩ := isSome_iff_exists.mp hsome
    obtain ⟨dir, hdir, hfile⟩ := bind_eq_some_iff.mp hdata
    exact ⟨⟨_, chunkDir_lt hc, rfl⟩, dir, hdir, AList.lookup_isSome.mp (by rw [hfile]; rfl),
      visible_padded 4 _⟩

end commit

end OpenIsr.Server
