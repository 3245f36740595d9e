import OpenIsr.Server.Committed

/-!
# A commit that fails

If `srv_commit` fails, the last version should be as it was (`LastIntact`). But its chunks are moved
to the next version early on, while the link still points to it, and nothing moves them back.
`commit_intact_iff` says when the last version is intact all the same, by the operations that are
possible: the first ones of the script up to one that is made to fail, or makes a directory that is
there, or moves a chunk that the last version does not have.
-/

namespace OpenIsr.Server

open Base List Option

/-- The version that the link points to has the keyring and the chunks that it had. -/
def LastIntact (cfg : Cfg) (s s' : Store) : Prop :=
  ∃ m m' v v', s.last = some m ∧ s.versions.lookup m = some v ∧
    s'.last = some m' ∧ s'.versions.lookup m' = some v' ∧ v'.keyring = v.keyring ∧
    ∀ c < cfg.numchunks, chunk cfg v'.hdk c = chunk cfg v.hdk c

/-- The operation can be done when the ones before it have been. -/
def Op.possible (fails : Op → Bool) (last next : Option VersionDir) (op : Op) : Bool :=
  !fails op && match op with
    | .mkdirNext => next.isNone
    | .moveOut d f => (content (last.bind fun v => v.hdk) d f).isSome
    | _ => true

/-- The operations of `srv_commit` up to the first that is not possible. -/
def possibleOps (cfg : Cfg) (fails : Op → Bool) (s : Store) : List Op :=
  let last := s.versions.lookup s.lastver
  if (s.cache.any fun v => v.present) && last.any fun v => v.present then
    (commitOps cfg ((s.cache.bind fun v => v.hdk).getD ∅)).takeWhile
      (Op.possible fails last (s.versions.lookup (s.lastver + 1)))
  else []

section commit

variable {cfg : Cfg} {s : Store} {fails : Op → Bool} {done : List Op} {w : Work}

/-- The operations that are done are the possible ones. The induction is on those that are left,
and an operation that could not be done there is not possible (`applyOp_isSome`). -/
theorem done_runOps {h : Hdk} {n : Nat} {w₀ : Work} (hready : Ready h w₀) (fails : Op → Bool)
    {before ops : List Op} (hops : commitOps cfg h = before ++ ops)
    (hw : Progress n w₀ before w) :
    (runOps n fails ops w).1 = ops.takeWhile (Op.possible fails (some w₀.last) none) := by
  induction ops generalizing before w with
  | nil => rfl
  | cons op ops ih =>
    unfold runOps
    cases hfails : fails op with
    | true => simp [Op.possible, hfails]
    | false =>
      rw [if_neg Bool.false_ne_true]
      cases happly : applyOp n w op with
      | none =>
        have hno : Op.possible fails (some w₀.last) none op = false := by
          by_contra hyes
          have hsome := applyOp_isSome hready hw hops fun d f hop => by
            subst hop
            simpa [Op.possible, hfails, isSome_iff_ne_none] using hyes
          rw [happly] at hsome
          cases hsome
        rw [takeWhile_cons_of_neg (by rw [hno]; exact Bool.false_ne_true)]
      | some w' =>
        have hw' := hw.step happly (fits_of_split hops)
        have hyes : Op.possible fails (some w₀.last) none op = true := by
          cases op with
          | moveOut d f =>
            simpa [Op.possible, hfails] using hw'.moved d f (mem_append_right _ (by simp))
          | _ => simp [Op.possible, hfails]
        rw [takeWhile_cons_of_pos hyes, ← ih (by rw [hops, append_cons]) hw']

theorem mem_of_earlier {h : Hdk} {op x y : Op} {rest : List Op}
    (hops : commitOps cfg h = done ++ op :: rest) (hx : x ∈ done) (hy : y ∈ commitOps cfg h)
    (hno : ¬ InOrder x y) : y ∈ done := by
  have hpair := pairwise_commitOps cfg h
  rw [hops] at hpair hy
  rcases mem_append.mp hy with hy | hy
  · exact hy
  · exact absurd ((pairwise_append.mp hpair).2.2 x hx y hy) hno

theorem Ran.link {h : Hdk} {n : Nat} {w₀ : Work}
    (hran : Ran n fails w₀ (commitOps cfg h) done w false) :
    w.link = if .unlink ∈ done then none else w₀.link := by
  obtain ⟨op, rest, hops, -⟩ := hran.ended
  have hsym : .symlink ∉ done := by
    intro hsym
    have hlast := (inOrder_done hops _ hsym)
    have hrank : op.rank < 7 ∨ op = .symlink := by cases op <;> simp [Op.rank]
    rcases hrank with hlt | rfl
    · exact absurd hlast.2.1 (not_le.mpr hlt)
    · exact hlast.1 rfl
  rw [hran.progress.link, if_neg hsym]

theorem lookup_store_start {last : VersionDir} (cache : VersionDir)
    (hlast : s.versions.lookup s.lastver = some last) (m : Nat) :
    (Work.store s ⟨s.last, last, s.versions.lookup (s.lastver + 1), cache⟩).versions.lookup m
      = s.versions.lookup m := by
  rw [lookup_store]
  split
  next h => rw [h.1]
  split
  next h => rw [h, hlast]
  next => rfl

theorem runOps_exists {h : Hdk} {n : Nat} (hnext : w.next.isSome) :
    runOps n fails (commitOps cfg h) w = ([], w, false) := by
  obtain ⟨next, hnext⟩ := isSome_iff_exists.mp hnext
  have hfirst : (if fails .mkdirNext then none else applyOp n w .mkdirNext) = none := by
    rw [applyOp, hnext]
    exact ite_self none
  have hops : ∃ ops, commitOps cfg h = .mkdirNext :: ops := ⟨_, rfl⟩
  obtain ⟨ops, hops⟩ := hops
  rw [hops, runOps, hfirst]

theorem Ran.intact_iff {h : Hdk} {first : Nat} {l cache : VersionDir}
    (hs : VersionStore cfg s first s.lastver) (hl : s.versions.lookup s.lastver = some l)
    (hran : Ran (s.lastver + 1) fails ⟨s.last, l, none, cache⟩ (commitOps cfg h) done w false) :
    LastIntact cfg s (w.store s) ↔ .moveHdk ∉ done ∨ (.unlink ∉ done ∧ ∀ c < cfg.numchunks,
      .moveOut (chunkDir cfg c) (chunkFile cfg c) ∈ done) := by
  have hlink : w.link = if .unlink ∈ done then none else s.last := hran.link
  have hlookup : (w.store s).versions.lookup s.lastver = some w.last := by
    rw [lookup_store, if_neg (by omega), if_pos rfl]
  have hkeyring : w.last.keyring = l.keyring := hran.progress.lastKeyring
  have hcontent : ∀ c, chunk cfg w.last.hdk c = if .moveHdk ∈ done ∧
      .moveOut (chunkDir cfg c) (chunkFile cfg c) ∉ done then none else chunk cfg l.hdk c :=
    fun c => hran.progress.lastContent _ _
  constructor
  · rintro ⟨m, m', v, v', hm, hv, hm', hv', -, hchunks⟩
    cases hs.link.symm.trans hm
    cases hl.symm.trans hv
    have hunlink : .unlink ∉ done := by
      intro hun
      rw [show (w.store s).last = w.link from rfl, hlink, if_pos hun] at hm'
      cases hm'
    rw [show (w.store s).last = w.link from rfl, hlink, if_neg hunlink, hs.link] at hm'
    cases hm'
    cases hlookup.symm.trans hv'
    by_cases hmoved : .moveHdk ∈ done
    · refine .inr ⟨hunlink, fun c hc => ?_⟩
      by_contra hout
      have hsome := hs.complete l hl c hc
      rw [← hchunks c hc, hcontent, if_pos ⟨hmoved, hout⟩] at hsome
      cases hsome
    · exact .inl hmoved
  · intro hcond
    have hunlink : .unlink ∉ done := by
      rcases hcond with hmoved | ⟨hunlink, -⟩
      · obtain ⟨op, rest, hops, -⟩ := hran.ended
        refine fun hun => hmoved (mem_of_earlier hops hun (mem_commitOps.mpr (.inl (by decide))) ?_)
        exact fun hle => absurd hle.2.1 (by decide)
      · exact hunlink
    refine ⟨s.lastver, s.lastver, l, w.last, hs.link, hl, ?_, hlookup, hkeyring, fun c hc => ?_⟩
    · rw [show (w.store s).last = w.link from rfl, hlink, if_neg hunlink, hs.link]
    · rw [hcontent, if_neg]
      rintro ⟨hmoved, hout⟩
      rcases hcond with hno | ⟨-, hall⟩
      · exact hno hmoved
      · exact hout (hall c hc)

theorem done_srvCommit (hlink : s.last.isSome) :
    (srvCommit cfg fails s).done = possibleOps cfg fails s := by
  unfold srvCommit possibleOps
  cases hcache : s.cache with
  | none => rfl
  | some cache =>
    cases hlast : s.versions.lookup s.lastver with
    | none => simp
    | some last =>
      cases hh : cache.hdk with
      | none => simp [VersionDir.present, hh]
      | some h =>
        by_cases hp : cache.present = true ∧ last.present = true
        · obtain ⟨hcp, hlp⟩ := hp
          simp only [hcp, hlp, Bool.not_true, Bool.or_self, Bool.false_eq_true, if_false,
            any_some, Bool.and_self, if_true, bind_some, hh, getD_some]
          cases hnext : s.versions.lookup (s.lastver + 1) with
          | some next =>
            rw [runOps_exists rfl]
            simp [commitOps, Op.possible]
          | none =>
            simp only [VersionDir.present, Bool.and_eq_true] at hcp hlp
            have hdone := done_runOps ⟨hlink, rfl, hlp.2, hh, hcp.1.1, hcp.1.2⟩ fails
              (nil_append (commitOps cfg h)).symm
              (.nil (s.lastver + 1) ⟨s.last, last, none, cache⟩ rfl hlp.2)
            rw [← hdone]
        · rw [not_and_or, Bool.not_eq_true, Bool.not_eq_true] at hp
          rcases hp with hp | hp <;> simp [hp, hh]

/-- After a failure of `srv_commit` the last version is intact exactly if its chunks can not be
moved, or if all of them can be moved back and the link can not be removed. -/
theorem commit_intact_iff {first last : Nat} (hs : VersionStore cfg s first last)
    (hfail : (srvCommit cfg fails s).ok = false) :
    LastIntact cfg s (srvCommit cfg fails s).store ↔
      .moveHdk ∉ possibleOps cfg fails s ∨
        (.unlink ∉ possibleOps cfg fails s ∧ ∀ c < cfg.numchunks,
          .moveOut (chunkDir cfg c) (chunkFile cfg c) ∈ possibleOps cfg fails s) := by
  rw [← done_srvCommit (by rw [hs.link]; rfl)]
  obtain ⟨v, hv⟩ := isSome_iff_exists.mp
    (AList.lookup_isSome.mpr ((hs.versions last).mpr ⟨hs.first_le, le_rfl⟩))
  rcases srvCommit_cases cfg fails s with heq | ⟨cache, h, l, hcache, hh, hl, hcp, hlp, hrun⟩
  · rw [heq]
    exact iff_of_true ⟨last, last, v, v, hs.link, hv, hs.link, hv, rfl, fun _ _ => rfl⟩
      (.inl not_mem_nil)
  · rcases hres : runOps (s.lastver + 1) fails (commitOps cfg h)
      ⟨s.last, l, s.versions.lookup (s.lastver + 1), cache⟩ with ⟨done, w, ok⟩
    rw [hrun done w ok hres] at hfail ⊢
    obtain rfl : ok = false := hfail
    cases hnext : s.versions.lookup (s.lastver + 1) with
    | some next =>
      rw [runOps_exists (by rw [hnext]; rfl)] at hres
      obtain ⟨rfl, rfl, -⟩ : [] = done ∧ _ = w ∧ _ := by simpa only [Prod.mk.injEq] using hres
      have hstore := lookup_store_start cache hl
      refine iff_of_true ⟨last, last, v, v, hs.link, hv, hs.link, ?_, rfl, fun _ _ => rfl⟩
        (.inl not_mem_nil)
      exact (hstore last).trans hv
    | none =>
      obtain rfl := hs.lastver_eq hnext
      rw [hnext] at hres
      have hran := ran_runOps fails (nil_append (commitOps cfg h)).symm
        (Progress.nil (s.lastver + 1) ⟨s.last, l, none, cache⟩ rfl
          (by simp only [VersionDir.present, Bool.and_eq_true] at hlp; exact hlp.2))
      rw [hres] at hran
      exact hran.intact_iff hs hl

end commit

/-- A parcel of one chunk. -/
def oneCfg : Cfg := ⟨1, 1, Nat.one_pos⟩

def oneKeys : Keyring := AList.insert 0 ⟨[1], [2], 1⟩ ∅

def oneHdk : Hdk := AList.insert (padded 4 0) (AList.insert (padded 4 0) [7] ∅) ∅

/-- It has one version, and in the upload nothing has changed. -/
def oneStore : Store where
  versions := AList.insert 1 ⟨some [], some (some oneKeys), some oneHdk⟩ ∅
  last := some 1
  cache := some ⟨some [], some (some oneKeys), some ∅⟩

/-- An upload with other data for the chunk. -/
def oneChange : VersionDir where
  cfg := some []
  keyring := some (some (AList.insert 0 ⟨[8], [], 0⟩ ∅))
  hdk := some (AList.insert (padded 4 0) (AList.insert (padded 4 0) [8] ∅) ∅)

theorem versionStore_one (cache : Option VersionDir) :
    VersionStore oneCfg { oneStore with cache } 1 1 := by
  have hlookup : ∀ n v, oneStore.versions.lookup n = some v →
      n = 1 ∧ v = ⟨some [], some (some oneKeys), some oneHdk⟩ := by
    intro n v hv
    by_cases hn : n = 1
    · subst hn
      exact ⟨rfl, (some.inj hv).symm⟩
    · rw [oneStore, AList.lookup_insert_ne hn] at hv
      cases hv
  refine ⟨le_rfl, fun n => ?_, rfl, fun n v hv => ?_, fun v hv c hc => ?_,
    fun n v v' k k' hn hv => ?_⟩
  · rw [oneStore, AList.mem_insert]
    simp only [AList.notMem_empty, or_false]
    omega
  · obtain ⟨-, rfl⟩ := hlookup n v hv
    exact ⟨rfl, ⟨oneKeys, rfl⟩, rfl⟩
  · obtain ⟨-, rfl⟩ := hlookup 1 v hv
    obtain rfl : c = 0 := Nat.lt_one_iff.mp hc
    rfl
  · obtain ⟨rfl, -⟩ := hlookup n v hv
    exact absurd hn (lt_irrefl 1)

theorem oneChange_chunks {d f : Name} (h : (content oneChange.hdk d f).isSome) :
    IsChunk oneCfg d f := by
  refine ⟨0, Nat.one_pos, ?_⟩
  by_contra hne
  rw [content_eq, oneChange, subdir_insert] at h
  split at h
  next hd =>
    have hf : f ≠ padded 4 0 := fun hf => hne ⟨hd, hf⟩
    rw [bind_some, AList.lookup_insert_ne hf] at h
    cases h
  next => cases h

/-- The second `mkdir` fails, and the last version has lost its chunk. -/
theorem commit_lost :
    VersionStore oneCfg oneStore 1 1 ∧
      (srvCommit oneCfg (fun op => op = .mkdirHdk) oneStore).ok = false ∧
      ¬ LastIntact oneCfg oneStore
        (srvCommit oneCfg (fun op => op = .mkdirHdk) oneStore).store := by
  refine ⟨versionStore_one _, rfl, ?_⟩
  rintro ⟨m, m', v, v', hm, hv, hm', hv', -, hchunks⟩
  obtain rfl : 1 = m := some.inj hm
  obtain rfl : 1 = m' := some.inj hm'
  have hchunk := hchunks 0 Nat.one_pos
  cases hv
  cases hv'
  cases hchunk

/-- The chunk has been moved back and the new one has been put into its place, and then the link can
not be removed. -/
theorem commit_intact_unlink :
    let s := { oneStore with cache := some oneChange }
    (srvCommit oneCfg (fun op => op = .unlink) s).ok = false ∧
      LastIntact oneCfg s (srvCommit oneCfg (fun op => op = .unlink) s).store := by
  have hfail : (srvCommit oneCfg (fun op => op = .unlink)
      { oneStore with cache := some oneChange }).ok = false := by decide +kernel
  refine ⟨hfail, (commit_intact_iff (versionStore_one _) hfail).mpr (.inr ?_)⟩
  decide +kernel

end OpenIsr.Server
