import OpenIsr.Fuse.Acknowledge
import OpenIsr.Cache.Store

/-!
# A session of the FUSE image

`fuse_init` sets the dirty flag in the header of the local cache before the filesystem is
mounted, and `fuse_shutdown` clears it after `image_shutdown`, unless `leave_dirty` says that
a `cache_get` or `cache_update` call has failed. A session may end at any step: a process
that is killed leaves the files as they are. Calls of the FUSE library are left out.

So a header without the flag means one of two things. Either no request has been served; or
the image has been shut down and nothing has failed, and then every chunk is stored with the
bytes that were acknowledged (`Kept`).
-/

namespace OpenIsr.Fuse

open Cache (FlagWrite cacheSetFlag cacheClearFlag cacheTestFlag caDirty caDamaged ntohl)

variable {P : Parcel} {W : Type}

/-- Where the main thread stands in `fuse_init` and `fuse_shutdown`. -/
inductive Phase
  | start
  /-- `image_init` has returned. -/
  | prepared
  /-- The dirty flag is set. -/
  | marked
  /-- `fuse_init` has returned. -/
  | mounted
  /-- `fuse_init` gives up, and runs `image_shutdown`. -/
  | unwinding
  | ended
  deriving DecidableEq, Repr

/-- The cache file with `state->cache_flags`, and the image. -/
structure Session (P : Parcel) (W : Type) where
  phase : Phase
  cache : Cache.Store
  image : St P W

/-- A step of a session, with what the environment decides. -/
inductive SessionAct (P : Parcel) (W : Type)
  /-- `fuse_init` up to `image_init`, which may fail. -/
  | prepare (ok : Bool)
  /-- Making the mountpoint and the symlink, which may fail, and setting the flag. -/
  | mark (ok : Bool) (w : FlagWrite)
  /-- `fuse_mount`, `fuse_new` and `setup_signal_handlers`; if one fails, the flag is
  cleared. -/
  | mount (ok : Bool) (w : FlagWrite)
  | image (a : Act P W)
  /-- `fuse_shutdown` after `image_shutdown`. -/
  | finish (w : FlagWrite)

/-- The threads that run: requests only come once the filesystem is mounted. -/
def Phase.lets {W : Type} : Phase → Tid W → Bool
  | .mounted, _ => true
  | .prepared, .cleaner | .marked, .cleaner | .unwinding, .cleaner => true
  | .unwinding, .main => true
  | _, _ => false

/-- The session before `fuse_init`. -/
def Session.start (W : Type) [DecidableEq W] (cache : Cache.Store) (allocatable : Nat)
    (disk : Nat → Data P) : Session P W :=
  { phase := .start, cache, image := init W allocatable disk }

variable [DecidableEq W] [Fintype W]

/-- One step of a session. -/
def Session.step (s : Session P W) : SessionAct P W → Option (Session P W)
  | .prepare ok =>
    if s.phase = .start then
      if cacheTestFlag s.cache caDirty then some { s with phase := .ended }
      else if ok then some { s with phase := .prepared }
      else some { s with phase := .ended }
    else none
  | .mark ok w =>
    if s.phase = .prepared then
      if ok = false then some { s with phase := .unwinding }
      else if cacheTestFlag s.cache caDamaged then some { s with phase := .marked }
      else
        match cacheSetFlag w s.cache caDirty with
        | (.success, cache) => some { s with cache, phase := .marked }
        | (_, cache) => some { s with cache, phase := .unwinding }
    else none
  | .mount ok w =>
    if s.phase = .marked then
      if ok then some { s with phase := .mounted }
      else some { s with cache := (cacheClearFlag w s.cache caDirty).2, phase := .unwinding }
    else none
  | .image a =>
    if s.phase.lets a.tid then (Fuse.step s.image a).map fun image => { s with image } else none
  | .finish w =>
    if s.phase = .mounted ∧ s.image.pc .main = .shDone then
      if s.image.leaveDirty then some { s with phase := .ended }
      else some { s with cache := (cacheClearFlag w s.cache caDirty).2, phase := .ended }
    else none

/-- The header of the cache file has the flag. -/
def flagged (cache : Cache.Store) (flag : Nat) : Bool := ntohl cache.file 12 &&& flag = flag

/-- It has neither flag. -/
def Clear (cache : Cache.Store) : Prop :=
  flagged cache caDirty = false ∧ flagged cache caDamaged = false

/-- `cache_get` returns for every chunk what the acknowledged bytes make of it. -/
def Kept (disk : Nat → Data P) (s : St P W) : Prop :=
  ∀ c, s.store c = some fun i : Fin P.chunksize =>
    ackDisk (flat disk) (fun _ => .nothing) s.hist (c * P.chunksize + i.val)

/-- The step of the image, if it is one, is in range. -/
def Session.inRange (s : Session P W) : SessionAct P W → Bool
  | .image a => Fuse.inRange s.image a
  | _ => true

/-! ## The image at rest -/

section rest

variable {disk : Nat → Data P} {n : Nat} {s s' : St P W} {a : Act P W} {p : Pc}

theorem Pc.copied_of_kind (h : p.kind ≠ .fuse) : p.copied = .nothing := by
  cases p with
  | acqLoop k e | acqWait k e | release k e => cases k <;> first | rfl | exact absurd rfl h
  | cleanStart k e | cleanUpdate k e | cleanFailed k e | cleanLock k e =>
    cases k <;> first | rfl | exact absurd rfl h
  | _ => first | rfl | exact absurd rfl h

/-- No request is under way. -/
def Resting (s : St P W) : Prop := ∀ w, s.pc (.fuse w) = .idle

omit [DecidableEq W] in
theorem Inv.copied_of_resting (h : Inv n s) (hrest : Resting s) (t : Tid W) :
    (s.pc t).copied = .nothing := by
  cases t with
  | main | cleaner => exact Pc.copied_of_kind (by rw [h.kind]; nofun)
  | fuse w =>
    rw [hrest w]
    rfl

/-- Without entries and without requests, everything acknowledged is stored. -/
theorem Inv.kept (h : Inv n s) (hrest : Resting s) (hch : s.tab.chunks = []) (hS : Sound s)
    (hD : DataInv disk s) (hA : AckInv disk s) : Kept disk s := by
  intro c
  have hfresh : s.store c = some (value disk c s.hist) := by
    refine (hD.absent c fun e he => ?_).resolve_left (hS.store c)
    rw [hch] at he
    cases he
  rw [hfresh, Option.some.injEq]
  funext i
  have hpos : (c * P.chunksize + i.val) / P.chunksize = c ∧
      (c * P.chunksize + i.val) % P.chunksize = i.val := by
    rw [Nat.mul_comm, Nat.mul_add_div P.chunksize_pos, Nat.mul_add_mod, Nat.div_eq_of_lt i.isLt,
      Nat.mod_eq_of_lt i.isLt]
    exact ⟨rfl, rfl⟩
  have hflat := congrFun hA (c * P.chunksize + i.val)
  rw [show (fun t => (s.pc t).copied) = fun _ => .nothing from
    funext (h.copied_of_resting hrest)] at hflat
  rw [← hflat]
  simp only [flat, hpos]

omit [Fintype W] in
theorem Effect.no_entries (hE : Effect s a s') (hno : ∀ io, s.pc a.tid ≠ .eaLock io)
    (hch : s.tab.chunks = []) : s'.tab.chunks = [] := by
  cases hE with
  | created mv _ _ _ _ _ _ _ _ => exact absurd mv.old (hno _)
  | freed _ _ _ _ chunks _ _ _ _ => rw [chunks, hch, List.erase_nil]
  | quiet _ _ tab _ _ _ | called _ _ tab _ _ _ | returned _ _ tab _ _ _ _ _
  | synced _ _ tab _ _ _ | taken _ _ tab _ _ _ | allocated _ tab _ _ _ _
  | stored _ _ _ tab _ _ _ | storeFailed _ _ tab _ _ _ | storeError _ tab _ _ _
  | cleaned _ tab _ _ _ | filled _ _ _ tab _ _ _ | fillFailed _ _ _ tab _ _ _
  | fillError _ tab _ _ _ | refused _ _ tab _ _ _ | read _ _ _ _ tab _ _ _
  | written _ _ _ _ tab _ _ _ | dirtied _ _ _ tab _ _ _ | dropped _ _ _ tab _ _ _ =>
    rw [tab.chunks, hch]
  | stolen _ _ chunks _ _ _ _ _ _ _ _ => rw [chunks, hch]

omit [DecidableEq W] in
theorem Inv.not_failing (h : Inv n s) (hch : s.tab.chunks = []) (t : Tid W) :
    (s.pc t).failing = false := by
  by_contra hf
  obtain ⟨e, he⟩ : ∃ e, e ∈ (s.pc t).own := by
    cases hp : s.pc t with
    | cleanFailed k e | fillFailed io e => exact ⟨e, List.mem_cons_self ..⟩
    | _ => exact absurd (by rw [hp]; rfl) hf
  have := h.tabInv.own_live t e he
  rw [hch] at this
  cases this

/-- Nothing has failed, and the data is where it should be. -/
def Intact (disk : Nat → Data P) (s : St P W) : Prop := Sound s ∧ DataInv disk s

theorem Intact.step (hI : Intact disk s) (h : Inv n s) (hE : Effect s a s')
    (hf : (s'.pc a.tid).failing = false) : Intact disk s' :=
  ⟨hI.1.step hE (.inr hf), hI.2.step h hE fun _ _ => lost_eq_false (hI.1.failed _)⟩

omit [Fintype W] in
theorem intact_init (allocatable : Nat) : Intact disk (init W allocatable disk) := by
  refine ⟨⟨nofun, nofun, fun t => ?_, fun _ => rfl⟩, dataInv_init allocatable⟩
  cases t <;> rfl

/-- A failure is remembered: by `leave_dirty`, or by a thread that is about to set it. -/
def Noted (disk : Nat → Data P) (s : St P W) : Prop :=
  s.leaveDirty = true ∨ (∃ t, (s.pc t).failing = true) ∨ Intact disk s

theorem Noted.step (hN : Noted disk s) (h : Inv n s) (hs : step s a = some s') :
    Noted disk s' := by
  obtain ⟨p, p', go⟩ := (h.traffic hs).goes
  have hdirty := go.dirty
  rcases hN with hN | ⟨t, ht⟩ | hI
  · rw [hN, Bool.or_true] at hdirty
    exact .inl hdirty
  · by_cases hta : t = a.tid
    · rw [hta, go.old] at ht
      rw [ht, Bool.true_or] at hdirty
      exact .inl hdirty
    · exact .inr (.inl ⟨t, by rw [go.other hta]; exact ht⟩)
  · cases hf : (s'.pc a.tid).failing with
    | true => exact .inr (.inl ⟨a.tid, hf⟩)
    | false => exact .inr (.inr (hI.step h (h.effect hs) hf))

/-- What holds of the image in every run in range. -/
structure ImageInv (disk : Nat → Data P) (n : Nat) (s : St P W) : Prop where
  inv : Inv n s
  placed : PlacedInv s
  ack : AckInv disk s
  noted : Noted disk s
  done : s.pc .main = .shDone → s.tab.chunks = []

theorem ImageInv.step (hI : ImageInv disk n s) (hs : step s a = some s')
    (hC : inRange s a = true) : ImageInv disk n s' := by
  have hT := hI.inv.traffic hs
  refine ⟨hI.inv.step hs, hI.placed.step hT hC, hI.ack.step hI.inv hI.placed hT hC,
    hI.noted.step hI.inv hs, fun hdone => ?_⟩
  obtain ⟨p, p', go⟩ := hT.goes
  by_cases ha : a.tid = .main
  · rw [← ha, go.self] at hdone
    exact go.empty hdone
  · rw [go.other (Ne.symm ha)] at hdone
    refine (hI.inv.effect hs).no_entries (fun io hio => ?_) (hI.done hdone)
    have := hI.inv.running_of hio rfl nofun
    rw [hdone] at this
    cases this

omit [Fintype W] in
theorem imageInv_init [Fintype W] (allocatable : Nat) :
    ImageInv disk allocatable (init W allocatable disk) :=
  ⟨inv_init _ _, placedInv_init _, ackInv_init _, .inr (.inr (intact_init _)), nofun⟩

/-- After `image_shutdown` everything acknowledged is stored, unless `leave_dirty` is set. -/
theorem ImageInv.kept_of_done (hI : ImageInv disk n s) (hdone : s.pc .main = .shDone)
    (hclean : s.leaveDirty = false) : Kept disk s := by
  have hch := hI.done hdone
  have hrest : Resting s := hI.inv.quiet (by rw [hdone]; decide)
  rcases hI.noted with hN | ⟨t, ht⟩ | hN
  · rw [hclean] at hN
    cases hN
  · rw [hI.inv.not_failing hch t] at ht
    cases ht
  · exact hI.inv.kept hrest hch hN.1 hN.2 hI.ack

/-- No request has been served yet. -/
structure Untouched (disk : Nat → Data P) (s : St P W) : Prop where
  rest : Resting s
  empty : s.tab.chunks = []
  intact : Intact disk s

theorem Untouched.step (hU : Untouched disk s) (h : Inv n s) (hs : step s a = some s')
    (ha : ∀ w, a.tid ≠ .fuse w) : Untouched disk s' := by
  obtain ⟨p, p', go⟩ := (h.traffic hs).goes
  have hch : s'.tab.chunks = [] := by
    refine (h.effect hs).no_entries (fun io hio => ?_) hU.empty
    have hk := h.kind a.tid
    rw [hio] at hk
    cases ht : a.tid with
    | fuse w => exact ha w ht
    | main | cleaner => rw [ht] at hk; cases hk
  refine ⟨fun w => ?_, hch, hU.intact.step h (h.effect hs) ((h.step hs).not_failing hch _)⟩
  rw [go.other (Ne.symm (ha w))]
  exact hU.rest w

theorem Untouched.kept (hU : Untouched disk s) (hI : ImageInv disk n s) : Kept disk s :=
  hI.inv.kept hU.rest hU.empty hU.intact.1 hU.intact.2 hI.ack

end rest

/-! ## The flag -/

theorem flagged_set {w : FlagWrite} {cache cache' : Cache.Store}
    (h : cacheSetFlag w cache caDirty = (.success, cache')) : flagged cache' caDirty = true := by
  cases w with
  | writeFails | syncFails => cases h
  | ok =>
    simp only [cacheSetFlag, Cache.cacheSetFlags, Prod.mk.injEq, true_and] at h
    have hodd : (cache.flags ||| 1) % 2 = 1 := by simp
    rw [← h, flagged, decide_eq_true_eq, Cache.ntohl_pwrite, UInt32.toNat_ofNat', caDirty,
      Nat.and_one_is_mod]
    omega

/-! ## Sessions -/

section session

variable {disk : Nat → Data P} {n : Nat} {cache : Cache.Store} {s s' : Session P W} {ok : Bool}
  {w : FlagWrite}

/-- What holds of the image and of the header in each phase; `cache` is the local cache before
the session. -/
def PhaseOk (disk : Nat → Data P) (cache : Cache.Store) (s : Session P W) : Prop :=
  match s.phase with
  | .start | .prepared => Untouched disk s.image ∧ s.cache = cache
  | .marked => Untouched disk s.image ∧ flagged s.cache caDirty = true
  | .mounted => flagged s.cache caDirty = true
  | .unwinding => Untouched disk s.image
  | .ended => flagged s.cache caDirty = true ∨ Kept disk s.image

/-- The invariant of a session. -/
structure SessionInv (disk : Nat → Data P) (n : Nat) (cache : Cache.Store) (s : Session P W) :
    Prop where
  image : ImageInv disk n s.image
  phase : PhaseOk disk cache s

section

variable (hI : SessionInv disk n cache s)
include hI

theorem SessionInv.prepare (hs : s.step (.prepare ok) = some s') : SessionInv disk n cache s' := by
  obtain ⟨himage, hphase⟩ := hI
  simp only [Session.step] at hs
  split at hs
  next hp =>
    simp only [PhaseOk, hp] at hphase
    have hkept := hphase.1.kept himage
    split at hs
    next =>
      cases hs
      exact ⟨himage, .inr hkept⟩
    next =>
      split at hs <;> cases hs
      · exact ⟨himage, hphase⟩
      · exact ⟨himage, .inr hkept⟩
  next => cases hs

theorem SessionInv.mark (hcache : cacheTestFlag cache caDamaged = false)
    (hs : s.step (.mark ok w) = some s') : SessionInv disk n cache s' := by
  obtain ⟨himage, hphase⟩ := hI
  simp only [Session.step] at hs
  split at hs
  next hp =>
    simp only [PhaseOk, hp] at hphase
    obtain ⟨huntouched, hsame⟩ := hphase
    split at hs
    next =>
      cases hs
      exact ⟨himage, huntouched⟩
    next =>
      rw [hsame, hcache, if_neg (by simp)] at hs
      split at hs
      next cache' hset =>
        cases hs
        exact ⟨himage, huntouched, flagged_set hset⟩
      next =>
        cases hs
        exact ⟨himage, huntouched⟩
  next => cases hs

theorem SessionInv.mount (hs : s.step (.mount ok w) = some s') : SessionInv disk n cache s' := by
  obtain ⟨himage, hphase⟩ := hI
  simp only [Session.step] at hs
  split at hs
  next hp =>
    simp only [PhaseOk, hp] at hphase
    split at hs <;> cases hs
    · exact ⟨himage, hphase.2⟩
    · exact ⟨himage, hphase.1⟩
  next => cases hs

end

omit [DecidableEq W] [Fintype W] in
theorem Phase.not_worker {ph : Phase} {t : Tid W} (h : ph.lets t = true) (hm : ph ≠ .mounted)
    (w : W) : t ≠ .fuse w := by
  rintro rfl
  cases ph with
  | mounted => exact hm rfl
  | _ => cases h

section

variable (hI : SessionInv disk n cache s)
include hI

theorem SessionInv.step_image {a : Act P W} (hC : inRange s.image a = true)
    (hs : s.step (.image a) = some s') : SessionInv disk n cache s' := by
  obtain ⟨himage, hphase⟩ := hI
  simp only [Session.step] at hs
  split at hs
  next hlets =>
    simp only [Option.map_eq_some_iff] at hs
    obtain ⟨image, hstep, rfl⟩ := hs
    refine ⟨himage.step hstep hC, ?_⟩
    have hrest : s.phase ≠ .mounted → Untouched disk s.image → Untouched disk image :=
      fun hm hU => hU.step himage.inv hstep (Phase.not_worker hlets hm)
    unfold PhaseOk at hphase ⊢
    cases hp : s.phase with
    | start | ended => rw [hp] at hlets; cases hlets
    | prepared | marked =>
      simp only [hp] at hphase ⊢
      exact ⟨hrest (by rw [hp]; nofun) hphase.1, hphase.2⟩
    | mounted =>
      simp only [hp] at hphase ⊢
      exact hphase
    | unwinding =>
      simp only [hp] at hphase ⊢
      exact hrest (by rw [hp]; nofun) hphase
  next => cases hs

theorem SessionInv.finish (hs : s.step (.finish w) = some s') : SessionInv disk n cache s' := by
  obtain ⟨himage, hphase⟩ := hI
  simp only [Session.step] at hs
  split at hs
  next hp =>
    simp only [PhaseOk, hp.1] at hphase
    split at hs <;> cases hs
    next => exact ⟨himage, .inl hphase⟩
    next hclean =>
      exact ⟨himage, .inr (himage.kept_of_done hp.2 (by simpa using hclean))⟩
  next => cases hs

theorem SessionInv.step {a : SessionAct P W} (hcache : cacheTestFlag cache caDamaged = false)
    (hC : s.inRange a = true) (hs : s.step a = some s') : SessionInv disk n cache s' := by
  cases a with
  | prepare ok => exact hI.prepare hs
  | mark ok w => exact hI.mark hcache hs
  | mount ok w => exact hI.mount hs
  | image a => exact hI.step_image hC hs
  | finish w => exact hI.finish hs

/-- A header without the dirty flag means that the acknowledged bytes are stored. -/
theorem SessionInv.kept (hcache : Clear s.cache) : Kept disk s.image := by
  obtain ⟨himage, hphase⟩ := hI
  have hflag : flagged s.cache caDirty ≠ true := by
    rw [hcache.1]
    simp
  unfold PhaseOk at hphase
  cases hp : s.phase with
  | start | prepared =>
    simp only [hp] at hphase
    exact hphase.1.kept himage
  | marked =>
    simp only [hp] at hphase
    exact absurd hphase.2 hflag
  | mounted =>
    simp only [hp] at hphase
    exact absurd hphase hflag
  | unwinding =>
    simp only [hp] at hphase
    exact hphase.kept himage
  | ended =>
    simp only [hp] at hphase
    exact hphase.resolve_left hflag

end

/-- A session that starts with a clear header, and in which every write is in range: however
it ends, whatever calls fail and whatever failing calls leave behind, if the header is clear
then every chunk is stored with the acknowledged bytes. -/
theorem clean_flag_kept (cache : Cache.Store) (allocatable : Nat) (disk : Nat → Data P)
    (hflags : cache.flags = ntohl cache.file 12) (hstart : Clear cache)
    (hr : Base.Reach Session.step (fun s a => s.inRange a = true)
      (Session.start W cache allocatable disk) s)
    (hend : Clear s.cache) : Kept disk s.image := by
  have hdamaged : cacheTestFlag cache caDamaged = false := by
    rw [cacheTestFlag, hflags]
    exact hstart.2
  have hinit : SessionInv disk allocatable cache (Session.start W cache allocatable disk) := by
    refine ⟨imageInv_init allocatable, ⟨fun w => rfl, rfl, intact_init allocatable⟩, rfl⟩
  have hinv : SessionInv disk allocatable cache s :=
    hr.inv hinit fun s a s' hI hC hs => hI.step hdamaged hC hs
  exact hinv.kept hend

/-- A new cache file. -/
def newCache : Cache.Store :=
  { keys := ∅, chunks := ∅, file := List.replicate 24 0, offset := 0, flags := 0 }

/-- One write of one byte, and `image_shutdown`. -/
def writeRun (start : Nat) : List (Act tinyParcel (Fin 1)) :=
  Act.call solo (.write start [7]) :: List.replicate 9 (Act.go solo) ++
  List.replicate 2 (Act.go .main) ++ List.replicate 2 (Act.go .cleaner) ++
  List.replicate 15 (Act.go .main)

/-- A session in which nothing fails. -/
def sessionRun (start : Nat) : List (SessionAct tinyParcel (Fin 1)) :=
  [.prepare true, .mark true .ok, .mount true .ok] ++ (writeRun start).map .image ++ [.finish .ok]

/-- A byte of what is stored for chunk 0. -/
def storedByte (s : Session tinyParcel (Fin 1)) : Option UInt8 :=
  (s.image.store 0).map fun d => d ⟨0, tinyParcel.chunksize_pos⟩

/-- The chunk number of a position wraps: a write far behind the end of the disk is
acknowledged and carried out on chunk 0, and the session ends with a clear header. -/
theorem write_wraps : newCache.flags = ntohl newCache.file 12 ∧ Clear newCache ∧
    ∃ s, Base.Reach Session.step (fun _ _ => True)
      (Session.start (P := tinyParcel) (Fin 1) newCache 1 fun _ _ => 0) s ∧
      Clear s.cache ∧ ¬ Kept (fun _ _ => 0) s.image := by
  refine ⟨by decide +kernel, ⟨by decide +kernel, by decide +kernel⟩, ?_⟩
  have hrun : (Base.exec Session.step (fun _ _ => true)
      (Session.start (P := tinyParcel) (Fin 1) newCache 1 fun _ _ => 0)
      (sessionRun (2 ^ 32 * 512))).any (fun s => !flagged s.cache caDirty &&
        !flagged s.cache caDamaged && storedByte s == some 7 &&
        ackDisk (flat (P := tinyParcel) fun _ _ => 0) (fun _ => .nothing) s.image.hist 0 == 0)
        = true := by
    decide +kernel
  obtain ⟨s, hs, hchk⟩ := Base.reach_of_exec_any (D := fun _ _ => True) (fun _ _ _ => trivial) _
    hrun
  simp only [Bool.and_eq_true, Bool.not_eq_true', beq_iff_eq] at hchk
  obtain ⟨⟨⟨hdirty, hdamaged⟩, hbyte⟩, hack⟩ := hchk
  refine ⟨s, hs, ⟨hdirty, hdamaged⟩, fun hkept => ?_⟩
  simp only [storedByte, hkept 0, Option.map_some, Nat.zero_mul, Nat.zero_add, hack] at hbyte
  exact absurd hbyte (by decide)

/-- The same session with a write on the disk. -/
theorem clean_flag_kept_write : ∃ s, Base.Reach Session.step (fun s a => s.inRange a = true)
    (Session.start (P := tinyParcel) (Fin 1) newCache 1 fun _ _ => 0) s ∧
      s.phase = .ended ∧ storedByte s = some 7 ∧ Clear s.cache ∧ Kept (fun _ _ => 0) s.image := by
  have hrun : (Base.exec Session.step Session.inRange
      (Session.start (P := tinyParcel) (Fin 1) newCache 1 fun _ _ => 0)
      (sessionRun 0)).any (fun s => !flagged s.cache caDirty && !flagged s.cache caDamaged &&
        storedByte s == some 7 && s.phase == .ended) = true := by
    decide +kernel
  obtain ⟨s, hs, hchk⟩ := Base.reach_of_exec_any
    (D := fun (s : Session tinyParcel (Fin 1)) a => s.inRange a = true) (fun _ _ h => h) _ hrun
  simp only [Bool.and_eq_true, Bool.not_eq_true', beq_iff_eq] at hchk
  obtain ⟨⟨⟨hdirty, hdamaged⟩, hbyte⟩, hended⟩ := hchk
  have hkept := clean_flag_kept newCache 1 (fun _ _ => 0) (by decide +kernel)
    ⟨by decide +kernel, by decide +kernel⟩ hs ⟨hdirty, hdamaged⟩
  exact ⟨s, hs, hended, hbyte, ⟨hdirty, hdamaged⟩, hkept⟩

end session

end OpenIsr.Fuse
