import OpenIsr.Server.Store

/-!
# Committing an upload (srv_commit)

`srv_commit` makes the directory of the next version, moves all chunks there from the last version,
and then goes over the chunks that have been uploaded: the chunk that is to be replaced goes back
to the last version, and the new one takes its place. Any of these operations can fail, and then
the script ends.

The test of the nonce comes before all of this and is left out here; nothing keeps another script
from running in between. The directories of the upload are listed when the loop comes to them. No
operation before that changes them, so that the operations are the ones of `commitOps`.
-/

namespace OpenIsr.Server

open Base List

/-! ## The script -/

/-- The operations of `srv_commit` that can fail. -/
inductive Op
  /-- `mkdir($nextdir)`. -/
  | mkdirNext
  /-- `rename("$lastdir/hdk", "$nextdir/hdk")`. -/
  | moveHdk
  /-- `mkdir("$lastdir/hdk")`. -/
  | mkdirHdk
  /-- `rename("$cachedir/cfg.tgz.enc", …)`. -/
  | moveCfg
  /-- `rename("$cachedir/keyring.enc", …)`. -/
  | moveKeyring
  /-- `mkdir("$lastdir/hdk/$dirname")`. -/
  | mkdirDir (d : Name)
  /-- The chunk from next to last. -/
  | moveOut (d f : Name)
  /-- The chunk from the upload to next. -/
  | moveIn (d f : Name)
  /-- `unlink("$parceldir/last")`. -/
  | unlink
  /-- `symlink(…, "$parceldir/last")`. -/
  | symlink
  deriving DecidableEq, Repr

/-- What `srv_commit` works on: the link, the last version, the next one, and the upload. -/
structure Work where
  link : Option Nat
  last : VersionDir
  next : Option VersionDir
  cache : VersionDir

/-- `rename` of the file `d/f` from one `hdk` to another. -/
def renameFile (src dst : Hdk) (d f : Name) : Option (Hdk × Hdk) :=
  match src.lookup d, dst.lookup d with
  | some dir, some dir' =>
    match dir.lookup f with
    | some data => some (src.insert d (dir.erase f), dst.insert d (dir'.insert f data))
    | none => none
  | _, _ => none

/-- One operation; `none` if it fails. `n` is the number of the next version. -/
def applyOp (n : Nat) (w : Work) : Op → Option Work
  | .mkdirNext =>
    match w.next with
    | none => some { w with next := some ⟨none, none, none⟩ }
    | some _ => none
  | .moveHdk =>
    match w.next, w.last.hdk with
    | some ⟨cfg, keyring, none⟩, some h =>
      some { w with next := some ⟨cfg, keyring, some h⟩, last := { w.last with hdk := none } }
    | _, _ => none
  | .mkdirHdk =>
    match w.last.hdk with
    | none => some { w with last := { w.last with hdk := some ∅ } }
    | some _ => none
  | .moveCfg =>
    match w.next, w.cache.cfg with
    | some next, some cfg =>
      some { w with
        next := some { next with cfg := some cfg }
        cache := { w.cache with cfg := none } }
    | _, _ => none
  | .moveKeyring =>
    match w.next, w.cache.keyring with
    | some next, some keyring =>
      some { w with
        next := some { next with keyring := some keyring }
        cache := { w.cache with keyring := none } }
    | _, _ => none
  | .mkdirDir d =>
    match w.last.hdk with
    | some h =>
      if d ∈ h then none else some { w with last := { w.last with hdk := some (h.insert d ∅) } }
    | none => none
  | .moveOut d f =>
    match w.next, w.last.hdk with
    | some ⟨cfg, keyring, some h⟩, some h' =>
      (renameFile h h' d f).map fun (h, h') =>
        { w with next := some ⟨cfg, keyring, some h⟩, last := { w.last with hdk := some h' } }
    | _, _ => none
  | .moveIn d f =>
    match w.next, w.cache.hdk with
    | some ⟨cfg, keyring, some h⟩, some h' =>
      (renameFile h' h d f).map fun (h', h) =>
        { w with next := some ⟨cfg, keyring, some h⟩, cache := { w.cache with hdk := some h' } }
    | _, _ => none
  | .unlink =>
    match w.link with
    | some _ => some { w with link := none }
    | none => none
  | .symlink =>
    match w.link with
    | none => some { w with link := some n }
    | some _ => none

/-- `grep(!/^[\._]/, …)`. -/
def visible (f : Name) : Bool :=
  match f with
  | '.' :: _ => false
  | '_' :: _ => false
  | _ => true

/-- `sort grep(!/^[\._]/, readdir(DIR))`. -/
def visibleFiles (dir : Dir) : List Name := (dir.keys.filter visible).mergeSort (· ≤ ·)

/-- The operations for one directory of the upload. -/
def dirOps (h : Hdk) (d : Name) : List Op :=
  match h.lookup d with
  | none => []
  | some dir =>
    let files := visibleFiles dir
    (if files = [] then [] else [.mkdirDir d]) ++
      files.flatMap fun f => [.moveOut d f, .moveIn d f]

/-- The operations of `srv_commit` for an upload. -/
def commitOps (cfg : Cfg) (h : Hdk) : List Op :=
  [.mkdirNext, .moveHdk, .mkdirHdk, .moveCfg, .moveKeyring] ++
    (range (getNumdirs cfg)).flatMap (fun i => dirOps h (padded 4 i)) ++ [.unlink, .symlink]

/-- One after the other, until one fails, of itself or because `fails` says so: those that have been
done, the result, and whether it is all of them. -/
def runOps (n : Nat) (fails : Op → Bool) : List Op → Work → List Op × Work × Bool
  | [], w => ([], w, true)
  | op :: ops, w =>
    match if fails op then none else applyOp n w op with
    | none => ([], w, false)
    | some w =>
      let (done, w, ok) := runOps n fails ops w
      (op :: done, w, ok)

/-- How `srv_commit` ends: the operations that have been done, the parcel, and whether it has run to
completion. -/
structure Commit where
  done : List Op
  store : Store
  ok : Bool

/-- The parcel while `srv_commit` works on it. -/
def Work.store (s : Store) (w : Work) : Store where
  versions :=
    match w.next with
    | none => s.versions.insert s.lastver w.last
    | some next => (s.versions.insert s.lastver w.last).insert (s.lastver + 1) next
  last := w.link
  cache := some w.cache

/-- The files are present. -/
def VersionDir.present (v : VersionDir) : Bool := v.cfg.isSome && v.keyring.isSome && v.hdk.isSome

/-- `srv_commit` after the check of the nonce. -/
def srvCommit (cfg : Cfg) (fails : Op → Bool) (s : Store) : Commit :=
  match s.cache, s.versions.lookup s.lastver with
  | some cache, some last =>
    match cache.hdk with
    | none => ⟨[], s, false⟩
    | some h =>
      if !cache.present || !last.present then ⟨[], s, false⟩
      else
        let next := s.lastver + 1
        let (done, w, ok) := runOps next fails (commitOps cfg h)
          ⟨s.last, last, s.versions.lookup next, cache⟩
        -- rm -rf $parceldir/cache/*
        ⟨done, if ok then { w.store s with cache := none } else w.store s, ok⟩
  | _, _ => ⟨[], s, false⟩

/-! ## Operations -/

/-- The directory `d` under `hdk`. -/
def subdir (h : Option Hdk) (d : Name) : Option Dir := h.bind fun h => h.lookup d

theorem content_eq (h : Option Hdk) (d f : Name) :
    content h d f = (subdir h d).bind fun dir => dir.lookup f := rfl

theorem subdir_insert (h : Hdk) (d d' : Name) (dir : Dir) :
    subdir (some (h.insert d dir)) d' = if d' = d then some dir else subdir (some h) d' := by
  split
  next heq =>
    rw [heq]
    exact AList.lookup_insert h
  next hne => exact AList.lookup_insert_ne hne

theorem lookup_insert_file (dir : Dir) (f f' : Name) (data : List UInt8) :
    (dir.insert f data).lookup f' = if f' = f then some data else dir.lookup f' := by
  split
  next heq =>
    rw [heq]
    exact AList.lookup_insert dir
  next hne => exact AList.lookup_insert_ne hne

theorem lookup_erase_file (dir : Dir) (f f' : Name) :
    (dir.erase f).lookup f' = if f' = f then none else dir.lookup f' := by
  split
  next heq =>
    rw [heq]
    exact AList.lookup_erase f dir
  next hne => exact AList.lookup_erase_ne hne

/-- What `rename` of a file changes. -/
structure Renamed (src dst src' dst' : Hdk) (d f : Name) : Prop where
  data : (content (some src) d f).isSome
  gone : ∀ d' f', content (some src') d' f'
    = if d' = d ∧ f' = f then none else content (some src) d' f'
  put : ∀ d' f', content (some dst') d' f'
    = if d' = d ∧ f' = f then content (some src) d f else content (some dst) d' f'
  srcDirs : ∀ d', (subdir (some src') d').isSome = (subdir (some src) d').isSome
  dstDirs : ∀ d', (subdir (some dst') d').isSome = (subdir (some dst) d').isSome

theorem renameFile_some {src dst src' dst' : Hdk} {d f : Name}
    (h : renameFile src dst d f = some (src', dst')) : Renamed src dst src' dst' d f := by
  unfold renameFile at h
  split at h
  next dir dir' hdir hdir' =>
    split at h
    next data hdata =>
      obtain ⟨rfl, rfl⟩ := Prod.mk.inj (Option.some.inj h)
      have hsub : subdir (some src) d = some dir := hdir
      have hsub' : subdir (some dst) d = some dir' := hdir'
      have hcontent : content (some src) d f = some data := by
        rw [content_eq, hsub]
        exact hdata
      refine ⟨by rw [hcontent]; rfl, fun d' f' => ?_, fun d' f' => ?_, fun d' => ?_, fun d' => ?_⟩
      · rw [content_eq, subdir_insert, content_eq]
        by_cases hd : d' = d
        · rw [if_pos hd, hd, hsub]
          simp only [Option.bind_some, true_and, lookup_erase_file]
        · rw [if_neg hd, if_neg fun h => hd h.1]
      · rw [content_eq, subdir_insert, hcontent, content_eq]
        by_cases hd : d' = d
        · rw [if_pos hd, hd, hsub']
          simp only [Option.bind_some, true_and, lookup_insert_file]
        · rw [if_neg hd, if_neg fun h => hd h.1]
      · rw [subdir_insert]
        split
        next hd => rw [hd, hsub]; rfl
        next => rfl
      · rw [subdir_insert]
        split
        next hd => rw [hd, hsub']; rfl
        next => rfl
    next => cases h
  next => cases h

/-- The `hdk` of the next version. -/
def Work.nextHdk (w : Work) : Option Hdk := w.next.bind fun v => v.hdk

/-- What is where after the operations `done`. -/
structure Progress (n : Nat) (w₀ : Work) (done : List Op) (w : Work) : Prop where
  link : w.link = if .unlink ∈ done then (if .symlink ∈ done then some n else none) else w₀.link
  lastCfg : w.last.cfg = w₀.last.cfg
  lastKeyring : w.last.keyring = w₀.last.keyring
  next : w.next.isSome ↔ .mkdirNext ∈ done
  nextCfg : .moveCfg ∈ done → (w.next.bind fun v => v.cfg) = w₀.cache.cfg
  nextKeyring : .moveKeyring ∈ done → (w.next.bind fun v => v.keyring) = w₀.cache.keyring
  cacheCfg : .moveCfg ∉ done → w.cache.cfg = w₀.cache.cfg
  cacheKeyring : .moveKeyring ∉ done → w.cache.keyring = w₀.cache.keyring
  lastSame : .moveHdk ∉ done → w.last.hdk = w₀.last.hdk
  lastHdk : w.last.hdk.isSome ↔ .moveHdk ∉ done ∨ .mkdirHdk ∈ done
  nextHdk : w.nextHdk.isSome ↔ .moveHdk ∈ done
  lastContent : ∀ d f, content w.last.hdk d f
    = if .moveHdk ∈ done ∧ .moveOut d f ∉ done then none else content w₀.last.hdk d f
  nextContent : ∀ d f, content w.nextHdk d f
    = if .moveIn d f ∈ done then content w₀.cache.hdk d f
      else if .moveHdk ∈ done ∧ .moveOut d f ∉ done then content w₀.last.hdk d f else none
  cacheContent : ∀ d f, content w.cache.hdk d f
    = if .moveIn d f ∈ done then none else content w₀.cache.hdk d f
  lastDirs : .mkdirHdk ∈ done → ∀ d, (subdir w.last.hdk d).isSome ↔ .mkdirDir d ∈ done
  nextDirs : .moveHdk ∈ done → ∀ d, (subdir w.nextHdk d).isSome = (subdir w₀.last.hdk d).isSome
  cacheDirs : ∀ d, (subdir w.cache.hdk d).isSome = (subdir w₀.cache.hdk d).isSome
  moved : ∀ d f, .moveOut d f ∈ done → (content w₀.last.hdk d f).isSome

/-- What is done before an operation. -/
def Fits (done : List Op) : Op → Prop
  | .mkdirNext => True
  | .moveHdk => .mkdirHdk ∉ done ∧ ∀ d f, .moveOut d f ∉ done ∧ .moveIn d f ∉ done
  | .mkdirHdk => .moveHdk ∈ done ∧ ∀ d, .mkdirDir d ∉ done ∧ ∀ f, .moveOut d f ∉ done
  | .moveCfg => .moveCfg ∉ done
  | .moveKeyring => .moveKeyring ∉ done
  | .mkdirDir _ => .mkdirHdk ∈ done ∧ .moveHdk ∈ done
  | .moveOut d f => .moveHdk ∈ done ∧ .moveOut d f ∉ done ∧ .moveIn d f ∉ done
  | .moveIn d f => .moveOut d f ∈ done ∧ .moveIn d f ∉ done
  | .unlink => .symlink ∉ done
  | .symlink => .unlink ∈ done

section progress

variable {n : Nat} {w₀ w w' : Work} {done : List Op} {op : Op}

theorem Progress.nil (n : Nat) (w₀ : Work) (hnext : w₀.next = none) (hhdk : w₀.last.hdk.isSome) :
    Progress n w₀ [] w₀ := by
  have hnextHdk : w₀.nextHdk = none := by rw [Work.nextHdk, hnext]; rfl
  refine ⟨rfl, rfl, rfl, ?_, nofun, nofun, fun _ => rfl, fun _ => rfl, fun _ => rfl, ?_, ?_,
    fun d f => ?_,
    fun d f => ?_, fun d f => ?_, nofun, nofun, fun d => rfl, nofun⟩
  · simp [hnext]
  · simp [hhdk]
  · simp [hnextHdk]
  · simp
  · simp [hnextHdk, content]
  · simp

theorem Progress.step (h : Progress n w₀ done w) (hop : applyOp n w op = some w')
    (hfits : Fits done op) : Progress n w₀ (done ++ [op]) w' := by
  obtain ⟨hlink, hlastCfg, hlastKeyring, hnext, hnextCfg, hnextKeyring, hcacheCfg, hcacheKeyring,
    hlastSame, hlastHdk, hnextHdk, hlast, hnextC, hcache, hlastDirs, hnextDirs, hcacheDirs,
    hdone⟩ := h
  cases op with
  | mkdirNext =>
    dsimp only [applyOp] at hop
    split at hop
    next hnone =>
      cases hop
      have hnone' : w.nextHdk = none := by rw [Work.nextHdk, hnone]; rfl
      rw [hnone] at hnextCfg hnextKeyring
      rw [hnone'] at hnextHdk
      simp only [hnone'] at hnextC hnextDirs
      constructor <;>
        simp only [mem_append, mem_singleton, reduceCtorEq, or_false, or_true] <;>
        try assumption
      case next => exact iff_of_true rfl trivial
    next => cases hop
  | moveHdk =>
    dsimp only [applyOp] at hop
    split at hop
    next cfg keyring h hw hh =>
      cases hop
      obtain ⟨hmk, hmoves⟩ := hfits
      have hno : .moveHdk ∉ done := by
        rw [← hnextHdk, Work.nextHdk, hw]
        exact Bool.false_ne_true
      rw [hw] at hnext hnextCfg hnextKeyring
      have hout : ∀ d f, .moveOut d f ∉ done := fun d f => (hmoves d f).1
      have hin : ∀ d f, .moveIn d f ∉ done := fun d f => (hmoves d f).2
      have hsame : some h = w₀.last.hdk := hh.symm.trans (hlastSame hno)
      simp only [hout] at hdone
      simp only [hin, if_false] at hcache
      constructor <;>
        simp only [mem_append, mem_singleton, reduceCtorEq, or_false, or_true,
          not_true_eq_false, hmk, true_and, hout, hin, not_false_eq_true, if_true, if_false] <;>
        try assumption
      case lastHdk => exact iff_of_false nofun id
      case nextHdk => exact iff_of_true rfl trivial
      case lastSame => exact nofun
      case lastContent => exact fun _ _ => rfl
      case nextContent => exact fun d f => congrArg (fun h => content h d f) hsame
      case lastDirs => exact nofun
      case nextDirs => exact fun _ d => congrArg (fun h => (subdir h d).isSome) hsame
    next => cases hop
  | mkdirHdk =>
    dsimp only [applyOp] at hop
    split at hop
    next hnone =>
      cases hop
      obtain ⟨hmk, hmoves⟩ := hfits
      have hout : ∀ d f, .moveOut d f ∉ done := fun d f => (hmoves d).2 f
      have hdir : ∀ d, .mkdirDir d ∉ done := fun d => (hmoves d).1
      constructor <;>
        simp only [mem_append, mem_singleton, reduceCtorEq, or_false, or_true] <;>
        try assumption
      case lastSame => exact fun h => absurd hmk h
      case lastHdk => exact iff_of_true rfl trivial
      case lastContent => exact fun d f => (if_pos ⟨hmk, hout d f⟩).symm
      case lastDirs => exact fun _ d => iff_of_false nofun (hdir d)
    next => cases hop
  | moveCfg =>
    dsimp only [applyOp] at hop
    split at hop
    next next cfg hw hcfg =>
      cases hop
      have hno : .moveCfg ∉ done := hfits
      have hnextHdk' : w.nextHdk = next.hdk := by rw [Work.nextHdk, hw]; rfl
      rw [hnextHdk'] at hnextHdk
      simp only [hnextHdk'] at hnextC hnextDirs
      rw [hw] at hnext hnextKeyring
      constructor <;>
        simp only [mem_append, mem_singleton, reduceCtorEq, or_false, or_true] <;>
        try assumption
      case nextCfg => exact fun _ => hcfg.symm.trans (hcacheCfg hno)
      case cacheCfg => exact fun h => absurd trivial h
    next => cases hop
  | moveKeyring =>
    dsimp only [applyOp] at hop
    split at hop
    next next keyring hw hkeyring =>
      cases hop
      have hno : .moveKeyring ∉ done := hfits
      have hnextHdk' : w.nextHdk = next.hdk := by rw [Work.nextHdk, hw]; rfl
      rw [hnextHdk'] at hnextHdk
      simp only [hnextHdk'] at hnextC hnextDirs
      rw [hw] at hnext hnextCfg
      constructor <;>
        simp only [mem_append, mem_singleton, reduceCtorEq, or_false, or_true] <;>
        try assumption
      case nextKeyring => exact fun _ => hkeyring.symm.trans (hcacheKeyring hno)
      case cacheKeyring => exact fun h => absurd trivial h
    next => cases hop
  | mkdirDir d =>
    dsimp only [applyOp] at hop
    split at hop
    next h hh =>
      split at hop
      next => cases hop
      next hnew =>
        cases hop
        obtain ⟨hmk, hmoved⟩ := hfits
        rw [hh] at hlastHdk hlastDirs
        simp only [hh] at hlast
        constructor <;>
          simp only [mem_append, mem_singleton, reduceCtorEq, or_false, Op.mkdirDir.injEq] <;>
          try assumption
        case lastSame => exact fun h => absurd hmoved h
        case lastContent =>
          intro d' f'
          rw [← hlast d' f', content_eq, content_eq, subdir_insert]
          split
          next heq =>
            have hnone : subdir (some h) d' = none := by
              rw [heq]
              exact AList.lookup_eq_none.mpr hnew
            rw [hnone]
            rfl
          next => rfl
        case lastDirs =>
          intro _ d'
          rw [subdir_insert]
          split
          next heq => exact iff_of_true rfl (.inr heq)
          next hne => rw [hlastDirs hmk d', or_iff_left hne]
    next => cases hop
  | moveOut d f =>
    dsimp only [applyOp] at hop
    split at hop
    next cfg keyring h h' hw hh =>
      obtain ⟨⟨h₁, h₁'⟩, hrename, rfl⟩ := Option.map_eq_some_iff.mp hop
      obtain ⟨hmoved, hout, hin⟩ := hfits
      obtain ⟨hdata, hgone, hput, hsrcDirs, hdstDirs⟩ := renameFile_some hrename
      have hnext' : w.nextHdk = some h := by rw [Work.nextHdk, hw]; rfl
      rw [hnext'] at hnextHdk
      simp only [hnext'] at hnextC hnextDirs
      simp only [hh] at hlast hlastDirs
      rw [hh] at hlastHdk
      rw [hw] at hnext hnextCfg hnextKeyring
      have hold : content (some h) d f = content w₀.last.hdk d f := by
        rw [hnextC, if_neg hin, if_pos ⟨hmoved, hout⟩]
      constructor <;>
        simp only [mem_append, mem_singleton, reduceCtorEq, or_false, Op.moveOut.injEq] <;>
        try assumption
      case lastSame => exact fun h => absurd hmoved h
      case lastContent =>
        intro d' f'
        rw [hput]
        by_cases heq : d' = d ∧ f' = f
        · rw [if_pos heq, if_neg fun hno => hno.2 (.inr heq), heq.1, heq.2, hold]
        · simp only [heq, if_false, or_false, hlast]
      case nextContent =>
        intro d' f'
        refine (hgone d' f').trans ?_
        by_cases heq : d' = d ∧ f' = f
        · rw [if_pos heq, heq.1, heq.2, if_neg hin, if_neg fun hno => hno.2 (.inr ⟨rfl, rfl⟩)]
        · simp only [heq, if_false, or_false, hnextC]
      case lastDirs => exact fun hmk d' => (hdstDirs d').symm ▸ hlastDirs hmk d'
      case nextDirs => exact fun hmk d' => (hsrcDirs d').trans (hnextDirs hmk d')
      case moved =>
        rintro d' f' (hmem | ⟨rfl, rfl⟩)
        · exact hdone d' f' hmem
        · exact hold ▸ hdata
    next => cases hop
  | moveIn d f =>
    dsimp only [applyOp] at hop
    split at hop
    next cfg keyring h h' hw hh =>
      obtain ⟨⟨h₁', h₁⟩, hrename, rfl⟩ := Option.map_eq_some_iff.mp hop
      obtain ⟨hout, hin⟩ := hfits
      obtain ⟨hdata, hgone, hput, hsrcDirs, hdstDirs⟩ := renameFile_some hrename
      have hnext' : w.nextHdk = some h := by rw [Work.nextHdk, hw]; rfl
      rw [hnext'] at hnextHdk
      simp only [hnext'] at hnextC hnextDirs
      simp only [hh] at hcache hcacheDirs
      rw [hw] at hnext hnextCfg hnextKeyring
      have hold : content (some h') d f = content w₀.cache.hdk d f := by
        rw [hcache, if_neg hin]
      constructor <;>
        simp only [mem_append, mem_singleton, reduceCtorEq, or_false, Op.moveIn.injEq] <;>
        try assumption
      case nextContent =>
        intro d' f'
        refine (hput d' f').trans ?_
        by_cases heq : d' = d ∧ f' = f
        · rw [if_pos heq, if_pos (.inr heq), heq.1, heq.2, hold]
        · simp only [heq, if_false, or_false, hnextC]
      case cacheContent =>
        intro d' f'
        rw [hgone]
        by_cases heq : d' = d ∧ f' = f
        · rw [if_pos heq, if_pos (.inr heq)]
        · simp only [heq, if_false, or_false, hcache]
      case nextDirs => exact fun hmk d' => (hdstDirs d').trans (hnextDirs hmk d')
      case cacheDirs => exact fun d' => (hsrcDirs d').trans (hcacheDirs d')
    next => cases hop
  | unlink =>
    dsimp only [applyOp] at hop
    split at hop
    next =>
      cases hop
      constructor <;>
        simp only [mem_append, mem_singleton, reduceCtorEq, or_false, or_true, if_true] <;>
        first | assumption | exact (if_neg hfits).symm
    next => cases hop
  | symlink =>
    dsimp only [applyOp] at hop
    split at hop
    next =>
      cases hop
      have hdone : .unlink ∈ done := hfits
      constructor <;>
        simp only [mem_append, mem_singleton, reduceCtorEq, or_false, or_true, if_true] <;>
        first | assumption | exact (if_pos hdone).symm
    next => cases hop

end progress

/-! ## Their order -/

/-- The file `d/f` of the upload is one that the loop comes to. -/
def Uploaded (cfg : Cfg) (h : Hdk) (d f : Name) : Prop :=
  (∃ i < getNumdirs cfg, d = padded 4 i) ∧ ∃ dir, h.lookup d = some dir ∧ f ∈ dir ∧ visible f = true

section order

variable {cfg : Cfg} {h : Hdk} {d f : Name}

theorem mem_visibleFiles {dir : Dir} : f ∈ visibleFiles dir ↔ f ∈ dir ∧ visible f = true := by
  rw [visibleFiles, mem_mergeSort, mem_filter, AList.mem_keys]

theorem nodup_visibleFiles (dir : Dir) : (visibleFiles dir).Nodup := by
  rw [visibleFiles, (mergeSort_perm _ _).nodup_iff]
  exact dir.keys_nodup.filter _

theorem mem_dirOps {op : Op} :
    op ∈ dirOps h d ↔ ∃ f, (∃ dir, h.lookup d = some dir ∧ f ∈ dir ∧ visible f = true) ∧
      (op = .mkdirDir d ∨ op = .moveOut d f ∨ op = .moveIn d f) := by
  unfold dirOps
  cases h.lookup d with
  | none => exact iff_of_false (not_mem_nil) fun ⟨_, ⟨_, h, _⟩, _⟩ => nomatch h
  | some dir =>
    simp only [mem_append, mem_flatMap, mem_visibleFiles, mem_cons, not_mem_nil,
      or_false, Option.some.injEq, exists_eq_left']
    constructor
    · rintro (hmk | ⟨f, hf, hop⟩)
      · split at hmk
        next => cases hmk
        next hne =>
          obtain ⟨f, hf⟩ := exists_mem_of_ne_nil _ hne
          exact ⟨f, mem_visibleFiles.mp hf, .inl (mem_singleton.mp hmk)⟩
      · exact ⟨f, hf, .inr hop⟩
    · rintro ⟨f, hf, rfl | hop⟩
      · rw [if_neg (ne_nil_of_mem (mem_visibleFiles.mpr hf))]
        exact .inl (mem_singleton.mpr rfl)
      · exact .inr ⟨f, hf, hop⟩

theorem mem_commitOps {op : Op} :
    op ∈ commitOps cfg h ↔
      op ∈ [.mkdirNext, .moveHdk, .mkdirHdk, .moveCfg, .moveKeyring, .unlink, .symlink] ∨
      ∃ d f, Uploaded cfg h d f ∧ (op = .mkdirDir d ∨ op = .moveOut d f ∨ op = .moveIn d f) := by
  have hmid : op ∈ (range (getNumdirs cfg)).flatMap (fun i => dirOps h (padded 4 i)) ↔
      ∃ d f, Uploaded cfg h d f ∧ (op = .mkdirDir d ∨ op = .moveOut d f ∨ op = .moveIn d f) := by
    simp only [mem_flatMap, mem_range, mem_dirOps]
    constructor
    · rintro ⟨i, hi, f, hf, hop⟩
      exact ⟨padded 4 i, f, ⟨⟨i, hi, rfl⟩, hf⟩, hop⟩
    · rintro ⟨d, f, ⟨⟨i, hi, rfl⟩, hf⟩, hop⟩
      exact ⟨i, hi, f, hf, hop⟩
  rw [commitOps, mem_append, mem_append, hmid, or_right_comm, ← mem_append]
  rfl

/-- Operations in their order. -/
def Op.rank : Op → Nat
  | .mkdirNext => 0
  | .moveHdk => 1
  | .mkdirHdk => 2
  | .moveCfg => 3
  | .moveKeyring => 4
  | .mkdirDir _ | .moveOut _ _ | .moveIn _ _ => 5
  | .unlink => 6
  | .symlink => 7

/-- `a` may stand before `b`. -/
def InOrder (a b : Op) : Prop :=
  a ≠ b ∧ a.rank ≤ b.rank ∧ (∀ d f, a = .moveIn d f → b ≠ .moveOut d f) ∧
    ∀ d f, a = .moveOut d f → b ≠ .mkdirDir d

theorem inOrder_of_rank {a b : Op} (h : a.rank < b.rank) : InOrder a b := by
  refine ⟨?_, h.le, ?_, ?_⟩
  · rintro rfl
    exact lt_irrefl _ h
  · rintro d f rfl rfl
    exact lt_irrefl _ h
  · rintro d f rfl rfl
    exact lt_irrefl _ h

theorem rank_of_mem_dirOps {op : Op} (hop : op ∈ dirOps h d) : op.rank = 5 := by
  obtain ⟨f, -, rfl | rfl | rfl⟩ := mem_dirOps.mp hop <;> rfl

theorem pairwise_dirOps (h : Hdk) (d : Name) : (dirOps h d).Pairwise InOrder := by
  unfold dirOps
  split
  next => exact .nil
  next dir _ =>
    refine pairwise_append.mpr ⟨?_, ?_, ?_⟩
    · split
      next => exact .nil
      next => exact pairwise_singleton ..
    · refine pairwise_flatMap.mpr ⟨fun f _ => ?_, ?_⟩
      · refine pairwise_pair.mpr ⟨nofun, le_rfl, nofun, nofun⟩
      · refine (nodup_visibleFiles dir).imp fun hne x hx y hy => ?_
        simp only [mem_cons, not_mem_nil, or_false] at hx hy
        rcases hx with rfl | rfl <;> rcases hy with rfl | rfl <;>
          simp [InOrder, Op.rank, hne, hne.symm]
    · intro x hx y hy
      split at hx
      next => cases hx
      obtain rfl := mem_singleton.mp hx
      obtain ⟨f, -, hy⟩ := mem_flatMap.mp hy
      simp only [mem_cons, not_mem_nil, or_false] at hy
      rcases hy with rfl | rfl <;> simp [InOrder, Op.rank]

theorem pairwise_commitOps (cfg : Cfg) (h : Hdk) : (commitOps cfg h).Pairwise InOrder := by
  have hrank : ∀ op ∈ (range (getNumdirs cfg)).flatMap (fun i => dirOps h (padded 4 i)),
      op.rank = 5 := by
    intro op hop
    obtain ⟨i, -, hop⟩ := mem_flatMap.mp hop
    exact rank_of_mem_dirOps hop
  refine pairwise_append.mpr ⟨pairwise_append.mpr ⟨?_, ?_, ?_⟩, ?_, ?_⟩
  · simp [InOrder, Op.rank]
  · refine pairwise_flatMap.mpr ⟨fun i _ => pairwise_dirOps h _, ?_⟩
    refine nodup_range.imp fun {i j} hne x hx y hy => ?_
    have hdir : padded 4 i ≠ padded 4 j := fun h => hne (padded_injective 4 h)
    obtain ⟨f, -, hx⟩ := mem_dirOps.mp hx
    obtain ⟨f', -, hy⟩ := mem_dirOps.mp hy
    rcases hx with rfl | rfl | rfl <;> rcases hy with rfl | rfl | rfl <;>
      simp [InOrder, Op.rank, hdir, hdir.symm]
  · intro x hx y hy
    refine inOrder_of_rank ?_
    rw [hrank y hy]
    simp only [mem_cons, not_mem_nil, or_false] at hx
    rcases hx with rfl | rfl | rfl | rfl | rfl <;> decide
  · simp [InOrder, Op.rank]
  · intro x hx y hy
    refine inOrder_of_rank ?_
    simp only [mem_cons, not_mem_nil, or_false] at hy
    rcases mem_append.mp hx with hx | hx
    · simp only [mem_cons, not_mem_nil, or_false] at hx
      rcases hx with rfl | rfl | rfl | rfl | rfl <;> rcases hy with rfl | rfl <;> decide
    · rw [hrank x hx]
      rcases hy with rfl | rfl <;> decide

section split

variable {op x : Op} {done rest : List Op} (hops : commitOps cfg h = done ++ op :: rest)
include hops

theorem inOrder_done : ∀ x ∈ done, InOrder x op := by
  have hpair := pairwise_commitOps cfg h
  rw [hops] at hpair
  exact fun x hx => (pairwise_append.mp hpair).2.2 x hx op mem_cons_self

theorem mem_done (hx : x ∈ commitOps cfg h) (hne : x ≠ op) (hno : ¬ InOrder op x) : x ∈ done := by
  have hpair := pairwise_commitOps cfg h
  rw [hops] at hpair hx
  rcases mem_append.mp hx with hx | hx
  · exact hx
  · rcases mem_cons.mp hx with rfl | hx
    · exact absurd rfl hne
    · exact absurd (rel_of_pairwise_cons (pairwise_append.mp hpair).2.1 hx) hno

theorem mem_done_of_rank (hx : x ∈ commitOps cfg h) (hlt : x.rank < op.rank) : x ∈ done := by
  refine mem_done hops hx ?_ fun hle => absurd hle.2.1 (not_le.mpr hlt)
  rintro rfl
  exact lt_irrefl _ hlt

theorem notMem_done_of_rank (hlt : op.rank < x.rank) : x ∉ done :=
  fun hx => absurd (inOrder_done hops x hx).2.1 (not_le.mpr hlt)

theorem notMem_done : op ∉ done := fun hx => (inOrder_done hops op hx).1 rfl

theorem fits_of_split : Fits done op := by
  have hop : op ∈ commitOps cfg h := by
    rw [hops]
    exact mem_append_right _ mem_cons_self
  have hfixed : ∀ x ∈ [.mkdirNext, .moveHdk, .mkdirHdk, .moveCfg, .moveKeyring, .unlink, .symlink],
      x ∈ commitOps cfg h := fun x hx => mem_commitOps.mpr (.inl hx)
  cases op with
  | mkdirNext => exact trivial
  | moveHdk =>
    exact ⟨notMem_done_of_rank hops (by decide), fun d f =>
      ⟨notMem_done_of_rank hops (by simp [Op.rank]), notMem_done_of_rank hops (by simp [Op.rank])⟩⟩
  | mkdirHdk =>
    exact ⟨mem_done_of_rank hops (hfixed .moveHdk (by decide)) (by decide), fun d =>
      ⟨notMem_done_of_rank hops (by simp [Op.rank]), fun f =>
        notMem_done_of_rank hops (by simp [Op.rank])⟩⟩
  | moveCfg | moveKeyring => exact notMem_done hops
  | mkdirDir d =>
    exact ⟨mem_done_of_rank hops (hfixed .mkdirHdk (by decide)) (by simp [Op.rank]),
      mem_done_of_rank hops (hfixed .moveHdk (by decide)) (by simp [Op.rank])⟩
  | moveOut d f =>
    refine ⟨mem_done_of_rank hops (hfixed .moveHdk (by decide)) (by simp [Op.rank]),
      notMem_done hops, fun hin => ?_⟩
    exact (inOrder_done hops _ hin).2.2.1 d f rfl rfl
  | moveIn d f =>
    refine ⟨mem_done hops ?_ nofun fun hno => hno.2.2.1 d f rfl rfl, notMem_done hops⟩
    rcases mem_commitOps.mp hop with hop | ⟨d', f', hup, hop⟩
    · simp at hop
    · obtain ⟨rfl, rfl⟩ : d = d' ∧ f = f' := by simpa using hop
      exact mem_commitOps.mpr (.inr ⟨d, f, hup, .inr (.inl rfl)⟩)
  | unlink => exact notMem_done_of_rank hops (by decide)
  | symlink => exact mem_done_of_rank hops (hfixed .unlink (by decide)) (by decide)

end split

end order

end OpenIsr.Server
