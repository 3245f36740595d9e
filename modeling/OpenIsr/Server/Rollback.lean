import Mathlib.Data.List.TakeWhile
import OpenIsr.Base.First
import OpenIsr.Server.AllOrNothing

/-!
# Older versions (srv_rollback, isr_admin prune)

`srv_rollback` makes an upload out of an older version, from which it then commits a new version. It
goes over the versions from that one on to the last, and copies the files that it finds, unless the
upload has them already or their tags are those of the last version. `prune` removes the oldest
versions.

What the loops of `srv_rollback` have copied is `chunk_rollbackLoop`.
-/

namespace OpenIsr.Server

open Base List

/-! ## The scripts -/

/-- `/^\d+$/`, which a newline at the end does not prevent from matching. -/
def numeric (f : Name) : Bool :=
  let digits := if f.getLast? = some '\n' then f.dropLast else f
  !digits.isEmpty && digits.all Char.isDigit

/-- `sort grep(/^\d+$/, readdir(DIR))`. -/
def numericNames (names : List Name) : List Name := (names.filter numeric).mergeSort (· ≤ ·)

/-- `get_offset`, for names that are numbers. -/
def getOffset (cfg : Cfg) (chunkdir chunk : Name) : Nat :=
  value (chunkdir.takeWhile Char.isDigit) * cfg.chunksperdir + value (chunk.takeWhile Char.isDigit)

/-- One file: the directory is made if it does not exist, and the file is copied unless it exists or
has not changed. -/
def copyChunk (cfg : Cfg) (tagdiffs : Int → Bool) (chunkdir chunk : Name) (data : List UInt8)
    (cache : Hdk) : Hdk :=
  let dir := (cache.lookup chunkdir).getD ∅
  cache.insert chunkdir <|
    if chunk ∉ dir ∧ tagdiffs (getOffset cfg chunkdir chunk) = true then dir.insert chunk data
    else dir

/-- The files of one directory. -/
def copyDir (cfg : Cfg) (tagdiffs : Int → Bool) (chunkdir : Name) (dir : Dir) (cache : Hdk) : Hdk :=
  (numericNames dir.keys).foldl
    (fun cache f => copyChunk cfg tagdiffs chunkdir f ((dir.lookup f).getD []) cache) cache

/-- The directories of one version. -/
def copyVersion (cfg : Cfg) (tagdiffs : Int → Bool) (hdk cache : Hdk) : Hdk :=
  (numericNames hdk.keys).foldl
    (fun cache d => copyDir cfg tagdiffs d ((hdk.lookup d).getD ∅) cache) cache

/-- What is under `hdk` in a version. -/
def Store.hdkOf (s : Store) (v : Nat) : Option Hdk := (s.versions.lookup v).bind VersionDir.hdk

/-- The main loop nest: what has been copied, and whether it has run to completion. -/
def rollbackLoop (cfg : Cfg) (tagdiffs : Int → Bool) (s : Store) : List Nat → Hdk → Hdk × Bool
  | [], cache => (cache, true)
  | version :: versions, cache =>
    match s.hdkOf version with
    | none => (cache, false)
    | some hdk => rollbackLoop cfg tagdiffs s versions (copyVersion cfg tagdiffs hdk cache)

structure Rollback where
  store : Store
  ok : Bool

/-- `srv_rollback`, after it has got the lock. -/
def srvRollback (cfg : Cfg) (s : Store) (targetver : Nat) : Rollback :=
  if targetver < 1 then ⟨s, false⟩
  else
    match s.versions.lookup targetver with
    | none => ⟨s, false⟩
    | some target =>
      if targetver = s.lastver then ⟨s, true⟩
      else
        match target.keyring, (s.versions.lookup s.lastver).bind VersionDir.keyring with
        | some (some targetkeyring), some (some lastkeyring) =>
          let (hdk, ok) := rollbackLoop cfg (keydiff targetkeyring lastkeyring) s
            (List.range' targetver (s.lastver - targetver)) ∅
          if ok = false ∨ target.cfg = none then
            ⟨{ s with cache := some ⟨none, none, some hdk⟩ }, false⟩
          else
            let c := srvCommit cfg (fun _ => false)
              { s with cache := some ⟨target.cfg, target.keyring, some hdk⟩ }
            ⟨c.store, c.ok⟩
        | _, _ => ⟨s, false⟩

/-- `int((sort grep(/^\d+$/, readdir(DIR)))[0])`. -/
def Store.firstver (s : Store) : Nat := ((s.versions.keys.map verName).min?.map value).getD 0

/-- `prune`, with the reply to its question. -/
def prune (s : Store) (retain : Int) (reply : Bool) : Store :=
  if retain < 1 then s
  else
    let lastvertoprune : Int := s.lastver - retain
    if lastvertoprune < s.firstver then s
    else if reply then
      { s with
        versions := (List.range' s.firstver (lastvertoprune.toNat + 1 - s.firstver)).foldl
          (fun versions i => versions.erase i) s.versions }
    else s

/-! ## The names of chunks -/

section names

variable {cfg : Cfg}

theorem mem_numericNames {names : List Name} {f : Name} :
    f ∈ numericNames names ↔ f ∈ names ∧ numeric f = true := by
  rw [numericNames, mem_mergeSort, mem_filter]

theorem numeric_padded {w : Nat} (hw : 0 < w) (n : Nat) : numeric (padded w n) = true := by
  have hlast : (padded w n).getLast? ≠ some '\n' := fun h =>
    absurd (isDigit_of_mem_padded (mem_of_getLast? h)) (by decide)
  rw [numeric, if_neg hlast, Bool.and_eq_true, Bool.not_eq_true', isEmpty_eq_false_iff, all_eq_true]
  exact ⟨padded_ne_nil hw n, fun c hc => isDigit_of_mem_padded hc⟩

theorem takeWhile_padded (w n : Nat) : (padded w n).takeWhile Char.isDigit = padded w n :=
  takeWhile_eq_self_iff.mpr fun _ hc => isDigit_of_mem_padded hc

theorem getOffset_chunk (cfg : Cfg) (c : Nat) :
    getOffset cfg (chunkDir cfg c) (chunkFile cfg c) = c := by
  rw [getOffset, chunkDir, chunkFile, takeWhile_padded, takeWhile_padded, value_padded,
    value_padded, Nat.mul_comm, Nat.div_add_mod]

end names

/-! ## What is copied -/

section copy

variable {cfg : Cfg} {tagdiffs : Int → Bool} {s : Store}

/-- The file may be copied. -/
def Copied (cfg : Cfg) (tagdiffs : Int → Bool) (d f : Name) : Prop :=
  numeric d = true ∧ numeric f = true ∧ tagdiffs (getOffset cfg d f) = true

instance (d f : Name) : Decidable (Copied cfg tagdiffs d f) := by unfold Copied; infer_instance

theorem content_copyChunk (d f d' f' : Name) (data : List UInt8) (cache : Hdk) :
    content (some (copyChunk cfg tagdiffs d f data cache)) d' f'
      = (content (some cache) d' f').or
          (if d' = d ∧ f' = f ∧ tagdiffs (getOffset cfg d f) = true then some data else none) := by
  rw [content_eq, content_eq, copyChunk, subdir_insert]
  by_cases hd : d' = d
  · subst hd
    have hdir : ((cache.lookup d').getD ∅).lookup f'
        = (subdir (some cache) d').bind fun dir => dir.lookup f' := by
      rw [subdir, Option.bind_some]
      cases cache.lookup d' <;> rfl
    rw [if_pos rfl, Option.bind_some, ← hdir]
    by_cases hf : f' = f
    · subst hf
      split
      next hcopy =>
        rw [AList.lookup_insert, AList.lookup_eq_none.mpr hcopy.1, if_pos ⟨rfl, rfl, hcopy.2⟩]
        rfl
      next hno =>
        by_cases hmem : f' ∈ (cache.lookup d').getD ∅
        · obtain ⟨data', hdata'⟩ := Option.isSome_iff_exists.mp (AList.lookup_isSome.mpr hmem)
          rw [hdata']
          rfl
        · rw [if_neg fun h => hno ⟨hmem, h.2.2⟩, Option.or_none]
    · have hkeep : (if f ∉ (cache.lookup d').getD ∅ ∧ tagdiffs (getOffset cfg d' f) = true
          then ((cache.lookup d').getD ∅).insert f data else (cache.lookup d').getD ∅).lookup f'
          = ((cache.lookup d').getD ∅).lookup f' := by
        split
        next => exact AList.lookup_insert_ne hf
        next => rfl
      rw [hkeep, if_neg fun h => hf h.2.1, Option.or_none]
  · rw [if_neg hd, if_neg fun h => hd h.1, Option.or_none]

theorem content_copyDir (d d' f' : Name) (dir : Dir) (cache : Hdk) :
    content (some (copyDir cfg tagdiffs d dir cache)) d' f'
      = (content (some cache) d' f').or
          (if d' = d ∧ numeric f' = true ∧ tagdiffs (getOffset cfg d f') = true
            then dir.lookup f' else none) := by
  rw [copyDir, foldl_or (fun cache => content (some cache) d' f') _ _ fun cache f =>
    content_copyChunk d f d' f' _ cache,
      findSome?_single f' fun f hf => if_neg fun h => hf h.2.1.symm]
  congr 1
  simp only [mem_numericNames, ← AList.mem_keys]
  by_cases hmem : f' ∈ dir
  · obtain ⟨data, hdata⟩ := Option.isSome_iff_exists.mp (AList.lookup_isSome.mpr hmem)
    simp only [hmem, true_and, hdata, Option.getD_some, ← ite_and, and_left_comm]
  · simp only [hmem, false_and, if_false, AList.lookup_eq_none.mpr hmem, ite_self]

theorem content_copyVersion (hdk cache : Hdk) (d f : Name) :
    content (some (copyVersion cfg tagdiffs hdk cache)) d f
      = (content (some cache) d f).or
          (if Copied cfg tagdiffs d f then content (some hdk) d f else none) := by
  rw [copyVersion, foldl_or (fun cache => content (some cache) d f) _ _ fun cache d' =>
    content_copyDir d' d f _ cache, findSome?_single d fun d' hd => if_neg fun h => hd h.1.symm]
  congr 1
  simp only [mem_numericNames, ← AList.mem_keys, Copied]
  by_cases hmem : d ∈ hdk
  · obtain ⟨dir, hdir⟩ := Option.isSome_iff_exists.mp (AList.lookup_isSome.mpr hmem)
    simp only [content, hmem, true_and, hdir, Option.getD_some, Option.bind_some, ← ite_and]
  · simp only [content, hmem, false_and, if_false, Option.bind_some, AList.lookup_eq_none.mpr hmem,
      Option.bind_none, ite_self]

theorem content_rollbackLoop {versions : List Nat} (cache : Hdk)
    (hhdk : ∀ v ∈ versions, (s.hdkOf v).isSome) :
    ∃ hdk, rollbackLoop cfg tagdiffs s versions cache = (hdk, true) ∧
      ∀ d f, content (some hdk) d f = (content (some cache) d f).or
        (if Copied cfg tagdiffs d f then versions.findSome? fun v => content (s.hdkOf v) d f
          else none) := by
  induction versions generalizing cache with
  | nil => exact ⟨cache, rfl, fun d f => by rw [findSome?_nil, ite_self, Option.or_none]⟩
  | cons v versions ih =>
    obtain ⟨hv, hhdk⟩ := forall_mem_cons.mp hhdk
    obtain ⟨h, hh⟩ := Option.isSome_iff_exists.mp hv
    obtain ⟨hdk, hloop, hcontent⟩ := ih (copyVersion cfg tagdiffs h cache) hhdk
    refine ⟨hdk, by simpa only [rollbackLoop, hh] using hloop, fun d f => ?_⟩
    rw [hcontent, content_copyVersion, Option.or_assoc, findSome?_cons, hh]
    split
    next => cases content (some h) d f <;> rfl
    next => rfl

theorem copied_chunk (c : Nat) :
    Copied cfg tagdiffs (chunkDir cfg c) (chunkFile cfg c) ↔ tagdiffs c = true := by
  rw [Copied, getOffset_chunk]
  exact ⟨fun h => h.2.2, fun h => ⟨numeric_padded (by decide) _, numeric_padded (by decide) _, h⟩⟩

theorem chunk_rollbackLoop (cfg : Cfg) (tagdiffs : Int → Bool) (versions : List Nat)
    (hhdk : ∀ v ∈ versions, (s.hdkOf v).isSome) :
    ∃ hdk, rollbackLoop cfg tagdiffs s versions ∅ = (hdk, true) ∧
      (∀ c : Nat, chunk cfg (some hdk) c
        = if tagdiffs c = true then versions.findSome? fun v => chunk cfg (s.hdkOf v) c else none) ∧
      ∀ d f, (content (some hdk) d f).isSome →
        ∃ v ∈ versions, (content (s.hdkOf v) d f).isSome := by
  obtain ⟨hdk, hloop, hcontent⟩ := content_rollbackLoop ∅ hhdk
  have hempty : ∀ d f, content (some ∅) d f = none := fun d f => rfl
  refine ⟨hdk, hloop, fun c => ?_, fun d f hsome => ?_⟩
  · rw [chunk, hcontent, hempty, Option.none_or]
    simp only [copied_chunk]
    rfl
  · rw [hcontent, hempty, Option.none_or] at hsome
    split at hsome
    next => exact findSome?_isSome_iff.mp hsome
    next => cases hsome

end copy

/-! ## What is removed -/

theorem lookup_foldl_erase (versions : AList fun _ : Nat => VersionDir) (l : List Nat) (n : Nat) :
    (l.foldl (fun versions i => versions.erase i) versions).lookup n
      = if n ∈ l then none else versions.lookup n := by
  induction l generalizing versions with
  | nil => rfl
  | cons i l ih =>
    rw [foldl_cons, ih]
    by_cases hi : n = i
    · subst hi
      rw [if_pos mem_cons_self, AList.lookup_erase, ite_self]
    · rw [AList.lookup_erase_ne hi]
      simp only [mem_cons, hi, false_or]

theorem prune_cases (s : Store) (retain : Int) (reply : Bool) :
    prune s retain reply = s ∨ ∃ first', s.firstver < first' ∧ first' ≤ s.lastver ∧
      (prune s retain reply).last = s.last ∧ (prune s retain reply).cache = s.cache ∧
      ∀ n, (prune s retain reply).versions.lookup n
        = if s.firstver ≤ n ∧ n < first' then none else s.versions.lookup n := by
  unfold prune
  split
  next => exact .inl rfl
  next hretain =>
    dsimp only
    split
    next => exact .inl rfl
    next hfirst =>
      split
      next =>
        refine .inr ⟨((s.lastver : Int) - retain).toNat + 1, by omega, by omega, rfl, rfl,
          fun n => ?_⟩
        rw [lookup_foldl_erase]
        refine if_congr ?_ rfl rfl
        rw [mem_range'_1]
        omega
      next => exact .inl rfl

end OpenIsr.Server
