import OpenIsr.Cache.PutGet

/-!
# Checking the local cache (validate_cache in parcelkeeper/cache_modes.c)

`validate_cache` looks at the keyring and then goes over the tables twice, for chunks that have
been modified and are not there and for chunks that are there. It has two results, `err` and `ok`,
and clears the dirty flag if both are good.

A row is looked at when the query comes to it, so that it is seen as the rows before have left
it: with `--splice` a chunk that is bad is reverted.

`validateCache_zero_iff` says exactly when the result is 0. The result of reading a chunk goes to
`ret`, and the next row overwrites it. So a chunk that could not be read is only noticed if it is
the last one, and this is the condition of `validate_iff`.
-/

namespace OpenIsr.Cache

open Base Crypto Util List Option

/-- The flags of `validate` on the command line. -/
structure Conf where
  /-- `WANT_CHECK`. -/
  check : Bool
  /-- `WANT_FULL_CHECK`. -/
  fullCheck : Bool
  /-- `WANT_SPLICE`. -/
  splice : Bool
  deriving DecidableEq, Repr

/-! ## The database and the keyring -/

/-- What `validate_db` says: the database is good, or it is not, and then whether it is after the
index has been recreated. -/
inductive DbCheck
  | valid
  | invalid (recreated : Bool)
  deriving DecidableEq, Repr

/-- `validate_sqlite`, with the new `ok`. -/
def validateSqlite (conf : Conf) : DbCheck → PkErr × Bool
  | .valid => (.success, true)
  | .invalid recreated => (if conf.splice && recreated then .success else .badformat, false)

/-- One attempt of `validate_keyring`. -/
structure KeyringAttempt where
  beginFails : Bool
  /-- The query fails after that many rows. -/
  stops : Option Nat
  /-- It fails because the database is busy. -/
  busy : Bool

/-- The rows that a query gives. -/
def seen {α : Type} (rows : List α) : Option Nat → List α
  | none => rows
  | some n => rows.take n

structure KeyCheck where
  expectedChunk : Nat
  ret : PkErr
  ok : Bool

def KeyCheck.invalid (s : KeyCheck) : KeyCheck := { s with ret := .invalid, ok := false }

/-- The body of the loop in `validate_keyring`. -/
def keyringStep (P : Parcel) (s : KeyCheck) (r : Sigma fun _ : Int => KeyRow) : KeyCheck :=
  let chunk := columnUnsigned r.1
  if P.chunks ≤ chunk then s.invalid
  else if chunk < s.expectedChunk then s.invalid
  else
    let s := if s.expectedChunk < chunk then s.invalid else s
    let s := { s with expectedChunk := chunk + 1 }
    if r.2.valid P then s else s.invalid

/-- `validate_keyring`, which keeps `ret` when it tries again; `none` as long as it does. -/
def validateKeyring (P : Parcel) (keys : Keyring) :
    List KeyringAttempt → PkErr → Bool → Option (PkErr × Bool)
  | [], _, _ => none
  | a :: attempts, ret, ok =>
    if a.beginFails then some (.ioerr, ok)
    else
      let rows := keys.entries.mergeSort fun r r' => r.1 ≤ r'.1
      let s := (seen rows a.stops).foldl (keyringStep P) ⟨0, ret, ok⟩
      if a.stops.isNone then some (s.ret, s.ok)
      else if a.busy then validateKeyring P keys attempts s.ret s.ok
      else some (.ioerr, s.ok)

/-! ## The local cache -/

/-- `revert_chunk`. -/
def revertChunk (prev : Keyring) (st : Store) (chunk : Nat) : Store :=
  { st with
    keys := match prev.lookup (toInt chunk) with
      | some row => st.keys.insert (toInt chunk) row
      | none => st.keys
    chunks := st.chunks.erase (toInt chunk) }

/-- One attempt of `validate_cachefile`. -/
structure Attempt where
  beginFails : Bool
  sumFails : Bool
  /-- The query for modified chunks fails after that many rows. -/
  modifiedStops : Option Nat
  /-- The query of the cache index does. -/
  chunksStops : Option Nat
  revertFails : Int → Bool
  readFails : Int → Bool
  commitFails : Bool
  /-- What fails does so because the database is busy. -/
  busy : Bool

/-- The variables of `validate_cachefile`, and the tables. -/
structure Check where
  st : Store
  ret : PkErr
  ok : Bool

def Check.invalid (s : Check) : Check := { s with ret := .invalid, ok := false }

/-- The chunk of a row of the keyring has been modified and is not there. -/
def modifiedMissing (prev : Keyring) (st : Store) (i : Int) : Bool :=
  match st.keys.lookup i, prev.lookup i with
  | some row, some old => row.tag ≠ old.tag ∧ i ∉ st.chunks
  | _, _ => false

/-- The body of the first loop. An error stands for `goto bad`. -/
def modifiedStep (conf : Conf) (a : Attempt) (prev : Keyring) (s : Check) (i : Int) :
    Except Check Check :=
  if modifiedMissing prev s.st i then
    if conf.splice then
      if a.revertFails i then .error { s with ret := .ioerr }
      else .ok { st := revertChunk prev s.st (columnUnsigned i), ret := .invalid, ok := false }
    else .ok s.invalid
  else .ok s

/-- The body of the second loop. A row that is no longer there is not seen. -/
def chunkStep (P : Parcel) (conf : Conf) (a : Attempt) (prev : Keyring) (s : Check) (i : Int) :
    Except Check Check :=
  match s.st.chunks.lookup i with
  | none => .ok s
  | some length =>
    let chunk := columnUnsigned i
    let chunklen := columnUnsigned length
    if P.chunks < chunk then .ok s.invalid
    else if P.chunksize < chunklen ∨ chunklen = 0 then .ok s.invalid
    else
      match s.st.keys.lookup i with
      | none => .ok s.invalid
      | some row =>
        if row.tag.length ≠ hashlen then .ok s.invalid
        else if conf.fullCheck then
          match cacheReadChunk P s.st (a.readFails i) chunk chunklen (some row.tag) with
          | .ok _ => .ok { s with ret := .success }
          | .err .tagfail =>
            if conf.splice then
              if a.revertFails i then .error { s with ret := .ioerr }
              else .ok { st := revertChunk prev s.st chunk, ret := .success, ok := false }
            else .ok { s with ret := .tagfail, ok := false }
          | .err e => .ok { s with ret := e }
          -- not with a length of at most a chunk
          | .crash | .waiting => .ok s
        else .ok s

/-- A loop over the rows of a query. -/
def queryLoop (body : Check → Int → Except Check Check) (rows : List Int) (stops : Option Nat)
    (s : Check) : Except Check Check :=
  ((seen rows stops).foldlM body s).bind fun s =>
    if stops.isSome then .error { s with ret := .ioerr } else .ok s

/-- One attempt of `validate_cachefile` after `begin`. -/
def cachefilePass (P : Parcel) (conf : Conf) (prev : Keyring) (a : Attempt) (s : Check) :
    Except Check Check :=
  if a.sumFails then .error { s with ret := .ioerr }
  else
    (queryLoop (modifiedStep conf a prev) s.st.keys.keys a.modifiedStops s).bind fun s =>
      (queryLoop (chunkStep P conf a prev) s.st.chunks.keys a.chunksStops s).bind fun s =>
        if a.commitFails then .error { s with ret := .ioerr } else .ok s

/-- `validate_cachefile`; `none` as long as it tries again. -/
def validateCachefile (P : Parcel) (conf : Conf) (prev : Keyring) (st : Store) :
    List Attempt → Bool → Option Check
  | [], _ => none
  | a :: attempts, ok =>
    if a.beginFails then some ⟨st, .ioerr, ok⟩
    else
      match cachefilePass P conf prev a ⟨st, .success, ok⟩ with
      | .ok s => some s
      | .error s =>
        if a.busy then validateCachefile P conf prev st attempts s.ok else some { s with st }

/-- What `validate_cache` meets. -/
structure ValidateEnv where
  db : DbCheck
  keyring : List KeyringAttempt
  attempts : List Attempt
  /-- The first and the second time that the flags are written. -/
  flagWrite : FlagWrite × FlagWrite

/-- The functions that `validate_cache` calls until one fails. -/
def validateAll (P : Parcel) (conf : Conf) (env : ValidateEnv) (prev : Keyring) (st : Store) :
    Option Check :=
  match validateSqlite conf env.db with
  | (.success, ok) =>
    match validateKeyring P st.keys env.keyring .success ok with
    | none => none
    | some (.success, ok) => validateCachefile P conf prev st env.attempts ok
    | some (err, ok) => some ⟨st, err, ok⟩
  | (err, ok) => some ⟨st, err, ok⟩

/-- `validate_cache`. -/
def validateCache (P : Parcel) (conf : Conf) (env : ValidateEnv) (prev : Keyring) (st : Store) :
    Option (Nat × Store) :=
  if conf.check then
    some ((if cacheTestFlag st caDirty then 2 else 0) |||
      (if cacheTestFlag st caDamaged then 4 else 0),
      st)
  else
    (validateAll P conf env prev st).map fun s =>
      if s.ok ∧ s.ret = .success then
        (0, if cacheTestFlag s.st caDirty ∧ conf.fullCheck then
          (cacheClearFlag env.flagWrite.1 s.st caDirty).2 else s.st)
      else if s.ok then (1, s.st)
      else
        match cacheSetFlag env.flagWrite.1 s.st caDamaged with
        | (.success, st) => (1, (cacheClearFlag env.flagWrite.2 st caDirty).2)
        | (_, st) => (1, st)

/-! ## What the loops find -/

section loops

variable {P : Parcel} {conf : Conf} {prev : Keyring} {a : Attempt} {st : Store}
  {body : Check → Int → Except Check Check} {rows : List Int} {s s' t : Check} {i length : Int}
  {x : Except Check Check} {f : Check → Except Check Check} {row : KeyRow}

/-- The variables after a loop or a part of it, whether it is left or not. -/
def outcome : Except Check Check → Check
  | .ok s => s
  | .error s => s

/-- What holds of any part of `validate_cachefile`: `ok` is never set again, and `goto bad` comes
with an error. -/
structure Steps (s : Check) (r : Except Check Check) : Prop where
  ok : (outcome r).ok = true → s.ok = true
  ret : ∀ s', r = .error s' → s'.ret = .ioerr

theorem Steps.keep (ht : t.ok = s.ok) : Steps s (.ok t) :=
  ⟨fun h => ht.symm.trans h, nofun⟩

theorem Steps.clear (ht : t.ok = false) : Steps s (.ok t) :=
  ⟨fun h => absurd (ht.symm.trans h) Bool.false_ne_true, nofun⟩

theorem Steps.bad (s : Check) : Steps s (.error { s with ret := .ioerr }) := by
  refine ⟨id, fun s' h => ?_⟩
  cases h
  rfl

theorem Steps.bind (hx : Steps s x) (hf : ∀ t, Steps t (f t)) : Steps s (x.bind f) := by
  cases x with
  | error t => exact ⟨hx.ok, hx.ret⟩
  | ok t => exact ⟨fun h => hx.ok ((hf t).ok h), (hf t).ret⟩

theorem Steps.foldlM (hbody : ∀ s i, Steps s (body s i)) (s : Check) :
    Steps s (rows.foldlM body s) := by
  induction rows generalizing s with
  | nil => exact .keep rfl
  | cons i rows ih =>
    rw [foldlM_cons]
    exact (hbody s i).bind ih

theorem Steps.queryLoop (hbody : ∀ s i, Steps s (body s i)) (stops : Option Nat) (s : Check) :
    Steps s (queryLoop body rows stops s) := by
  refine (Steps.foldlM hbody s).bind fun t => ?_
  split
  next => exact .bad t
  next => exact .keep rfl

theorem steps_modifiedStep (s : Check) (i : Int) : Steps s (modifiedStep conf a prev s i) := by
  unfold modifiedStep
  split
  next =>
    split
    next =>
      split
      next => exact .bad s
      next => exact .clear rfl
    next => exact .clear rfl
  next => exact .keep rfl

theorem steps_chunkStep (s : Check) (i : Int) : Steps s (chunkStep P conf a prev s i) := by
  unfold chunkStep
  split
  next => exact .keep rfl
  dsimp only
  split
  next => exact .clear rfl
  split
  next => exact .clear rfl
  split
  next => exact .clear rfl
  split
  next => exact .clear rfl
  split
  next =>
    split
    next => exact .keep rfl
    next =>
      split
      next =>
        split
        next => exact .bad s
        next => exact .clear rfl
      next => exact .clear rfl
    next => exact .keep rfl
    next => exact .keep rfl
    next => exact .keep rfl
  next => exact .keep rfl

theorem steps_cachefilePass (P : Parcel) (conf : Conf) (prev : Keyring) (a : Attempt) (s : Check) :
    Steps s (cachefilePass P conf prev a s) := by
  unfold cachefilePass
  split
  next => exact .bad s
  refine (Steps.queryLoop steps_modifiedStep _ s).bind fun s => ?_
  refine (Steps.queryLoop steps_chunkStep _ s).bind fun s => ?_
  split
  next => exact .bad s
  next => exact .keep rfl

/-- A loop that ends with `ok` has gone over rows that leave it and the tables as they are. -/
theorem foldlM_iff (quiet : Int → Prop) (ret : Int → PkErr → PkErr)
    (hsteps : ∀ s i, Steps s (body s i))
    (hbody : ∀ s i, i ∈ rows → s.st = st → ∀ s', (body s i = .ok s' ∧ s'.ok = true) ↔
        s.ok = true ∧ quiet i ∧ s' = { s with ret := ret i s.ret }) (s : Check) (hst : s.st = st) :
    (rows.foldlM body s = .ok s' ∧ s'.ok = true) ↔
      s.ok = true ∧ (∀ i ∈ rows, quiet i) ∧
        s' = { s with ret := rows.foldl (fun r i => ret i r) s.ret } := by
  induction rows generalizing s with
  | nil =>
    simp only [foldlM_nil, not_mem_nil, false_implies, implies_true, true_and, foldl_nil]
    constructor
    · rintro ⟨h, hok⟩
      cases h
      exact ⟨hok, rfl⟩
    · rintro ⟨hok, rfl⟩
      exact ⟨rfl, hok⟩
  | cons i rows ih =>
    have ih := ih fun s j hj => hbody s j (mem_cons_of_mem i hj)
    have hi := hbody s i mem_cons_self hst
    rw [foldlM_cons, foldl_cons, forall_mem_cons]
    constructor
    · rintro ⟨h, hok⟩
      cases hbi : body s i with
      | error s₁ =>
        rw [hbi] at h
        cases h
      | ok s₁ =>
        rw [hbi] at h
        have hrun : rows.foldlM body s₁ = .ok s' := h
        have hok₁ : s₁.ok = true := (Steps.foldlM hsteps s₁).ok (by rw [hrun]; exact hok)
        obtain ⟨hs, hq, rfl⟩ := (hi s₁).mp ⟨hbi, hok₁⟩
        obtain ⟨-, hrest, hs'⟩ := (ih { s with ret := ret i s.ret } hst).mp ⟨hrun, hok⟩
        exact ⟨hs, ⟨hq, hrest⟩, hs'⟩
    · rintro ⟨hs, ⟨hq, hrest⟩, hs'⟩
      obtain ⟨hbi, hok₁⟩ := (hi { s with ret := ret i s.ret }).mpr ⟨hs, hq, rfl⟩
      rw [hbi]
      exact (ih { s with ret := ret i s.ret } hst).mpr ⟨hok₁, hrest, hs'⟩

theorem ok_iff_of_eq (hx : x = .ok t) (ht : t.ok = s.ok) :
    (x = .ok s' ∧ s'.ok = true) ↔ s.ok = true ∧ s' = t := by
  rw [hx, ← ht]
  constructor
  · rintro ⟨h, hok⟩
    cases h
    exact ⟨hok, rfl⟩
  · rintro ⟨hok, rfl⟩
    exact ⟨rfl, hok⟩

theorem not_ok_of_eq (hx : x = .ok t) (ht : t.ok = false) : ¬ (x = .ok s' ∧ s'.ok = true) := by
  rintro ⟨h, hok⟩
  cases hx.symm.trans h
  rw [ht] at hok
  cases hok

theorem modifiedStep_iff (s : Check) (i : Int) (hst : s.st = st) (s' : Check) :
    (modifiedStep conf a prev s i = .ok s' ∧ s'.ok = true) ↔
      s.ok = true ∧ modifiedMissing prev st i = false ∧ s' = s := by
  subst hst
  unfold modifiedStep
  cases modifiedMissing prev s.st i with
  | false =>
    simp only [true_and]
    exact ok_iff_of_eq rfl rfl
  | true =>
    refine iff_of_false ?_ fun ⟨_, h, _⟩ => nomatch h
    rw [if_pos rfl]
    cases conf.splice with
    | false => exact not_ok_of_eq rfl rfl
    | true =>
      cases a.revertFails i with
      | false => exact not_ok_of_eq rfl rfl
      | true => exact fun ⟨h, _⟩ => nomatch h

/-- What reading the chunk of a row gives. -/
def readRow (P : Parcel) (a : Attempt) (st : Store) (i : Int) : Got :=
  match st.chunks.lookup i with
  | none => .err .notfound
  | some length =>
    cacheReadChunk P st (a.readFails i) (columnUnsigned i) (columnUnsigned length) none

/-- The chunk can be read. -/
def readable (P : Parcel) (a : Attempt) (st : Store) (i : Int) : Bool :=
  match readRow P a st i with
  | .ok _ => true
  | _ => false

theorem readable_iff : readable P a st i = true ↔ ∃ buf, readRow P a st i = .ok buf := by
  unfold readable
  cases readRow P a st i with
  | ok buf => exact iff_of_true rfl ⟨buf, rfl⟩
  | err | crash | waiting => exact iff_of_false nofun nofun

/-- The row of a chunk is as it should be. -/
structure RowSane (P : Parcel) (st : Store) (i length : Int) (row : KeyRow) : Prop where
  chunks : st.chunks.lookup i = some length
  keys : st.keys.lookup i = some row
  chunk_le : columnUnsigned i ≤ P.chunks
  len_le : columnUnsigned length ≤ P.chunksize
  len_pos : columnUnsigned length ≠ 0
  tag : row.tag.length = hashlen

/-- So is the data, if it can be read. -/
def RowGood (P : Parcel) (a : Attempt) (st : Store) (i : Int) : Prop :=
  ∃ length row, RowSane P st i length row ∧
    ∀ buf, readRow P a st i = .ok buf → row.tag = iuChunkCryptoDigest buf

theorem RowSane.good_iff (h : RowSane P st i length row) :
    RowGood P a st i ↔ ∀ buf, readRow P a st i = .ok buf → row.tag = iuChunkCryptoDigest buf := by
  refine ⟨?_, fun hread => ⟨length, row, h, hread⟩⟩
  rintro ⟨_, row', h', hread⟩
  cases h.keys.symm.trans h'.keys
  exact hread

/-- With a length of at most a chunk there are two ways to end, and with a tag a third. -/
theorem cacheReadChunk_cases (st : Store) (fails : Bool) (chunk : Nat) {len : Nat}
    (hlen : len ≤ P.chunksize) :
    (∃ buf, cacheReadChunk P st fails chunk len none = .ok buf ∧ ∀ tag,
      cacheReadChunk P st fails chunk len (some tag)
        = if tag ≠ iuChunkCryptoDigest buf then .err .tagfail else .ok buf) ∨
    (cacheReadChunk P st fails chunk len none = .err .ioerr ∧ ∀ tag,
      cacheReadChunk P st fails chunk len (some tag) = .err .ioerr) := by
  have hle := pread_length_le st.file (cacheChunkToOffset P st chunk) len
  have hshort : ¬ P.chunksize < (pread st.file (cacheChunkToOffset P st chunk) len).length := by
    omega
  simp only [cacheReadChunk, if_neg hshort]
  cases fails with
  | true => exact .inr ⟨rfl, fun _ => rfl⟩
  | false =>
    rw [if_neg Bool.false_ne_true]
    split
    next => exact .inr ⟨rfl, fun _ => rfl⟩
    next => exact .inl ⟨_, rfl, fun _ => rfl⟩

theorem chunkStep_insane (hi : i ∈ s.st.chunks) (h : ∀ length row, ¬ RowSane P s.st i length row) :
    chunkStep P conf a prev s i = .ok s.invalid := by
  obtain ⟨length, hlength⟩ := isSome_iff_exists.mp (AList.lookup_isSome.mpr hi)
  simp only [chunkStep, hlength]
  split
  next => rfl
  next hchunk =>
  split
  next => rfl
  next hlen =>
  obtain ⟨hlen, hpos⟩ := not_or.mp hlen
  split
  next => rfl
  next row hrow =>
  split
  next => rfl
  next htag =>
  exact absurd ⟨hlength, hrow, Nat.le_of_not_lt hchunk, Nat.le_of_not_lt hlen, hpos,
    not_not.mp htag⟩ (h length row)

theorem chunkStep_sane (hfull : conf.fullCheck = true) (h : RowSane P s.st i length row) :
    chunkStep P conf a prev s i
      = match cacheReadChunk P s.st (a.readFails i) (columnUnsigned i) (columnUnsigned length)
          (some row.tag) with
        | .ok _ => .ok { s with ret := .success }
        | .err .tagfail =>
          if conf.splice then
            if a.revertFails i then .error { s with ret := .ioerr }
            else
              .ok { st := revertChunk prev s.st (columnUnsigned i), ret := .success, ok := false }
          else .ok { s with ret := .tagfail, ok := false }
        | .err e => .ok { s with ret := e }
        | .crash | .waiting => .ok s := by
  have hlen : ¬ (P.chunksize < columnUnsigned length ∨ columnUnsigned length = 0) :=
    not_or.mpr ⟨not_lt.mpr h.len_le, h.len_pos⟩
  simp only [chunkStep, h.chunks, if_neg (not_lt.mpr h.chunk_le), if_neg hlen, h.keys, ne_eq,
    h.tag, not_true_eq_false, if_false, hfull, if_true]

theorem chunkStep_iff (hfull : conf.fullCheck = true) (s : Check) (i : Int) (hi : i ∈ st.chunks)
    (hst : s.st = st) (s' : Check) :
    (chunkStep P conf a prev s i = .ok s' ∧ s'.ok = true) ↔
      s.ok = true ∧ RowGood P a st i ∧
        s' = { s with ret := if readable P a st i then .success else .ioerr } := by
  subst hst
  by_cases hsane : ∃ length row, RowSane P s.st i length row
  · obtain ⟨length, row, h⟩ := hsane
    have hrow : readRow P a s.st i = cacheReadChunk P s.st (a.readFails i) (columnUnsigned i)
        (columnUnsigned length) none := by
      rw [readRow, h.chunks]
    rw [h.good_iff, readable, chunkStep_sane hfull h, hrow]
    rcases cacheReadChunk_cases s.st (a.readFails i) (columnUnsigned i) h.len_le with
      ⟨buf, hbuf, hread⟩ | ⟨hbuf, hread⟩
    · rw [hbuf, hread]
      by_cases htag : row.tag = iuChunkCryptoDigest buf
      · rw [if_neg (not_not.mpr htag)]
        have hall : ∀ b, Got.ok buf = .ok b → row.tag = iuChunkCryptoDigest b := by
          intro b hb
          rw [← Got.ok.inj hb, htag]
        rw [and_iff_right hall]
        exact ok_iff_of_eq rfl rfl
      · rw [if_pos htag]
        refine iff_of_false ?_ fun ⟨_, hall, _⟩ => htag (hall buf rfl)
        cases conf.splice with
        | false => exact not_ok_of_eq rfl rfl
        | true =>
          cases a.revertFails i with
          | false => exact not_ok_of_eq rfl rfl
          | true => exact fun ⟨h, _⟩ => nomatch h
    · rw [hbuf, hread]
      simp only [reduceCtorEq, false_implies, implies_true, true_and]
      exact ok_iff_of_eq rfl rfl
  · have hne : ∀ length row, ¬ RowSane P s.st i length row := fun l r h => hsane ⟨l, r, h⟩
    refine iff_of_false (not_ok_of_eq (chunkStep_insane hi hne) rfl) ?_
    rintro ⟨-, ⟨length, row, h, -⟩, -⟩
    exact hne length row h

theorem foldl_overwrite {α β : Type} (g : α → β) (rows : List α) (r : β) :
    rows.foldl (fun _ i => g i) r = (rows.getLast?.map g).getD r := by
  induction rows using List.reverseRecOn with
  | nil => rfl
  | append_singleton rows i _ =>
    rw [foldl_append, getLast?_concat]
    rfl

/-- The attempt comes to its end. -/
structure Attempt.Completes (a : Attempt) : Prop where
  sum : a.sumFails = false
  modified : a.modifiedStops = none
  chunks : a.chunksStops = none
  commit : a.commitFails = false

theorem queryLoop_eq_ok {stops : Option Nat} :
    queryLoop body rows stops s = .ok s' ↔ stops = none ∧ rows.foldlM body s = .ok s' := by
  unfold queryLoop
  cases stops with
  | none =>
    rw [seen]
    cases rows.foldlM body s with
    | error t => exact ⟨nofun, fun h => nomatch h.2⟩
    | ok t => exact ⟨fun h => ⟨rfl, h⟩, fun h => h.2⟩
  | some n =>
    refine ⟨fun h => ?_, fun h => nomatch h.1⟩
    cases hloop : (seen rows (some n)).foldlM body s with
    | error t | ok t =>
      rw [hloop] at h
      cases h

theorem bind_eq_ok : x.bind f = .ok s ↔ ∃ t, x = .ok t ∧ f t = .ok s := by
  cases x with
  | error t => exact ⟨nofun, fun ⟨_, h, _⟩ => nomatch h⟩
  | ok t =>
    refine ⟨fun h => ⟨t, rfl, h⟩, ?_⟩
    rintro ⟨t', h, hf⟩
    cases h
    exact hf

theorem modifiedLoop_iff (hst : s.st = st) :
    (s.st.keys.keys.foldlM (modifiedStep conf a prev) s = .ok s' ∧ s'.ok = true) ↔
      s.ok = true ∧ (∀ i, modifiedMissing prev st i = false) ∧ s' = s := by
  subst hst
  refine (foldlM_iff (fun i => modifiedMissing prev s.st i = false) (fun _ r => r)
    steps_modifiedStep
    (fun s i _ hst => modifiedStep_iff s i hst) s rfl).trans ?_
  rw [foldl_fixed]
  refine and_congr_right fun _ => and_congr_left fun _ => ⟨fun h i => ?_, fun h i _ => h i⟩
  by_cases hi : i ∈ s.st.keys
  · exact h i hi
  · rw [modifiedMissing, AList.lookup_eq_none.mpr hi]

theorem chunksLoop_iff (hfull : conf.fullCheck = true) (hst : s.st = st) :
    (s.st.chunks.keys.foldlM (chunkStep P conf a prev) s = .ok s' ∧ s'.ok = true) ↔
      s.ok = true ∧ (∀ i ∈ st.chunks, RowGood P a st i) ∧
        s' = { s with ret := (st.chunks.keys.getLast?.map fun i =>
          if readable P a st i then .success else .ioerr).getD s.ret } := by
  subst hst
  refine (foldlM_iff (RowGood P a s.st)
    (fun i _ => if readable P a s.st i then .success else .ioerr) steps_chunkStep
    (fun s i hi hst => chunkStep_iff hfull s i hi hst) s rfl).trans ?_
  rw [foldl_overwrite]
  rfl

theorem cachefilePass_iff (hfull : conf.fullCheck = true) :
    (cachefilePass P conf prev a ⟨st, .success, true⟩ = .ok s ∧ s.ok = true) ↔
      a.Completes ∧ (∀ i, modifiedMissing prev st i = false) ∧ (∀ i ∈ st.chunks, RowGood P a st i) ∧
        s = ⟨st, (st.chunks.keys.getLast?.map fun i =>
          if readable P a st i then .success else .ioerr).getD .success, true⟩ := by
  unfold cachefilePass
  constructor
  · rintro ⟨h, hok⟩
    split at h
    next => cases h
    next hsum =>
    obtain ⟨s₁, h₁, h⟩ := bind_eq_ok.mp h
    obtain ⟨s₂, h₂, h⟩ := bind_eq_ok.mp h
    split at h
    next => cases h
    next hcommit =>
    cases h
    obtain ⟨hmodified, h₁⟩ := queryLoop_eq_ok.mp h₁
    obtain ⟨hchunks, h₂⟩ := queryLoop_eq_ok.mp h₂
    have hok₁ : s₁.ok = true := (Steps.foldlM steps_chunkStep s₁).ok (by rw [h₂]; exact hok)
    obtain ⟨-, hquiet, rfl⟩ := (modifiedLoop_iff rfl).mp ⟨h₁, hok₁⟩
    obtain ⟨-, hrows, rfl⟩ := (chunksLoop_iff hfull rfl).mp ⟨h₂, hok⟩
    exact ⟨⟨eq_false_of_ne_true hsum, hmodified, hchunks, eq_false_of_ne_true hcommit⟩, hquiet,
      hrows, rfl⟩
  · rintro ⟨⟨hsum, hmodified, hchunks, hcommit⟩, hquiet, hrows, rfl⟩
    refine ⟨?_, rfl⟩
    rw [hsum, hmodified, hchunks, hcommit, if_neg Bool.false_ne_true]
    refine bind_eq_ok.mpr ⟨⟨st, .success, true⟩, queryLoop_eq_ok.mpr ⟨rfl, ?_⟩,
      bind_eq_ok.mpr ⟨_, queryLoop_eq_ok.mpr ⟨rfl, ?_⟩, rfl⟩⟩
    · exact ((modifiedLoop_iff rfl).mpr ⟨rfl, hquiet, rfl⟩).1
    · exact ((chunksLoop_iff hfull rfl).mpr ⟨rfl, hrows, rfl⟩).1

end loops

/-! ## The result -/

section result

variable {P : Parcel} {conf : Conf} {env : ValidateEnv} {prev : Keyring} {st : Store}
  {attempts : List Attempt} {s : Check}

/-- `validate_cachefile` tries again after the attempt, and `ok` is still as it was. -/
def Retried (P : Parcel) (conf : Conf) (prev : Keyring) (st : Store) (a : Attempt) : Prop :=
  a.beginFails = false ∧ a.busy = true ∧
    ∃ s, cachefilePass P conf prev a ⟨st, .success, true⟩ = .error s ∧ s.ok = true

/-- It does not try again. -/
def Ends (P : Parcel) (conf : Conf) (prev : Keyring) (st : Store) (a : Attempt) : Prop :=
  a.beginFails = false ∧
    ∀ s, cachefilePass P conf prev a ⟨st, .success, true⟩ = .error s → a.busy = false

/-- `a` is the attempt with which `validate_cachefile` comes to its end. -/
def Decides (P : Parcel) (conf : Conf) (prev : Keyring) (st : Store) (attempts : List Attempt)
    (a : Attempt) : Prop :=
  ∃ before after, attempts = before ++ a :: after ∧ (∀ b ∈ before, Retried P conf prev st b) ∧
    Ends P conf prev st a

theorem validateCachefile_false (h : validateCachefile P conf prev st attempts false = some s) :
    s.ok = false := by
  induction attempts with
  | nil => cases h
  | cons a attempts ih =>
    have hsteps := steps_cachefilePass P conf prev a ⟨st, .success, false⟩
    unfold validateCachefile at h
    split at h
    next =>
      cases h
      rfl
    cases hpass : cachefilePass P conf prev a ⟨st, .success, false⟩ with
    | ok t =>
      rw [hpass] at h hsteps
      cases h
      exact eq_false_of_ne_true fun hok => nomatch hsteps.ok hok
    | error t =>
      rw [hpass] at h hsteps
      have hok : t.ok = false := eq_false_of_ne_true fun hok => nomatch hsteps.ok hok
      dsimp only at h
      split at h
      next => exact ih (hok ▸ h)
      cases h
      exact hok

theorem decides_cons {a b : Attempt} :
    Decides P conf prev st (a :: attempts) b ↔
      (b = a ∧ Ends P conf prev st a) ∨
        (Retried P conf prev st a ∧ Decides P conf prev st attempts b) := by
  constructor
  · rintro ⟨before, after, heq, hretried, hends⟩
    cases before with
    | nil =>
      obtain ⟨rfl, -⟩ := List.cons.inj heq
      exact .inl ⟨rfl, hends⟩
    | cons c before =>
      obtain ⟨rfl, hrest⟩ := List.cons.inj heq
      obtain ⟨hc, hretried⟩ := forall_mem_cons.mp hretried
      exact .inr ⟨hc, before, after, hrest, hretried, hends⟩
  · rintro (⟨rfl, hends⟩ | ⟨ha, before, after, rfl, hretried, hends⟩)
    · exact ⟨[], attempts, rfl, nofun, hends⟩
    · exact ⟨a :: before, after, rfl, forall_mem_cons.mpr ⟨ha, hretried⟩, hends⟩

theorem Ends.not_retried {a : Attempt} (h : Ends P conf prev st a) : ¬ Retried P conf prev st a :=
  fun ⟨_, hbusy, s, hpass, _⟩ => absurd (h.2 s hpass) (by rw [hbusy]; exact Bool.noConfusion)

theorem Decides.unique {a b : Attempt} (ha : Decides P conf prev st attempts a)
    (hb : Decides P conf prev st attempts b) : a = b := by
  induction attempts with
  | nil =>
    obtain ⟨before, after, h, -⟩ := ha
    cases before <;> cases h
  | cons c attempts ih =>
    rcases decides_cons.mp ha with ⟨rfl, hends⟩ | ⟨hretried, ha⟩ <;>
      rcases decides_cons.mp hb with ⟨rfl, hends'⟩ | ⟨hretried', hb⟩
    · rfl
    · exact absurd hretried' hends.not_retried
    · exact absurd hretried hends'.not_retried
    · exact ih ha hb

theorem validateCachefile_iff :
    (validateCachefile P conf prev st attempts true = some s ∧ s.ok = true ∧ s.ret = .success) ↔
      ∃ a, Decides P conf prev st attempts a ∧
        cachefilePass P conf prev a ⟨st, .success, true⟩ = .ok s ∧ s.ok = true ∧
          s.ret = .success := by
  induction attempts with
  | nil =>
    refine iff_of_false (fun h => nomatch h.1) ?_
    rintro ⟨a, ⟨before, after, h, -⟩, -⟩
    cases before <;> cases h
  | cons a attempts ih =>
    simp only [decides_cons, validateCachefile]
    cases hbegin : a.beginFails with
    | true =>
      refine iff_of_false ?_ ?_
      · rintro ⟨h, -, hret⟩
        cases h
        cases hret
      · rintro ⟨b, ⟨-, h, -⟩ | ⟨⟨h, -⟩, -⟩, -⟩ <;> cases hbegin.symm.trans h
    | false =>
      rw [if_neg Bool.false_ne_true]
      have hret := (steps_cachefilePass P conf prev a ⟨st, .success, true⟩).ret
      cases hpass : cachefilePass P conf prev a ⟨st, .success, true⟩ with
      | ok t =>
        have hends : Ends P conf prev st a := ⟨hbegin, fun _ h => nomatch hpass.symm.trans h⟩
        simp only [hends.not_retried, hends, false_and, or_false, and_true, exists_eq_left, hpass,
          some.injEq, Except.ok.injEq]
      | error t =>
        have hfirst : ¬ cachefilePass P conf prev a ⟨st, .success, true⟩ = .ok s :=
          fun h => nomatch hpass.symm.trans h
        by_cases hagain : a.busy = true ∧ t.ok = true
        · have hretried : Retried P conf prev st a := ⟨hbegin, hagain.1, t, hpass, hagain.2⟩
          simp only [hagain, if_true, ih, hretried, true_and]
          refine exists_congr fun b => and_congr_left fun h => ⟨.inr, fun h' => ?_⟩
          rcases h' with ⟨rfl, -⟩ | h'
          · exact absurd h.1 hfirst
          · exact h'
        · refine iff_of_false ?_ ?_
          · rintro ⟨h, hok, hsucc⟩
            dsimp only at h
            split at h
            next hbusy =>
              have hclear : t.ok = false := eq_false_of_ne_true fun h => hagain ⟨hbusy, h⟩
              rw [hclear] at h
              cases (validateCachefile_false h).symm.trans hok
            next =>
              cases h
              cases (hret t hpass).symm.trans hsucc
          · rintro ⟨b, ⟨rfl, -⟩ | ⟨⟨-, hbusy, t', ht', hok⟩, -⟩, hb, -⟩
            · exact hfirst hb
            · cases hpass.symm.trans ht'
              exact hagain ⟨hbusy, hok⟩

theorem ok_keyringStep (s : KeyCheck) (r : Sigma fun _ : Int => KeyRow) (h : s.ok = false) :
    (keyringStep P s r).ok = false := by
  unfold keyringStep
  dsimp only
  split
  next => rfl
  split
  next => rfl
  split
  next =>
    dsimp only
    split
    next => rfl
    next => exact h
  next => rfl

theorem validateKeyring_false {keys : Keyring} {attempts : List KeyringAttempt} {ret err : PkErr}
    {ok : Bool} (h : validateKeyring P keys attempts ret false = some (err, ok)) : ok = false := by
  induction attempts generalizing ret with
  | nil => cases h
  | cons a attempts ih =>
    have hfold : ∀ (rows : List (Sigma fun _ : Int => KeyRow)) (s : KeyCheck), s.ok = false →
        (rows.foldl (keyringStep P) s).ok = false := by
      intro rows
      induction rows with
      | nil => exact fun s h => h
      | cons r rows ih => exact fun s h => ih _ (ok_keyringStep s r h)
    unfold validateKeyring at h
    dsimp only at h
    split at h
    next => exact (Prod.mk.inj (some.inj h)).2.symm
    split at h
    next =>
      obtain ⟨-, rfl⟩ := Prod.mk.inj (some.inj h)
      exact hfold _ _ rfl
    split at h
    next =>
      rw [hfold _ ⟨0, ret, false⟩ rfl] at h
      exact ih h
    next =>
      obtain ⟨-, rfl⟩ := Prod.mk.inj (some.inj h)
      exact hfold _ _ rfl

/-- Everything that `validate_cache` looks at is good, and the last row of the cache index has been
read. -/
structure Passed (P : Parcel) (conf : Conf) (env : ValidateEnv) (prev : Keyring) (st : Store)
    (a : Attempt) : Prop where
  db : env.db = .valid
  keyring : validateKeyring P st.keys env.keyring .success true = some (.success, true)
  decides : Decides P conf prev st env.attempts a
  completes : a.Completes
  modified : ∀ i, modifiedMissing prev st i = false
  rows : ∀ i ∈ st.chunks, RowGood P a st i
  last : ∀ i ∈ st.chunks.keys.getLast?, readable P a st i = true

theorem lastRet_iff (a : Attempt) :
    (st.chunks.keys.getLast?.map fun i => if readable P a st i then PkErr.success else .ioerr).getD
      .success = .success ↔ ∀ i ∈ st.chunks.keys.getLast?, readable P a st i = true := by
  cases st.chunks.keys.getLast? with
  | none => exact iff_of_true rfl nofun
  | some i =>
    simp only [map_some, getD_some, mem_some_iff, forall_eq']
    cases readable P a st i with
    | true => exact iff_of_true rfl rfl
    | false => exact iff_of_false nofun nofun

theorem validateAll_valid (hdb : env.db = .valid) :
    validateAll P conf env prev st
      = match validateKeyring P st.keys env.keyring .success true with
        | none => none
        | some (.success, ok) => validateCachefile P conf prev st env.attempts ok
        | some (err, ok) => some ⟨st, err, ok⟩ := by
  simp only [validateAll, hdb, validateSqlite]

theorem validateAll_invalid {recreated : Bool} (hdb : env.db = .invalid recreated)
    (h : validateAll P conf env prev st = some s) : s.ok = false := by
  simp only [validateAll, hdb, validateSqlite] at h
  split at h
  next ok heq =>
    obtain ⟨-, rfl⟩ := Prod.mk.inj heq
    split at h
    next => cases h
    next ok hkeys =>
      rw [validateKeyring_false hkeys] at h
      exact validateCachefile_false h
    next err ok _ hkeys =>
      cases h
      exact validateKeyring_false hkeys
  next err ok _ heq =>
    obtain ⟨-, rfl⟩ := Prod.mk.inj heq
    cases h
    rfl

theorem validateAll_iff (hfull : conf.fullCheck = true) :
    (validateAll P conf env prev st = some s ∧ s.ok = true ∧ s.ret = .success) ↔
      ∃ a, Passed P conf env prev st a ∧ s = ⟨st, .success, true⟩ := by
  constructor
  · rintro ⟨h, hok, hret⟩
    cases hdb : env.db with
    | invalid recreated => cases (validateAll_invalid hdb h).symm.trans hok
    | valid =>
      rw [validateAll_valid hdb] at h
      split at h
      next => cases h
      next ok hkeys =>
        cases ok with
        | false => cases (validateCachefile_false h).symm.trans hok
        | true =>
          obtain ⟨a, hdecides, hpass, -, -⟩ := validateCachefile_iff.mp ⟨h, hok, hret⟩
          obtain ⟨hcompletes, hmodified, hrows, rfl⟩ := (cachefilePass_iff hfull).mp ⟨hpass, hok⟩
          have hlast := (lastRet_iff a).mp hret
          refine ⟨a, ⟨hdb, hkeys, hdecides, hcompletes, hmodified, hrows, hlast⟩, ?_⟩
          rw [(lastRet_iff a).mpr hlast]
      next err ok hne _ =>
        cases h
        exact absurd hret hne
  · rintro ⟨a, h, rfl⟩
    have hpass := (cachefilePass_iff hfull).mpr ⟨h.completes, h.modified, h.rows, rfl⟩
    rw [(lastRet_iff a).mpr h.last] at hpass
    obtain ⟨hcache, -⟩ := validateCachefile_iff.mpr ⟨a, h.decides, hpass.1, rfl, rfl⟩
    refine ⟨?_, rfl, rfl⟩
    rw [validateAll_valid h.db, h.keyring]
    exact hcache

theorem validateCache_zero_iff (hcheck : conf.check = false) (hfull : conf.fullCheck = true)
    {st' : Store} :
    validateCache P conf env prev st = some (0, st') ↔
      ∃ a, Passed P conf env prev st a ∧
        st' = if cacheTestFlag st caDirty then (cacheClearFlag env.flagWrite.1 st caDirty).2
          else st := by
  simp only [validateCache, hcheck, Bool.false_eq_true, if_false, hfull, and_true]
  constructor
  · intro h
    cases hall : validateAll P conf env prev st with
    | none =>
      rw [hall] at h
      cases h
    | some t =>
      rw [hall] at h
      have h := some.inj h
      dsimp only at h
      split at h
      next hgood =>
        obtain ⟨a, ha, rfl⟩ := (validateAll_iff hfull).mp ⟨hall, hgood⟩
        exact ⟨a, ha, (Prod.mk.inj h).2.symm⟩
      split at h
      next => cases (Prod.mk.inj h).1
      split at h
      next => cases (Prod.mk.inj h).1
      next => cases (Prod.mk.inj h).1
  · rintro ⟨a, ha, rfl⟩
    obtain ⟨hall, -⟩ := (validateAll_iff hfull).mpr ⟨a, ha, rfl⟩
    rw [hall]
    rfl

/-- What a result of 0 should say: every row of the cache index has been read, and its data has the
tag of the keyring, and every chunk that has been modified has a row. -/
structure Certified (P : Parcel) (prev : Keyring) (a : Attempt) (st : Store) : Prop where
  rows : ∀ i length, st.chunks.lookup i = some length → ∃ row buf, st.keys.lookup i = some row ∧
    cacheReadChunk P st (a.readFails i) (columnUnsigned i) (columnUnsigned length) none = .ok buf ∧
    iuChunkCryptoDigest buf = row.tag
  modified : ∀ i row old, st.keys.lookup i = some row → prev.lookup i = some old →
    row.tag ≠ old.tag → i ∈ st.chunks

theorem Passed.certified_iff {a : Attempt} (h : Passed P conf env prev st a) :
    Certified P prev a st ↔ ∀ i ∈ st.chunks, readable P a st i = true := by
  constructor
  · intro hcert i hi
    obtain ⟨length, hlength⟩ := isSome_iff_exists.mp (AList.lookup_isSome.mpr hi)
    obtain ⟨row, buf, -, hbuf, -⟩ := hcert.rows i length hlength
    exact readable_iff.mpr ⟨buf, by rw [readRow, hlength, ← hbuf]⟩
  · intro hread
    refine ⟨fun i length hlength => ?_, fun i row old hrow hold hne => ?_⟩
    · have hi : i ∈ st.chunks := AList.lookup_isSome.mp (by rw [hlength]; rfl)
      obtain ⟨buf, hbuf⟩ := readable_iff.mp (hread i hi)
      obtain ⟨_, row, hsane, htag⟩ := h.rows i hi
      refine ⟨row, buf, hsane.keys, ?_, (htag buf hbuf).symm⟩
      rw [readRow, hlength] at hbuf
      exact hbuf
    · have hmissing := h.modified i
      simpa [modifiedMissing, hrow, hold, hne] using hmissing

/-- `validate_cache` only says that the local cache is good if it is, exactly if with everything
else good and the last row of the cache index read all rows can be read. -/
theorem validate_iff (hcheck : conf.check = false) (hfull : conf.fullCheck = true) :
    (∀ st', validateCache P conf env prev st = some (0, st') →
      ∃ a, Decides P conf prev st env.attempts a ∧ Certified P prev a st) ↔
      ∀ a, Passed P conf env prev st a → ∀ i ∈ st.chunks, readable P a st i = true := by
  constructor
  · intro h a ha
    obtain ⟨b, hb, hcert⟩ := h _ ((validateCache_zero_iff hcheck hfull).mpr ⟨a, ha, rfl⟩)
    obtain rfl := hb.unique ha.decides
    exact ha.certified_iff.mp hcert
  · intro h st' hret
    obtain ⟨a, ha, -⟩ := (validateCache_zero_iff hcheck hfull).mp hret
    exact ⟨a, ha.decides, ha.certified_iff.mpr (h a ha)⟩

end result

/-- The header says that the local cache is dirty. -/
def twoFile : List UInt8 :=
  [0x51, 0x52, 0x80, 0x38, 0, 0, 0, 2, 0, 0, 0, 1, 0, 0, 0, 1, 0, 0, 0, 0, 1] ++
    replicate 1515 0

def twoIndex : Index := AList.insert 0 512 (AList.insert 1 512 ∅)

def twoStore : Store := ⟨twoKeys, twoIndex, twoFile, 512, 1⟩

/-- One attempt without faults, but for the chunks that cannot be read. -/
def readErrors (fails : Int → Bool) : Attempt :=
  ⟨false, false, none, none, fun _ => false, fails, false, false⟩

def readErrorsEnv (fails : Int → Bool) : ValidateEnv :=
  ⟨.valid, [⟨false, none, false⟩], [readErrors fails], (.ok, .ok)⟩

def fullCheck : Conf := ⟨false, true, false⟩

theorem mem_twoIndex {i : Int} : i ∈ twoIndex ↔ i = 0 ∨ i = 1 := by
  rw [twoIndex, AList.mem_insert, AList.mem_insert]
  simp only [AList.notMem_empty, or_false]

theorem readRow_two (fails : Int → Bool) {i : Int} (hi : i = 0 ∨ i = 1) :
    readRow twoParcel (readErrors fails) twoStore i
      = if fails i then .err .ioerr else .ok zeroChunk := by
  have hlookup : twoStore.chunks.lookup i = some 512 := by
    rcases hi with rfl | rfl <;> rfl
  have hread : cacheReadChunk twoParcel twoStore false (columnUnsigned i) (columnUnsigned 512) none
      = .ok zeroChunk := by
    rcases hi with rfl | rfl <;> decide +kernel
  rw [readRow, hlookup]
  dsimp only [readErrors]
  cases fails i with
  | true => simp only [cacheReadChunk, if_true]
  | false =>
    rw [if_neg Bool.false_ne_true]
    exact hread

theorem rowSane_two {i : Int} (hi : i = 0 ∨ i = 1) : RowSane twoParcel twoStore i 512 zeroRow := by
  have htag : zeroRow.tag.length = hashlen := by
    rw [zeroRow, iuChunkCryptoDigest_eq]
    exact sha1_length _
  rcases hi with rfl | rfl <;> exact ⟨rfl, rfl, by decide, by decide, by decide, htag⟩

theorem validateKeyring_two :
    validateKeyring twoParcel twoKeys [⟨false, none, false⟩] .success true
      = some (.success, true) := by
  have hvalid : zeroRow.valid twoParcel = true := zeroRow_valid
  have hsort : (twoKeys.entries.mergeSort fun r r' => decide (r.1 ≤ r'.1))
      = [⟨0, zeroRow⟩, ⟨1, zeroRow⟩] := by
    refine mergeSort_of_pairwise ?_
    simp [twoKeys]
  have hchunks : twoParcel.chunks = 2 := rfl
  simp [validateKeyring, hsort, seen, keyringStep, hvalid, columnUnsigned, hchunks]

theorem passed_two (fails : Int → Bool) (hlast : fails 1 = false) :
    Passed twoParcel fullCheck (readErrorsEnv fails) twoKeys twoStore (readErrors fails) := by
  refine ⟨rfl, validateKeyring_two, ⟨[], [], rfl, nofun, rfl, fun _ _ => rfl⟩, ⟨rfl, rfl, rfl, rfl⟩,
    fun i => ?_, fun i hi => ?_, fun i hi => ?_⟩
  · unfold modifiedMissing
    cases h : twoStore.keys.lookup i with
    | none => rfl
    | some row =>
      rw [show twoKeys.lookup i = some row from h]
      simp
  · have hi := mem_twoIndex.mp hi
    refine (rowSane_two hi).good_iff.mpr fun buf hbuf => ?_
    rw [readRow_two fails hi] at hbuf
    split at hbuf
    next => cases hbuf
    obtain rfl := Got.ok.inj hbuf
    rfl
  · obtain rfl : i = 1 := (some.inj hi).symm
    rw [readable, readRow_two fails (.inr rfl), hlast]
    rfl

/-- The first of two chunks cannot be read, and the result is 0 and the dirty flag is cleared. -/
theorem validate_masked :
    cacheInit twoParcel twoKeys twoIndex twoFile = .ok twoStore ∧
      cacheTestFlag twoStore caDirty = true ∧
      (∃ st', validateCache twoParcel fullCheck (readErrorsEnv fun i => i == 0) twoKeys twoStore
          = some (0, st') ∧ cacheTestFlag st' caDirty = false) ∧
      ∀ a ∈ (readErrorsEnv fun i => i == 0).attempts, readRow twoParcel a twoStore 0 = .err .ioerr ∧
          ¬ Certified twoParcel twoKeys a twoStore := by
  have hpassed := passed_two (fun i => i == 0) rfl
  refine ⟨rfl, rfl, ⟨_, (validateCache_zero_iff rfl rfl).mpr ⟨_, hpassed, rfl⟩, rfl⟩, ?_⟩
  intro a ha
  obtain rfl := mem_singleton.mp ha
  have hread := readRow_two (fun i => i == 0) (.inl rfl)
  refine ⟨hread, fun hcert => ?_⟩
  have hreadable := hpassed.certified_iff.mp hcert 0 (mem_twoIndex.mpr (.inl rfl))
  obtain ⟨buf, hbuf⟩ := readable_iff.mp hreadable
  cases hread.symm.trans hbuf

/-- Without read errors the same local cache passes, and it is good. -/
theorem validate_two :
    (∃ st', validateCache twoParcel fullCheck (readErrorsEnv fun _ => false) twoKeys twoStore
      = some (0, st')) ∧
    ∀ st', validateCache twoParcel fullCheck (readErrorsEnv fun _ => false) twoKeys twoStore
        = some (0, st') →
      ∃ a, Decides twoParcel fullCheck twoKeys twoStore (readErrorsEnv fun _ => false).attempts a ∧
        Certified twoParcel twoKeys a twoStore := by
  have hpassed := passed_two (fun _ => false) rfl
  refine ⟨⟨_, (validateCache_zero_iff rfl rfl).mpr ⟨_, hpassed, rfl⟩⟩, ?_⟩
  refine (validate_iff rfl rfl).mpr fun a ha i hi => ?_
  obtain rfl := ha.decides.unique hpassed.decides
  exact readable_iff.mpr ⟨zeroChunk, readRow_two (fun _ => false) (mem_twoIndex.mp hi)⟩

end OpenIsr.Cache
