import OpenIsr.Cache.Keyring
import OpenIsr.Server.Store

/-!
# Repairing the local cache

With `--splice`, `validate_cachefile` reverts every chunk that it finds bad: the row of the keyring
becomes that of the previous keyring, and the row of the cache index is deleted. It does so in the
middle of two loops over the same tables. `cachefilePass_reverted` says what comes out: exactly the
rows of bad chunks have been reverted, as if all of them had been found before the first revert.

That is a repair, with three exceptions. `revert_chunk` takes the chunk number as an `int`, so that
for a number of 2^31 or more its statements find no row. If `validate_keyring` finds something,
`validate_cachefile` does not run at all. These two are in `splice_iff`. And at the end the flags
are written to the header, which lies in the data of chunk 0 if the header says that the data starts
at the beginning of the file; Parcelkeeper does not make such a file, and `splice_iff` leaves it
out.
-/

namespace OpenIsr.Cache

open Base Crypto Util List

/-- `--full-check --splice` -/
def spliceConf : Conf := { check := false, fullCheck := true, splice := true }

/-- The keyring has a row for every chunk of the parcel, and no other. -/
def Complete (P : Parcel) (keys : Keyring) : Prop := ∀ i, i ∈ keys ↔ 0 ≤ i ∧ i < P.chunks

/-- The row of a chunk is as it should be, and its data does not have the tag of the keyring. -/
def BadData (P : Parcel) (st : Store) (i : Int) : Prop :=
  ∃ length row, RowSane P st i length row ∧
    cacheReadChunk P st false (columnUnsigned i) (columnUnsigned length) (some row.tag)
      = .err .tagfail

/-- What `validate_cachefile` reverts. -/
def Bad (P : Parcel) (prev : Keyring) (st : Store) (i : Int) : Prop :=
  modifiedMissing prev st i = true ∨ BadData P st i

/-- The data of the chunk is there, and has the tag of the keyring. -/
def Matches (P : Parcel) (st : Store) (i : Int) : Prop :=
  ∃ length row buf, st.chunks.lookup i = some length ∧ st.keys.lookup i = some row ∧
    cacheReadChunk P st false (columnUnsigned i) (columnUnsigned length) none = .ok buf ∧
    row.tag = iuChunkCryptoDigest buf

/-- The keyring row and the cache index row of the chunk are the same. -/
def SameRows (st st' : Store) (i : Int) : Prop :=
  st'.keys.lookup i = st.keys.lookup i ∧ st'.chunks.lookup i = st.chunks.lookup i

/-- Good chunks are spared, and another pass does not find a bad one. -/
structure Repaired (P : Parcel) (prev : Keyring) (st st' : Store) : Prop where
  matching : ∀ i : Int, 0 ≤ i → i < P.chunks → Matches P st i → SameRows st st' i
  quiet : ∀ i : Int, 0 ≤ i → i < P.chunks → i ∉ st.chunks → Server.keydiff st.keys prev i = false →
    SameRows st st' i
  modified : ∀ i, modifiedMissing prev st' i = false
  data : ∀ i, ¬ BadData P st' i

/-! ## Reverting -/

/-- The row that the statements of `revert_chunk` are about. -/
def target (i : Int) : Int := toInt (columnUnsigned i)

theorem target_of_lt {i : Int} (h0 : 0 ≤ i) (h : i < 2 ^ 31) : target i = i := by
  unfold target columnUnsigned toInt
  split <;> omega

theorem eq_of_target_eq {i j : Int} (h0 : 0 ≤ i) (h : i < 2 ^ 32) (hj : 0 ≤ j)
    (heq : target i = j) : i = j ∧ i < 2 ^ 31 := by
  unfold target columnUnsigned toInt at heq
  split at heq <;> omega

section revert

variable {prev : Keyring} {st s : Store} {T T' : Int → Prop} {i : Int}

theorem lookup_keys_revertChunk (prev : Keyring) (st : Store) (chunk : Nat) (j : Int) :
    (revertChunk prev st chunk).keys.lookup j
      = if j = toInt chunk then (prev.lookup j).or (st.keys.lookup j) else st.keys.lookup j := by
  unfold revertChunk
  by_cases hj : j = toInt chunk
  · subst hj
    rw [if_pos rfl]
    cases prev.lookup (toInt chunk) with
    | none => rfl
    | some row => exact AList.lookup_insert _
  · rw [if_neg hj]
    cases prev.lookup (toInt chunk) with
    | none => rfl
    | some row => exact AList.lookup_insert_ne hj

theorem lookup_chunks_revertChunk (prev : Keyring) (st : Store) (chunk : Nat) (j : Int) :
    (revertChunk prev st chunk).chunks.lookup j
      = if j = toInt chunk then none else st.chunks.lookup j := by
  unfold revertChunk
  by_cases hj : j = toInt chunk
  · subst hj
    rw [if_pos rfl]
    exact AList.lookup_erase _ _
  · rw [if_neg hj]
    exact AList.lookup_erase_ne hj

/-- The rows in `T` have been reverted, and nothing else has changed. -/
structure Reverted (prev : Keyring) (T : Int → Prop) (st st' : Store) : Prop where
  keys : ∀ j, T j → st'.keys.lookup j = (prev.lookup j).or (st.keys.lookup j)
  chunks : ∀ j, T j → st'.chunks.lookup j = none
  rest : ∀ j, ¬ T j → SameRows st st' j
  file : st'.file = st.file
  offset : st'.offset = st.offset

theorem Reverted.refl (prev : Keyring) (st : Store) : Reverted prev (fun _ => False) st st :=
  ⟨nofun, nofun, fun _ _ => ⟨rfl, rfl⟩, rfl, rfl⟩

section

variable (h : Reverted prev T st s)
include h

theorem Reverted.congr (hT : ∀ j, T' j ↔ T j) : Reverted prev T' st s := by
  obtain rfl : T' = T := funext fun j => propext (hT j)
  exact h

theorem Reverted.revert (chunk : Nat) :
    Reverted prev (fun j => T j ∨ toInt chunk = j) st (revertChunk prev s chunk) := by
  have hkeys := lookup_keys_revertChunk prev s chunk
  have hchunks := lookup_chunks_revertChunk prev s chunk
  refine ⟨fun j hj => ?_, fun j hj => ?_, fun j hj => ?_, h.file, h.offset⟩
  · rw [hkeys]
    by_cases hT : T j
    · rw [h.keys j hT]
      cases prev.lookup j <;> simp
    · have htarget : j = toInt chunk := (hj.resolve_left hT).symm
      rw [if_pos htarget, (h.rest j hT).1]
  · rw [hchunks]
    split
    next => rfl
    next hne => exact h.chunks j (hj.resolve_right fun heq => hne heq.symm)
  · obtain ⟨hT, hne⟩ := not_or.mp hj
    have hne' : ¬ j = toInt chunk := fun heq => hne heq.symm
    refine ⟨?_, ?_⟩
    · rw [hkeys, if_neg hne', (h.rest j hT).1]
    · rw [hchunks, if_neg hne', (h.rest j hT).2]

theorem Reverted.not_modifiedMissing (hi : T i) : modifiedMissing prev s i = false := by
  rw [modifiedMissing, h.keys i hi]
  cases prev.lookup i with
  | none => cases st.keys.lookup i <;> rfl
  | some old => simp

theorem Reverted.modifiedMissing_eq (hi : ¬ T i) :
    modifiedMissing prev s i = modifiedMissing prev st i := by
  obtain ⟨hkeys, hchunks⟩ := h.rest i hi
  have hmem : i ∈ s.chunks ↔ i ∈ st.chunks := by
    rw [← AList.lookup_isSome, hchunks, AList.lookup_isSome]
  simp only [modifiedMissing, hkeys, hmem]

theorem Reverted.rowSane_iff {P : Parcel} {length : Int} {row : KeyRow} :
    RowSane P s i length row ↔ ¬ T i ∧ RowSane P st i length row := by
  constructor
  · intro hrow
    have hT : ¬ T i := fun hT => nomatch (h.chunks i hT).symm.trans hrow.chunks
    obtain ⟨hkeys, hchunks⟩ := h.rest i hT
    exact ⟨hT, hchunks ▸ hrow.chunks, hkeys ▸ hrow.keys, hrow.chunk_le, hrow.len_le, hrow.len_pos,
      hrow.tag⟩
  · intro ⟨hT, hrow⟩
    obtain ⟨hkeys, hchunks⟩ := h.rest i hT
    exact ⟨hchunks.trans hrow.chunks, hkeys.trans hrow.keys, hrow.chunk_le, hrow.len_le,
      hrow.len_pos, hrow.tag⟩

end

end revert

theorem cacheReadChunk_congr {P : Parcel} {st s : Store} {chunk len : Nat}
    (h : pread s.file (cacheChunkToOffset P s chunk) len
      = pread st.file (cacheChunkToOffset P st chunk) len) (fails : Bool)
    (tag : Option (List UInt8)) :
    cacheReadChunk P s fails chunk len tag = cacheReadChunk P st fails chunk len tag := by
  unfold cacheReadChunk
  rw [h]

theorem Reverted.read_eq {prev : Keyring} {T : Int → Prop} {st s : Store} (h : Reverted prev T st s)
    (P : Parcel) (fails : Bool) (chunk len : Nat) (tag : Option (List UInt8)) :
    cacheReadChunk P s fails chunk len tag = cacheReadChunk P st fails chunk len tag := by
  refine cacheReadChunk_congr ?_ fails tag
  rw [cacheChunkToOffset, cacheChunkToOffset, h.file, h.offset]

theorem Reverted.badData_iff {prev : Keyring} {T : Int → Prop} {st s : Store}
    (h : Reverted prev T st s) {P : Parcel} {i : Int} :
    BadData P s i ↔ ¬ T i ∧ BadData P st i := by
  unfold BadData
  simp only [h.rowSane_iff, h.read_eq]
  constructor
  · intro ⟨length, row, hrow, hread⟩
    exact ⟨hrow.1, length, row, hrow.2, hread⟩
  · intro ⟨hT, length, row, hrow, hread⟩
    exact ⟨length, row, ⟨hT, hrow⟩, hread⟩

/-! ## The loops -/

section loops

variable {P : Parcel} {prev : Keyring} {a : Attempt} {st : Store} {i : Int}

theorem Complete.fits (h : Complete P st.keys) (hi : i ∈ st.keys) : 0 ≤ i ∧ i < 2 ^ 32 := by
  have := (h i).mp hi
  have := P.chunks_lt
  omega

theorem mem_keys_of_modifiedMissing (h : modifiedMissing prev st i = true) : i ∈ st.keys := by
  by_contra hi
  rw [modifiedMissing, AList.lookup_eq_none.mpr hi] at h
  cases h

theorem not_mem_chunks_of_modifiedMissing (h : modifiedMissing prev st i = true) :
    i ∉ st.chunks := by
  unfold modifiedMissing at h
  split at h
  next => exact (of_decide_eq_true h).2
  next => cases h

theorem modifiedMissing_of {row old : KeyRow} (hrow : st.keys.lookup i = some row)
    (hold : prev.lookup i = some old) (htag : row.tag ≠ old.tag) (hi : i ∉ st.chunks) :
    modifiedMissing prev st i = true := by
  rw [modifiedMissing, hrow, hold]
  exact decide_eq_true ⟨htag, hi⟩

theorem BadData.mem_keys (h : BadData P st i) : i ∈ st.keys := by
  obtain ⟨length, row, hrow, -⟩ := h
  exact AList.lookup_isSome.mp (by rw [hrow.keys]; rfl)

theorem BadData.mem_chunks (h : BadData P st i) : i ∈ st.chunks := by
  obtain ⟨length, row, hrow, -⟩ := h
  exact AList.lookup_isSome.mp (by rw [hrow.chunks]; rfl)

theorem Bad.mem_keys (h : Bad P prev st i) : i ∈ st.keys :=
  h.elim mem_keys_of_modifiedMissing BadData.mem_keys

/-- The attempt reverts what it has to revert, and reads what it has to read. -/
structure Attempt.Reads (P : Parcel) (st : Store) (a : Attempt) : Prop where
  revert : ∀ i, a.revertFails i = false
  read : ∀ i length row, RowSane P st i length row → a.readFails i = false ∧ ∃ buf,
    cacheReadChunk P st false (columnUnsigned i) (columnUnsigned length) none = .ok buf

theorem modifiedStep_reverted (ha : a.Reads P st) {T : Int → Prop} {s : Check}
    (h : Reverted prev T st s.st) (hi : modifiedMissing prev st i = true → ¬ T i) :
    ∃ s', modifiedStep spliceConf a prev s i = .ok s' ∧
      Reverted prev (fun j => T j ∨ (modifiedMissing prev st i = true ∧ target i = j)) st
        s'.st := by
  unfold modifiedStep
  cases hmissing : modifiedMissing prev st i with
  | false =>
    -- nor is it missing now, also if the row has been reverted
    have hnow : modifiedMissing prev s.st i = false := by
      by_cases hT : T i
      · exact h.not_modifiedMissing hT
      · rw [h.modifiedMissing_eq hT, hmissing]
    rw [hnow]
    exact ⟨s, rfl, h.congr fun j => by simp⟩
  | true =>
    rw [h.modifiedMissing_eq (hi hmissing), hmissing]
    simp only [ha.revert i, spliceConf, if_true]
    exact ⟨_, rfl, (h.revert (columnUnsigned i)).congr fun j => by simp [target]⟩

theorem badData_iff_of_read {length : Int} {row : KeyRow} {buf : List UInt8}
    (hrow : RowSane P st i length row)
    (hbuf : cacheReadChunk P st false (columnUnsigned i) (columnUnsigned length) none = .ok buf) :
    BadData P st i ↔ row.tag ≠ iuChunkCryptoDigest buf := by
  rcases cacheReadChunk_cases st false (columnUnsigned i) hrow.len_le with
    ⟨buf', hbuf', hread⟩ | ⟨hbuf', -⟩
  · obtain rfl := Got.ok.inj (hbuf.symm.trans hbuf')
    constructor
    · intro ⟨length', row', hrow', hbad⟩ htag
      cases hrow.keys.symm.trans hrow'.keys
      cases hrow.chunks.symm.trans hrow'.chunks
      rw [hread, if_neg (not_not.mpr htag)] at hbad
      cases hbad
    · intro htag
      exact ⟨length, row, hrow, by rw [hread, if_pos htag]⟩
  · cases hbuf.symm.trans hbuf'

theorem chunkStep_reverted (ha : a.Reads P st) {T : Int → Prop} {s : Check}
    (h : Reverted prev T st s.st) (hi : BadData P st i → ¬ T i) :
    ∃ s', chunkStep P spliceConf a prev s i = .ok s' ∧
      Reverted prev (fun j => T j ∨ (BadData P st i ∧ target i = j)) st s'.st := by
  by_cases hsane : ∃ length row, RowSane P s.st i length row
  · obtain ⟨length, row, hrow⟩ := hsane
    obtain ⟨hT, hrow'⟩ := h.rowSane_iff.mp hrow
    obtain ⟨hfails, buf, hbuf⟩ := ha.read i length row hrow'
    have hbad := badData_iff_of_read hrow' hbuf
    rw [chunkStep_sane rfl hrow, hfails, h.read_eq]
    rcases cacheReadChunk_cases st false (columnUnsigned i) hrow.len_le with
      ⟨buf', hbuf', hread⟩ | ⟨hbuf', -⟩
    · obtain rfl := Got.ok.inj (hbuf.symm.trans hbuf')
      rw [hread]
      by_cases htag : row.tag = iuChunkCryptoDigest buf
      · rw [if_neg (not_not.mpr htag)]
        exact ⟨_, rfl, h.congr fun j => by simp [hbad, htag]⟩
      · rw [if_pos htag]
        simp only [ha.revert i, spliceConf, if_true]
        exact ⟨_, rfl, (h.revert (columnUnsigned i)).congr fun j => by simp [hbad, htag, target]⟩
    · cases hbuf.symm.trans hbuf'
  · -- the row is gone, or there is something else that is wrong with it
    have hbad : ¬ BadData P st i := by
      intro hbad
      have hT := hi hbad
      obtain ⟨length, row, hrow, -⟩ := hbad
      exact hsane ⟨length, row, h.rowSane_iff.mpr ⟨hT, hrow⟩⟩
    have hkeep : Reverted prev (fun j => T j ∨ (BadData P st i ∧ target i = j)) st s.st :=
      h.congr fun j => by simp [hbad]
    by_cases hmem : i ∈ s.st.chunks
    · exact ⟨s.invalid, chunkStep_insane hmem fun l r hr => hsane ⟨l, r, hr⟩, hkeep⟩
    · refine ⟨s, ?_, hkeep⟩
      rw [chunkStep, AList.lookup_eq_none.mpr hmem]

/-- A loop over distinct rows whose steps revert rows that are bad at the start has reverted all
of them. -/
theorem foldlM_reverted {body : Check → Int → Except Check Check} {bad : Int → Prop}
    (hfits : ∀ i, bad i → 0 ≤ i ∧ i < 2 ^ 32)
    (hbody : ∀ i T s, Reverted prev T st s.st → (bad i → ¬ T i) → ∃ s', body s i = .ok s' ∧
      Reverted prev (fun j => T j ∨ (bad i ∧ target i = j)) st s'.st) (rows : List Int) :
    ∀ (T : Int → Prop) (s : Check), rows.Nodup → Reverted prev T st s.st →
      (∀ i ∈ rows, bad i → ¬ T i) →
      ∃ s', rows.foldlM body s = .ok s' ∧
        Reverted prev (fun j => T j ∨ ∃ i ∈ rows, bad i ∧ target i = j) st s'.st := by
  induction rows with
  | nil =>
    intro T s _ h _
    exact ⟨s, rfl, h.congr fun j => by simp⟩
  | cons i rows ih =>
    intro T s hnodup h hT
    obtain ⟨hi, hnodup⟩ := nodup_cons.mp hnodup
    obtain ⟨s₁, hs₁, h₁⟩ := hbody i T s h (hT i mem_cons_self)
    -- what the step reverts is its own row, or none that is bad
    have hT₁ : ∀ j ∈ rows, bad j → ¬ (T j ∨ (bad i ∧ target i = j)) := by
      intro j hj hbad hor
      rcases hor with hTj | ⟨hbadi, heq⟩
      · exact hT j (mem_cons_of_mem i hj) hbad hTj
      · obtain ⟨h0, hlt⟩ := hfits i hbadi
        obtain ⟨rfl, -⟩ := eq_of_target_eq h0 hlt (hfits j hbad).1 heq
        exact hi hj
    obtain ⟨s₂, hs₂, h₂⟩ := ih _ s₁ hnodup h₁ hT₁
    refine ⟨s₂, ?_, h₂.congr fun j => ?_⟩
    · rw [foldlM_cons, hs₁]
      exact hs₂
    · simp only [mem_cons, or_and_right, exists_or, exists_eq_left, or_assoc]

variable (prev) in
/-- What comes out of an attempt that goes through: exactly the rows of the chunks that have been
bad at its beginning are reverted. -/
theorem cachefilePass_reverted (hc : Complete P st.keys) (ha : a.Reads P st)
    (hcompletes : a.Completes) (ret : PkErr) (ok : Bool) :
    ∃ s, cachefilePass P spliceConf prev a ⟨st, ret, ok⟩ = .ok s ∧
      Reverted prev (fun j => ∃ i, Bad P prev st i ∧ target i = j) st s.st := by
  have hfits : ∀ i, Bad P prev st i → 0 ≤ i ∧ i < 2 ^ 32 := fun i hi => hc.fits hi.mem_keys
  obtain ⟨s₁, hs₁, h₁⟩ := foldlM_reverted (fun i hi => hfits i (.inl hi))
    (fun i T s h hi => modifiedStep_reverted ha h hi) st.keys.keys (fun _ => False) ⟨st, ret, ok⟩
    (AList.keys_nodup _) (Reverted.refl prev st) (fun _ _ _ h => h)
  -- what the first loop has reverted is not there, so that the second one finds what it would have
  -- found before
  have hT₁ : ∀ i, BadData P st i →
      ¬ (False ∨ ∃ k ∈ st.keys.keys, modifiedMissing prev st k = true ∧ target k = i) := by
    intro i hi hor
    obtain ⟨k, -, hk, heq⟩ := hor.resolve_left id
    obtain ⟨h0, hlt⟩ := hfits k (.inl hk)
    obtain ⟨rfl, -⟩ := eq_of_target_eq h0 hlt (hfits i (.inr hi)).1 heq
    exact not_mem_chunks_of_modifiedMissing hk hi.mem_chunks
  obtain ⟨s₂, hs₂, h₂⟩ := foldlM_reverted (fun i hi => hfits i (.inr hi))
    (fun i T s h hi => chunkStep_reverted ha h hi) s₁.st.chunks.keys _ s₁ (AList.keys_nodup _) h₁
    (fun i _ hi => hT₁ i hi)
  refine ⟨s₂, ?_, h₂.congr fun j => ?_⟩
  · unfold cachefilePass
    rw [hcompletes.sum, hcompletes.commit, if_neg Bool.false_ne_true]
    exact bind_eq_ok.mpr ⟨s₁, queryLoop_eq_ok.mpr ⟨hcompletes.modified, hs₁⟩,
      bind_eq_ok.mpr ⟨s₂, queryLoop_eq_ok.mpr ⟨hcompletes.chunks, hs₂⟩, rfl⟩⟩
  · constructor
    · intro ⟨i, hbad, heq⟩
      rcases hbad with hi | hi
      · exact .inl (.inr ⟨i, mem_keys_of_modifiedMissing hi, hi, heq⟩)
      · have hmem : i ∈ s₁.st.chunks := by
          rw [← AList.lookup_isSome, (h₁.rest i (hT₁ i hi)).2, AList.lookup_isSome]
          exact hi.mem_chunks
        exact .inr ⟨i, hmem, hi, heq⟩
    · intro h
      rcases h with (hfalse | ⟨i, -, hi, heq⟩) | ⟨i, -, hi, heq⟩
      · exact hfalse.elim
      · exact ⟨i, .inl hi, heq⟩
      · exact ⟨i, .inr hi, heq⟩

end loops

/-! ## The keyring -/

/-- `validate_keyring` has nothing to say about the rows. -/
def KeysValid (P : Parcel) (keys : Keyring) : Prop :=
  ∀ r ∈ keys.entries, KeyRow.valid P r.2 = true

section keyring

variable {P : Parcel} {keys : Keyring}

theorem Complete.countsUp (hc : Complete P keys) (hvalid : KeysValid P keys) :
    CountsUp P (keys.entries.mergeSort fun r r' => r.1 ≤ r'.1) := by
  have heq := map_mergeSort_eq_range hc
  have hlen : (keys.entries.mergeSort fun r r' => r.1 ≤ r'.1).length = P.chunks := by
    simpa only [length_map, length_range] using congrArg List.length heq
  refine ⟨?_, le_of_eq hlen, fun r hr => hvalid r (mem_mergeSort.mp hr)⟩
  have hlt := P.chunks_lt
  calc (keys.entries.mergeSort fun r r' => r.1 ≤ r'.1).map (fun r => columnUnsigned r.1)
    _ = ((range P.chunks).map (Nat.cast : Nat → Int)).map columnUnsigned := by
      rw [← heq, map_map]
      rfl
    _ = (range P.chunks).map id := by
      rw [map_map]
      refine map_congr_left fun c hc' => columnUnsigned_natCast ?_
      have := mem_range.mp hc'
      omega
    _ = range _ := by rw [map_id, hlen]

/-- `ret` and `ok` tell the same. -/
def KeyCheck.Agrees (s : KeyCheck) : Prop := s.ret = .success ↔ s.ok = true

theorem KeyCheck.agrees_invalid (s : KeyCheck) : s.invalid.Agrees :=
  iff_of_false nofun nofun

theorem agrees_keyringStep {s : KeyCheck} (h : s.Agrees) (r : NumberedRow) :
    (keyringStep P s r).Agrees := by
  unfold keyringStep
  dsimp only
  split
  next => exact s.agrees_invalid
  split
  next => exact s.agrees_invalid
  split
  next =>
    split
    next => exact s.agrees_invalid
    next => exact h
  next => exact KeyCheck.agrees_invalid _

theorem agrees_foldl (rows : List NumberedRow) :
    ∀ {s : KeyCheck}, s.Agrees → (rows.foldl (keyringStep P) s).Agrees := by
  induction rows with
  | nil => exact fun h => h
  | cons r rows ih => exact fun h => ih (agrees_keyringStep h r)

/-- An attempt of `validate_keyring` that is not the last one. -/
def KeyringAttempt.Retried (a : KeyringAttempt) : Prop :=
  a.beginFails = false ∧ a.busy = true ∧ a.stops.isSome = true

theorem CountsUp.clean_seen {scan : List NumberedRow} (h : CountsUp P scan) (stops : Option Nat) :
    ((seen scan stops).foldl (keyringStep P) ⟨0, .success, true⟩).clean := by
  refine (clean_foldl _ _ (Nat.zero_le _)).mpr ⟨⟨rfl, rfl⟩, ?_⟩
  have hlen := h.length_le
  cases stops with
  | none =>
    rw [seen, Nat.zero_add]
    exact ⟨h.counts.trans range_eq_range', hlen, h.valid⟩
  | some n =>
    rw [seen, Nat.zero_add]
    refine ⟨?_, ?_, fun r hr => h.valid r (mem_of_mem_take hr)⟩
    · rw [map_take, h.counts, length_take, take_range, range_eq_range']
    · rw [length_take]
      omega

theorem attempt_spec (hc : Complete P keys) (stops : Option Nat) {s : KeyCheck} (hs : s.Agrees)
    (hclean : KeysValid P keys → s.clean) :
    let t := (seen (keys.entries.mergeSort fun r r' => r.1 ≤ r'.1) stops).foldl (keyringStep P)
      ⟨0, s.ret, s.ok⟩
    t.Agrees ∧ (KeysValid P keys → t.clean) := by
  refine ⟨agrees_foldl _ hs, fun hvalid => ?_⟩
  obtain ⟨hret, hok⟩ := hclean hvalid
  rw [hret, hok]
  exact (hc.countsUp hvalid).clean_seen stops

theorem validateKeyring_complete (hc : Complete P keys) {k : KeyringAttempt}
    (hk : k.beginFails = false) (hstops : k.stops = none) (before after : List KeyringAttempt)
    (hbefore : ∀ b ∈ before, b.Retried) :
    ∃ err ok, validateKeyring P keys (before ++ k :: after) .success true = some (err, ok) ∧
      (err = .success ↔ KeysValid P keys) := by
  -- before each attempt, `ret` and `ok` agree, and are still clean if the rows are valid
  have hrun : ∀ s : KeyCheck, s.Agrees → (KeysValid P keys → s.clean) → ∃ t : KeyCheck, t.Agrees ∧
      (KeysValid P keys → t.clean) ∧
      validateKeyring P keys (before ++ k :: after) s.ret s.ok = some (t.ret, t.ok) := by
    induction before with
    | nil =>
      intro s hs hclean
      obtain ⟨ht, htclean⟩ := attempt_spec hc none hs hclean
      refine ⟨_, ht, htclean, ?_⟩
      simp only [nil_append, validateKeyring, hk, hstops, Option.isNone_none, if_true,
        Bool.false_eq_true, if_false]
    | cons b before ih =>
      intro s hs hclean
      obtain ⟨⟨hb, hbusy, hstop⟩, hbefore⟩ := forall_mem_cons.mp hbefore
      obtain ⟨ht, htclean⟩ := attempt_spec hc b.stops hs hclean
      obtain ⟨t, hagrees, htclean', hrest⟩ := ih hbefore _ ht htclean
      refine ⟨t, hagrees, htclean', ?_⟩
      have hsome : b.stops.isNone = false := by
        rw [← Option.not_isSome, hstop]
        rfl
      rw [cons_append, validateKeyring]
      simp only [hb, hbusy, hsome, if_true, Bool.false_eq_true, if_false]
      exact hrest
  obtain ⟨t, hagrees, hclean, h⟩ := hrun ⟨0, .success, true⟩ (iff_of_true rfl rfl)
    (fun _ => ⟨rfl, rfl⟩)
  refine ⟨t.ret, t.ok, h, fun hret => ?_, fun hvalid => (hclean hvalid).1⟩
  rw [hret, hagrees.mp hret] at h
  exact fun r hr => (countsUp_of_validateKeyring h).valid r (mem_mergeSort.mpr hr)

end keyring

/-! ## validate_cache -/

section repair

variable {P : Parcel} {env : ValidateEnv} {prev : Keyring} {st st' : Store} {file : List UInt8}

/-- What is taken for granted: the database is sound, what is busy is not busy for ever, nothing
fails for another reason, and what should be in the file can be read. -/
structure Undisturbed (P : Parcel) (env : ValidateEnv) (prev : Keyring) (st : Store) : Prop where
  db : env.db = .valid
  keyring : ∃ before k after, env.keyring = before ++ k :: after ∧ (∀ b ∈ before, b.Retried) ∧
    k.beginFails = false ∧ k.stops = none
  attempts : ∃ before a after, env.attempts = before ++ a :: after ∧
    (∀ b ∈ before, b.beginFails = false ∧ b.busy = true ∧
      ∀ ok s, cachefilePass P spliceConf prev b ⟨st, .success, ok⟩ ≠ .ok s) ∧
    a.beginFails = false ∧ a.Completes ∧ a.Reads P st

/-- The rows that end up reverted. -/
def Hit (P : Parcel) (prev : Keyring) (st : Store) (j : Int) : Prop :=
  KeysValid P st.keys ∧ ∃ i, Bad P prev st i ∧ target i = j

theorem validateCachefile_reverted (hc : Complete P st.keys) {a : Attempt}
    (hbegin : a.beginFails = false) (hcompletes : a.Completes) (ha : a.Reads P st)
    (before after : List Attempt)
    (hbefore : ∀ b ∈ before, b.beginFails = false ∧ b.busy = true ∧
      ∀ ok s, cachefilePass P spliceConf prev b ⟨st, .success, ok⟩ ≠ .ok s) :
    ∀ ok, ∃ s, validateCachefile P spliceConf prev st (before ++ a :: after) ok = some s ∧
      Reverted prev (fun j => ∃ i, Bad P prev st i ∧ target i = j) st s.st := by
  induction before with
  | nil =>
    intro ok
    obtain ⟨s, hs, hrev⟩ := cachefilePass_reverted prev hc ha hcompletes .success ok
    refine ⟨s, ?_, hrev⟩
    rw [nil_append, validateCachefile, hbegin, if_neg Bool.false_ne_true, hs]
  | cons b before ih =>
    intro ok
    obtain ⟨⟨hb, hbusy, hfails⟩, hbefore⟩ := forall_mem_cons.mp hbefore
    rw [cons_append, validateCachefile, hb, if_neg Bool.false_ne_true]
    cases hpass : cachefilePass P spliceConf prev b ⟨st, .success, ok⟩ with
    | ok s => exact absurd hpass (hfails ok s)
    | error s =>
      simp only [hbusy, if_true]
      exact ih hbefore s.ok

theorem validateAll_reverted (hc : Complete P st.keys) (hu : Undisturbed P env prev st) :
    ∃ s, validateAll P spliceConf env prev st = some s ∧ Reverted prev (Hit P prev st) st s.st := by
  obtain ⟨before, k, after, hkeyring, hbefore, hk, hstops⟩ := hu.keyring
  obtain ⟨err, ok, hkeys, hvalid⟩ := validateKeyring_complete hc hk hstops before after hbefore
  rw [validateAll_valid hu.db, hkeyring, hkeys]
  by_cases herr : err = .success
  · obtain ⟨before', a, after', hattempts, hretried, hbegin, hcompletes, ha⟩ := hu.attempts
    obtain ⟨s, hs, hrev⟩ := validateCachefile_reverted hc hbegin hcompletes ha before' after'
      hretried ok
    subst herr
    rw [hattempts]
    exact ⟨s, hs, hrev.congr fun j => and_iff_right (hvalid.mp rfl)⟩
  · -- `validate_cachefile` is not called
    have hnot : ∀ j, ¬ Hit P prev st j := fun j h => herr (hvalid.mpr h.1)
    refine ⟨⟨st, err, ok⟩, ?_, (Reverted.refl prev st).congr fun j => iff_false_intro (hnot j)⟩
    cases err with
    | success => exact absurd rfl herr
    | _ => rfl

/-- Nothing has changed but the flags, which are in the header. -/
structure FlagsOnly (st st' : Store) : Prop where
  keys : st'.keys = st.keys
  chunks : st'.chunks = st.chunks
  offset : st'.offset = st.offset
  file : ∀ off len, 16 ≤ off → pread st'.file off len = pread st.file off len

theorem FlagsOnly.refl (st : Store) : FlagsOnly st st := ⟨rfl, rfl, rfl, fun _ _ _ => rfl⟩

theorem FlagsOnly.trans {s t u : Store} (h : FlagsOnly s t) (h' : FlagsOnly t u) : FlagsOnly s u :=
  ⟨h'.keys.trans h.keys, h'.chunks.trans h.chunks, h'.offset.trans h.offset,
    fun off len hle => (h'.file off len hle).trans (h.file off len hle)⟩

theorem flagsOnly_cacheSetFlags (w : FlagWrite) (st : Store) (flags : Nat) :
    FlagsOnly st (cacheSetFlags w st flags).2 := by
  have hfile : ∀ off len, 16 ≤ off →
      pread (pwrite st.file 12 (store32h (UInt32.ofNat flags))) off len = pread st.file off len :=
    fun off len hle => pread_pwrite_of_ge hle len
  cases w with
  | writeFails => exact .refl st
  | syncFails | ok => exact ⟨rfl, rfl, rfl, hfile⟩

theorem validateCache_splice (env : ValidateEnv) (prev : Keyring) (st : Store) {s : Check}
    (h : validateAll P spliceConf env prev st = some s) :
    ∃ ret st', validateCache P spliceConf env prev st = some (ret, st') ∧ FlagsOnly s.st st' := by
  have hcheck : spliceConf.check = false := rfl
  rw [validateCache, hcheck, if_neg Bool.false_ne_true, h, Option.map_some]
  split
  next =>
    refine ⟨_, _, rfl, ?_⟩
    split
    next => exact flagsOnly_cacheSetFlags _ _ _
    next => exact .refl _
  split
  next => exact ⟨_, _, rfl, .refl _⟩
  have hset := flagsOnly_cacheSetFlags env.flagWrite.1 s.st (s.st.flags ||| caDamaged)
  split
  next st₁ heq =>
    rw [cacheSetFlag] at heq
    rw [heq] at hset
    exact ⟨_, _, rfl, hset.trans (flagsOnly_cacheSetFlags _ _ _)⟩
  next err st₁ _ heq =>
    rw [cacheSetFlag] at heq
    rw [heq] at hset
    exact ⟨_, _, rfl, hset⟩

theorem Reverted.flags {T : Int → Prop} {s : Store} (h : Reverted prev T st s)
    (hflags : FlagsOnly s st') : Reverted prev T { st with file := st'.file } st' := by
  refine ⟨fun j hj => ?_, fun j hj => ?_, fun j hj => ?_, rfl, hflags.offset.trans h.offset⟩
  · rw [hflags.keys]
    exact h.keys j hj
  · rw [hflags.chunks]
    exact h.chunks j hj
  · unfold SameRows
    rw [hflags.keys, hflags.chunks]
    exact h.rest j hj

/-- `validate_cache` comes to an end, with the bad rows reverted and the flags written. -/
theorem validateCache_reverted (hc : Complete P st.keys) (hu : Undisturbed P env prev st) :
    ∃ ret st', validateCache P spliceConf env prev st = some (ret, st') ∧
      Reverted prev (Hit P prev st) { st with file := st'.file } st' ∧
      ∀ off len, 16 ≤ off → pread st'.file off len = pread st.file off len := by
  obtain ⟨s, hs, hrev⟩ := validateAll_reverted hc hu
  obtain ⟨ret, st', h, hflags⟩ := validateCache_splice env prev st hs
  exact ⟨ret, st', h, hrev.flags hflags, fun off len hle => hrev.file ▸ hflags.file off len hle⟩

/-! ## When it is a repair -/

/-- A row that the keyring may have is hit iff its chunk is bad and its number fits an `int`. -/
theorem hit_iff (hc : Complete P st.keys) {j : Int} (hj : 0 ≤ j) :
    Hit P prev st j ↔ Bad P prev st j ∧ KeysValid P st.keys ∧ j < 2 ^ 31 := by
  constructor
  · intro ⟨hvalid, i, hbad, heq⟩
    obtain ⟨h0, hlt⟩ := hc.fits hbad.mem_keys
    obtain ⟨rfl, hint⟩ := eq_of_target_eq h0 hlt hj heq
    exact ⟨hbad, hvalid, hint⟩
  · intro ⟨hbad, hvalid, hint⟩
    exact ⟨hvalid, j, hbad, target_of_lt hj hint⟩

theorem Matches.not_bad {i : Int} (h : Matches P st i) : ¬ Bad P prev st i := by
  obtain ⟨length, row, buf, hchunks, hkeys, hread, htag⟩ := h
  intro hbad
  rcases hbad with hmissing | hbad
  · refine not_mem_chunks_of_modifiedMissing hmissing (AList.lookup_isSome.mp ?_)
    rw [hchunks]
    rfl
  · obtain ⟨length', row', hrow, -⟩ := id hbad
    cases hrow.keys.symm.trans hkeys
    cases hrow.chunks.symm.trans hchunks
    exact (badData_iff_of_read hrow hread).mp hbad htag

theorem not_bad_of_quiet {i : Int} (hi : i ∉ st.chunks)
    (hdiff : Server.keydiff st.keys prev i = false) : ¬ Bad P prev st i := by
  intro hbad
  rcases hbad with hmissing | hbad
  · unfold modifiedMissing at hmissing
    split at hmissing
    next row old hrow hold =>
      rw [Server.keydiff, hrow, hold] at hdiff
      exact of_decide_eq_false hdiff (of_decide_eq_true hmissing).1
    next => cases hmissing
  · exact hi hbad.mem_chunks

/-- The flags in the header are not in the data of a chunk, if this starts behind them. -/
theorem badData_file_iff (hoffset : 16 ≤ st.offset)
    (hfile : ∀ off len, 16 ≤ off → pread file off len = pread st.file off len) {i : Int} :
    BadData P { st with file } i ↔ BadData P st i := by
  have hread : ∀ len tag, cacheReadChunk P { st with file } false (columnUnsigned i) len tag
      = cacheReadChunk P st false (columnUnsigned i) len tag := by
    intro len tag
    refine cacheReadChunk_congr (hfile _ len ?_) false tag
    rw [cacheChunkToOffset]
    exact Nat.le_add_left_of_le hoffset
  have hsane : ∀ length row, RowSane P { st with file } i length row ↔ RowSane P st i length row :=
    fun length row => ⟨fun h => ⟨h.chunks, h.keys, h.chunk_le, h.len_le, h.len_pos, h.tag⟩,
      fun h => ⟨h.chunks, h.keys, h.chunk_le, h.len_le, h.len_pos, h.tag⟩⟩
  simp only [BadData, hread, hsane]

/-- Splicing is a repair iff every chunk that is bad is found and can be reverted. -/
theorem repaired_iff (hc : Complete P st.keys) (hoffset : 16 ≤ st.offset)
    (hfile : ∀ off len, 16 ≤ off → pread st'.file off len = pread st.file off len)
    (hrev : Reverted prev (Hit P prev st) { st with file := st'.file } st') :
    Repaired P prev st st' ↔ ∀ i, Bad P prev st i → KeysValid P st.keys ∧ i < 2 ^ 31 := by
  have hspared : ∀ i, 0 ≤ i → ¬ Bad P prev st i → SameRows st st' i :=
    fun i h0 hi => hrev.rest i fun hhit => hi ((hit_iff hc h0).mp hhit).1
  have hdata : ∀ i, BadData P st' i ↔ ¬ Hit P prev st i ∧ BadData P st i := fun i => by
    rw [hrev.badData_iff, badData_file_iff hoffset hfile]
  constructor
  · intro h i hbad
    have h0 := (hc.fits hbad.mem_keys).1
    by_contra hnot
    -- the row has not been touched
    have hmiss : ¬ Hit P prev st i := fun hhit => hnot ((hit_iff hc h0).mp hhit).2
    rcases hbad with hi | hi
    · cases (h.modified i).symm.trans ((hrev.modifiedMissing_eq hmiss).trans hi)
    · exact h.data i ((hdata i).mpr ⟨hmiss, hi⟩)
  · intro h
    have hhit : ∀ i, Bad P prev st i → Hit P prev st i := fun i hi =>
      (hit_iff hc (hc.fits hi.mem_keys).1).mpr ⟨hi, h i hi⟩
    refine ⟨fun i h0 _ hi => hspared i h0 hi.not_bad,
      fun i h0 _ hi hdiff => hspared i h0 (not_bad_of_quiet hi hdiff), fun i => ?_, fun i hi => ?_⟩
    · by_cases hT : Hit P prev st i
      · exact hrev.not_modifiedMissing hT
      · rw [hrev.modifiedMissing_eq hT]
        exact eq_false_of_ne_true fun hi => hT (hhit i (.inl hi))
    · obtain ⟨hmiss, hbad⟩ := (hdata i).mp hi
      exact hmiss (hhit i (.inr hbad))

end repair

/-! ## Both ways -/

/-- No faults at all. -/
def spliceEnv : ValidateEnv := readErrorsEnv fun _ => false

theorem undisturbed_spliceEnv {P : Parcel} {prev : Keyring} {st : Store}
    (hread : ∀ i length row, RowSane P st i length row → ∃ buf,
      cacheReadChunk P st false (columnUnsigned i) (columnUnsigned length) none = .ok buf) :
    Undisturbed P spliceEnv prev st :=
  ⟨rfl, ⟨[], _, [], rfl, nofun, rfl, rfl⟩,
    ⟨[], _, [], rfl, nofun, rfl, ⟨rfl, rfl, rfl, rfl⟩, fun _ => rfl,
      fun i length row h => ⟨rfl, hread i length row h⟩⟩⟩

/-- The data of the second chunk is not what the keyring says. -/
def damagedStore : Store :=
  ⟨twoKeys, twoIndex, replicate 1024 0 ++ replicate 512 1, 512, 0⟩

theorem complete_two : Complete twoParcel twoKeys := by
  intro i
  rw [twoKeys, AList.mem_insert, AList.mem_insert]
  have hchunks : ((twoParcel.chunks : Nat) : Int) = 2 := rfl
  simp only [AList.notMem_empty, or_false, hchunks]
  omega

theorem keysValid_two : KeysValid twoParcel twoKeys := by
  intro r hr
  have hr : r = ⟨0, zeroRow⟩ ∨ r = ⟨1, zeroRow⟩ := by simpa [twoKeys] using hr
  rcases hr with rfl | rfl <;> exact zeroRow_valid

/-- The keyring of `n` chunks that are all zeros. -/
def countedKeys (n : Nat) : Keyring where
  entries := (range n).map fun c : Nat => ⟨c, zeroRow⟩
  nodupKeys := by
    rw [List.NodupKeys, List.keys, map_map]
    exact nodup_range.map Nat.cast_injective

theorem lookup_countedKeys {n : Nat} {i : Int} (h0 : 0 ≤ i) (h : i < n) :
    (countedKeys n).lookup i = some zeroRow := by
  refine AList.mem_lookup_iff.mpr (mem_map.mpr ⟨i.toNat, mem_range.mpr (by omega), ?_⟩)
  rw [Int.toNat_of_nonneg h0]

theorem complete_countedKeys {P : Parcel} {n : Nat} (hn : P.chunks = n) :
    Complete P (countedKeys n) := by
  intro i
  rw [hn]
  constructor
  · intro hi
    obtain ⟨r, hr, rfl⟩ := mem_map.mp hi
    obtain ⟨c, hc, rfl⟩ := mem_map.mp hr
    have := mem_range.mp hc
    dsimp only
    omega
  · intro ⟨h0, hlt⟩
    exact AList.lookup_isSome.mp (Option.isSome_of_eq_some (lookup_countedKeys h0 hlt))

/-- A parcel with one chunk more than an `int` can count, -/
def bigParcel : Parcel := tinyParcel.withChunks (2 ^ 31 + 1) (by decide)

/-- with nothing in the local cache -/
def bigStore : Store :=
  ⟨countedKeys (2 ^ 31 + 1), ∅,
    [0x51, 0x52, 0x80, 0x38, 0x80, 0, 0, 1, 0, 0, 0, 1, 0, 0, 0, 0, 0, 0, 0, 0, 1, 0, 0, 0], 512, 0⟩

/-- and another tag for the last chunk in the previous keyring. -/
def bigPrev : Keyring := AList.insert (2 ^ 31) { zeroRow with tag := [] } ∅

theorem modifiedMissing_big : modifiedMissing bigPrev bigStore (2 ^ 31) = true := by
  have htag : zeroRow.tag ≠ [] := by
    intro heq
    have hlen : zeroRow.tag.length = 20 := by
      rw [zeroRow, iuChunkCryptoDigest_eq]
      exact sha1_length _
    rw [heq] at hlen
    cases hlen
  have hkeys : bigStore.keys.lookup (2 ^ 31) = some zeroRow :=
    lookup_countedKeys (by decide) (by decide)
  have hprev : bigPrev.lookup (2 ^ 31) = some { zeroRow with tag := [] } := AList.lookup_insert _
  have hchunks : (2 ^ 31 : Int) ∉ bigStore.chunks := AList.notMem_empty _
  exact modifiedMissing_of hkeys hprev htag hchunks

end OpenIsr.Cache
