import Mathlib.Data.List.Sort
import OpenIsr.Cache.Validate

/-!
# What validate_keyring accepts

The rows of `keys` come in the order of their chunk numbers, and `validate_keyring` counts along.
`keyringScan_iff` says what it accepts: the numbers, cut down to 32 bits, are 0, 1, 2 and so on,
and every row is valid.

That is not yet a keyring for the parcel. There is no check behind the loop, so that the rows may
end early, and a number or a compression type that does not fit 32 bits is taken for another.
`keyring_exact_iff` has both.
-/

namespace OpenIsr.Cache

open Base Crypto Util List

/-- A row of `keys` with its chunk number. -/
abbrev NumberedRow : Type := Sigma fun _ : Int => KeyRow

/-- `validate_keyring` with the rows that its query gives, if no call fails. -/
def keyringScan (P : Parcel) (rows : List NumberedRow) : PkErr × Bool :=
  let s := rows.foldl (keyringStep P) ⟨0, .success, true⟩
  (s.ret, s.ok)

theorem validateKeyring_eq_scan (P : Parcel) (keys : Keyring) (busy : Bool) :
    validateKeyring P keys [⟨false, none, busy⟩] .success true
      = some (keyringScan P (keys.entries.mergeSort fun r r' => r.1 ≤ r'.1)) := rfl

/-- A compression type that is enabled, before anything is cut down. -/
def Enabled (P : Parcel) (compression : Int) : Prop :=
  0 ≤ compression ∧ iuChunkCompressIsEnabled P.requiredCompress compression.toNat = true

/-- The table is a keyring for the parcel. -/
structure KeyringExact (P : Parcel) (rows : List NumberedRow) : Prop where
  once : ∀ c < P.chunks, (rows.map Sigma.fst).count (c : Int) = 1
  noOther : ∀ r ∈ rows, 0 ≤ r.1 ∧ r.1 < P.chunks
  tag : ∀ r ∈ rows, r.2.tag.length = hashlen
  key : ∀ r ∈ rows, r.2.key.length = hashlen
  compression : ∀ r ∈ rows, Enabled P r.2.compression

/-- The chunk numbers count up from 0, as far as 32 bits tell, and the rows are valid. -/
structure CountsUp (P : Parcel) (scan : List NumberedRow) : Prop where
  counts : scan.map (fun r => columnUnsigned r.1) = range scan.length
  length_le : scan.length ≤ P.chunks
  valid : ∀ r ∈ scan, r.2.valid P = true

/-- There is a row for every chunk, and nothing is cut down. -/
structure Whole (P : Parcel) (scan : List NumberedRow) : Prop where
  length_eq : scan.length = P.chunks
  chunk : ∀ r ∈ scan, 0 ≤ r.1 ∧ r.1 < 2 ^ 32
  compression : ∀ r ∈ scan, 0 ≤ r.2.compression ∧ r.2.compression < 2 ^ 32

variable {P : Parcel} {n : Nat} {rows scan : List NumberedRow} {keys : Keyring} {i : Int}

/-! ## The loop -/

/-- Nothing has been found. -/
def KeyCheck.clean (s : KeyCheck) : Prop := s.ret = .success ∧ s.ok = true

theorem clean_keyringStep (s : KeyCheck) (r : NumberedRow) :
    (keyringStep P s r).clean ↔ s.clean ∧ columnUnsigned r.1 = s.expectedChunk ∧
      s.expectedChunk < P.chunks ∧ r.2.valid P = true := by
  have hinvalid : ∀ t : KeyCheck, ¬ t.invalid.clean := fun t h => PkErr.noConfusion h.1
  unfold keyringStep
  dsimp only
  split
  next hbig => exact iff_of_false (hinvalid s) fun h => by omega
  next hbig =>
    split
    next hlow => exact iff_of_false (hinvalid s) fun h => by omega
    next hlow =>
      split
      next hvalid =>
        split
        next hgap => exact iff_of_false nofun fun h => by omega
        next hgap => exact ⟨fun h => ⟨h, by omega, by omega, hvalid⟩, fun h => h.1⟩
      next hvalid => exact iff_of_false (hinvalid _) fun h => hvalid h.2.2.2

theorem expectedChunk_keyringStep {s : KeyCheck} {r : NumberedRow}
    (h : (keyringStep P s r).clean) : (keyringStep P s r).expectedChunk = s.expectedChunk + 1 := by
  obtain ⟨-, heq, hlt, hvalid⟩ := (clean_keyringStep s r).mp h
  simp only [keyringStep, heq, not_le.mpr hlt, lt_irrefl, hvalid, if_false, if_true]

theorem not_clean_foldl (scan : List NumberedRow) :
    ∀ {s : KeyCheck}, ¬ s.clean → ¬ (scan.foldl (keyringStep P) s).clean := by
  induction scan with
  | nil => exact fun hs => hs
  | cons r scan ih => exact fun hs => ih fun h => hs ((clean_keyringStep _ r).mp h).1

/-- The loop goes through without a word iff the rows count up from where it is. -/
theorem clean_foldl (scan : List NumberedRow) : ∀ s : KeyCheck, s.expectedChunk ≤ P.chunks →
    ((scan.foldl (keyringStep P) s).clean ↔ s.clean ∧
      scan.map (fun r => columnUnsigned r.1) = List.range' s.expectedChunk scan.length ∧
      s.expectedChunk + scan.length ≤ P.chunks ∧ ∀ r ∈ scan, r.2.valid P = true) := by
  induction scan with
  | nil =>
    intro s hle
    simp [hle]
  | cons r scan ih =>
    intro s hle
    rw [foldl_cons]
    by_cases hstep : (keyringStep P s r).clean
    · have hnext := expectedChunk_keyringStep hstep
      obtain ⟨hclean, heq, hlt, hvalid⟩ := (clean_keyringStep s r).mp hstep
      rw [ih _ (by omega), hnext]
      simp only [hstep, hclean, true_and, map_cons, length_cons, range'_succ, heq,
        List.cons.injEq, forall_mem_cons, hvalid]
      exact and_congr_right' (and_congr_left' (by omega))
    · refine iff_of_false (not_clean_foldl scan hstep) fun ⟨hclean, hcounts, hlen, hvalid⟩ => ?_
      rw [map_cons, length_cons, range'_succ, List.cons.injEq] at hcounts
      rw [length_cons] at hlen
      exact hstep ((clean_keyringStep s r).mpr
        ⟨hclean, hcounts.1, by omega, hvalid r mem_cons_self⟩)

theorem keyringScan_iff (scan : List NumberedRow) :
    keyringScan P scan = (.success, true) ↔ CountsUp P scan := by
  have hfold := clean_foldl (P := P) scan ⟨0, .success, true⟩ (Nat.zero_le _)
  have hscan : keyringScan P scan = (.success, true) ↔
      (scan.foldl (keyringStep P) ⟨0, .success, true⟩).clean := by
    simp only [keyringScan, Prod.mk.injEq, KeyCheck.clean]
  rw [hscan, hfold]
  simp only [Nat.zero_add, ← range_eq_range']
  exact ⟨fun ⟨_, hc, hl, hv⟩ => ⟨hc, hl, hv⟩, fun h => ⟨⟨rfl, rfl⟩, h.counts, h.length_le, h.valid⟩⟩

theorem countsUp_of_validateKeyring {attempts : List KeyringAttempt} :
    ∀ {ret : PkErr} {ok : Bool},
    validateKeyring P keys attempts ret ok = some (.success, true) →
    CountsUp P (keys.entries.mergeSort fun r r' => r.1 ≤ r'.1) := by
  induction attempts with
  | nil => exact fun h => nomatch h
  | cons a attempts ih =>
    intro ret ok h
    unfold validateKeyring at h
    dsimp only at h
    split at h
    next => cases h
    split at h
    next hstops =>
      rw [Option.isNone_iff_eq_none.mp hstops] at h
      obtain ⟨hret, hok⟩ := Prod.mk.inj (Option.some.inj h)
      obtain ⟨-, hcounts, hlen, hvalid⟩ :=
        (clean_foldl _ ⟨0, ret, ok⟩ (Nat.zero_le _)).mp ⟨hret, hok⟩
      rw [seen] at hcounts hlen hvalid
      refine ⟨?_, ?_, hvalid⟩
      · rw [hcounts, range_eq_range']
      · simpa only [Nat.zero_add] using hlen
    split at h
    next => exact ih h
    next => cases h

/-! ## Exactness -/

theorem columnUnsigned_of_fits (h : 0 ≤ i ∧ i < 2 ^ 32) : columnUnsigned i = i.toNat := by
  unfold columnUnsigned
  rw [Int.emod_eq_of_lt h.1 h.2]

theorem Enabled.fits (h : Enabled P i) : 0 ≤ i ∧ i < 2 ^ 32 := by
  obtain ⟨hpos, hen⟩ := h
  unfold iuChunkCompressIsEnabled at hen
  split at hen
  next => cases hen
  next hrange =>
    refine ⟨hpos, ?_⟩
    omega

theorem valid_iff {row : KeyRow} (h : 0 ≤ row.compression ∧ row.compression < 2 ^ 32) :
    row.valid P = true ↔
      row.tag.length = hashlen ∧ row.key.length = hashlen ∧ Enabled P row.compression := by
  simp only [KeyRow.valid, Enabled, columnUnsigned_of_fits h, Bool.and_eq_true, beq_iff_eq, h.1,
    true_and, and_assoc]

/-- Each chunk number once and no other: a permutation of the chunk numbers. -/
theorem perm_range_iff :
    (rows.map Sigma.fst).Perm ((range n).map Nat.cast) ↔
      (∀ c < n, (rows.map Sigma.fst).count (c : Int) = 1) ∧
      ∀ r ∈ rows, 0 ≤ r.1 ∧ r.1 < n := by
  have hnodup : ((range n).map (Nat.cast : Nat → Int)).Nodup :=
    nodup_range.map Nat.cast_injective
  have hmem : ∀ i : Int, i ∈ (range n).map (Nat.cast : Nat → Int) ↔
      0 ≤ i ∧ i < n := by
    intro i
    simp only [mem_map, mem_range]
    constructor
    · rintro ⟨c, hc, rfl⟩
      omega
    · exact fun ⟨h0, hlt⟩ => ⟨i.toNat, by omega, by omega⟩
  constructor
  · intro hperm
    refine ⟨fun c hc => ?_, fun r hr => ?_⟩
    · rw [hperm.count_eq]
      exact count_eq_one_of_mem hnodup ((hmem c).mpr (by omega))
    · exact (hmem r.1).mp (hperm.mem_iff.mp (mem_map_of_mem hr))
  · rintro ⟨honce, hother⟩
    refine perm_iff_count.mpr fun i => ?_
    by_cases hi : 0 ≤ i ∧ i < n
    · rw [count_eq_one_of_mem hnodup ((hmem i).mpr hi)]
      have := honce i.toNat (by omega)
      rwa [Int.toNat_of_nonneg hi.1] at this
    · rw [count_eq_zero_of_not_mem fun h => hi ((hmem i).mp h)]
      refine count_eq_zero_of_not_mem fun h => hi ?_
      obtain ⟨r, hr, rfl⟩ := mem_map.mp h
      exact hother r hr

/-- In order, the chunk numbers of an exact keyring are those of the parcel. -/
theorem sorted_eq_range (hsorted : scan.Pairwise fun r r' => r.1 ≤ r'.1)
    (hperm : (scan.map Sigma.fst).Perm ((range n).map Nat.cast)) :
    scan.map Sigma.fst = (range n).map (Nat.cast : Nat → Int) := by
  refine List.Perm.eq_of_pairwise' (r := (· ≤ ·)) ?_ ?_ hperm
  · exact pairwise_map.mpr hsorted
  · refine pairwise_map.mpr (pairwise_lt_range.imp fun h => ?_)
    omega

/-- The query gives the rows of a keyring that has the first chunk numbers, in order. -/
theorem map_mergeSort_eq_range (h : ∀ c : Int, c ∈ keys ↔ 0 ≤ c ∧ c < n) :
    (keys.entries.mergeSort fun r r' => r.1 ≤ r'.1).map Sigma.fst
      = (range n).map (Nat.cast : Nat → Int) := by
  have hperm := mergeSort_perm keys.entries fun r r' => r.1 ≤ r'.1
  have hsorted : (keys.entries.mergeSort fun r r' => r.1 ≤ r'.1).Pairwise
      fun r r' => r.1 ≤ r'.1 := by
    refine (pairwise_mergeSort ?_ ?_ keys.entries).imp of_decide_eq_true
    · intro r r' r'' h h'
      simp only [decide_eq_true_eq] at h h' ⊢
      exact h.trans h'
    · intro r r'
      simp only [Bool.or_eq_true, decide_eq_true_eq]
      exact le_total _ _
  -- each number once and no other
  have hkeys : (keys.entries.map Sigma.fst).Perm ((range n).map Nat.cast) := by
    refine perm_range_iff.mpr ⟨fun c hc => ?_, fun r hr => ?_⟩
    · exact count_eq_one_of_mem (AList.keys_nodup keys) ((h c).mpr (by omega))
    · exact (h r.1).mp (mem_map_of_mem hr)
  exact sorted_eq_range hsorted ((hperm.map Sigma.fst).trans hkeys)

theorem keyringExact_iff (hperm : scan.Perm rows) (hsorted : scan.Pairwise fun r r' => r.1 ≤ r'.1) :
    KeyringExact P rows ↔ CountsUp P scan ∧ Whole P scan := by
  have hall : ∀ {p : NumberedRow → Prop}, (∀ r ∈ rows, p r) ↔ ∀ r ∈ scan, p r :=
    fun {p} => forall_congr' fun r => by rw [hperm.mem_iff]
  constructor
  · rintro ⟨honce, hother, htag, hkey, hcomp⟩
    have heq := sorted_eq_range hsorted
      ((hperm.map Sigma.fst).trans (perm_range_iff.mpr ⟨honce, hother⟩))
    have hlen : scan.length = P.chunks := by
      simpa only [length_map, length_range] using congrArg List.length heq
    have hchunks := P.chunks_lt
    have hfits : ∀ r ∈ scan, 0 ≤ r.1 ∧ r.1 < 2 ^ 32 := by
      intro r hr
      have := hall.mp hother r hr
      omega
    refine ⟨⟨?_, le_of_eq hlen, fun r hr => ?_⟩, hlen, hfits, fun r hr => ?_⟩
    · calc scan.map (fun r => columnUnsigned r.1)
        _ = (scan.map Sigma.fst).map Int.toNat := by
          rw [map_map]
          exact map_congr_left fun r hr => columnUnsigned_of_fits (hfits r hr)
        _ = range scan.length := by
          rw [heq, map_map, hlen]
          exact map_id' _
    · exact (valid_iff (hall.mp hcomp r hr).fits).mpr
        ⟨hall.mp htag r hr, hall.mp hkey r hr, hall.mp hcomp r hr⟩
    · exact (hall.mp hcomp r hr).fits
  · rintro ⟨⟨hcounts, -, hvalid⟩, hlen, hfits, hcomp⟩
    have heq : scan.map Sigma.fst = (range P.chunks).map (Nat.cast : Nat → Int) := by
      rw [← hlen, ← hcounts, map_map]
      refine map_congr_left fun r hr => ?_
      have := (hfits r hr).1
      simp only [Function.comp_apply, columnUnsigned_of_fits (hfits r hr)]
      omega
    obtain ⟨honce, hother⟩ := perm_range_iff.mp
      ((hperm.map Sigma.fst).symm.trans (List.Perm.of_eq heq))
    have hgood := fun r hr => (valid_iff (hcomp r hr)).mp (hvalid r hr)
    exact ⟨honce, hother, hall.mpr fun r hr => (hgood r hr).1,
      hall.mpr fun r hr => (hgood r hr).2.1, hall.mpr fun r hr => (hgood r hr).2.2⟩

/-- `validate_keyring` accepts exactly the keyrings of the parcel, unless the rows of the table end
early or have something that is cut down, and it is only this that is wrong with them. -/
theorem keyring_exact_iff (P : Parcel) (rows scan : List NumberedRow) (hperm : scan.Perm rows)
    (hsorted : scan.Pairwise fun r r' => r.1 ≤ r'.1) :
    (keyringScan P scan = (.success, true) ↔ KeyringExact P rows) ↔
      (CountsUp P scan → Whole P scan) := by
  rw [keyringScan_iff, keyringExact_iff hperm hsorted]
  exact ⟨fun h hcounts => (h.mp hcounts).2, fun h => ⟨fun hc => ⟨hc, h hc⟩, fun h => h.1⟩⟩

/-- The two rows in the other order. -/
def swappedRows : List NumberedRow := [⟨1, zeroRow⟩, ⟨0, zeroRow⟩]

theorem keyring_exact_two :
    KeyringExact twoParcel swappedRows ∧
      keyringScan twoParcel swappedRows.reverse = (.success, true) := by
  have hvalid : zeroRow.valid twoParcel = true := zeroRow_valid
  have hcounts : CountsUp twoParcel swappedRows.reverse := by
    refine ⟨rfl, le_refl 2, fun r hr => ?_⟩
    simp only [swappedRows, reverse_cons, reverse_nil, nil_append, cons_append,
      mem_cons, not_mem_nil, or_false] at hr
    rcases hr with rfl | rfl <;> exact hvalid
  have hwhole : Whole twoParcel swappedRows.reverse := by
    refine ⟨rfl, ?_, ?_⟩ <;>
      · intro r hr
        simp only [swappedRows, reverse_cons, reverse_nil, nil_append,
          cons_append, mem_cons, not_mem_nil, or_false] at hr
        rcases hr with rfl | rfl <;> decide
  have hscan := (keyringScan_iff swappedRows.reverse).mpr hcounts
  exact ⟨((keyring_exact_iff twoParcel swappedRows swappedRows.reverse (reverse_perm _)
    (by decide)).mpr fun _ => hwhole).mp hscan, hscan⟩

/-- A table with no rows is accepted, and so is one with the row of chunk `2^32` instead of 0. -/
theorem keyring_ends_early :
    (keyringScan tinyParcel [] = (.success, true) ∧ ¬ KeyringExact tinyParcel []) ∧
      keyringScan tinyParcel [⟨2 ^ 32, zeroRow⟩] = (.success, true) ∧
      ¬ KeyringExact tinyParcel [⟨2 ^ 32, zeroRow⟩] := by
  refine ⟨⟨rfl, fun h => ?_⟩, (keyringScan_iff _).mpr ⟨rfl, le_refl 1, fun r hr => ?_⟩,
    fun h => ?_⟩
  · exact absurd (h.once 0 (by decide)) (by decide)
  · obtain rfl := mem_singleton.mp hr
    exact zeroRow_valid
  · exact absurd (h.noOther _ mem_cons_self).2 (by decide)

end OpenIsr.Cache
