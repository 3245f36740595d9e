import OpenIsr.Crypto.LzfTable
import OpenIsr.Util.RoundTrip

/-!
# Convergent encoding

Equal chunks should be encoded equally, whatever was in memory when `iu_chunk_encode` was
called. `lzf_compress` says `memset(htab, 0, sizeof (htab))`, but `htab` is a parameter, so
that this clears one pointer of the table that `lzf_alloc` has not initialised.
`chunk_convergent_iff` says for which chunks that shows.
-/

namespace OpenIsr.Util

open Crypto Base Lzf Option

/-- The result does not depend on what is in memory. -/
def Convergent (lib : Lib) (crypto : ChunkCrypto) (compress : ChunkCompress)
    (plain : List UInt8) : Prop :=
  ∀ s₁ s₂, iuChunkEncode lib s₁ crypto plain compress = iuChunkEncode lib s₂ crypto plain compress

section

variable {lib : Lib} {s s' : Scratch} {plain c c' : List UInt8} {compress : ChunkCompress}
  {crypto : ChunkCrypto}

theorem encrypt?_inj (hlt : plain.length < 2 ^ 32) (hlen : c.length + 16 < plain.length)
    (hlen' : c'.length + 16 < plain.length)
    (h : encrypt? lib plain (some c) compress = encrypt? lib plain (some c') compress) :
    c = c' := by
  obtain ⟨out, henc, -, hdec⟩ := encrypt?_some_eq lib compress hlen hlt
  obtain ⟨out', henc', -, hdec'⟩ := encrypt?_some_eq lib compress hlen' hlt
  rw [henc, henc', some.injEq, Encoded.mk.injEq] at h
  obtain ⟨rfl, -, hkey, -⟩ := h
  rw [hkey, hdec'] at hdec
  exact (Except.ok.inj hdec).symm

theorem encrypt?_compress {c? : Option (List UInt8)} {enc : Encoded}
    (h : encrypt? lib plain c? compress = some enc) : enc.compress = compress := by
  unfold encrypt? at h
  simp only at h
  split at h
  next => cases h
  split at h
  next => cases h
  next => rw [← some.inj h]

theorem compressed?_length (h0 : plain.length ≠ 0) :
    ∀ c ∈ compressed? lib s plain .lzf, c.length ≤ plain.length := by
  intro c hc
  simp only [compressed?, compressFinal, lzfDoCompress, reduceCtorEq, if_false, if_neg h0] at hc
  cases hlzf : lzfCompress (mem plain) plain.length plain.length s.base s.htab with
  | none => simp [hlzf] at hc
  | some d =>
    simp only [hlzf, mem_def, ite_none_left_eq_some, some.injEq] at hc
    rw [← hc.2]
    exact lzfCompress_length hlzf

theorem encrypt?_short (hpos : 0 < plain.length) (hlt : plain.length < 16)
    {c? : Option (List UInt8)} (hle : ∀ c ∈ c?, c.length ≤ plain.length)
    (compress : ChunkCompress) :
    encrypt? lib plain c? compress = none := by
  cases c? with
  | none =>
    have hmod : plain.length % 16 ≠ 0 := by omega
    simp [encrypt?, hashFinal_update, cipherInit_digest, cipherProcess, cbcEncrypt, hmod,
      Except.map]
  | some c =>
    have hroom : plain.length < (c.length - c.length % 16 + 16) % 2 ^ 32 := by
      have := hle c rfl
      omega
    simp [-Nat.reducePow, encrypt?, hashFinal_update, cipherInit_digest, cipherFinal, hroom, throw,
      throwThe, MonadExceptOf.throw, bind, Except.bind]

theorem encode_congr (h : compressed? lib s plain compress = compressed? lib s' plain compress) :
    iuChunkEncode lib s crypto plain compress = iuChunkEncode lib s' crypto plain compress := by
  unfold iuChunkEncode
  rw [h]

/-- Where one call keeps the result of LZF, a call with the same result does too. -/
theorem compressed?_of_encode_eq (h16 : 16 ≤ plain.length) (hlt : plain.length < 2 ^ 32)
    (hc : compressed? lib s plain .lzf = some c)
    (h : iuChunkEncode lib s .aesSha1 plain .lzf = iuChunkEncode lib s' .aesSha1 plain .lzf) :
    compressed? lib s' plain .lzf = some c := by
  have hne : ChunkCompress.lzf ≠ .unknown := nofun
  have hlen := ((compressed?_lzf h16 hlt).mp hc).2
  obtain ⟨out, henc, -⟩ := encrypt?_some_eq lib .lzf hlen hlt
  rw [iuChunkEncode_eq hne, iuChunkEncode_eq hne, hc] at h
  cases hc' : compressed? lib s' plain .lzf with
  | none =>
    rw [hc', isSome_some, if_pos rfl, henc] at h
    exact absurd (encrypt?_compress h.symm) nofun
  | some c' =>
    rw [hc', isSome_some, isSome_some] at h
    rw [encrypt?_inj hlt hlen ((compressed?_lzf h16 hlt).mp hc').2 h]

theorem compressed?_of_ne_lzf (h : compress ≠ .lzf) :
    compressed? lib s plain compress = compressed? lib s' plain compress := by
  cases compress with
  | unknown | none | zlib => rfl
  | lzf => exact absurd rfl h

theorem compressed?_of_not_stale (h : ¬ Stale (mem plain) plain.length plain.length) :
    compressed? lib s plain .lzf = compressed? lib s' plain .lzf := by
  simp only [compressed?, compressFinal, lzfDoCompress, lzfCompress_eq_clean h s.base s.htab,
    lzfCompress_eq_clean h s'.base s'.htab]

theorem compressed?_of_not_saves (h16 : 16 ≤ plain.length) (hlt : plain.length < 2 ^ 32)
    (h : ¬ lzfSaves s plain) : compressed? lib s plain .lzf = none := by
  rw [eq_none_iff_forall_ne_some]
  intro c hc
  exact h ⟨c, (compressed?_lzf h16 hlt).mp hc⟩

theorem convergent_short (hlt : plain.length < 16) :
    iuChunkEncode lib s crypto plain .lzf = iuChunkEncode lib s' crypto plain .lzf := by
  by_cases h0 : plain.length = 0
  · apply encode_congr
    simp only [compressed?, compressFinal, lzfDoCompress, if_pos h0]
  · unfold iuChunkEncode
    simp only [encrypt?_short (Nat.pos_of_ne_zero h0) hlt (compressed?_length h0)]

end

/-- The encoding of a chunk does not depend on what is in memory, except for a chunk that is
compressed with LZF for some contents and for which an old table entry can matter. -/
theorem chunk_convergent_iff (lib : Lib) (crypto : ChunkCrypto) (compress : ChunkCompress)
    (plain : List UInt8) (hlt : plain.length < 2 ^ 32) :
    Convergent lib crypto compress plain ↔
      ¬ (crypto = .aesSha1 ∧ compress = .lzf ∧ Stale (mem plain) plain.length plain.length ∧
        ∃ s, lzfSaves s plain) := by
  constructor
  · rintro hconv ⟨rfl, rfl, hst, s, c, hc⟩
    have h16 : 16 ≤ plain.length := by omega
    obtain ⟨htab, hother⟩ := exists_other_table hst
    -- all calls keep the same result, but the two tables give different ones
    have hall : ∀ s', compressed? lib s' plain .lzf = some c := fun s' =>
      compressed?_of_encode_eq h16 hlt ((compressed?_lzf h16 hlt).mpr hc) (hconv s s')
    have h₀ := ((compressed?_lzf h16 hlt).mp (hall ⟨1, Nat.one_pos, fun _ => 0⟩)).1
    have h₁ := ((compressed?_lzf h16 hlt).mp (hall ⟨1, Nat.one_pos, htab⟩)).1
    exact hother c c h₀ h₁ rfl
  · intro hno s₁ s₂
    by_cases hcrypto : crypto = .aesSha1
    · by_cases hcomp : compress = .lzf
      · subst hcrypto hcomp
        by_cases h16 : 16 ≤ plain.length
        · by_cases hst : Stale (mem plain) plain.length plain.length
          · have hsave : ∀ s, ¬ lzfSaves s plain := fun s h => hno ⟨rfl, rfl, hst, s, h⟩
            exact encode_congr ((compressed?_of_not_saves h16 hlt (hsave s₁)).trans
              (compressed?_of_not_saves h16 hlt (hsave s₂)).symm)
          · exact encode_congr (compressed?_of_not_stale hst)
        · exact convergent_short (Nat.lt_of_not_le h16)
      · exact encode_congr (compressed?_of_ne_lzf hcomp)
    · cases crypto with
      | unknown => simp [iuChunkEncode]
      | aesSha1 => exact absurd rfl hcrypto

/-- The bytes `3, 4, 9` come twice, for the first time at the end of the match of
`1, 2, 3, 4`. -/
def doublet : List UInt8 :=
  [7, 1, 2, 3, 4, 5, 6, 1, 2, 3, 4, 9, 8, 3, 4, 9] ++ List.replicate 48 0

/-- If the table has an old pointer to that place, the second one becomes a match. -/
theorem chunk_divergent : ∃ s₁ s₂ : Scratch, ∀ lib,
    iuChunkEncode lib s₁ .aesSha1 doublet .lzf ≠ iuChunkEncode lib s₂ .aesSha1 doublet .lzf := by
  refine ⟨⟨4096, by decide, fun _ => 0⟩,
    ⟨4096, by decide, Function.update (fun _ => 0) 7255 (4096 + 9)⟩, fun lib h => ?_⟩
  have h₁ : lzfCompress (mem doublet) 64 64 4096 (fun _ => 0)
      = some [6, 7, 1, 2, 3, 4, 5, 6, 64, 5, 5, 9, 8, 3, 4, 9, 0, 224, 36, 0, 1, 0, 0] := by
    decide +kernel
  have h₂ : lzfCompress (mem doublet) 64 64 4096 (Function.update (fun _ => 0) 7255 (4096 + 9))
      ≠ some [6, 7, 1, 2, 3, 4, 5, 6, 64, 5, 5, 9, 8, 3, 4, 9, 0, 224, 36, 0, 1, 0, 0] := by
    decide +kernel
  have hc := compressed?_of_encode_eq (by decide) (by decide)
    ((compressed?_lzf (by decide) (by decide)).mpr ⟨h₁, by decide⟩) h
  exact h₂ ((compressed?_lzf (by decide) (by decide)).mp hc).1

/-- In a run over 64 zeros, which are compressed, only slot 0 is used. -/
theorem chunk_convergent_zeros : Convergent tinyLib .aesSha1 .lzf (List.replicate 64 0) :=
  (chunk_convergent_iff tinyLib .aesSha1 .lzf (List.replicate 64 0) (by decide)).mpr fun h =>
    Lzf.not_stale (k := 3) (by decide +kernel) (by decide +kernel) h.2.2.1

end OpenIsr.Util
