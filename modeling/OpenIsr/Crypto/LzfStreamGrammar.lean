import OpenIsr.Crypto.LzfStreamDecode

/-!
# What the stream decoder accepts

The format of a stream, as the comment at the top of `lzf-stream.c` has it: any number of blocks,
and then possibly a zero byte. `Stream` says so without the decoder and without its states, and
with the CRC of everything that has been decoded instead of a running one.

`final_iff` is that one call of `lzf_stream_decompress_final`, with room for what can be decoded,
accepts the streams and nothing else. Of zlib's `crc32` it uses that it can be continued.
-/

namespace OpenIsr.Crypto

open List
open Base (toInt)

/-- What zlib says of `crc32`: it updates a running CRC. -/
structure StreamEnv.RunningCrc (env : StreamEnv) : Prop where
  nil : ∀ crc, env.crc32 crc [] = crc
  append : ∀ crc a b, env.crc32 crc (a ++ b) = env.crc32 (env.crc32 crc a) b

/-- After `sofar` has been decoded, `s` is the rest of a stream, and `out` is all of the
plaintext. -/
inductive Stream (env : StreamEnv) : List UInt8 → List UInt8 → List UInt8 → Prop
  | done {sofar : List UInt8} : Stream env sofar [] sofar
  | eof {sofar : List UInt8} : Stream env sofar [0] sofar
  | stored {sofar rest out : List UInt8} (data : List UInt8) (hdata : data.length < 2 ^ 16)
    (hrest : Stream env (sofar ++ data) rest out) :
    Stream env sofar ([0x5A, 0x56, 0] ++ store16h data.length ++ data ++ rest) out
  | compressed {sofar rest out : List UInt8} (data plain : List UInt8)
    (hdata : data.length < 2 ^ 16) (hplain : plain.length < 2 ^ 16)
    (hlzf : lzfDecompress env.beyond data plain.length = .ok plain)
    (hrest : Stream env (sofar ++ plain) rest out) :
    Stream env sofar
      ([0x5A, 0x56, 1] ++ store16h data.length ++ store16h plain.length ++ data ++ rest) out
  | crc {sofar rest out : List UInt8} (hrest : Stream env sofar rest out) :
    Stream env sofar ([0x5A, 0x56, 0x30] ++ store32h (env.crc32 env.crc32Init sofar) ++ rest) out

/-- No stream at the start of `s` has more plaintext than `room`. -/
def HasRoom (env : StreamEnv) (s : List UInt8) (room : Nat) : Prop :=
  ∀ t u out, s = t ++ u → Stream env [] t out → out.length ≤ room

/-! ## Blocks -/

variable {env : StreamEnv} {out : List UInt8} {b : Block}

theorem blockDecompress_iff {data plain : List UInt8} {size : Nat} (hsize : size ≤ maxBlock) :
    blockDecompress env data size = some plain ↔
      lzfDecompress env.beyond data size = .ok plain ∧ plain.length = size := by
  unfold blockDecompress lzfDoDecompress
  cases hret : lzfDecompress env.beyond data size with
  | error e => cases e <;> simp [Lzf.Error.code]
  | ok out =>
    dsimp only
    by_cases hlen : out.length = size
    · have hpos : ¬ toInt out.length < 0 := by
        unfold maxBlock at hsize
        unfold toInt
        split <;> omega
      rw [if_neg hpos]
      dsimp only
      rw [if_pos hlen, Option.some.injEq, Except.ok.injEq]
      exact ⟨fun h => ⟨h, h ▸ hlen⟩, fun h => h.1⟩
    · refine iff_of_false (fun h => hlen ?_) fun h => hlen (Except.ok.inj h.1 ▸ h.2)
      split at h
      next out' hout =>
        split at h
        next hlen' =>
          split at hout
          next => split at hout <;> [cases hout; split at hout <;> cases hout]
          cases Option.some.inj hout
          exact hlen'
        next => cases h
      next => cases h

/-- The running CRC is that of everything that has been decoded. -/
def Plain.Sound (env : StreamEnv) (p : Plain) : Prop :=
  p.crc = env.crc32 env.crc32Init p.outs.flatten

variable {p : Plain}

theorem Plain.Sound.append (henv : env.RunningCrc) (hp : p.Sound env) (out : List UInt8) :
    Plain.Sound env ⟨env.crc32 p.crc out, p.outs ++ [out]⟩ := by
  unfold Plain.Sound at hp ⊢
  rw [flatten_append, flatten_singleton, henv.append, hp]

theorem lt_of_le_maxBlock {n : Nat} (h : n ≤ maxBlock) : n < 2 ^ 16 := by
  unfold maxBlock at h
  omega

theorem stream_of_read (henv : env.RunningCrc) {p' : Plain} (hp : p.Sound env)
    (h : b.read env p = some p') :
    p'.Sound env ∧ ∀ rest out, Stream env p'.outs.flatten rest out →
      Stream env p.outs.flatten (b.bytes ++ rest) out := by
  cases b with
  | stored data =>
    simp only [Block.read] at h
    split at h
    next hle =>
      cases h
      refine ⟨hp.append henv data, fun rest out hrest => ?_⟩
      rw [flatten_append, flatten_singleton] at hrest
      exact .stored data (lt_of_le_maxBlock hle) hrest
    next => cases h
  | compressed data size =>
    simp only [Block.read] at h
    split at h
    next hle =>
      obtain ⟨plain, hplain, rfl⟩ := Option.map_eq_some_iff.mp h
      obtain ⟨hlzf, rfl⟩ := (blockDecompress_iff hle.2).mp hplain
      refine ⟨hp.append henv plain, fun rest out hrest => ?_⟩
      rw [flatten_append, flatten_singleton] at hrest
      exact .compressed data plain (lt_of_le_maxBlock hle.1) (lt_of_le_maxBlock hle.2) hlzf hrest
    next => cases h
  | crc value =>
    simp only [Block.read] at h
    split at h
    next hcrc =>
      cases h
      refine ⟨hp, fun rest out hrest => ?_⟩
      rw [Block.bytes, ← hcrc, hp]
      exact .crc hrest
    next => cases h

theorem stream_of_reads (henv : env.RunningCrc) {bs : List Block} : ∀ {p p' : Plain},
    p.Sound env → bs.foldlM (Block.read env) p = some p' → ∀ {rest out : List UInt8},
    Stream env p'.outs.flatten rest out →
    Stream env p.outs.flatten (bs.flatMap Block.bytes ++ rest) out := by
  induction bs with
  | nil =>
    intro p p' _ h rest out hrest
    cases h
    exact hrest
  | cons b bs ih =>
    intro p p' hp h rest out hrest
    rw [foldlM_cons] at h
    obtain ⟨q, hq, hbs⟩ := Option.bind_eq_some_iff.mp h
    obtain ⟨hsound, hstream⟩ := stream_of_read henv hp hq
    rw [flatMap_cons, append_assoc]
    exact hstream _ _ (ih hsound hbs hrest)

/-- After `p` has been read, `s` consists of blocks that can be read, and possibly of a zero byte,
and `out` is all of the plaintext. -/
def Reads (env : StreamEnv) (p : Plain) (s out : List UInt8) : Prop :=
  ∃ (bs : List Block) (p' : Plain) (tail : List UInt8),
    bs.foldlM (Block.read env) p = some p' ∧ p'.outs.flatten = out ∧
    s = bs.flatMap Block.bytes ++ tail ∧ (tail = [] ∨ tail = [0])

theorem Reads.cons {q : Plain} {rest : List UInt8} (hread : b.read env p = some q)
    (h : Reads env q rest out) : Reads env p (b.bytes ++ rest) out := by
  obtain ⟨bs, p', tail, hbs, hout, rfl, htail⟩ := h
  refine ⟨b :: bs, p', tail, ?_, hout, ?_, htail⟩
  · rw [foldlM_cons, hread]
    exact hbs
  · rw [flatMap_cons, append_assoc]

theorem reads_of_stream (henv : env.RunningCrc) {sofar s : List UInt8}
    (h : Stream env sofar s out) :
    ∀ {p : Plain}, p.Sound env → p.outs.flatten = sofar → Reads env p s out := by
  have hflatten : ∀ {p : Plain} {sofar : List UInt8} (plain : List UInt8), p.outs.flatten = sofar →
      (p.outs ++ [plain]).flatten = sofar ++ plain := by
    intro p sofar plain hout
    rw [flatten_append, flatten_singleton, hout]
  induction h with
  | done => exact fun {p} _ hout => ⟨[], p, [], rfl, hout, rfl, .inl rfl⟩
  | eof => exact fun {p} _ hout => ⟨[], p, [0], rfl, hout, rfl, .inr rfl⟩
  | stored data hdata _ ih =>
    intro p hp hout
    have hread : (Block.stored data).read env p
        = some ⟨env.crc32 p.crc data, p.outs ++ [data]⟩ := if_pos (Nat.le_of_lt_succ hdata)
    exact (ih (hp.append henv data) (hflatten data hout)).cons hread
  | compressed data plain hdata hplain hlzf _ ih =>
    intro p hp hout
    have hle : plain.length ≤ maxBlock := Nat.le_of_lt_succ hplain
    have hread : (Block.compressed data plain.length).read env p
        = some ⟨env.crc32 p.crc plain, p.outs ++ [plain]⟩ := by
      rw [Block.read, if_pos ⟨Nat.le_of_lt_succ hdata, hle⟩,
        (blockDecompress_iff hle).mpr ⟨hlzf, rfl⟩, Option.map_some]
    exact (ih (hp.append henv plain) (hflatten plain hout)).cons hread
  | @crc sofar rest out _ ih =>
    intro p hp hout
    have hread : (Block.crc (env.crc32 env.crc32Init sofar)).read env p = some p :=
      if_pos (hout ▸ hp)
    exact (ih hp hout).cons hread

theorem sound_start (henv : env.RunningCrc) : Plain.Sound env ⟨env.crc32Init, []⟩ :=
  (henv.nil env.crc32Init).symm

/-! ## The decoder -/

variable {s : List UInt8}

theorem accepted_iff (henv : env.RunningCrc) : Accepted env s out ↔ Stream env [] s out := by
  constructor
  · rintro ⟨d, outs, hsteps, hend, rfl⟩
    obtain ⟨bs, hd, hbs, hs, hhead⟩ := Parsed.of_steps hsteps
    rw [append_nil] at hs
    rw [hs]
    refine stream_of_reads henv (sound_start henv) hbs ?_
    -- what is left of the last header is nothing or a zero byte
    cases hst : d.decodeState with
    | wantHeader1 =>
      simp only [Decoder.Header, hst] at hhead
      rw [hhead.1]
      exact .done
    | atEof =>
      simp only [Decoder.Header, hst] at hhead
      rw [hhead.1]
      exact .eof
    | wantHeader2 | wantHeader3 | wantData | dataError =>
      rw [hst] at hend
      cases hend
  · intro h
    obtain ⟨bs, p, tail, hbs, rfl, rfl, htail⟩ := reads_of_stream henv h (sound_start henv) rfl
    obtain ⟨d, hd, hsteps⟩ := steps_of_reads hbs tail
    rcases htail with rfl | rfl
    · exact ⟨d, p.outs, hsteps, by rw [hd.state]; rfl, rfl⟩
    · refine ⟨setState d .atEof 0, p.outs, hsteps.trans (.single ?_), rfl, rfl⟩
      simp [Parse.next, hd.count, hd.state, headerDecode1]

/-- What the decoder has decoded is the plaintext of a stream at the start of the input. -/
theorem HasRoom.not_exceeds (henv : env.RunningCrc) {room : Nat} (h : HasRoom env s room) :
    ¬ Exceeds env s room := by
  rintro ⟨p, hp, hlt⟩
  obtain ⟨bs, hd, hbs, hs, -⟩ := Parsed.of_steps hp
  have hstream := stream_of_reads henv (sound_start henv) hbs .done
  rw [append_nil] at hstream
  rw [append_assoc] at hs
  exact absurd (h _ _ _ hs hstream) (not_le.mpr hlt)

/-- One call of `lzf_stream_decompress_final`, with room for the plaintext, succeeds on the streams,
with their plaintext, and says of everything else that it is in a bad format. -/
theorem final_iff (env : StreamEnv) (henv : env.RunningCrc) (s : List UInt8) (room : Nat)
    (hroom : HasRoom env s room) :
    let r := lzfStreamDecompressFinal env (lzfStreamAlloc env) s room
    (r.status = .ok ↔ ∃ out, Stream env [] s out) ∧
      (∀ out, Stream env [] s out → r.out = out) ∧
      (r.status ≠ .ok → r.status = .badFormat) := by
  have hno : ¬ Exceeds env s (([] : List UInt8).length + room) := by
    rw [length_nil, Nat.zero_add]
    exact hroom.not_exceeds henv
  cases final_spec (tracks_alloc env s) room with
  | ok hst hacc =>
    refine ⟨iff_of_true hst ⟨_, (accepted_iff henv).mp hacc⟩, fun out hout => ?_,
      fun hne => absurd hst hne⟩
    exact hacc.unique ((accepted_iff henv).mpr hout)
  | bad hst hrej =>
    have hnone : ∀ out, ¬ Stream env [] s out := fun out hout =>
      ((accepted_iff henv).mpr hout).not_rejected hrej
    refine ⟨iff_of_false (by rw [hst]; exact nofun) fun ⟨out, hout⟩ => hnone out hout,
      fun out hout => absurd hout (hnone out), fun _ => hst⟩
  | stuck _ _ hex => exact absurd hex hno
  | again _ htracks hne _ _ _ htight => exact absurd (htracks.exceeds hne htight) hno

theorem hasRoom_enoughRoom (henv : env.RunningCrc) (s : List UInt8) :
    HasRoom env s (enoughRoom s) := by
  rintro t u out rfl h
  obtain ⟨bs, p, tail, hbs, rfl, rfl, -⟩ := reads_of_stream henv h (sound_start henv) rfl
  refine le_trans (readBlocks_length hbs) (Nat.mul_le_mul_left _ ?_)
  rw [length_append, length_append]
  omega

theorem plainEnv_runningCrc : plainEnv.RunningCrc := by
  refine ⟨fun crc => UInt32.not_not, fun crc a b => ?_⟩
  show crc32 crc (a ++ b) = crc32 (crc32 crc a) b
  simp only [crc32, foldl_append, UInt32.not_not]

/-- A stored block with one byte, its CRC-32 and a zero byte. -/
def trailerStream : List UInt8 :=
  [0x5A, 0x56, 0, 0, 1, 0x41, 0x5A, 0x56, 0x30, 0xD3, 0xD9, 0x9E, 0x8B, 0]

theorem final_iff_trailer :
    Stream plainEnv [] trailerStream [0x41] ∧
      (lzfStreamDecompressFinal plainEnv (lzfStreamAlloc plainEnv) trailerStream
        (enoughRoom trailerStream)).out = [0x41] := by
  have hcrc : store32h (plainEnv.crc32 plainEnv.crc32Init [0x41]) = [0xD3, 0xD9, 0x9E, 0x8B] := by
    decide +kernel
  have hstream : Stream plainEnv [] trailerStream [0x41] := by
    have htrailer : Stream plainEnv [0x41] ([0x5A, 0x56, 0x30] ++ store32h _ ++ [0]) [0x41] :=
      .crc .eof
    rw [hcrc] at htrailer
    exact .stored [0x41] (by decide) htrailer
  exact ⟨hstream, (final_iff plainEnv plainEnv_runningCrc trailerStream _
    (hasRoom_enoughRoom plainEnv_runningCrc trailerStream)).2.1 _ hstream⟩

end OpenIsr.Crypto
