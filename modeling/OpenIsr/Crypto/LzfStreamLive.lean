import OpenIsr.Crypto.LzfStreamFormat

/-!
# The stream code gets on

A call of `lzf_stream_decompress_process` moves bytes in three ways: it writes what is buffered,
it reads headers, and it decodes blocks. This module says what a call does to the buffers, without
regard to the bytes: `Going` is what the loop keeps, `Stopped` is why it ends, and
`decompressMeasure` goes down in between, also where a block without data is read.

A call that uses no input writes from the buffer, and changes it in no other way
(`Going.idle`): a block without data has no plaintext, or is an error. So a caller that goes on
with the same input will see the buffer get empty.
-/

namespace OpenIsr.Crypto

open List
open Base (Reply Filter forever forever_rule)

variable {env : StreamEnv} {left inp : List UInt8} {room : Nat}

/-- The decoder is as it can be in its state, and the input buffer holds less than it waits
for. -/
structure StreamCtx.Live (c : StreamCtx) : Prop where
  header : ∃ h, c.toDecoder.Header h
  inBuf : c.inBuf = [] ∨ c.inBuf.length < c.inCount

theorem live_alloc (env : StreamEnv) : (lzfStreamAlloc env).Live :=
  ⟨⟨[], rfl, rfl⟩, .inl rfl⟩

/-! ## The states -/

section

variable (d : Decoder) (buf : List UInt8)
include d buf

theorem headerDecode1_header : ∃ h, (headerDecode1 d buf).Header h := by
  unfold headerDecode1
  split
  next => exact ⟨[0], rfl, rfl⟩
  split
  next => exact ⟨[0x5A], rfl, rfl⟩
  next => exact ⟨[], header_error d []⟩

theorem headerDecode2_header : ∃ h, (headerDecode2 d buf).Header h := by
  unfold headerDecode2
  split
  next => exact ⟨[], header_error d []⟩
  split
  next => exact ⟨[0x5A, 0x56, 0], rfl, rfl⟩
  split
  next => exact ⟨[0x5A, 0x56, 1], rfl, rfl⟩
  split
  next => exact ⟨[0x5A, 0x56, 0x30], rfl, rfl⟩
  next => exact ⟨[], header_error d []⟩

theorem headerDecode3_header : ∃ h, (headerDecode3 d buf).Header h := by
  cases ht : d.blockType with
  | stored =>
    refine ⟨[0x5A, 0x56, 0] ++ store16h (load16h buf), ?_⟩
    simp [headerDecode3, Decoder.Header, setState, ht, load16h_le]
  | compressed =>
    refine ⟨[0x5A, 0x56, 1] ++ store16h (load16h buf) ++ store16h (load16h (buf.drop 2)), ?_⟩
    simp [headerDecode3, Decoder.Header, setState, ht, load16h_le]
  | crc =>
    simp only [headerDecode3, ht]
    split
    next => exact ⟨[], header_error d []⟩
    next => exact ⟨[], header_between d⟩

end

theorem dataDecode_header (env : StreamEnv) (d : Decoder) (buf : List UInt8) :
    ∃ h, (dataDecode env d buf).Header h := by
  unfold dataDecode
  split
  next => exact ⟨[], header_between _⟩
  next => exact ⟨[], header_error d []⟩

namespace StreamCtx.Live

variable {c : StreamCtx}

theorem inBuf_le (h : c.Live) : c.inBuf.length ≤ c.inCount := by
  rcases h.inBuf with hnil | hlt
  · rw [hnil]
    exact Nat.zero_le _
  · exact Nat.le_of_lt hlt

theorem drop_eq (h : c.Live) (inp : List UInt8) :
    (c.inBuf ++ inp).drop c.inCount = inp.drop (c.inCount - c.inBuf.length) := by
  rw [drop_append, drop_of_length_le h.inBuf_le, nil_append]

theorem inBuf_lt (h : c.Live) (hst : c.decodeState = .wantHeader1 ∨ c.decodeState = .wantHeader2 ∨
      c.decodeState = .wantHeader3) : c.inBuf.length < c.inCount := by
  obtain ⟨hd, hhead⟩ := h.header
  have hpos : 0 < c.inCount := by
    rcases hst with hst | hst | hst
    · simp only [Decoder.Header, hst] at hhead
      omega
    · simp only [Decoder.Header, hst] at hhead
      omega
    · cases ht : c.blockType <;> simp only [Decoder.Header, hst, ht] at hhead <;> omega
  rcases h.inBuf with hnil | hlt
  · rw [hnil]
    exact hpos
  · exact hlt

theorem ended (h : c.Live) (hst : c.decodeState = .atEof ∨ c.decodeState = .dataError) :
    c.inCount = 0 ∧ c.inBuf = [] := by
  obtain ⟨hd, hhead⟩ := h.header
  have hcount : c.inCount = 0 := by
    rcases hst with hst | hst <;> simp only [Decoder.Header, hst] at hhead <;> omega
  rcases h.inBuf with hnil | hlt
  · exact ⟨hcount, hnil⟩
  · omega

end StreamCtx.Live

theorem blockDecompress_nil (env : StreamEnv) (size : Nat) :
    blockDecompress env [] size = none := by
  have herr : ∃ e, lzfDecompress env.beyond [] size = .error e := by
    unfold lzfDecompress Lzf.decodeStep
    simp only
    split
    next =>
      split
      next => exact ⟨_, rfl⟩
      next => exact ⟨.einval, rfl⟩
    next => exact ⟨.einval, rfl⟩
  obtain ⟨e, he⟩ := herr
  cases e <;> simp [blockDecompress, lzfDoDecompress, he, Lzf.Error.code]

theorem blockData_nil (env : StreamEnv) (d : Decoder) :
    blockData env d [] = some [] ∨ (dataDecode env d []).decodeState = .dataError := by
  cases ht : d.blockType with
  | stored => exact .inl (by simp [blockData, ht])
  | compressed =>
    refine .inr ?_
    simp [dataDecode, blockData, ht, blockDecompress_nil, setState]
  | crc =>
    refine .inr ?_
    simp [dataDecode, blockData, ht, setState]

/-! ## One iteration -/

/-- Why a call comes to its end: there is no room for the next block, there is no input, or
the stream is at its end or bad. -/
inductive Stopped : Result → StreamCtx → List UInt8 → Prop
  | blocked {c : StreamCtx} {left : List UInt8} (state : c.decodeState = .wantData)
      (outBuf : c.outBuf ≠ []) : Stopped .ok c left
  | starved {c : StreamCtx} (inBuf : c.inBuf.length < c.inCount) : Stopped .ok c []
  | atEof {c : StreamCtx} {left : List UInt8} (state : c.decodeState = .atEof) :
      Stopped (if left ≠ [] then .badFormat else .ok) c left
  | dataError {c : StreamCtx} {left : List UInt8} (state : c.decodeState = .dataError) :
      Stopped .badFormat c left

theorem Stopped.ok_cases {c : StreamCtx} (h : Stopped .ok c left) :
    (c.decodeState = .wantData ∧ c.outBuf ≠ []) ∨ (left = [] ∧ c.inBuf.length < c.inCount) ∨
      c.decodeState = .atEof ∧ left = [] := by
  generalize hr : Result.ok = r at h
  cases h with
  | blocked hst hbuf => exact .inl ⟨hst, hbuf⟩
  | starved hlt => exact .inr (.inl ⟨rfl, hlt⟩)
  | atEof hst =>
    refine .inr (.inr ⟨hst, ?_⟩)
    by_contra hleft
    rw [if_pos hleft] at hr
    cases hr
  | dataError => cases hr

/-- What goes down in an iteration. -/
def decompressMeasure (t : StreamCtx × Io) : Nat :=
  2 * t.2.inp.length + if t.1.decodeState = .wantData then 1 else 0

/-- What the loop of a call keeps, if the calls keep `J` of the context. The call was made with
the input `inp`, and `buf` was in the buffer after what there was room for had been written. -/
structure Going (J : StreamCtx → Prop) (inp buf : List UInt8) (room held : Nat)
    (t : StreamCtx × Io) : Prop where
  ctx : J t.1
  flow : Flow room held t.1.outBuf t.2
  suffix : t.2.inp <:+ inp
  idle : t.2.inp = inp → t.1.outBuf = buf ∨ t.1.decodeState = .dataError

section body

variable {c : StreamCtx} {io : Io} {buf : List UInt8} {held : Nat} {t : StreamCtx × Io}

theorem decompressBody_eq (h : c.inBuf.length ≤ c.inCount)
    (hblock : ¬ (c.decodeState = .wantData ∧ outputDataIsBuffered c = true))
    (hle : c.inCount ≤ (c.inBuf ++ io.inp).length) :
    decompressBody env (c, io) =
      let buf := (c.inBuf ++ io.inp).take c.inCount
      let io := { io with inp := (c.inBuf ++ io.inp).drop c.inCount }
      match c.decodeState with
      | .wantHeader1 =>
        (none, { c with inBuf := [], toDecoder := headerDecode1 c.toDecoder buf }, io)
      | .wantHeader2 =>
        (none, { c with inBuf := [], toDecoder := headerDecode2 c.toDecoder buf }, io)
      | .wantHeader3 =>
        (none, { c with inBuf := [], toDecoder := headerDecode3 c.toDecoder buf }, io)
      | .wantData =>
        let out := (blockData env c.toDecoder buf).getD (env.junk c.outputSize)
        let p := putOutput { c with inBuf := [] } io out
        (none, { p.1 with toDecoder := dataDecode env p.1.toDecoder buf }, p.2)
      | .atEof => (some (if io.inp ≠ [] then .badFormat else .ok), { c with inBuf := [] }, io)
      | .dataError => (some .badFormat, { c with inBuf := [] }, io) := by
  simp only [decompressBody, consumeInput_eq h, if_pos hle]
  refine (if_neg hblock).trans ?_
  cases c.decodeState <;> rfl

/-- The input only gets shorter; if it has got shorter, it is not that of the call. -/
theorem Going.used {J : StreamCtx → Prop} (h : Going J inp buf room held (c, io))
    {left : List UInt8} (hleft : left <:+ io.inp) (hlt : left.length < io.inp.length) :
    left <:+ inp ∧ left ≠ inp := by
  refine ⟨hleft.trans h.suffix, fun heq => ?_⟩
  have hle : io.inp.length ≤ inp.length := h.suffix.length_le
  rw [heq] at hlt
  omega

section

variable (h : Going StreamCtx.Live inp buf room held (c, io))
  (hle : c.inCount ≤ (c.inBuf ++ io.inp).length)
include h hle

theorem Going.header
    (hst : c.decodeState = .wantHeader1 ∨ c.decodeState = .wantHeader2 ∨
      c.decodeState = .wantHeader3) {d : Decoder} (hd : ∃ h, d.Header h)
    (ht : t = ({ c with inBuf := [], toDecoder := d },
      { io with inp := (c.inBuf ++ io.inp).drop c.inCount })) :
    Going StreamCtx.Live inp buf room held t ∧ decompressMeasure t < decompressMeasure (c, io) := by
  have hlive : c.Live := h.ctx
  have hf : Flow room held c.outBuf io := h.flow
  have hpos := hlive.inBuf_lt hst
  rw [hlive.drop_eq] at ht
  subst ht
  rw [length_append] at hle
  have hlt : (io.inp.drop (c.inCount - c.inBuf.length)).length < io.inp.length := by
    rw [length_drop]
    omega
  obtain ⟨hsuffix, hne⟩ := h.used (drop_suffix _ _) hlt
  refine ⟨⟨⟨hd, .inl rfl⟩, ⟨hf.total, hf.tight, hf.moved⟩, hsuffix, fun heq => absurd heq hne⟩, ?_⟩
  have hst' : c.decodeState ≠ .wantData := by
    rcases hst with hst | hst | hst <;> rw [hst] <;> nofun
  simp only [decompressMeasure, if_neg hst']
  split <;> omega

/-- Where an iteration leaves all of the input of the call, the call has not used any, and there is
nothing in what the iteration reads. -/
theorem Going.no_data (heq : io.inp.drop (c.inCount - c.inBuf.length) = inp) :
    (c.inBuf ++ io.inp).take c.inCount = [] ∧ io.inp = inp := by
  have hsame : io.inp = inp := by
    refine h.suffix.eq_of_length_le ?_
    rw [← heq, length_drop]
    exact Nat.sub_le _ _
  have hlen := congrArg List.length heq
  rw [length_append] at hle
  rw [length_drop, ← hsame] at hlen
  refine ⟨eq_nil_of_length_eq_zero ?_, hsame⟩
  rw [length_take, length_append]
  rcases h.ctx.inBuf with hnil | hlt
  · have hzero : c.inBuf.length = 0 := congrArg List.length hnil
    omega
  · have hlt' : c.inBuf.length < c.inCount := hlt
    omega

theorem Going.data (hst : c.decodeState = .wantData) (hbuf : c.outBuf = []) {p : StreamCtx × Io}
    (hp : p = putOutput { c with inBuf := [] }
      { io with inp := (c.inBuf ++ io.inp).drop c.inCount }
      ((blockData env c.toDecoder ((c.inBuf ++ io.inp).take c.inCount)).getD
        (env.junk c.outputSize)))
    (ht : t = ({ p.1 with
      toDecoder := dataDecode env p.1.toDecoder ((c.inBuf ++ io.inp).take c.inCount) }, p.2)) :
    Going StreamCtx.Live inp buf room held t ∧ decompressMeasure t < decompressMeasure (c, io) := by
  have hlive : c.Live := h.ctx
  have hf : Flow room held c.outBuf io := h.flow
  obtain ⟨buf', io', hput, hinp, hwritten, hne, hflow⟩ :=
    putOutput_spec (c := { c with inBuf := [] }) hbuf
      { io with inp := (c.inBuf ++ io.inp).drop c.inCount }
      ((blockData env c.toDecoder ((c.inBuf ++ io.inp).take c.inCount)).getD
        (env.junk c.outputSize))
  rw [hput] at hp
  subst hp ht
  rw [hlive.drop_eq] at hinp
  have hnot : (dataDecode env c.toDecoder
      ((c.inBuf ++ io.inp).take c.inCount)).decodeState ≠ .wantData := by
    unfold dataDecode
    split
    next => nofun
    next => nofun
  refine ⟨⟨⟨dataDecode_header _ _ _, .inl rfl⟩, hflow ?_, ?_, ?_⟩, ?_⟩
  · rw [hbuf] at hf
    exact ⟨hf.total, hf.tight, hf.moved⟩
  · dsimp only
    rw [hinp]
    exact (drop_suffix _ _).trans h.suffix
  · dsimp only
    rw [hinp]
    intro heq
    obtain ⟨hnil, hold⟩ := h.no_data hle heq
    rw [hnil] at hne ⊢
    rcases blockData_nil env c.toDecoder with hdata | herr
    · rw [hdata] at hne
      left
      rcases h.idle hold with hold | hold
      · rw [← hold, hbuf]
        by_contra hcon
        exact hne hcon rfl
      · rw [hst] at hold
        cases hold
    · exact .inr herr
  · simp only [decompressMeasure, hinp]
    rw [if_neg hnot, if_pos hst, length_drop]
    omega

end

theorem decompressBody_going (env : StreamEnv)
    (h : Going StreamCtx.Live inp buf room held (c, io)) :
    (∃ r t, decompressBody env (c, io) = (some r, t) ∧ Going StreamCtx.Live inp buf room held t ∧
      Stopped r t.1 t.2.inp) ∨
    ∃ t, decompressBody env (c, io) = (none, t) ∧ Going StreamCtx.Live inp buf room held t ∧
      decompressMeasure t < decompressMeasure (c, io) := by
  have hlive : c.Live := h.ctx
  have hf : Flow room held c.outBuf io := h.flow
  by_cases hblock : c.decodeState = .wantData ∧ outputDataIsBuffered c = true
  · refine .inl ⟨_, _, ?_, h, .blocked hblock.1 (outputDataIsBuffered_iff.mp hblock.2)⟩
    simp only [decompressBody, if_pos hblock]
  by_cases hle : c.inCount ≤ (c.inBuf ++ io.inp).length
  swap
  · -- all of the input goes into the buffer
    refine .inl ⟨.ok, ({ c with inBuf := c.inBuf ++ io.inp }, { io with inp := [] }), ?_,
      ⟨⟨hlive.header, .inr (Nat.lt_of_not_le hle)⟩, ⟨hf.total, hf.tight, hf.moved⟩,
        nil_suffix, fun heq => ?_⟩, .starved (Nat.lt_of_not_le hle)⟩
    · simp only [decompressBody, if_neg hblock, consumeInput_eq hlive.inBuf_le, if_neg hle]
    · refine h.idle ?_
      rw [← heq]
      have hnil := h.suffix
      rw [← heq] at hnil
      exact suffix_nil.mp hnil
  rw [decompressBody_eq hlive.inBuf_le hblock hle]
  cases hst : c.decodeState with
  | wantHeader1 =>
    exact .inr ⟨_, rfl, h.header hle (.inl hst) (headerDecode1_header _ _) rfl⟩
  | wantHeader2 =>
    exact .inr ⟨_, rfl, h.header hle (.inr (.inl hst)) (headerDecode2_header _ _) rfl⟩
  | wantHeader3 =>
    exact .inr ⟨_, rfl, h.header hle (.inr (.inr hst)) (headerDecode3_header _ _) rfl⟩
  | wantData =>
    have hbuf : c.outBuf = [] := by
      by_contra hne
      exact hblock ⟨hst, outputDataIsBuffered_iff.mpr hne⟩
    exact .inr ⟨_, rfl, h.data hle hst hbuf rfl rfl⟩
  | atEof =>
    obtain ⟨hcount, hnil⟩ := hlive.ended (.inl hst)
    refine .inl ⟨_, _, rfl, ?_, .atEof hst⟩
    rw [hcount, drop_zero, hnil, nil_append, ← hnil]
    exact h
  | dataError =>
    obtain ⟨hcount, hnil⟩ := hlive.ended (.inr hst)
    refine .inl ⟨_, _, rfl, ?_, .dataError hst⟩
    rw [hcount, drop_zero, hnil, nil_append, ← hnil]
    exact h

end body

/-! ## One call -/

variable {c : StreamCtx} {J : StreamCtx → Prop}

theorem Going.start (h : J { c with outBuf := c.outBuf.drop room }) (inp : List UInt8) :
    ∃ io, produceOutput c ⟨inp, room, []⟩ = ({ c with outBuf := c.outBuf.drop room }, io) ∧
      io.inp = inp ∧ Going J inp (c.outBuf.drop room) room c.outBuf.length
        ({ c with outBuf := c.outBuf.drop room }, io) := by
  obtain ⟨buf, io, heq, hinp, -, -, hf⟩ := Flow.start c inp room
  have hbuf : c.outBuf.drop (min room c.outBuf.length) = buf :=
    congrArg (fun p => p.1.outBuf) heq
  have hdrop : c.outBuf.drop (min room c.outBuf.length) = c.outBuf.drop room := by
    by_cases hle : room ≤ c.outBuf.length
    · rw [Nat.min_eq_left hle]
    · rw [Nat.min_eq_right (by omega), drop_length, drop_of_length_le (by omega)]
  obtain rfl : c.outBuf.drop room = buf := hdrop.symm.trans hbuf
  refine ⟨io, heq, hinp, h, hf, ?_, fun _ => .inl rfl⟩
  dsimp only
  rw [hinp]

theorem decompressProcess_going (env : StreamEnv) (h : c.Live) (inp : List UInt8) (room : Nat) :
    ∃ io, Going StreamCtx.Live inp (c.outBuf.drop room) room c.outBuf.length
        ((lzfStreamDecompressProcess env c inp room).ctx, io) ∧
      Stopped (lzfStreamDecompressProcess env c inp room).status
        (lzfStreamDecompressProcess env c inp room).ctx io.inp ∧
      (lzfStreamDecompressProcess env c inp room).left = io.inp ∧
      (lzfStreamDecompressProcess env c inp room).out = io.written := by
  have hlive : StreamCtx.Live { c with outBuf := c.outBuf.drop room } := ⟨h.header, h.inBuf⟩
  obtain ⟨io, heq, hinp, hstart⟩ := Going.start hlive inp
  have hrun := forever_rule (f := decompressBody env) (d := .ok) (n := 2 * inp.length + 2)
    (P := fun r t => Going StreamCtx.Live inp (c.outBuf.drop room) room c.outBuf.length t ∧
      Stopped r t.1 t.2.inp)
    (m := decompressMeasure) (fun _ ht => decompressBody_going env ht) hstart ?_
  · simp only [lzfStreamDecompressProcess, heq]
    exact ⟨_, hrun.1, hrun.2, rfl, rfl⟩
  · simp only [decompressMeasure, hinp]
    split <;> omega

/-- A call that used no input and has left something in the buffer has written from it. -/
theorem Going.drained {c' : StreamCtx} {io : Io}
    (h : Going J inp (c.outBuf.drop room) room c.outBuf.length (c', io)) (hinp : io.inp = inp)
    (hst : c'.decodeState ≠ .dataError) (hbuf : c'.outBuf ≠ []) (hroom : 0 < room) :
    io.written ≠ [] ∧ c'.outBuf.length < c.outBuf.length := by
  have hdrop : c'.outBuf = c.outBuf.drop room := (h.idle hinp).resolve_right hst
  have hpos := length_pos_iff.mpr hbuf
  have hmoved : c.outBuf.length ≤ io.written.length ∨
      c'.outBuf.length + io.written.length = c.outBuf.length ∧ io.room = 0 := h.flow.moved
  rw [hdrop, length_drop] at hpos hmoved ⊢
  refine ⟨length_pos_iff.mp ?_, by omega⟩
  omega

theorem Stopped.status {r : Result} (h : Stopped r c left) : r = .ok ∨ r = .badFormat := by
  cases h with
  | blocked | starved => exact .inl rfl
  | atEof =>
    split
    next => exact .inr rfl
    next => exact .inl rfl
  | dataError => exact .inr rfl

theorem Stopped.not_dataError (h : Stopped .ok c left) (hc : c.Live) :
    c.decodeState ≠ .dataError := by
  intro hst
  obtain ⟨hcount, -⟩ := hc.ended (.inr hst)
  rcases h.ok_cases with ⟨hst', -⟩ | ⟨-, hlt⟩ | ⟨hst', -⟩
  · rw [hst] at hst'
    cases hst'
  · omega
  · rw [hst] at hst'
    cases hst'

theorem decompressFinal_ctx (env : StreamEnv) (c : StreamCtx) (inp : List UInt8) (room : Nat) :
    (lzfStreamDecompressFinal env c inp room).ctx
      = (lzfStreamDecompressProcess env c inp room).ctx := by
  unfold lzfStreamDecompressFinal
  dsimp only
  split
  next => rfl
  split
  next => rfl
  split
  next => rfl
  next => rfl

theorem decompressFinal_overflow
    (h : (lzfStreamDecompressFinal env c inp room).status = .bufferOverflow) :
    (lzfStreamDecompressProcess env c inp room).status = .bufferOverflow ∨
      (lzfStreamDecompressProcess env c inp room).status = .ok ∧
        (lzfStreamDecompressProcess env c inp room).ctx.outBuf ≠ [] := by
  unfold lzfStreamDecompressFinal at h
  dsimp only at h
  split at h
  next => exact .inl h
  next hok =>
    split at h
    next => cases h
    split at h
    next hbuf => exact .inr ⟨not_not.mp hok, outputDataIsBuffered_iff.mp hbuf⟩
    next => exact .inl h

theorem decoder_lively (env : StreamEnv) :
    (lzfStreamDecoder env).Lively StreamCtx.Live (fun c => c.outBuf.length) fun _ => 0 where
  process := by
    intro c inp room hc
    obtain ⟨io, hgoing, -⟩ := decompressProcess_going env hc inp room
    exact hgoing.ctx
  final := by
    intro c inp room hc
    obtain ⟨io, hgoing, -⟩ := decompressProcess_going env hc inp room
    show (lzfStreamDecompressFinal env c inp room).ctx.Live
    rw [decompressFinal_ctx]
    exact hgoing.ctx
  left := by
    intro c inp room hc
    obtain ⟨io, hgoing, -, hleft, -⟩ := decompressProcess_going env hc inp room
    show (lzfStreamDecompressProcess env c inp room).left <:+ inp
    rw [hleft]
    exact hgoing.suffix
  idle := by
    intro c inp room hc hne hroom hok hsame
    obtain ⟨io, hgoing, hstop, hleft, hout⟩ := decompressProcess_going env hc inp room
    have hinp : io.inp = inp := hleft.symm.trans hsame
    rw [show (lzfStreamDecompressProcess env c inp room).status = .ok from hok] at hstop
    have hbuf : (lzfStreamDecompressProcess env c inp room).ctx.outBuf ≠ [] := by
      rcases hstop.ok_cases with ⟨-, hbuf⟩ | ⟨hnil, -⟩ | ⟨-, hnil⟩
      · exact hbuf
      · exact absurd (hinp.symm.trans hnil) hne
      · exact absurd (hinp.symm.trans hnil) hne
    have hdrained := hgoing.drained hinp (hstop.not_dataError hgoing.ctx) hbuf hroom
    rw [← hout] at hdrained
    exact hdrained
  again := by
    intro c room hc hroom hagain
    obtain ⟨io, hgoing, hstop, -⟩ := decompressProcess_going env hc [] room
    show Prod.Lex _ _ (0, (lzfStreamDecompressFinal env c [] room).ctx.outBuf.length) _
    rw [decompressFinal_ctx]
    rcases decompressFinal_overflow hagain with hov | ⟨hok, hbuf⟩
    · -- `process` has no such status
      rw [hov] at hstop
      rcases hstop.status with h | h <;> cases h
    · rw [hok] at hstop
      have hinp : io.inp = [] := suffix_nil.mp hgoing.suffix
      exact .right _ (hgoing.drained hinp (hstop.not_dataError hgoing.ctx) hbuf hroom).2

end OpenIsr.Crypto
