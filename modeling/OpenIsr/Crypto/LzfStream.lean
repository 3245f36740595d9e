import OpenIsr.Base.Filter
import OpenIsr.Crypto.LzfRun
import OpenIsr.Crypto.Sha1

/-!
# The LZF stream format

`lzf-stream.c`: input is compressed in blocks of `MAX_BLOCK` bytes, each with a header, and a
trailer has the CRC of the plaintext. Both directions work on the buffers of the caller where
they can, and on two buffers of their own where they cannot: `in` collects input until there
are `in_count` bytes, and `out` holds a block that there was no room for.

A buffer of the context is modelled by the bytes in use: `inBuf` is `in[0 .. in_offset]`,
`outBuf` is `out[out_offset .. out_count]`. The buffers of the caller are in `Io`. The
lengths are natural numbers: all of them only go down during a call.
-/

namespace OpenIsr.Crypto

open List
open Base (Reply Filter forever)

/-- `MAX_BLOCK`. -/
def maxBlock : Nat := 65535

/-- `LOAD16H`. -/
def load16h (p : List UInt8) : Nat := (p.getD 0 0).toNat * 256 + (p.getD 1 0).toNat

/-- `STORE16H`. -/
def store16h (n : Nat) : List UInt8 := [UInt8.ofNat (n / 256), UInt8.ofNat n]

/-- `enum lzf_decode_state`. -/
inductive DecodeState
  | wantHeader1
  | wantHeader2
  | wantHeader3
  | wantData
  | atEof
  | dataError
  deriving DecidableEq, Repr

/-- The values of `block_type` that `header_decode_2` lets through: 0, 1 and 0x30. -/
inductive BlockType
  | stored
  | compressed
  | crc
  deriving DecidableEq, Repr

/-- The part of `struct lzf_stream_ctx` that says how far the decoder is. -/
structure Decoder where
  crc : UInt32
  decodeState : DecodeState
  blockType : BlockType
  outputSize : Nat
  inCount : Nat
  deriving DecidableEq, Repr

/-- `struct lzf_stream_ctx`. -/
structure StreamCtx extends Decoder where
  wroteTrailer : Bool
  inBuf : List UInt8
  outBuf : List UInt8
  deriving DecidableEq, Repr

/-- What the stream code gets from elsewhere: zlib's `crc32` and the value it starts with; for
each block, where it is in memory and what is in the table that `lzf_compress` is given; the
byte after the input of `lzf_decompress`; and what that leaves in its output if it fails. -/
structure StreamEnv where
  crc32 : UInt32 → List UInt8 → UInt32
  crc32Init : UInt32
  base : List UInt8 → Nat
  htab : List UInt8 → Nat → Nat
  beyond : UInt8
  junk : Nat → List UInt8
  junk_length : ∀ n, (junk n).length = n

/-- The caller's buffers: the input not used yet, the room left for output, and what has been
written. -/
structure Io where
  inp : List UInt8
  room : Nat
  written : List UInt8
  deriving DecidableEq, Repr

/-- `set_state`; only `WANT_HEADER_3` and `WANT_DATA` look at `count`. -/
def setState (d : Decoder) (state : DecodeState) (count : Nat) : Decoder :=
  { d with
    decodeState := state
    inCount := match state with
      | .wantHeader1 => 1
      | .wantHeader2 => 2
      | .wantHeader3 | .wantData => count
      | .atEof | .dataError => 0 }

/-- `lzf_stream_alloc`. -/
def lzfStreamAlloc (env : StreamEnv) : StreamCtx :=
  { setState ⟨env.crc32Init, .wantHeader1, .stored, 0, 0⟩ .wantHeader1 0 with
    wroteTrailer := false, inBuf := [], outBuf := [] }

/-- `consume_input`: `in_count` bytes, if there are so many; the context and the input. The input
is not NULL: if it is, and `in_count` is 0, the source returns NULL, as if bytes were missing. -/
def consumeInput (c : StreamCtx) (inp : List UInt8) :
    Option (List UInt8) × StreamCtx × List UInt8 :=
  if c.inBuf.length = 0 ∧ c.inCount ≤ inp.length then
    (some (inp.take c.inCount), c, inp.drop c.inCount)
  else
    let consuming := min inp.length (c.inCount - c.inBuf.length)
    let buf := c.inBuf ++ inp.take consuming
    if buf.length = c.inCount then (some buf, { c with inBuf := [] }, inp.drop consuming)
    else (none, { c with inBuf := buf }, inp.drop consuming)

/-- `input_data_pending`. -/
def inputDataPending (c : StreamCtx) : Bool :=
  match c.decodeState with
  | .wantHeader1 | .atEof => c.inBuf ≠ []
  | _ => true

/-- `output_data_is_buffered`. -/
def outputDataIsBuffered (c : StreamCtx) : Bool := c.outBuf ≠ []

/-- `get_output_buffer`, and `bytes` stored in the place it returns. -/
def putOutput (c : StreamCtx) (io : Io) (bytes : List UInt8) : StreamCtx × Io :=
  -- `NULL`, but all callers have seen that nothing is buffered
  if outputDataIsBuffered c then (c, io)
  else if bytes.length ≤ io.room then
    (c, { io with room := io.room - bytes.length, written := io.written ++ bytes })
  else ({ c with outBuf := bytes }, io)

/-- `produce_output`. -/
def produceOutput (c : StreamCtx) (io : Io) : StreamCtx × Io :=
  let producing := min io.room c.outBuf.length
  ({ c with outBuf := c.outBuf.drop producing }, { io with
      room := io.room - producing
      written := io.written ++ c.outBuf.take producing })

/-! ## Compression -/

/-- `data_encode`. -/
def dataEncode (env : StreamEnv) (c : StreamCtx) (io : Io) (inp : List UInt8) : StreamCtx × Io :=
  let c := { c with crc := env.crc32 c.crc inp }
  match lzfDoCompress (mem inp) inp.length maxBlock (env.base inp) (env.htab inp) with
  | .error _ => putOutput c io ([0x5A, 0x56, 0] ++ store16h inp.length ++ inp)
  | .ok out =>
    produceOutput
      { c with
        outBuf := [0x5A, 0x56, 1] ++ store16h out.length ++ store16h inp.length ++ out } io

/-- The body of the loop of `lzf_stream_compress_process`. -/
def compressBody (env : StreamEnv) (s : StreamCtx × Io) : Option Result × StreamCtx × Io :=
  let (c, io) := s
  if outputDataIsBuffered c then (some .ok, c, io)
  else
    match consumeInput { c with inCount := maxBlock } io.inp with
    | (none, c, inp) => (some .ok, c, { io with inp })
    | (some buf, c, inp) => (none, dataEncode env c { io with inp } buf)

/-- `lzf_stream_compress_process`. -/
def lzfStreamCompressProcess (env : StreamEnv) (c : StreamCtx) (inp : List UInt8) (room : Nat) :
    Reply Result StreamCtx UInt8 :=
  let (_, c, io) := forever (compressBody env) .ok (inp.length + 1)
    (produceOutput c ⟨inp, room, []⟩)
  ⟨.ok, c, io.inp, io.written⟩

/-- `lzf_stream_compress_final`. -/
def lzfStreamCompressFinal (env : StreamEnv) (c : StreamCtx) (inp : List UInt8) (room : Nat) :
    Reply Result StreamCtx UInt8 :=
  let r := lzfStreamCompressProcess env c inp room
  if outputDataIsBuffered r.ctx then { r with status := .bufferOverflow }
  else
    let c := r.ctx
    let io : Io := ⟨r.left, room - r.out.length, r.out⟩
    let (c, io) :=
      if inputDataPending c then
        let (c, io) := dataEncode env c io c.inBuf
        ({ c with inBuf := [] }, io)
      else (c, io)
    if outputDataIsBuffered c then ⟨.bufferOverflow, c, io.inp, io.written⟩
    else
      let (c, io) :=
        if !c.wroteTrailer then
          let (c, io) := putOutput c io ([0x5A, 0x56, 0x30] ++ store32h c.crc)
          ({ c with wroteTrailer := true }, io)
        else (c, io)
      if outputDataIsBuffered c then ⟨.bufferOverflow, c, io.inp, io.written⟩
      else ⟨.ok, c, io.inp, io.written⟩

/-! ## Decompression -/

/-- `header_decode_1`. -/
def headerDecode1 (d : Decoder) (buf : List UInt8) : Decoder :=
  if buf.getD 0 0 = 0 then setState d .atEof 0
  else if buf.getD 0 0 = 0x5A then setState d .wantHeader2 0
  else setState d .dataError 0

/-- `header_decode_2`. -/
def headerDecode2 (d : Decoder) (buf : List UInt8) : Decoder :=
  if buf.getD 0 0 ≠ 0x56 then setState d .dataError 0
  else if buf.getD 1 0 = 0 then setState { d with blockType := .stored } .wantHeader3 2
  else if buf.getD 1 0 = 1 then setState { d with blockType := .compressed } .wantHeader3 4
  else if buf.getD 1 0 = 0x30 then setState { d with blockType := .crc } .wantHeader3 4
  else setState d .dataError 0

/-- `header_decode_3`. -/
def headerDecode3 (d : Decoder) (buf : List UInt8) : Decoder :=
  match d.blockType with
  | .stored => { setState d .wantData (load16h buf) with outputSize := load16h buf }
  | .compressed => { setState d .wantData (load16h buf) with outputSize := load16h (buf.drop 2) }
  | .crc => if d.crc ≠ load32h buf then setState d .dataError 0 else setState d .wantHeader1 0

/-- `isrcry_compress_final` on the data of a compressed block, and the checks after it. -/
def blockDecompress (env : StreamEnv) (buf : List UInt8) (size : Nat) : Option (List UInt8) :=
  match lzfDoDecompress env.beyond buf size with
  | some (.ok out) => if out.length = size then some out else none
  | _ => none

/-- The plaintext of a block. -/
def blockData (env : StreamEnv) (d : Decoder) (buf : List UInt8) : Option (List UInt8) :=
  match d.blockType with
  | .stored => some buf
  | .compressed => blockDecompress env buf d.outputSize
  | .crc => none -- not reached: this block has no data

/-- `data_decode`, apart from where the plaintext is written. -/
def dataDecode (env : StreamEnv) (d : Decoder) (buf : List UInt8) : Decoder :=
  match blockData env d buf with
  | some out => setState { d with crc := env.crc32 d.crc out } .wantHeader1 0
  | none => setState d .dataError 0

/-- The body of the loop of `lzf_stream_decompress_process`. -/
def decompressBody (env : StreamEnv) (s : StreamCtx × Io) : Option Result × StreamCtx × Io :=
  let (c, io) := s
  if c.decodeState = .wantData ∧ outputDataIsBuffered c then (some .ok, c, io)
  else
    match consumeInput c io.inp with
    | (none, c, inp) => (some .ok, c, { io with inp })
    | (some buf, c, inp) =>
      let io := { io with inp }
      match c.decodeState with
      | .wantHeader1 => (none, { c with toDecoder := headerDecode1 c.toDecoder buf }, io)
      | .wantHeader2 => (none, { c with toDecoder := headerDecode2 c.toDecoder buf }, io)
      | .wantHeader3 => (none, { c with toDecoder := headerDecode3 c.toDecoder buf }, io)
      | .wantData =>
        let out := (blockData env c.toDecoder buf).getD (env.junk c.outputSize)
        let (c, io) := putOutput c io out
        (none, { c with toDecoder := dataDecode env c.toDecoder buf }, io)
      | .atEof => (some (if io.inp ≠ [] then .badFormat else .ok), c, io)
      | .dataError => (some .badFormat, c, io)

/-- `lzf_stream_decompress_process`. An iteration uses input, or follows one that has read the
header of an empty block. -/
def lzfStreamDecompressProcess (env : StreamEnv) (c : StreamCtx) (inp : List UInt8)
    (room : Nat) : Reply Result StreamCtx UInt8 :=
  let (status, c, io) := forever (decompressBody env) .ok (2 * inp.length + 2)
    (produceOutput c ⟨inp, room, []⟩)
  ⟨status, c, io.inp, io.written⟩

/-- `lzf_stream_decompress_final`. -/
def lzfStreamDecompressFinal (env : StreamEnv) (c : StreamCtx) (inp : List UInt8) (room : Nat) :
    Reply Result StreamCtx UInt8 :=
  let r := lzfStreamDecompressProcess env c inp room
  if r.status ≠ .ok then r
  else if r.left = [] ∧ inputDataPending r.ctx then { r with status := .badFormat }
  else if outputDataIsBuffered r.ctx then { r with status := .bufferOverflow }
  else r

/-- The encoder, for callers of `isrcry_compress_process` and `isrcry_compress_final`. -/
def lzfStreamEncoder (env : StreamEnv) : Filter Result StreamCtx UInt8 :=
  ⟨lzfStreamCompressProcess env, lzfStreamCompressFinal env, .ok, .bufferOverflow⟩

/-- The decoder. -/
def lzfStreamDecoder (env : StreamEnv) : Filter Result StreamCtx UInt8 :=
  ⟨lzfStreamDecompressProcess env, lzfStreamDecompressFinal env, .ok, .bufferOverflow⟩

/-! ## What the buffer functions do -/

variable {c : StreamCtx} {room held : Nat} {io : Io}

/-- The bytes that `consume_input` returns are the next ones, wherever they are. -/
theorem consumeInput_eq (h : c.inBuf.length ≤ c.inCount) (inp : List UInt8) :
    consumeInput c inp =
      if c.inCount ≤ (c.inBuf ++ inp).length then
        (some ((c.inBuf ++ inp).take c.inCount), { c with inBuf := [] },
          (c.inBuf ++ inp).drop c.inCount)
      else (none, { c with inBuf := c.inBuf ++ inp }, []) := by
  unfold consumeInput
  split
  next hdirect =>
    have hnil : c.inBuf = [] := eq_nil_of_length_eq_zero hdirect.1
    rw [if_pos (by rw [hnil]; exact hdirect.2), hnil]
    simp only [nil_append]
    rw [← hnil]
  next hbuf =>
    simp only [length_append, length_take]
    by_cases hle : c.inCount ≤ c.inBuf.length + inp.length
    · have hmin : min inp.length (c.inCount - c.inBuf.length) = c.inCount - c.inBuf.length := by
        omega
      have hall : c.inBuf.take c.inCount = c.inBuf := take_of_length_le h
      have hnone : c.inBuf.drop c.inCount = [] := drop_of_length_le h
      rw [if_pos hle, if_pos (by omega), hmin, take_append, drop_append, hall, hnone, nil_append]
    · have hmin : min inp.length (c.inCount - c.inBuf.length) = inp.length := by omega
      rw [if_neg hle, if_neg (by omega), hmin, take_length, drop_length]

/-! ## Numbers in big-endian order -/

theorem load16h_store16h {n : Nat} (h : n ≤ maxBlock) (rest : List UInt8) :
    load16h (store16h n ++ rest) = n := by
  unfold maxBlock at h
  simp [load16h, store16h, UInt8.toNat_ofNat']
  omega

theorem store16h_load16h (a b : UInt8) (rest : List UInt8) :
    store16h (load16h (a :: b :: rest)) = [a, b] := by
  simp only [store16h, load16h, getD_cons_zero, getD_cons_succ]
  have hb := b.toNat_lt
  rw [show (a.toNat * 256 + b.toNat) / 256 = a.toNat by omega, UInt8.ofNat_toNat,
    UInt8.ofNat_add, UInt8.ofNat_mul, UInt8.ofNat_toNat]
  simp

theorem load16h_le (p : List UInt8) : load16h p ≤ maxBlock := by
  have ha := (p.getD 0 0).toNat_lt
  have hb := (p.getD 1 0).toNat_lt
  unfold load16h maxBlock
  omega

theorem store32h_load32h (a b c d : UInt8) (rest : List UInt8) :
    store32h (load32h (a :: b :: c :: d :: rest)) = [a, b, c, d] := by
  simp only [load32h, store32h, getD_cons_zero, getD_cons_succ, List.cons.injEq, and_true]
  refine ⟨?_, ?_, ?_, ?_⟩ <;> apply UInt8.toBitVec_inj.mp <;> simp <;> ext i hi <;> simp <;> grind

theorem outputDataIsBuffered_iff : outputDataIsBuffered c = true ↔ c.outBuf ≠ [] := by
  simp [outputDataIsBuffered]

/-- The output side of a call that was made with `held` bytes buffered and `room` for output;
`buf` is what is buffered now. -/
structure Flow (room held : Nat) (buf : List UInt8) (io : Io) : Prop where
  total : io.written.length + io.room = room
  tight : buf ≠ [] → io.room < buf.length
  moved : held ≤ io.written.length ∨ buf.length + io.written.length = held ∧ io.room = 0

theorem produceOutput_spec (c : StreamCtx) (io : Io) :
    ∃ buf io', produceOutput c io = ({ c with outBuf := buf }, io') ∧ io'.inp = io.inp ∧
      io'.written ++ buf = io.written ++ c.outBuf ∧ (buf ≠ [] → c.outBuf ≠ []) ∧
      io'.written.length + io'.room = io.written.length + io.room ∧
      (buf ≠ [] → io'.room = 0) ∧ io.written.length ≤ io'.written.length := by
  refine ⟨_, _, rfl, rfl, ?_, ?_, ?_, ?_, ?_⟩
  · simp
  · intro hne hnil
    simp [hnil] at hne
  · simp only [length_append, length_take]
    omega
  · intro hne
    have hlen : (c.outBuf.drop (min io.room c.outBuf.length)).length ≠ 0 :=
      fun h => hne (eq_nil_of_length_eq_zero h)
    rw [length_drop] at hlen
    show io.room - min io.room c.outBuf.length = 0
    omega
  · simp

theorem Flow.start (c : StreamCtx) (inp : List UInt8) (room : Nat) :
    ∃ buf io, produceOutput c ⟨inp, room, []⟩ = ({ c with outBuf := buf }, io) ∧ io.inp = inp ∧
      io.written ++ buf = c.outBuf ∧ (buf ≠ [] → c.outBuf ≠ []) ∧
      Flow room c.outBuf.length buf io := by
  obtain ⟨buf, io, heq, hinp, hout, hne, htotal, hroom, -⟩ := produceOutput_spec c ⟨inp, room, []⟩
  have hlen := congrArg List.length hout
  simp only [length_append, length_nil, Nat.zero_add] at hlen htotal
  refine ⟨buf, io, heq, hinp, hout, hne, htotal, fun hbuf => ?_, ?_⟩
  · rw [hroom hbuf]
    exact length_pos_iff.mpr hbuf
  · by_cases hbuf : buf = []
    · rw [hbuf, length_nil] at hlen
      exact .inl (by omega)
    · exact .inr ⟨by omega, hroom hbuf⟩

theorem putOutput_spec (h : c.outBuf = []) (io : Io) (bytes : List UInt8) :
    ∃ buf io', putOutput c io bytes = ({ c with outBuf := buf }, io') ∧ io'.inp = io.inp ∧
      io'.written ++ buf = io.written ++ bytes ∧ (buf ≠ [] → bytes ≠ []) ∧
      ∀ {room held}, Flow room held [] io → Flow room held buf io' := by
  have hno : outputDataIsBuffered c = false := by simp [outputDataIsBuffered, h]
  simp only [putOutput, hno, Bool.false_eq_true, if_false]
  split
  next hle =>
    refine ⟨[], ⟨io.inp, io.room - bytes.length, io.written ++ bytes⟩, by rw [← h], rfl,
      append_nil _, fun h => absurd rfl h, fun hf => ⟨?_, ?_, ?_⟩⟩
    · have := hf.total
      simp only [length_append]
      omega
    · exact fun h => absurd rfl h
    · have := hf.moved
      simp only [length_append, length_nil] at this ⊢
      omega
  next hgt =>
    refine ⟨bytes, io, rfl, rfl, rfl, id, fun hf => ⟨hf.total, fun _ => by omega, ?_⟩⟩
    have := hf.moved
    simp only [length_nil] at this
    omega

variable {buf : List UInt8}

theorem Flow.through (hf : Flow room held [] io) {io' : Io}
    (heq : produceOutput c io = ({ c with outBuf := buf }, io')) : Flow room held buf io' := by
  obtain ⟨buf', io'', heq', -, -, -, htotal, hroom, hle⟩ := produceOutput_spec c io
  rw [heq, Prod.mk.injEq] at heq'
  obtain ⟨hbuf, rfl⟩ := heq'
  obtain rfl : buf = buf' := congrArg StreamCtx.outBuf hbuf
  have := hf.total
  have hmoved := hf.moved
  rw [length_nil] at hmoved
  refine ⟨by omega, fun hbuf => ?_, .inl (by omega)⟩
  rw [hroom hbuf]
  exact length_pos_iff.mpr hbuf

theorem Flow.progress (hf : Flow room held buf io) (hbuf : buf ≠ []) :
    held + (if 0 < room then 1 else 0) ≤ buf.length + 2 * io.written.length := by
  have hpos := length_pos_iff.mpr hbuf
  have htotal := hf.total
  rcases hf.moved with h | ⟨h, hroom⟩
  · split <;> omega
  · split <;> omega

end OpenIsr.Crypto
