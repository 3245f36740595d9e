import OpenIsr.Base.Buffer
import OpenIsr.Crypto.LzfStream

/-!
# The LZF stream code with its buffers

`Crypto.LzfStream` has the bytes that are in use. Here is the same code with what it has in memory:
the buffers `in` and `out` of `BUFLEN` bytes with their offsets and counts, the caller's input and
output with the pointers `inp` and `outp` and what is left of them, and pointers from
`consume_input` and `get_output_buffer` that may be to either.

A function gives no result if something happens that must not: an offset is set beyond its count
or a count beyond `BUFLEN`, bytes are read or written outside of a buffer, a null pointer is used,
an assertion fails, or a loop does not end.
-/

namespace OpenIsr.Crypto

open Base (peek poke foreverOpt)

/-- `BUFLEN`, that is `MAX_BLOCK + MAX_HEADER`. -/
def bufLen : Nat := maxBlock + 7

/-- `struct lzf_stream_ctx`. -/
structure RawCtx where
  crc : UInt32
  wroteTrailer : Bool
  decodeState : DecodeState
  blockType : UInt8
  outputSize : Nat
  inMem : List UInt8
  inOffset : Nat
  inCount : Nat
  outMem : List UInt8
  outOffset : Nat
  outCount : Nat

/-- The offsets and counts are in range. -/
def RawCtx.InRange (c : RawCtx) : Prop :=
  c.inOffset ≤ c.inCount ∧ c.inCount ≤ bufLen ∧ c.outOffset ≤ c.outCount ∧ c.outCount ≤ bufLen

instance (c : RawCtx) : Decidable c.InRange :=
  inferInstanceAs (Decidable (_ ∧ _ ∧ _ ∧ _))

/-- The state during a call: the context, the ranges of the caller, and how much of them is
used. -/
structure Raw extends RawCtx where
  src : List UInt8
  inp : Nat
  inAvail : Nat
  dst : List UInt8
  outp : Nat
  outAvail : Nat

/-- A pointer into a range of the caller, or into `in` or `out`. -/
inductive Loc
  | caller (i : Nat)
  | own (i : Nat)

/-- `p + n`. -/
def Loc.plus (p : Loc) (n : Nat) : Loc :=
  match p with
  | .caller i => .caller (i + n)
  | .own i => .own (i + n)

namespace Raw

/-- After an assignment to an offset or a count. -/
def checked (m : Raw) : Option Raw := if m.InRange then some m else none

/-- `n` bytes of input at `p`. -/
def load (m : Raw) (p : Loc) (n : Nat) : Option (List UInt8) :=
  match p with
  | .caller i => peek m.src i n
  | .own i => peek m.inMem i n

/-- Bytes of output to `p`. -/
def store (m : Raw) (p : Loc) (v : List UInt8) : Option Raw :=
  match p with
  | .caller i => (poke m.dst i v).map fun dst => { m with dst }
  | .own i => (poke m.outMem i v).map fun outMem => { m with outMem }

/-- `set_state`. -/
def setState (m : Raw) (state : DecodeState) (count : Nat) : Option Raw :=
  checked { m with
    decodeState := state
    inCount := match state with
      | .wantHeader1 => 1
      | .wantHeader2 => 2
      | .wantHeader3 | .wantData => count
      | .atEof | .dataError => 0 }

/-- `consume_input`. -/
def consumeInput (m : Raw) : Option (Option Loc × Raw) :=
  if m.inOffset = 0 ∧ m.inCount ≤ m.inAvail then
    some (some (.caller m.inp),
      { m with inp := m.inp + m.inCount, inAvail := m.inAvail - m.inCount })
  else do
    let consuming := min m.inAvail (m.inCount - m.inOffset)
    let bytes ← peek m.src m.inp consuming
    let inMem ← poke m.inMem m.inOffset bytes
    let m ← checked { m with
      inMem
      inp := m.inp + consuming
      inAvail := m.inAvail - consuming
      inOffset := m.inOffset + consuming }
    if m.inOffset = m.inCount then
      let m ← checked { m with inOffset := 0 }
      some (some (.own 0), m)
    else some (none, m)

/-- `input_data_pending`. -/
def inputDataPending (m : Raw) : Bool :=
  match m.decodeState with
  | .wantHeader1 | .atEof => m.inOffset ≠ 0
  | _ => true

/-- `output_data_is_buffered`. -/
def outputDataIsBuffered (m : Raw) : Bool := m.outCount ≠ 0

/-- `get_output_buffer`; the pointer can be null. -/
def getOutputBuffer (m : Raw) (len : Nat) : Option (Option Loc × Raw) :=
  if m.outputDataIsBuffered then some (none, m)
  else if len ≤ m.outAvail then
    some (some (.caller m.outp), { m with outp := m.outp + len, outAvail := m.outAvail - len })
  else do
    let m ← checked { m with outCount := len }
    some (some (.own 0), m)

/-- `produce_output`. -/
def produceOutput (m : Raw) : Option Raw := do
  let producing := min m.outAvail (m.outCount - m.outOffset)
  let bytes ← peek m.outMem m.outOffset producing
  let dst ← poke m.dst m.outp bytes
  let m ← checked { m with
    dst
    outp := m.outp + producing
    outAvail := m.outAvail - producing
    outOffset := m.outOffset + producing }
  if m.outOffset = m.outCount then checked { m with outOffset := 0, outCount := 0 } else some m

/-! ## Compression -/

/-- `data_encode`. The compressor writes from `out + 7` on, at most `MAX_BLOCK` bytes, also if it
fails then. -/
def dataEncode (env : StreamEnv) (m : Raw) (p : Loc) (inlen : Nat) : Option Raw := do
  let data ← m.load p inlen
  let m := { m with crc := env.crc32 m.crc data }
  match lzfDoCompress (mem data) inlen maxBlock (env.base data) (env.htab data) with
  | .error _ =>
    let outMem ← poke m.outMem 7 (env.junk maxBlock)
    let m := { m with outMem }
    let (outbuf, m) ← m.getOutputBuffer (inlen + 5)
    let outbuf ← outbuf
    let m ← m.store outbuf [0x5A, 0x56, 0]
    let m ← m.store (outbuf.plus 3) (store16h inlen)
    m.store (outbuf.plus 5) data
  | .ok out =>
    let outMem ← poke m.outMem 7 out
    let outMem ← poke outMem 0 [0x5A, 0x56, 1]
    let outMem ← poke outMem 3 (store16h out.length)
    let outMem ← poke outMem 5 (store16h inlen)
    let m ← checked { m with outMem, outCount := out.length + 7 }
    m.produceOutput

/-- The body of the loop of `lzf_stream_compress_process`. -/
def compressBody (env : StreamEnv) (m : Raw) : Option (Option Result × Raw) :=
  if m.outputDataIsBuffered then some (some .ok, m)
  else do
    let m ← checked { m with inCount := maxBlock }
    match ← m.consumeInput with
    | (none, m) => some (some .ok, m)
    | (some inbuf, m) =>
      let m ← m.dataEncode env inbuf m.inCount
      some (none, m)

/-- `lzf_stream_compress_process`. -/
def lzfStreamCompressProcess (env : StreamEnv) (m : Raw) : Option (Result × Raw) := do
  let m ← m.produceOutput
  let (_, m) ← foreverOpt (compressBody env) (m.inAvail + 1) m
  some (.ok, m)

/-- The part of `lzf_stream_compress_final` that encodes what is in the input buffer. -/
def lastBlock (env : StreamEnv) (m : Raw) : Option Raw :=
  if m.inputDataPending then do
    let m ← m.dataEncode env (.own 0) m.inOffset
    checked { m with inOffset := 0 }
  else some m

/-- The part of `lzf_stream_compress_final` that writes the trailer. -/
def trailer (m : Raw) : Option Raw :=
  if !m.wroteTrailer then do
    let crc := m.crc
    let (outbuf, m) ← m.getOutputBuffer 7
    let outbuf ← outbuf
    let m ← m.store outbuf [0x5A, 0x56, 0x30]
    let m ← m.store (outbuf.plus 3) (store32h crc)
    some { m with wroteTrailer := true }
  else some m

/-- `lzf_stream_compress_final`. -/
def lzfStreamCompressFinal (env : StreamEnv) (m : Raw) : Option (Result × Raw) := do
  let (_, m) ← m.lzfStreamCompressProcess env
  if m.outputDataIsBuffered then some (.bufferOverflow, m)
  else
    let outlen := m.dst.length - m.outAvail
    let m ← lastBlock env { m with outp := outlen, outAvail := m.dst.length - outlen }
    if m.outputDataIsBuffered then some (.bufferOverflow, m)
    else
      let m ← m.trailer
      if m.outputDataIsBuffered then some (.bufferOverflow, m) else some (.ok, m)

/-! ## Decompression -/

/-- `header_decode_1`. -/
def headerDecode1 (m : Raw) (p : Loc) : Option Raw := do
  let buf ← m.load p 1
  if buf.getD 0 0 = 0 then m.setState .atEof 0
  else if buf.getD 0 0 = 0x5A then m.setState .wantHeader2 0
  else m.setState .dataError 0

/-- `header_decode_2`. -/
def headerDecode2 (m : Raw) (p : Loc) : Option Raw := do
  let buf ← m.load p 2
  if buf.getD 0 0 ≠ 0x56 then m.setState .dataError 0
  else
    let m := { m with blockType := buf.getD 1 0 }
    if m.blockType = 0 then m.setState .wantHeader3 2
    else if m.blockType = 1 then m.setState .wantHeader3 4
    else if m.blockType = 0x30 then m.setState .wantHeader3 4
    else m.setState .dataError 0

/-- `header_decode_3`. -/
def headerDecode3 (m : Raw) (p : Loc) : Option Raw :=
  if m.blockType = 0 then do
    let buf ← m.load p 2
    let m ← m.setState .wantData (load16h buf)
    some { m with outputSize := load16h buf }
  else if m.blockType = 1 then do
    let buf ← m.load p 4
    let m ← m.setState .wantData (load16h buf)
    some { m with outputSize := load16h (buf.drop 2) }
  else if m.blockType = 0x30 then do
    let buf ← m.load p 4
    if m.crc ≠ load32h buf then m.setState .dataError 0 else m.setState .wantHeader1 0
  else none

/-- `data_decode`. The decompressor writes to `out[0 .. outlen]`, and if it fails or does not write
all of it, what is there then is left. -/
def dataDecode (env : StreamEnv) (m : Raw) (p out : Loc) : Option Raw := do
  let inlen := m.inCount
  let outlen := m.outputSize
  if m.blockType = 0 then
    if inlen = outlen then
      let data ← m.load p inlen
      let m ← m.store out data
      setState { m with crc := env.crc32 m.crc data } .wantHeader1 0
    else none
  else if m.blockType = 1 then
    let data ← m.load p inlen
    match ← lzfDoDecompress env.beyond data outlen with
    | .ok plain =>
      if plain.length = outlen then
        let m ← m.store out plain
        setState { m with crc := env.crc32 m.crc plain } .wantHeader1 0
      else
        let m ← m.store out (env.junk outlen)
        m.setState .dataError 0
    | .error _ =>
      let m ← m.store out (env.junk outlen)
      m.setState .dataError 0
  else none

/-- The body of the loop of `lzf_stream_decompress_process`. -/
def decompressBody (env : StreamEnv) (m : Raw) : Option (Option Result × Raw) :=
  if m.decodeState = .wantData ∧ m.outputDataIsBuffered then some (some .ok, m)
  else do
    match ← m.consumeInput with
    | (none, m) => some (some .ok, m)
    | (some inbuf, m) =>
      match m.decodeState with
      | .wantHeader1 =>
        let m ← m.headerDecode1 inbuf
        some (none, m)
      | .wantHeader2 =>
        let m ← m.headerDecode2 inbuf
        some (none, m)
      | .wantHeader3 =>
        let m ← m.headerDecode3 inbuf
        some (none, m)
      | .wantData =>
        let (outbuf, m) ← m.getOutputBuffer m.outputSize
        let outbuf ← outbuf
        let m ← m.dataDecode env inbuf outbuf
        some (none, m)
      | .atEof => some (some (if 0 < m.inAvail then .badFormat else .ok), m)
      | .dataError => some (some .badFormat, m)

/-- `lzf_stream_decompress_process`. -/
def lzfStreamDecompressProcess (env : StreamEnv) (m : Raw) : Option (Result × Raw) := do
  let m ← m.produceOutput
  foreverOpt (decompressBody env) (2 * m.inAvail + 2) m

/-- `lzf_stream_decompress_final`. -/
def lzfStreamDecompressFinal (env : StreamEnv) (m : Raw) : Option (Result × Raw) := do
  let inAvail := m.inAvail
  let (ret, m) ← m.lzfStreamDecompressProcess env
  if ret ≠ .ok then some (ret, m)
  else if inAvail - m.inAvail = inAvail ∧ m.inputDataPending then some (.badFormat, m)
  else if m.outputDataIsBuffered then some (.bufferOverflow, m)
  else some (.ok, m)

end Raw

/-! ## Calls -/

/-- `lzf_stream_alloc`; the buffers contain anything. -/
def RawCtx.alloc (env : StreamEnv) : RawCtx :=
  { crc := env.crc32Init, wroteTrailer := false, decodeState := .wantHeader1, blockType := 0
    outputSize := 0
    inMem := env.junk bufLen, inOffset := 0, inCount := 1
    outMem := env.junk bufLen, outOffset := 0, outCount := 0 }

/-- A call of `isrcry_compress_process` or `isrcry_compress_final` with the caller's ranges. -/
structure RawCall where
  final : Bool
  inp : List UInt8
  out : List UInt8

/-- The state at the start of a call. -/
def RawCall.start (k : RawCall) (c : RawCtx) : Raw :=
  { c with src := k.inp, inp := 0, inAvail := k.inp.length
           dst := k.out, outp := 0, outAvail := k.out.length }

/-- One call. -/
def RawCall.run (env : StreamEnv) (encode : Bool) (k : RawCall) (c : RawCtx) :
    Option (Result × Raw) :=
  match encode, k.final with
  | true, false => (k.start c).lzfStreamCompressProcess env
  | true, true => (k.start c).lzfStreamCompressFinal env
  | false, false => (k.start c).lzfStreamDecompressProcess env
  | false, true => (k.start c).lzfStreamDecompressFinal env

/-- One call after the other on one context. -/
def RawCtx.run (env : StreamEnv) (encode : Bool) : RawCtx → List RawCall → Option RawCtx
  | c, [] => some c
  | c, k :: rest => do
    let (_, m) ← k.run env encode c
    RawCtx.run env encode m.toRawCtx rest

end OpenIsr.Crypto
