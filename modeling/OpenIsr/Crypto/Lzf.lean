import OpenIsr.Base.Word
import OpenIsr.Crypto.Cipher

/-!
# LZF blocks

`lzf_compress` and `lzf_decompress` as `lzf.c` has them, in the configuration it sets
(`HLOG` 13, `ULTRA_FAST`, `INIT_HTAB`, `CHECK_INPUT`), and the wrappers around them.

The input of the compressor is memory, read by position: the input buffer starts at the
address `base`, and the table `htab` holds addresses, as the code's table of pointers does.
The output is kept in two parts: `out` is what is complete, and `lits` are the bytes of the
literal run that is being written, whose length byte comes when the run stops. So the
code's `lit` is `lits.length`, and `op` stands `out.length + 1 + lits.length` bytes into the
output buffer.

`memset(htab, 0, sizeof(htab))` clears one slot: `htab` is a parameter of array type, that
is, a pointer.
-/

namespace OpenIsr.Crypto

open Base (toInt)

namespace Lzf

/-- The input buffer. -/
abbrev Mem := Nat → UInt8

/-- `FRST`. -/
def frst (inp : Mem) (p : Nat) : UInt32 := ((inp p).toUInt32 <<< 8) ||| (inp (p + 1)).toUInt32

/-- `NEXT`. -/
def next (v : UInt32) (inp : Mem) (p : Nat) : UInt32 := (v <<< 8) ||| (inp (p + 2)).toUInt32

/-- `IDX`. -/
def idx (h : UInt32) : Nat := (((h >>> 11) - h) &&& 8191).toNat

/-- The local variables of the main loop. -/
structure State where
  ip : Nat
  out : List UInt8
  lits : List UInt8
  htab : Nat → Nat
  hval : UInt32

/-- The position of `op` in the output buffer. -/
def State.op (s : State) : Nat := s.out.length + 1 + s.lits.length

/-- `!lit`. -/
def State.noLit (s : State) : Nat := if s.lits.length = 0 then 1 else 0

/-- Stop the run, or undo it if its length is zero. -/
def State.stopRun (s : State) : List UInt8 :=
  if s.lits.length = 0 then s.out else s.out ++ UInt8.ofNat (s.lits.length - 1) :: s.lits

/-- `*op++ = *ip++`, and a new run when this one has `MAX_LIT` bytes. -/
def State.pushLit (s : State) (b : UInt8) : State :=
  let s := { s with ip := s.ip + 1, lits := s.lits ++ [b] }
  if s.lits.length = 32 then { s with out := s.stopRun, lits := [] } else s

/-- The first sixteen comparisons, when there are that many bytes; `true` if one fails. -/
def unrolled (inp : Mem) (ref ip : Nat) : Nat → Nat → Nat × Bool
  | 0, len => (len, false)
  | n + 1, len =>
    let len := len + 1
    if inp (ref + len) ≠ inp (ip + len) then (len, true) else unrolled inp ref ip n len

/-- `do len++; while (len < maxlen && ref[len] == ip[len])`. -/
def doWhile (inp : Mem) (ref ip maxlen : Nat) : Nat → Nat → Nat
  | 0, len => len
  | n + 1, len =>
    let len := len + 1
    if len < maxlen ∧ inp (ref + len) = inp (ip + len) then doWhile inp ref ip maxlen n len
    else len

/-- The length of the match of `ip` with `ref`, whose first three bytes agree. -/
def matchLen (inp : Mem) (ref ip maxlen : Nat) : Nat :=
  if 16 < maxlen then
    match unrolled inp ref ip 16 2 with
    | (len, true) => len
    | (len, false) => doWhile inp ref ip maxlen (maxlen + 1) len
  else doWhile inp ref ip maxlen (maxlen + 1) 2

/-- A reference to `off + 1` bytes back; `len + 2` bytes are copied. -/
def refBytes (off len : Nat) : List UInt8 :=
  if len < 7 then [UInt8.ofNat (off / 256 + len * 32), UInt8.ofNat off]
  else [UInt8.ofNat (off / 256 + 7 * 32), UInt8.ofNat (len - 7), UInt8.ofNat off]

/-- The test whether `ref`, an address from the table, is a match for `ip`. -/
def isMatch (inp : Mem) (inLen base ref ip : Nat) : Bool :=
  decide (ref < base + ip) && decide (base + ip - ref - 1 < 8192) && decide (ip + 4 < inLen) &&
    decide (base < ref) && inp (ref - base) == inp ip && inp (ref - base + 1) == inp (ip + 1) &&
    inp (ref - base + 2) == inp (ip + 2)

/-- A match at `ip` with `ref`; `none` if the output buffer is too small. -/
def emitRef (inp : Mem) (inLen base outLen : Nat) (s : State) (ref : Nat) : Option State :=
  if outLen ≤ s.op + 3 + 1 ∧ outLen ≤ s.op - s.noLit + 3 + 1 then none
  else
    let off := base + s.ip - ref - 1
    let maxlen := min (inLen - s.ip - 2) 264
    let len := matchLen inp (ref - base) s.ip maxlen - 2
    let ip := s.ip + 1 + (len + 1)
    let s := { s with ip, out := s.stopRun ++ refBytes off len, lits := [] }
    if inLen ≤ ip + 2 then some s
    else
      -- of the positions in the match, only the last goes into the table
      let hval := next (frst inp (ip - 1)) inp (ip - 1)
      some { s with hval, htab := Function.update s.htab (idx hval) (base + (ip - 1)) }

/-- One iteration of the main loop; `none` if the output buffer is too small. -/
def step (inp : Mem) (inLen base outLen : Nat) (s : State) : Option State :=
  let hval := next s.hval inp s.ip
  let ref := s.htab (idx hval)
  let s := { s with hval, htab := Function.update s.htab (idx hval) (base + s.ip) }
  if isMatch inp inLen base ref s.ip then emitRef inp inLen base outLen s ref
  else if outLen ≤ s.op then none
  else some (s.pushLit (inp s.ip))

/-- `while (ip < in_end - 2)`. The first argument bounds the iterations. -/
def loop (inp : Mem) (inLen base outLen : Nat) : Nat → State → Option State
  | 0, s => some s
  | n + 1, s =>
    if s.ip + 2 < inLen then (step inp inLen base outLen s).bind (loop inp inLen base outLen n)
    else some s

/-- The last bytes: `while (ip < in_end)`. -/
def lastLits (inp : Mem) (inLen : Nat) : Nat → State → State
  | 0, s => s
  | n + 1, s => if s.ip < inLen then lastLits inp inLen n (s.pushLit (inp s.ip)) else s

/-- The state before the main loop. -/
def start (inp : Mem) (htab : Nat → Nat) : State :=
  { ip := 0, out := [], lits := [], htab := Function.update htab 0 0, hval := frst inp 0 }

/-- What follows the main loop. -/
def finish (inp : Mem) (inLen outLen : Nat) (s : State) : Option (List UInt8) :=
  if outLen < s.op + 3 then none else some (lastLits inp inLen inLen s).stopRun

end Lzf

/-- A buffer, read by position. -/
def mem (l : List UInt8) : Lzf.Mem := fun i => l.getD i 0

/-- `lzf_compress`; `none` if it returns 0. -/
def lzfCompress (inp : Lzf.Mem) (inLen outLen base : Nat) (htab : Nat → Nat) :
    Option (List UInt8) :=
  if inLen = 0 ∨ outLen = 0 then none
  else
    (Lzf.loop inp inLen base outLen inLen (Lzf.start inp htab)).bind (Lzf.finish inp inLen outLen)

namespace Lzf

/-- The values `lzf_decompress` returns on failure. -/
inductive Error
  | e2big
  | einval
  deriving DecidableEq, Repr

/-- `-E2BIG` and `-EINVAL`. -/
def Error.code : Error → Int
  | .e2big => -7
  | .einval => -22

/-- `rep movsb`: copy `n` bytes from `ref` on to the end, one by one. -/
def copy (out : List UInt8) (ref : Nat) : Nat → List UInt8
  | 0 => out
  | n + 1 => copy (out ++ [out.getD ref 0]) (ref + 1) n

/-- The back reference that `ctrl` starts: how many bytes to copy after the first two, how far
back from the last byte, and the rest of the input. -/
def backRef (ctrl : Nat) : List UInt8 → Except Error (Nat × Nat × List UInt8)
  | [] => .error .einval
  | x :: rest =>
    if ctrl / 32 = 7 then
      match rest with
      | [] => .error .einval
      | y :: rest => .ok (7 + x.toNat, ctrl % 32 * 256 + y.toNat, rest)
    else .ok (ctrl / 32, ctrl % 32 * 256 + x.toNat, rest)

/-- One iteration of the loop of `lzf_decompress`: `ctrl` is the control byte, `rest` the input
after it and `out` the output so far. -/
def decodeStep (outLen ctrl : Nat) (rest out : List UInt8) :
    Except Error (List UInt8 × List UInt8) :=
  if ctrl < 32 then
    if outLen < out.length + (ctrl + 1) then .error .e2big
    else if rest.length < ctrl + 1 then .error .einval
    else .ok (rest.drop (ctrl + 1), out ++ rest.take (ctrl + 1))
  else
    match backRef ctrl rest with
    | .error e => .error e
    | .ok (len, off, rest) =>
      if outLen < out.length + len + 2 then .error .e2big
      else if out.length < off + 1 then .error .einval
      else .ok (rest, copy out (out.length - off - 1) (len + 2))

/-- The loop, after its first iteration. -/
def decodeLoop (outLen : Nat) : Nat → List UInt8 → List UInt8 → Except Error (List UInt8)
  | _, [], out => .ok out
  | 0, _ :: _, out => .ok out
  | n + 1, c :: rest, out =>
    match decodeStep outLen c.toNat rest out with
    | .error e => .error e
    | .ok (rest, out) => decodeLoop outLen n rest out

end Lzf

/-- `lzf_decompress`. The loop reads a control byte before it tests for the end of the input;
`beyond` is the byte it finds there when there is no input. -/
def lzfDecompress (beyond : UInt8) (inp : List UInt8) (outLen : Nat) :
    Except Lzf.Error (List UInt8) :=
  match inp with
  | [] => (Lzf.decodeStep outLen beyond.toNat [] []).map Prod.snd
  | _ => Lzf.decodeLoop outLen inp.length inp []

/-- `lzf_do_compress`: the output, or the error. -/
def lzfDoCompress (inp : Lzf.Mem) (inLen outLen base : Nat) (htab : Nat → Nat) :
    Except Result (List UInt8) :=
  if inLen = 0 then .error .invalidArgument
  else
    match lzfCompress inp inLen outLen base htab with
    | some out => .ok out
    | none => .error .bufferOverflow

/-- `lzf_do_decompress`; `none` is `g_assert_not_reached`. The result of `lzf_decompress` is an
`int`. -/
def lzfDoDecompress (beyond : UInt8) (inp : List UInt8) (outLen : Nat) :
    Option (Except Result (List UInt8)) :=
  let ret := lzfDecompress beyond inp outLen
  let result : Int := match ret with
    | .ok out => toInt out.length
    | .error e => e.code
  if result < 0 then
    if result = Lzf.Error.e2big.code then some (.error .bufferOverflow)
    else if result = Lzf.Error.einval.code then some (.error .badFormat)
    else none
  else
    match ret with
    | .ok out => some (.ok out)
    | .error _ => none

end OpenIsr.Crypto
