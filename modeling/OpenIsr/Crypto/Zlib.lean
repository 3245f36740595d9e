import OpenIsr.Crypto.Cipher

/-!
# zlib streams

The wrapper in `zlib.c` around a whole `deflate` or `inflate` call. zlib itself is a
parameter; of it the code relies on the inverse: `inflate` of what `deflate` has finished
gives the data back, if there is room for it.
-/

namespace OpenIsr.Crypto

/-- The return codes of `deflate` and `inflate`. Allocations succeed, so `Z_MEM_ERROR` and the
other codes at which the wrapper aborts are left out. -/
inductive ZRet
  | ok
  | streamEnd
  | needDict
  | streamError
  | dataError
  | bufError
  deriving DecidableEq, Repr

/-- zlib: one call with `Z_FINISH` on a new stream, with the input and the room for the output.
The results are the return code, the input that is left and the output. -/
structure Zlib where
  deflate : List UInt8 → Nat → ZRet × Nat × List UInt8
  inflate : List UInt8 → Nat → ZRet × Nat × List UInt8
  inflate_deflate : ∀ data room left out room', deflate data room = (.streamEnd, left, out) →
    data.length ≤ room' → inflate out room' = (.streamEnd, 0, data)

/-- A library that compresses nothing. -/
def unusedZlib : Zlib where
  deflate _ _ := (.ok, 0, [])
  inflate _ _ := (.ok, 0, [])
  inflate_deflate := nofun

/-- `zlib_error`. -/
def zlibError : ZRet → Result
  | .streamError => .invalidArgument
  | .needDict | .dataError => .badFormat
  | .bufError => .bufferOverflow
  | _ => .ok

/-- `zlib_compress_final`. -/
def zlibCompressFinal (zlib : Zlib) (inp : List UInt8) (outLen : Nat) :
    Except Result (List UInt8) :=
  let (ret, _, out) := zlib.deflate inp outLen
  if ret = .ok then .error .bufferOverflow
  else if zlibError ret = .ok then .ok out
  else .error (zlibError ret)

/-- `zlib_decompress_final`. -/
def zlibDecompressFinal (zlib : Zlib) (inp : List UInt8) (outLen : Nat) :
    Except Result (List UInt8) :=
  let (ret, left, out) := zlib.inflate inp outLen
  if 0 < left ∧ ret = .streamEnd then .error .badFormat
  else if ret = .ok then .error .bufferOverflow
  else if zlibError ret = .ok then .ok out
  else .error (zlibError ret)

theorem zlibDecompressFinal_zlibCompressFinal {zlib : Zlib} {inp out : List UInt8} {outLen : Nat}
    (h : zlibCompressFinal zlib inp outLen = .ok out) {outLen' : Nat}
    (hlen : inp.length ≤ outLen') : zlibDecompressFinal zlib out outLen' = .ok inp := by
  unfold zlibCompressFinal at h
  obtain ⟨ret, left, out', hd⟩ : ∃ ret left out', zlib.deflate inp outLen = (ret, left, out') :=
    ⟨_, _, _, rfl⟩
  simp only [hd] at h
  have hend : ret = .streamEnd ∧ out' = out := by
    cases ret <;> simp_all [zlibError]
  obtain ⟨rfl, rfl⟩ := hend
  simp [zlibDecompressFinal, zlib.inflate_deflate _ _ _ _ _ hd hlen, zlibError]

end OpenIsr.Crypto
