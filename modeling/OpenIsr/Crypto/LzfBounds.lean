import OpenIsr.Crypto.LzfStream

/-!
# Which memory the LZF decompressor touches

`Crypto.Lzf` has `lzf_decompress` as a function of the list of its input bytes, and there is no
byte outside of a list. Here it is once more with its pointers: `ip` is an index into the input,
`op` is the number of bytes that have been written, and each byte that is read or written is
checked against its buffer. The first access outside of a buffer, or to an output byte that has
not been written, is a `Fault`, and so is a loop that does not end.

`lzfDecompressAt_eq` says that on an input with at least one byte there is no fault and the
result is that of `lzf_decompress`: each `if` of the code comes before the accesses it is for.
It is the first access of all, the control byte, that no `if` is for.
-/

namespace OpenIsr.Crypto

open List

namespace Lzf

/-- What `lzf_decompress` must not do: read `in[i]` or write `out[i]` outside of the buffer, read
`out[i]` before it is written, or loop. -/
inductive Fault
  | input (i : Nat)
  | output (i : Nat)
  | unwritten (i : Nat)
  | looping
  deriving DecidableEq, Repr

/-- Read `in[ip]`. -/
def readIn (inp : List UInt8) (ip : Nat) : Except Fault UInt8 :=
  match inp[ip]? with
  | some b => .ok b
  | none => .error (.input ip)

/-- Read `out[ref]`, where `out` is what has been written. -/
def readOut (out : List UInt8) (ref : Nat) : Except Fault UInt8 :=
  match out[ref]? with
  | some b => .ok b
  | none => .error (.unwritten ref)

/-- `*op++ = b`. -/
def writeOut (outLen : Nat) (out : List UInt8) (b : UInt8) : Except Fault (List UInt8) :=
  if out.length < outLen then .ok (out ++ [b]) else .error (.output out.length)

/-- `lzf_movsb` from the input: `rep movsb` moves one byte at a time. -/
def movsbIn (inp : List UInt8) (outLen : Nat) :
    Nat → Nat → List UInt8 → Except Fault (Nat × List UInt8)
  | 0, ip, out => .ok (ip, out)
  | n + 1, ip, out => do
    let b ← readIn inp ip
    let out ← writeOut outLen out b
    movsbIn inp outLen n (ip + 1) out

/-- `lzf_movsb` from the output. -/
def movsbOut (outLen : Nat) : Nat → Nat → List UInt8 → Except Fault (List UInt8)
  | 0, _, out => .ok out
  | n + 1, ref, out => do
    let b ← readOut out ref
    let out ← writeOut outLen out b
    movsbOut outLen n (ref + 1) out

/-- The bytes of a back reference after `ctrl`: `len`, `ref` and `ip`, or what is returned. -/
def backRefAt (inp : List UInt8) (ctrl ip : Nat) (op : Int) :
    Except Fault (Except Error (Nat × Int × Nat)) :=
  let len := ctrl / 32
  let ref := op - (ctrl % 32 * 256 : Nat) - 1
  if inp.length ≤ ip then .ok (.error .einval)
  else if len = 7 then do
    let x ← readIn inp ip
    let len := len + x.toNat
    let ip := ip + 1
    if inp.length ≤ ip then .ok (.error .einval)
    else
      let y ← readIn inp ip
      .ok (.ok (len, ref - y.toNat, ip + 1))
  else do
    let y ← readIn inp ip
    .ok (.ok (len, ref - y.toNat, ip + 1))

/-- The body of the loop after the control byte: the new `ip` and the output, or what is
returned. -/
def decodeAt (inp : List UInt8) (outLen ctrl ip : Nat) (out : List UInt8) :
    Except Fault (Except Error (Nat × List UInt8)) :=
  if ctrl < 32 then
    let ctrl := ctrl + 1
    if outLen < out.length + ctrl then .ok (.error .e2big)
    else if inp.length < ip + ctrl then .ok (.error .einval)
    else do
      let next ← movsbIn inp outLen ctrl ip out
      .ok (.ok next)
  else do
    match ← backRefAt inp ctrl ip out.length with
    | .error e => .ok (.error e)
    | .ok (len, ref, ip) =>
      if outLen < out.length + len + 2 then .ok (.error .e2big)
      else if ref < 0 then .ok (.error .einval)
      else do
        let out ← movsbOut outLen (len + 2) ref.toNat out
        .ok (.ok (ip, out))

/-- `do ... while (ip < in_end)`. The first argument bounds the iterations. -/
def decodeFrom (inp : List UInt8) (outLen : Nat) :
    Nat → Nat → List UInt8 → Except Fault (Except Error (List UInt8))
  | 0, _, _ => .error .looping
  | n + 1, ip, out => do
    let ctrl ← readIn inp ip
    match ← decodeAt inp outLen ctrl.toNat (ip + 1) out with
    | .error e => .ok (.error e)
    | .ok (ip, out) => if ip < inp.length then decodeFrom inp outLen n ip out else .ok (.ok out)

end Lzf

/-- `lzf_decompress`, with its accesses checked. -/
def lzfDecompressAt (inp : List UInt8) (outLen : Nat) :
    Except Lzf.Fault (Except Lzf.Error (List UInt8)) :=
  Lzf.decodeFrom inp outLen (inp.length + 1) 0 []

/-- What `lzf_do_decompress` makes of the result; `none` is `g_assert_not_reached`. -/
def lzfDecompressResult (ret : Except Lzf.Error (List UInt8)) :
    Option (Except Result (List UInt8)) :=
  let result : Int := match ret with
    | .ok out => Base.toInt out.length
    | .error e => e.code
  if result < 0 then
    if result = Lzf.Error.e2big.code then some (.error .bufferOverflow)
    else if result = Lzf.Error.einval.code then some (.error .badFormat)
    else none
  else
    match ret with
    | .ok out => some (.ok out)
    | .error _ => none

/-- `lzf_do_decompress`, with its accesses checked. -/
def lzfDoDecompressAt (inp : List UInt8) (outLen : Nat) :
    Except Lzf.Fault (Option (Except Result (List UInt8))) := do
  let ret ← lzfDecompressAt inp outLen
  .ok (lzfDecompressResult ret)

namespace Lzf

variable {inp out l rest out' : List UInt8} {ip outLen n ctrl ref : Nat}

/-! ## The accesses -/

theorem readIn_eq (h : ip < inp.length) : readIn inp ip = .ok inp[ip] := by
  rw [readIn, getElem?_eq_getElem h]

theorem readOut_eq (h : ref < out.length) : readOut out ref = .ok (out.getD ref 0) := by
  rw [readOut, getElem?_eq_getElem h, getD_eq_getElem?_getD, getElem?_eq_getElem h]
  rfl

theorem writeOut_eq (h : out.length < outLen) (b : UInt8) :
    writeOut outLen out b = .ok (out ++ [b]) :=
  if_pos h

theorem movsbIn_eq (hin : ip + n ≤ inp.length) (hout : out.length + n ≤ outLen) :
    movsbIn inp outLen n ip out = .ok (ip + n, out ++ (inp.drop ip).take n) := by
  induction n generalizing ip out with
  | zero => simp [movsbIn]
  | succ n ih =>
    have hip : ip < inp.length := by omega
    have hlen : (out ++ [inp[ip]]).length = out.length + 1 := by simp
    rw [movsbIn, readIn_eq hip]
    simp only [bind, Except.bind]
    rw [writeOut_eq (by omega)]
    dsimp only
    rw [ih (by omega) (by omega), drop_eq_getElem_cons hip, take_succ_cons,
      append_assoc, singleton_append, show ip + 1 + n = ip + (n + 1) by omega]

/-- A back reference that has room: since each byte that is moved makes one more to read, `ref`
stays behind `op`, also where the two ranges overlap. -/
theorem movsbOut_eq (href : ref < out.length) (hout : out.length + n ≤ outLen) :
    movsbOut outLen n ref out = .ok (copy out ref n) := by
  induction n generalizing ref out with
  | zero => rfl
  | succ n ih =>
    have hlen : (out ++ [out.getD ref 0]).length = out.length + 1 := by simp
    rw [movsbOut, readOut_eq href]
    simp only [bind, Except.bind]
    rw [writeOut_eq (by omega)]
    dsimp only
    rw [ih (by omega) (by omega), copy]

/-! ## One iteration -/

/-- The bytes of a back reference are read where `ip` has been compared with `in_end`. -/
theorem backRefAt_eq (ctrl : Nat) (op : Int) :
    backRefAt inp ctrl ip op = .ok ((backRef ctrl (inp.drop ip)).map fun (len, off, rest) =>
      (len, op - off - 1, inp.length - rest.length)) := by
  by_cases hip : ip < inp.length
  swap
  · rw [drop_of_length_le (by omega)]
    simp only [backRefAt, if_pos (Nat.le_of_not_lt hip), backRef, Except.map]
  rw [drop_eq_getElem_cons hip]
  simp only [backRefAt, if_neg (not_le.mpr hip), backRef, readIn_eq hip, bind, Except.bind]
  by_cases hlen : ctrl / 32 = 7
  swap
  · simp only [if_neg hlen, Except.map, length_drop, Except.ok.injEq, Prod.mk.injEq, true_and]
    exact ⟨by omega, by omega⟩
  simp only [if_pos hlen]
  -- a long reference has one byte more
  by_cases hip' : ip + 1 < inp.length
  · rw [drop_eq_getElem_cons hip']
    simp only [if_neg (not_le.mpr hip'), readIn_eq hip', Except.map, length_drop, hlen,
      Except.ok.injEq, Prod.mk.injEq, true_and]
    exact ⟨by omega, by omega⟩
  · rw [drop_of_length_le (by omega)]
    simp only [if_pos (Nat.le_of_not_lt hip'), Except.map]

theorem backRef_rest {len off : Nat} (h : backRef ctrl l = .ok (len, off, rest)) : rest <:+ l := by
  unfold backRef at h
  split at h
  next => cases h
  next x l =>
    split at h
    next =>
      split at h
      next => cases h
      next y l =>
        obtain ⟨-, -, rfl⟩ : _ ∧ _ ∧ l = rest := by simpa using h
        exact (suffix_cons _ _).trans (suffix_cons _ _)
    next =>
      obtain ⟨-, -, rfl⟩ : _ ∧ _ ∧ l = rest := by simpa using h
      exact suffix_cons _ _

theorem decodeStep_rest (h : decodeStep outLen ctrl l out = .ok (rest, out')) : rest <:+ l := by
  unfold decodeStep at h
  split at h
  next =>
    split at h
    next => cases h
    split at h
    next => cases h
    obtain ⟨rfl, -⟩ : _ = rest ∧ _ := by simpa using h
    exact drop_suffix _ _
  next =>
    split at h
    next => cases h
    next hback =>
      split at h
      next => cases h
      split at h
      next => cases h
      obtain ⟨rfl, -⟩ : _ = rest ∧ _ := by simpa using h
      exact backRef_rest hback

theorem decodeStep_length (h : decodeStep outLen ctrl l out = .ok (rest, out')) :
    out'.length ≤ outLen := by
  unfold decodeStep at h
  split at h
  next =>
    split at h
    next => cases h
    next hroom =>
      split at h
      next => cases h
      obtain ⟨-, rfl⟩ : _ ∧ _ = out' := by simpa using h
      rw [length_append, length_take]
      omega
  next =>
    split at h
    next => cases h
    split at h
    next => cases h
    next hroom =>
      split at h
      next => cases h
      obtain ⟨-, rfl⟩ : _ ∧ _ = out' := by simpa using h
      rw [copy_length]
      omega

theorem decodeLoop_length (hout : out.length ≤ outLen) (h : decodeLoop outLen n l out = .ok out') :
    out'.length ≤ outLen := by
  induction n generalizing l out with
  | zero =>
    cases l <;> rw [decodeLoop, Except.ok.injEq] at h <;> rwa [← h]
  | succ n ih =>
    cases l with
    | nil =>
      rw [decodeLoop, Except.ok.injEq] at h
      rwa [← h]
    | cons c l =>
      rw [decodeLoop] at h
      split at h
      next => cases h
      next hstep => exact ih (decodeStep_length hstep) h

/-- The body of the loop, at whatever place it is: the accesses are inside the buffers, and it
does what `decodeStep` does with the rest of the input. -/
theorem decodeAt_eq (ctrl : Nat) (hip : ip ≤ inp.length) :
    decodeAt inp outLen ctrl ip out = .ok ((decodeStep outLen ctrl (inp.drop ip) out).map
      fun (rest, out) => (inp.length - rest.length, out)) := by
  by_cases hctrl : ctrl < 32
  · simp only [decodeAt, if_pos hctrl, decodeStep, length_drop]
    split
    next => rfl
    next hroom =>
      by_cases hrun : inp.length < ip + (ctrl + 1)
      · rw [if_pos hrun, if_pos (by omega)]
        rfl
      · rw [if_neg hrun, if_neg (by omega), movsbIn_eq (by omega) (by omega)]
        simp only [bind, Except.bind, Except.map, length_drop, Except.ok.injEq, Prod.mk.injEq,
          and_true]
        omega
  · simp only [decodeAt, if_neg hctrl, decodeStep, backRefAt_eq, bind, Except.bind]
    cases backRef ctrl (inp.drop ip) with
    | error e => rfl
    | ok v =>
      obtain ⟨len, off, rest⟩ := v
      simp only [Except.map]
      split
      next => rfl
      next hroom =>
        by_cases hoff : out.length < off + 1
        · rw [if_pos hoff, if_pos (by omega)]
        · have href : ((out.length : Int) - off - 1).toNat = out.length - off - 1 := by omega
          rw [if_neg hoff, if_neg (by omega), href, movsbOut_eq (by omega) (by omega)]

/-! ## The loop -/

theorem decodeFrom_eq {m : Nat} (hip : ip < inp.length) (hn : inp.length - ip < n)
    (hm : inp.length - ip ≤ m) :
    decodeFrom inp outLen n ip out = .ok (decodeLoop outLen m (inp.drop ip) out) := by
  induction n generalizing ip m out with
  | zero => omega
  | succ n ih =>
    obtain ⟨m, rfl⟩ : ∃ k, m = k + 1 := ⟨m - 1, by omega⟩
    rw [decodeFrom, readIn_eq hip, drop_eq_getElem_cons hip, decodeLoop]
    simp only [bind, Except.bind, decodeAt_eq _ hip]
    cases hstep : decodeStep outLen inp[ip].toNat (inp.drop (ip + 1)) out with
    | error e => rfl
    | ok v =>
      obtain ⟨rest, out'⟩ := v
      have hle := (decodeStep_rest hstep).length_le
      rw [length_drop] at hle
      simp only [Except.map]
      by_cases hend : rest = []
      · rw [hend, length_nil, if_neg (by omega)]
        cases m <;> rfl
      · -- the next control byte is the first byte of the rest
        have hrest := suffix_iff_eq_drop.mp
          ((decodeStep_rest hstep).trans (drop_suffix _ _))
        have hpos := length_pos_iff.mpr hend
        rw [if_pos (by omega), ih (m := m) (by omega) (by omega) (by omega), ← hrest]

end Lzf

/-! ## The whole function -/

/-- On an input with at least one byte there is no fault, and the byte after the input does not
matter. -/
theorem lzfDecompressAt_eq {inp : List UInt8} (h : inp ≠ []) (beyond : UInt8) (outLen : Nat) :
    lzfDecompressAt inp outLen = .ok (lzfDecompress beyond inp outLen) := by
  have hpos := length_pos_iff.mpr h
  have hfrom : lzfDecompressAt inp outLen = .ok (Lzf.decodeLoop outLen inp.length inp []) :=
    Lzf.decodeFrom_eq hpos (Nat.lt_succ_self _) (le_refl _)
  rw [hfrom]
  cases inp with
  | nil => exact absurd rfl h
  | cons c rest => rfl

theorem lzfDoDecompressAt_eq {inp : List UInt8} (h : inp ≠ []) (beyond : UInt8) (outLen : Nat) :
    lzfDoDecompressAt inp outLen = .ok (lzfDoDecompress beyond inp outLen) := by
  rw [lzfDoDecompressAt, lzfDecompressAt_eq h beyond]
  rfl

theorem lzfDoDecompressAt_nil (outLen : Nat) : lzfDoDecompressAt [] outLen = .error (.input 0) :=
  rfl

theorem lzfDecompress_length {beyond : UInt8} {inp out : List UInt8} {outLen : Nat}
    (h : lzfDecompress beyond inp outLen = .ok out) : out.length ≤ outLen := by
  cases inp with
  | nil =>
    simp only [lzfDecompress] at h
    cases hstep : Lzf.decodeStep outLen beyond.toNat [] [] with
    | error e =>
      rw [hstep] at h
      cases h
    | ok v =>
      rw [hstep] at h
      cases h
      exact Lzf.decodeStep_length hstep
  | cons c rest => exact Lzf.decodeLoop_length (Nat.zero_le _) h

/-- The assertion in `lzf_do_decompress` holds: a result that is not an error is not negative. -/
theorem lzfDoDecompress_isSome (beyond : UInt8) (inp : List UInt8) {outLen : Nat}
    (h : outLen < 2 ^ 31) : ∃ ret, lzfDoDecompress beyond inp outLen = some ret := by
  unfold lzfDoDecompress
  cases hret : lzfDecompress beyond inp outLen with
  | error e => cases e <;> exact ⟨_, rfl⟩
  | ok out =>
    have hlen := lzfDecompress_length hret
    have hint : Base.toInt out.length = out.length := if_pos (by omega)
    refine ⟨.ok out, ?_⟩
    simp only [hint]
    rw [if_neg (by omega)]

/-- `lzf_do_decompress` reads and writes only inside its buffers, and reads back only what it has
written, unless the block is empty. -/
theorem lzfDoDecompress_inBounds_iff (inp : List UInt8) (outLen : Nat) :
    (∃ ret, lzfDoDecompressAt inp outLen = .ok ret) ↔ inp ≠ [] := by
  constructor
  · intro hok hnil
    obtain ⟨ret, hret⟩ := hok
    rw [hnil, lzfDoDecompressAt_nil] at hret
    cases hret
  · intro hne
    exact ⟨_, lzfDoDecompressAt_eq hne 0 outLen⟩

/-- A decoder that has read the header `ZV\1` of a block of no bytes, for one byte of
plaintext. -/
def emptyBlock : Decoder :=
  let d := headerDecode1 ⟨0, .wantHeader1, .stored, 0, 1⟩ [0x5A]
  headerDecode3 (headerDecode2 d [0x56, 1]) [0, 0, 0, 1]

/-- Such a block is passed on, and its control byte is read from after the input. -/
theorem emptyBlock_overread :
    emptyBlock.decodeState = .wantData ∧ emptyBlock.blockType = .compressed ∧
      emptyBlock.inCount = 0 ∧ lzfDoDecompressAt [] emptyBlock.outputSize = .error (.input 0) :=
  ⟨rfl, rfl, rfl, rfl⟩

end OpenIsr.Crypto
