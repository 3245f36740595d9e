import OpenIsr.Base.File
import OpenIsr.Crypto.Cipher

/-!
# The cipher stage of blobtool (tools/blobtool.c)

`run_cipher` gets its input in buffers of any size. It writes, or reads, a header with the salt,
and passes whole blocks to the cipher, but always holds back up to one block for the last call,
which pads or unpads. What it holds back and the cipher context are in static variables. The keyroot
is given, wherever it comes from, and AES and MD5 are parameters (`Kit`).

`encode_eq` and `decode_eq` say that the buffers make no difference: what comes out is a function of
all of the input, the header and one CBC encryption of the padded plaintext, or back.
-/

namespace OpenIsr.Tools

open Base Crypto List

/-- What the stage gets from elsewhere: the block cipher, MD5 and the key root. -/
structure Kit where
  aes : Aes
  md5 : List UInt8 → List UInt8
  md5_length : ∀ m, (md5 m).length = 16
  keyroot : List UInt8

/-- `SALT_MAGIC`, that is `Salted__`. -/
def saltMagic : List UInt8 := [0x53, 0x61, 0x6C, 0x74, 0x65, 0x64, 0x5F, 0x5F]

/-- `set_cipher_key`: two digests, one for the key and one for the initialisation vector. The key
has a length that `isrcry_cipher_init` accepts. -/
def setCipherKey (K : Kit) (encode : Bool) (salt : List UInt8) : CipherCtx :=
  let key := K.md5 (K.keyroot ++ salt)
  let iv := K.md5 (key ++ K.keyroot ++ salt)
  ⟨key, iv, encode⟩

/-- `init_cipher`: the context, what is left of the input, and the output; `none` is `die`. -/
def initCipher (K : Kit) (encode : Bool) (salt inp : List UInt8) :
    Option (CipherCtx × List UInt8 × List UInt8) :=
  if encode then some (setCipherKey K encode salt, inp, saltMagic ++ salt)
  else if inp.length < 16 then none
  else if inp.take 8 ≠ saltMagic then none
  else some (setCipherKey K encode ((inp.drop 8).take 8), inp.drop 16, [])

/-- The static variables of `run_cipher`. -/
structure Stage where
  ctx : Option CipherCtx
  partialBlock : List UInt8
  offset : Nat

/-- Before the first call. -/
def Stage.start : Stage := ⟨none, [], 0⟩

/-- `isrcry_cipher_process`. `run_cipher` does not look at the result, so that after an error there
would be anything in the output. -/
def process (aes : Aes) (ctx : CipherCtx) (inp : List UInt8) : List UInt8 × CipherCtx :=
  match (if ctx.encrypting then cbcEncrypt aes ctx inp else cbcDecrypt aes ctx inp) with
  | .ok r => r
  | .error _ => (replicate inp.length 0, ctx)

/-- What the parts of `run_cipher` hand on: the static variables, and the input and the output. -/
structure Flow where
  ctx : CipherCtx
  partialBlock : List UInt8
  offset : Nat
  inp : List UInt8
  out : List UInt8

/-- `if (offset)`: fill up the block that has been held back, and process it if more follows. -/
def fillPartial (aes : Aes) (f : Flow) : Flow :=
  if f.offset = 0 then f
  else
    let count := min (16 - f.offset) f.inp.length
    let partialBlock := pwrite f.partialBlock f.offset (f.inp.take count)
    let offset := f.offset + count
    let inp := f.inp.drop count
    if offset = 16 ∧ 0 < inp.length then
      let (out, ctx) := process aes f.ctx (partialBlock.take 16)
      ⟨ctx, partialBlock, 0, inp, f.out ++ out⟩
    else { f with partialBlock, offset, inp }

/-- `if (inlen / cipher_block)`: process whole blocks as long as more follows. -/
def wholeBlocks (aes : Aes) (f : Flow) : Flow :=
  if f.inp.length / 16 = 0 then f
  else
    let count := f.inp.length / 16 * 16 - if f.inp.length % 16 = 0 then 16 else 0
    let (out, ctx) := process aes f.ctx (f.inp.take count)
    { f with ctx, inp := f.inp.drop count, out := f.out ++ out }

/-- `run_cipher` behind the initialisation; `none` is `die` or a failed assertion. -/
def runBody (aes : Aes) (f : Flow) (final : Bool) : Option (Stage × List UInt8) :=
  let f := wholeBlocks aes (fillPartial aes f)
  if 16 < f.inp.length then none
  else
    let partialBlock := pwrite f.partialBlock 0 f.inp
    let offset := f.offset + f.inp.length
    let stage : Stage := ⟨some f.ctx, partialBlock, offset⟩
    if final then
      match cipherFinal aes f.ctx (partialBlock.take offset) 32 with
      | .ok last => some (stage, f.out ++ last)
      | .error _ => none
    else some (stage, f.out)

/-- `run_cipher`: the static variables and the output. -/
def runCipher (K : Kit) (encode : Bool) (salt : List UInt8) (s : Stage) (inp : List UInt8)
    (final : Bool) : Option (Stage × List UInt8) :=
  let init := match s.ctx with
    | none => initCipher K encode salt inp
    | some ctx => some (ctx, inp, [])
  match init with
  | none => none
  | some (ctx, inp, out) => runBody K.aes ⟨ctx, s.partialBlock, s.offset, inp, out⟩ final

/-- The calls for some buffers, the last of which is marked final. -/
def runBuffers (K : Kit) (encode : Bool) (salt : List UInt8) :
    Stage → List UInt8 → List (List UInt8) → Option (List UInt8)
  | s, buf, [] => (runCipher K encode salt s buf true).map Prod.snd
  | s, buf, next :: bufs =>
    match runCipher K encode salt s buf false with
    | none => none
    | some (s, out) => (runBuffers K encode salt s next bufs).map (out ++ ·)

/-! ## What it is to compute -/

/-- PKCS5 padding of a message. -/
def pkcs5 (m : List UInt8) : List UInt8 :=
  m ++ replicate (16 - m.length % 16) (UInt8.ofNat (16 - m.length % 16))

/-- The header, and one CBC encryption of the padded plaintext. -/
def encodeWhole (K : Kit) (salt plain : List UInt8) : List UInt8 :=
  saltMagic ++ salt ++ (cbc K.aes (setCipherKey K true salt) (pkcs5 plain)).1

/-- One CBC decryption, and the padding at its end taken off. -/
def unpadWhole (aes : Aes) (ctx : CipherCtx) (body : List UInt8) : Option (List UInt8) :=
  if body.length = 0 ∨ body.length % 16 ≠ 0 then none
  else
    let plain := (cbc aes ctx body).1
    match pkcs5Unpad (plain.drop (body.length - 16)) with
    | .error _ => none
    | .ok len => some (plain.take (body.length - 16 + len))

/-- The whole of the input, decoded. -/
def decodeWhole (K : Kit) (inp : List UInt8) : Option (List UInt8) :=
  if inp.length < 16 ∨ inp.take 8 ≠ saltMagic then none
  else unpadWhole K.aes (setCipherKey K false ((inp.drop 8).take 8)) (inp.drop 16)

/-! ## One call -/

section call

variable {aes : Aes} {ctx : CipherCtx} {inp : List UInt8}

theorem process_eq (h16 : inp.length % 16 = 0) : process aes ctx inp = cbc aes ctx inp := by
  unfold process
  cases hdir : ctx.encrypting with
  | true => simp only [if_true, cbcEncrypt_eq_cbc aes hdir h16]
  | false => simp only [Bool.false_eq_true, if_false, cbcDecrypt_eq_cbc aes hdir h16]

/-- What is held back: the first bytes of the block. -/
def Flow.held (f : Flow) : List UInt8 := f.partialBlock.take f.offset

/-- `g` is `f` after some blocks of what was held back and the input have been processed. -/
structure Processed (aes : Aes) (f g : Flow) (blocks : List UInt8) : Prop where
  cut : f.held ++ f.inp = blocks ++ (g.held ++ g.inp)
  whole : blocks.length % 16 = 0
  out : g.out = f.out ++ (cbc aes f.ctx blocks).1
  ctx : g.ctx = (cbc aes f.ctx blocks).2
  held_length : g.held.length = g.offset

theorem Processed.refl {f : Flow} (h : f.held.length = f.offset) : Processed aes f f [] := by
  refine ⟨rfl, rfl, ?_, ?_, h⟩ <;> rw [(blockwise_cbc aes).nil]
  rw [append_nil]

theorem Processed.trans {f g k : Flow} {a b : List UInt8} (h : Processed aes f g a)
    (h' : Processed aes g k b) : Processed aes f k (a ++ b) := by
  have happ := (blockwise_cbc aes).append f.ctx a b h.whole h'.whole
  refine ⟨?_, ?_, ?_, ?_, h'.held_length⟩
  · rw [h.cut, h'.cut, append_assoc]
  · have := h.whole
    have := h'.whole
    rw [length_append]
    omega
  · rw [h'.out, h.out, h.ctx, happ, append_assoc]
  · rw [h'.ctx, h.ctx, happ]

theorem fillPartial_spec (aes : Aes) (f : Flow) (hlen : f.held.length = f.offset)
    (hle : f.offset ≤ 16) :
    ∃ blocks, Processed aes f (fillPartial aes f) blocks ∧ (fillPartial aes f).offset ≤ 16 ∧
      ((fillPartial aes f).offset = 0 ∨ (fillPartial aes f).inp = []) ∧
      ((fillPartial aes f).inp = [] → (fillPartial aes f).offset = 0 → f.held ++ f.inp = []) := by
  unfold fillPartial
  split
  next h0 =>
    refine ⟨[], .refl hlen, hle, .inl h0, fun hinp _ => ?_⟩
    rw [hinp, Flow.held, h0]
    rfl
  next h0 =>
    dsimp only
    generalize hcount : min (16 - f.offset) f.inp.length = count
    have htake : (f.inp.take count).length = count := by
      rw [length_take]
      omega
    -- the block has what was held and what has been added
    have hblock : (pwrite f.partialBlock f.offset (f.inp.take count)).take (f.offset + count)
        = f.held ++ f.inp.take count := by
      have hfull : (f.partialBlock.take f.offset).length = f.offset := hlen
      by_cases hnil : f.inp.take count = []
      · have hzero : count = 0 := by rw [← htake, hnil]; rfl
        rw [hnil, pwrite_nil, hzero, Nat.add_zero, append_nil, Flow.held]
      · have hpad : f.offset - f.partialBlock.length = 0 := by
          rw [length_take] at hfull
          omega
        rw [take_add, take_pwrite hnil, drop_pwrite hnil, hpad, replicate_zero,
          append_nil, take_left' htake, Flow.held]
    split
    next hmore =>
      have h16 : (f.held ++ f.inp.take count).length = 16 := by
        rw [length_append, hlen, htake]
        exact hmore.1
      rw [hmore.1] at hblock
      rw [hblock, process_eq (by rw [h16])]
      refine ⟨f.held ++ f.inp.take count, ⟨?_, by rw [h16], rfl, rfl, rfl⟩, Nat.zero_le _, .inl rfl,
        fun hinp => ?_⟩
      · simp only [Flow.held, take_zero, nil_append, append_assoc, take_append_drop]
      · simp only at hinp
        rw [hinp] at hmore
        exact absurd hmore.2 (Nat.lt_irrefl 0)
    next hstop =>
      have hrest : f.inp.drop count = [] := by
        by_contra hne
        have hpos : 0 < (f.inp.drop count).length := length_pos_iff.mpr hne
        refine hstop ⟨?_, hpos⟩
        rw [length_drop] at hpos
        omega
      refine ⟨[], ⟨?_, rfl, ?_, ?_, ?_⟩, by dsimp only; omega, .inr hrest, fun _ hoff => ?_⟩
      · simp only [Flow.held, hblock, nil_append]
        rw [append_assoc, take_append_drop]
      · rw [(blockwise_cbc aes).nil, append_nil]
      · rw [(blockwise_cbc aes).nil]
      · simp only [Flow.held, hblock]
        rw [length_append, htake]
        exact congrArg (· + count) hlen
      · simp only at hoff
        omega

theorem wholeBlocks_spec (aes : Aes) (f : Flow) (hlen : f.held.length = f.offset)
    (hone : f.offset = 0 ∨ f.inp = []) :
    ∃ blocks, Processed aes f (wholeBlocks aes f) blocks ∧
      (wholeBlocks aes f).offset = f.offset ∧ (wholeBlocks aes f).inp.length ≤ 16 ∧
      ((wholeBlocks aes f).inp = [] ↔ f.inp = []) := by
  unfold wholeBlocks
  split
  next hfew => exact ⟨[], .refl hlen, rfl, by omega, Iff.rfl⟩
  next hmany =>
    have hoff : f.offset = 0 := by
      refine hone.resolve_right fun hnil => hmany ?_
      rw [hnil]
      rfl
    dsimp only
    generalize hcount : (f.inp.length / 16 * 16 - if f.inp.length % 16 = 0 then 16 else 0) = count
    obtain ⟨hmod, hlt, hleft⟩ :
        count % 16 = 0 ∧ count < f.inp.length ∧ f.inp.length - count ≤ 16 := by
      split at hcount <;> omega
    have htake : (f.inp.take count).length = count := by
      rw [length_take]
      omega
    rw [process_eq (by rw [htake]; exact hmod)]
    refine ⟨f.inp.take count, ⟨?_, by rw [htake]; exact hmod, rfl, rfl, hlen⟩, rfl, ?_,
      iff_of_false (fun hnil => ?_) fun hnil => ?_⟩
    · simp only [Flow.held, hoff, take_zero, nil_append, take_append_drop]
    · rw [length_drop]
      exact hleft
    · have := congrArg List.length hnil
      rw [length_drop, length_nil] at this
      omega
    · rw [hnil] at hmany
      exact hmany rfl

/-- What a call does: it processes blocks, and holds back the rest, or passes it on as the end. -/
theorem runBody_spec (aes : Aes) (f : Flow) (hlen : f.held.length = f.offset)
    (hle : f.offset ≤ 16) :
    ∃ (blocks held : List UInt8) (s : Stage), f.held ++ f.inp = blocks ++ held ∧
      blocks.length % 16 = 0 ∧ held.length ≤ 16 ∧ (held = [] → f.held ++ f.inp = []) ∧
      s.ctx = some (cbc aes f.ctx blocks).2 ∧ s.partialBlock.take s.offset = held ∧
      s.offset = held.length ∧
      runBody aes f false = some (s, f.out ++ (cbc aes f.ctx blocks).1) ∧
      runBody aes f true = match cipherFinal aes (cbc aes f.ctx blocks).2 held 32 with
        | .ok last => some (s, f.out ++ (cbc aes f.ctx blocks).1 ++ last)
        | .error _ => none := by
  obtain ⟨a, ha, hle', hone, hnil⟩ := fillPartial_spec aes f hlen hle
  obtain ⟨b, hb, hoff, hfew, hnil'⟩ := wholeBlocks_spec aes _ ha.held_length hone
  have hp := ha.trans hb
  unfold runBody
  generalize wholeBlocks aes (fillPartial aes f) = g at hp hb hoff hfew hnil'
  -- either nothing was held back or there is nothing to add
  have hblock : (pwrite g.partialBlock 0 g.inp).take (g.offset + g.inp.length)
      = g.held ++ g.inp := by
    rcases hone with h0 | hinp
    · have hread : pread (pwrite g.partialBlock 0 g.inp) 0 g.inp.length = g.inp := by
        rw [pread_pwrite_self (le_refl _), take_length]
      rw [pread, drop_zero] at hread
      rw [Flow.held, hoff, h0, Nat.zero_add, hread]
      rfl
    · rw [hnil'.mpr hinp, pwrite_nil, length_nil, Nat.add_zero, append_nil, Flow.held]
  have hlength : (g.held ++ g.inp).length = g.offset + g.inp.length := by
    rw [length_append, hp.held_length]
  refine ⟨a ++ b, g.held ++ g.inp,
    ⟨some g.ctx, pwrite g.partialBlock 0 g.inp, g.offset + g.inp.length⟩, hp.cut, hp.whole, ?_, ?_,
    congrArg some hp.ctx, hblock, hlength.symm, ?_, ?_⟩
  · rw [hlength]
    rcases hone with h0 | hinp
    · omega
    · rw [hnil'.mpr hinp, length_nil]
      omega
  · intro hempty
    obtain ⟨hheld, hinp⟩ := append_eq_nil_iff.mp hempty
    refine hnil (hnil'.mp hinp) ?_
    rw [← hoff, ← hp.held_length, hheld]
    rfl
  · dsimp only
    rw [if_neg (by omega), ← hp.out]
    rfl
  · dsimp only
    rw [if_neg (by omega), ← hp.out, ← hp.ctx, hblock]
    rfl

end call

/-! ## All of the calls -/

section calls

variable {aes : Aes} {c₀ : CipherCtx} {held front buf out salt : List UInt8}

/-- After `m` has been fed to the stage and `out` has come out. -/
structure Stage.Fed (aes : Aes) (c₀ : CipherCtx) (s : Stage) (m out : List UInt8)
    (ctx : CipherCtx) :
    Prop where
  ctx_eq : s.ctx = some ctx
  length : (s.partialBlock.take s.offset).length = s.offset
  held : HeldBack 16 (cbc aes) c₀ m ctx (s.partialBlock.take s.offset) out

/-- What the stage computes from a whole message. -/
def wholeFinal (aes : Aes) (c₀ : CipherCtx) (m : List UInt8) : Option (List UInt8) :=
  if c₀.encrypting then some (cbc aes c₀ (pkcs5 m)).1 else unpadWhole aes c₀ m

theorem pkcs5_append (h : front.length % 16 = 0) : pkcs5 (front ++ held) = front ++ pkcs5 held := by
  have hmod : (front ++ held).length % 16 = held.length % 16 := by
    rw [length_append]
    omega
  rw [pkcs5, pkcs5, hmod, append_assoc]

theorem pkcs5_length (m : List UInt8) : (pkcs5 m).length % 16 = 0 ∧ (pkcs5 m).length ≠ 0 := by
  rw [pkcs5, length_append, length_replicate]
  omega

theorem cipherFinal_encrypt {ctx : CipherCtx} (hdir : ctx.encrypting = true)
    (hiv : ctx.iv.length = 16) (hle : held.length ≤ 16) :
    cipherFinal aes ctx held 32 = .ok (cbc aes ctx (pkcs5 held)).1 := by
  generalize hoff : held.length - held.length % 16 = off
  have htake : (held.take off).length % 16 = 0 := by
    rw [length_take]
    omega
  have hdrop : (held.drop off).length = held.length % 16 := by
    rw [length_drop]
    omega
  have hpad : pkcs5Pad (held.drop off) = .ok (held.drop off ++
      replicate (16 - held.length % 16) (UInt8.ofNat (16 - held.length % 16))) := by
    rw [pkcs5Pad, hdrop, if_neg (by omega)]
  have hlast : (held.drop off ++ replicate (16 - held.length % 16)
      (UInt8.ofNat (16 - held.length % 16))).length % 16 = 0 := by
    rw [length_append, hdrop, length_replicate]
    omega
  have hsplit : pkcs5 held = held.take off ++ (held.drop off ++
      replicate (16 - held.length % 16) (UInt8.ofNat (16 - held.length % 16))) := by
    rw [← append_assoc, take_append_drop, pkcs5]
  rw [hsplit, (blockwise_cbc aes).append ctx _ _ htake hlast, cipherFinal, if_pos hdir]
  simp only [hoff, hpad, cbcEncrypt_eq_cbc aes hdir htake,
    cbcEncrypt_eq_cbc aes ((cbc_encrypting aes ctx _).trans hdir) hlast, bind, Except.bind, pure,
    Except.pure]
  rw [if_neg (by omega), take_of_length_le]
  rw [length_append, (cbc_length aes hiv htake).1, (cbc_length aes (cbc_length aes hiv htake).2
    hlast).1, length_take, length_append, hdrop, length_replicate]
  omega

theorem pkcs5Unpad_le {len : Nat} (h : pkcs5Unpad buf = .ok len) : len ≤ 16 := by
  unfold pkcs5Unpad at h
  dsimp only at h
  split at h
  next => cases h
  split at h
  next =>
    cases h
    exact Nat.sub_le ..
  next => cases h

theorem cipherFinal_decrypt {ctx : CipherCtx} (hdir : ctx.encrypting = false)
    (hle : held.length ≤ 16) :
    cipherFinal aes ctx held 32 = if held.length = 16 then
        (pkcs5Unpad (cbc aes ctx held).1).map fun len => (cbc aes ctx held).1.take len
      else .error .invalidArgument := by
  have hdir' : ¬ ctx.encrypting = true := by rw [hdir]; exact Bool.false_ne_true
  rw [cipherFinal, if_neg hdir']
  by_cases h16 : held.length = 16
  · have hnil : cbcDecrypt aes ctx [] = .ok ([], ctx) := by
      rw [cbcDecrypt_eq_cbc aes hdir rfl, (blockwise_cbc aes).nil]
    have hone : cbcDecrypt aes ctx held = .ok (cbc aes ctx held) :=
      cbcDecrypt_eq_cbc aes hdir (by rw [h16])
    simp only [h16, Nat.sub_self, take_zero, drop_zero, hnil, hone, bind, Except.bind,
      pure, Except.pure, if_true]
    rw [if_neg (by omega), if_neg (by omega)]
    cases hunpad : pkcs5Unpad (cbc aes ctx held).1 with
    | error e => rfl
    | ok len =>
      have := pkcs5Unpad_le hunpad
      simp only [Except.map]
      rw [if_neg (by omega), nil_append]
  · rw [if_neg h16, if_pos (by omega)]
    rfl

/-- The output so far, and what `isrcry_cipher_final` makes of the end. -/
def finalWith (aes : Aes) (out : List UInt8) (ctx : CipherCtx) (held : List UInt8) :
    Option (List UInt8) :=
  match cipherFinal aes ctx held 32 with
  | .ok last => some (out ++ last)
  | .error _ => none

/-- The end of a message can be left to `isrcry_cipher_final`. -/
theorem wholeFinal_append (hiv : c₀.iv.length = 16) (hfront : front.length % 16 = 0)
    (hle : held.length ≤ 16) (hnil : held = [] → front = []) :
    wholeFinal aes c₀ (front ++ held)
      = finalWith aes (cbc aes c₀ front).1 (cbc aes c₀ front).2 held := by
  have hlen : (front ++ held).length = front.length + held.length := length_append
  unfold wholeFinal finalWith
  cases hdir : c₀.encrypting with
  | true =>
    rw [if_pos rfl, pkcs5_append hfront,
      (blockwise_cbc aes).append c₀ _ _ hfront (pkcs5_length held).1,
      cipherFinal_encrypt ((cbc_encrypting aes c₀ front).trans hdir)
        (cbc_length aes hiv hfront).2 hle]
  | false =>
    rw [if_neg Bool.false_ne_true,
      cipherFinal_decrypt ((cbc_encrypting aes c₀ front).trans hdir) hle]
    unfold unpadWhole
    by_cases h16 : held.length = 16
    · have hout := (cbc_length aes hiv hfront).1
      have hsub : front.length + 16 - 16 = front.length := Nat.add_sub_cancel ..
      rw [if_pos h16, hlen, h16, if_neg (by omega), hsub,
        (blockwise_cbc aes).append c₀ _ _ hfront (by rw [h16])]
      dsimp only
      rw [drop_left' hout]
      cases pkcs5Unpad (cbc aes (cbc aes c₀ front).2 held).1 with
      | error e => rfl
      | ok len =>
        simp only [Except.map]
        rw [← hout, take_length_add_append]
    · rw [if_neg h16, hlen, if_pos]
      by_cases h0 : held.length = 0
      · left
        rw [hnil (eq_nil_of_length_eq_zero h0), h0]
        rfl
      · omega

theorem runBody_more {f : Flow} {m : List UInt8} (hlen : f.held.length = f.offset)
    (h : HeldBack 16 (cbc aes) c₀ m f.ctx f.held out) :
    ∃ s ctx o, runBody aes f false = some (s, f.out ++ o) ∧
      Stage.Fed aes c₀ s (m ++ f.inp) (out ++ o) ctx := by
  have hle : f.offset ≤ 16 := by
    obtain ⟨-, -, -, hle, -⟩ := h
    omega
  obtain ⟨blocks, held, s, hcut, hblocks, hheld, hnil, hctx, hblock, hoff, hrun, -⟩ :=
    runBody_spec aes f hlen hle
  refine ⟨s, _, _, hrun, hctx, by rw [hblock, hoff], ?_⟩
  rw [hblock]
  exact h.more (blockwise_cbc aes) hcut hblocks hheld hnil

theorem runBody_final (hiv : c₀.iv.length = 16) {f : Flow} {m : List UInt8}
    (hlen : f.held.length = f.offset) (h : HeldBack 16 (cbc aes) c₀ m f.ctx f.held out) :
    ∃ r : Option (List UInt8), (runBody aes f true).map Prod.snd = r.map (f.out ++ ·) ∧
      wholeFinal aes c₀ (m ++ f.inp) = r.map (out ++ ·) := by
  have hle : f.offset ≤ 16 := by
    obtain ⟨-, -, -, hle, -⟩ := h
    omega
  obtain ⟨blocks, held, s, hcut, hblocks, hheld, hnil, -, -, -, -, hrun⟩ :=
    runBody_spec aes f hlen hle
  have hwhole : wholeFinal aes c₀ (m ++ f.inp) = finalWith aes _ _ held :=
    (h.more (blockwise_cbc aes) hcut hblocks hheld hnil).finish
      fun front held hfront hle hnil => wholeFinal_append hiv hfront hle hnil
  rw [hrun, hwhole, finalWith]
  cases cipherFinal aes (cbc aes f.ctx blocks).2 held 32 with
  | error e => exact ⟨none, rfl, rfl⟩
  | ok last =>
    refine ⟨some ((cbc aes f.ctx blocks).1 ++ last), ?_, ?_⟩ <;>
      simp only [Option.map_some, append_assoc]

/-- The calls from some point on, where `m` has been fed to the stage and `out` has come out. -/
theorem runBuffers_spec {K : Kit} {encode : Bool} (hiv : c₀.iv.length = 16)
    (bufs : List (List UInt8)) :
    ∀ {s : Stage} {f : Flow} {m out : List UInt8} (buf : List UInt8),
    (∀ final, runCipher K encode salt s buf final = runBody K.aes f final) →
    f.held.length = f.offset → HeldBack 16 (cbc K.aes) c₀ m f.ctx f.held out →
    ∃ r : Option (List UInt8), runBuffers K encode salt s buf bufs = r.map (f.out ++ ·) ∧
      wholeFinal K.aes c₀ (m ++ (f.inp ++ bufs.flatten)) = r.map (out ++ ·) := by
  induction bufs with
  | nil =>
    intro s f m out buf hcall hlen h
    rw [runBuffers, hcall, flatten_nil, append_nil]
    exact runBody_final hiv hlen h
  | cons next bufs ih =>
    intro s f m out buf hcall hlen h
    obtain ⟨s', ctx, o, hrun, hfed⟩ := runBody_more hlen h
    have hnext : ∀ final, runCipher K encode salt s' next final
        = runBody K.aes ⟨ctx, s'.partialBlock, s'.offset, next, []⟩ final := by
      intro final
      rw [runCipher, hfed.ctx_eq]
    obtain ⟨r, hr, hwhole⟩ := ih next hnext hfed.length hfed.held
    refine ⟨r.map (o ++ ·), ?_, ?_⟩
    · simp only [runBuffers, hcall, hrun, hr, Option.map_map]
      cases r <;> simp
    · rw [flatten_cons, ← append_assoc, hwhole, Option.map_map]
      cases r <;> simp

theorem runBuffers_init {K : Kit} {encode : Bool} {inp header : List UInt8}
    (hiv : c₀.iv.length = 16) (hinit : initCipher K encode salt buf = some (c₀, inp, header))
    (bufs : List (List UInt8)) :
    runBuffers K encode salt .start buf bufs
      = (wholeFinal K.aes c₀ (inp ++ bufs.flatten)).map (header ++ ·) := by
  have hcall : ∀ final, runCipher K encode salt .start buf final
      = runBody K.aes ⟨c₀, [], 0, inp, header⟩ final := by
    intro final
    simp only [runCipher, Stage.start, hinit]
  obtain ⟨r, hr, hwhole⟩ := runBuffers_spec hiv bufs buf hcall rfl
    (HeldBack.nil (blockwise_cbc K.aes) c₀)
  rw [nil_append] at hwhole
  rw [hr, hwhole]
  cases r <;> rfl

end calls

/-! ## The pipeline -/

variable (K : Kit)

theorem encode_eq (salt buf : List UInt8) (bufs : List (List UInt8)) :
    runBuffers K true salt .start buf bufs
      = some (encodeWhole K salt (buf :: bufs).flatten) := by
  have hinit : initCipher K true salt buf
      = some (setCipherKey K true salt, buf, saltMagic ++ salt) := rfl
  rw [runBuffers_init (K.md5_length _) hinit bufs]
  rfl

/-- However the input is cut, if the header is in the first buffer, it is accepted or not, and
decoded, as a whole. -/
theorem decode_eq (salt : List UInt8) {buf : List UInt8} (hbuf : 16 ≤ buf.length)
    (bufs : List (List UInt8)) :
    runBuffers K false salt .start buf bufs = decodeWhole K (buf :: bufs).flatten := by
  have hlen : ¬ (buf ++ bufs.flatten).length < 16 := by
    rw [length_append]
    omega
  have hmagic : (buf ++ bufs.flatten).take 8 = buf.take 8 :=
    take_append_of_le_length (by omega)
  have hsalt : ((buf ++ bufs.flatten).drop 8).take 8 = (buf.drop 8).take 8 := by
    rw [drop_append_of_le_length (by omega), take_append_of_le_length]
    rw [length_drop]
    omega
  have hbody : (buf ++ bufs.flatten).drop 16 = buf.drop 16 ++ bufs.flatten :=
    drop_append_of_le_length hbuf
  rw [flatten_cons, decodeWhole, hmagic, hsalt, hbody]
  by_cases hbad : buf.take 8 ≠ saltMagic
  · have hinit : initCipher K false salt buf = none := by
      simp only [initCipher, Bool.false_eq_true, if_false, if_neg (not_lt.mpr hbuf),
        if_pos hbad]
    have hcall : ∀ final, runCipher K false salt .start buf final = none := by
      intro final
      simp only [runCipher, Stage.start, hinit]
    rw [if_pos (.inr hbad)]
    cases bufs <;> simp only [runBuffers, hcall, Option.map_none]
  · have hinit : initCipher K false salt buf
        = some (setCipherKey K false ((buf.drop 8).take 8), buf.drop 16, []) := by
      simp only [initCipher, Bool.false_eq_true, if_false, if_neg (not_lt.mpr hbuf),
        if_neg hbad]
    rw [runBuffers_init (K.md5_length _) hinit bufs, if_neg (not_or.mpr ⟨hlen, hbad⟩)]
    show (unpadWhole _ _ _).map _ = _
    exact Option.map_id'

theorem decodeWhole_encodeWhole {salt : List UInt8} (hsalt : salt.length = 8)
    (plain : List UInt8) : decodeWhole K (encodeWhole K salt plain) = some plain := by
  have hmod := (pkcs5_length plain).1
  have hpos := (pkcs5_length plain).2
  have hiv : (setCipherKey K true salt).iv.length = 16 := K.md5_length _
  generalize hct : (cbc K.aes (setCipherKey K true salt) (pkcs5 plain)).1 = ct
  have hlen : ct.length = (pkcs5 plain).length := by
    rw [← hct]
    exact (cbc_length K.aes hiv hmod).1
  have hback : (cbc K.aes (setCipherKey K false salt) ct).1 = pkcs5 plain := by
    rw [← hct]
    exact cbc_cbc K.aes hiv hmod
  -- the header
  have hheader : (saltMagic ++ salt).length = 16 := by rw [length_append, hsalt]; rfl
  have hmagic : (saltMagic ++ salt ++ ct).take 8 = saltMagic := by
    rw [append_assoc]
    exact take_left' rfl
  have hsalt' : ((saltMagic ++ salt ++ ct).drop 8).take 8 = salt := by
    rw [append_assoc, drop_left' (by rfl), take_left' hsalt]
  rw [encodeWhole, hct, decodeWhole, hmagic, hsalt', drop_left' hheader, if_neg, unpadWhole,
    hback, hlen, if_neg (by omega)]
  · -- the padding
    generalize hoff : plain.length - plain.length % 16 = off
    have hdrop : (plain.drop off).length = plain.length % 16 := by
      rw [length_drop]
      omega
    obtain ⟨block, hpad, -, -, hunpad⟩ := pkcs5Unpad_pkcs5Pad (plain.drop off) (by omega)
    rw [pkcs5Pad, hdrop, if_neg (by omega)] at hpad
    have hsize : (pkcs5 plain).length - 16 = off := by
      rw [pkcs5, length_append, length_replicate]
      omega
    have hlast : (pkcs5 plain).drop off = block := by
      rw [pkcs5, drop_append_of_le_length (by omega)]
      exact Except.ok.inj hpad
    rw [hsize]
    dsimp only
    rw [hlast, hunpad, hdrop]
    dsimp only
    rw [pkcs5, take_left' (by omega)]
  · rw [not_or, not_not, length_append, hheader]
    exact ⟨by omega, rfl⟩

/-- The cipher stage of blobtool: encoding gives the header and one padded CBC encryption of the
plaintext, decoding returns it, and neither depends on how the input is cut. -/
theorem cipher_pipeline (salt : List UInt8) (hsalt : salt.length = 8) :
    (∀ buf bufs, runBuffers K true salt .start buf bufs
      = some (encodeWhole K salt (buf :: bufs).flatten)) ∧
    (∀ plain buf bufs, (buf :: bufs).flatten = encodeWhole K salt plain → 16 ≤ buf.length →
      runBuffers K false salt .start buf bufs = some plain) ∧
    ∀ buf bufs buf' bufs', (buf :: bufs).flatten = (buf' :: bufs').flatten → 16 ≤ buf.length →
      16 ≤ buf'.length →
      runBuffers K false salt .start buf bufs = runBuffers K false salt .start buf' bufs' := by
  refine ⟨encode_eq K salt, fun plain buf bufs heq hbuf => ?_,
    fun buf bufs buf' bufs' heq hbuf hbuf' => ?_⟩
  · rw [decode_eq K salt hbuf, heq, decodeWhole_encodeWhole K hsalt]
  · rw [decode_eq K salt hbuf, decode_eq K salt hbuf', heq]

/-- A cipher that turns a block, and a digest of the sum and the first bytes. -/
def rotateKit : Kit where
  aes := rotateAes
  md5 := fun data => data.foldl (· + ·) 0 :: (data ++ replicate 15 0).take 15
  md5_length := fun data => by simp
  keyroot := [0x6B]

/-- What becomes of eighteen bytes. -/
def twoBlocks : List UInt8 :=
  [228, 220] ++ replicate 8 118 ++ replicate 5 117 ++ [203, 81] ++ replicate 8 235 ++
    replicate 5 238 ++ [56, 89]

/-- Eighteen bytes in three buffers, and back with the header in a buffer of its own. -/
theorem cipher_pipeline_two_blocks :
    runBuffers rotateKit true (replicate 8 1) .start [1] [[], replicate 17 2]
        = some (saltMagic ++ replicate 8 1 ++ twoBlocks) ∧
      runBuffers rotateKit false (replicate 8 1) .start (saltMagic ++ replicate 8 1)
        [twoBlocks.take 5, twoBlocks.drop 5] = some (1 :: replicate 17 2) := by
  obtain ⟨hencode, hdecode, -⟩ := cipher_pipeline rotateKit (replicate 8 1) rfl
  have hwhole : encodeWhole rotateKit (replicate 8 1) (1 :: replicate 17 2)
      = saltMagic ++ replicate 8 1 ++ twoBlocks := by
    decide +kernel
  refine ⟨?_, hdecode (1 :: replicate 17 2) _ _ ?_ (by decide)⟩
  · rw [hencode, ← hwhole]
    rfl
  · rw [hwhole]
    rfl

end OpenIsr.Tools
