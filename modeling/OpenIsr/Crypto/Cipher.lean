import Mathlib.Data.List.Basic
import Mathlib.Data.List.Rotate
import Mathlib.Data.Set.Finite.List
import Mathlib.Tactic.Common
import OpenIsr.Base.HoldBack

/-!
# Block cipher, CBC mode and PKCS5 padding

The cipher functions of the library for the one combination the chunk codec uses: AES in CBC
mode with PKCS5 padding. AES itself is a parameter: of its 256-entry tables only the fact is
used that decryption under a key undoes encryption under it.

`cbcEncrypt_spec` and `cipherFinal_spec` say what encryption gives and that decryption
returns what was encrypted. Lengths are natural numbers, with one exception: the sum that
`isrcry_cipher_final` compares with `*outlen` and stores there is an `unsigned`, and is 0 for the
last 16 lengths that `inlen` can have. The arguments are not NULL.
-/

namespace OpenIsr.Crypto

open List

/-- `enum isrcry_result`. -/
inductive Result
  | ok
  | invalidArgument
  | badPadding
  | badFormat
  | bufferOverflow
  | noStreaming
  deriving DecidableEq, Repr

/-- AES with a 16-byte key, on blocks of 16 bytes. -/
structure Aes where
  encrypt : List UInt8 → List UInt8 → List UInt8
  decrypt : List UInt8 → List UInt8 → List UInt8
  encrypt_length : ∀ key b, b.length = 16 → (encrypt key b).length = 16
  decrypt_encrypt : ∀ key b, b.length = 16 → decrypt key (encrypt key b) = b

/-- The block cipher that does nothing. -/
def identityAes : Aes where
  encrypt _ b := b
  decrypt _ b := b
  encrypt_length _ _ h := h
  decrypt_encrypt _ _ _ := rfl

/-- A block cipher that adds the first byte of the key to every byte and turns the block by one. -/
def rotateAes : Aes where
  encrypt key b := (b.map (· + key.headD 0)).rotate 1
  decrypt key c := (c.rotate 15).map (· - key.headD 0)
  encrypt_length _ _ h := by simp [h]
  decrypt_encrypt key b h := by
    have hround : ((b.map (· + key.headD 0)).rotate 1).rotate 15 = b.map (· + key.headD 0) := by
      rw [rotate_rotate]
      exact (congrArg _ (by simp [h])).trans (rotate_length _)
    rw [hround, map_map]
    exact (map_congr_left fun x _ => UInt8.add_sub_cancel x _).trans (map_id _)

/-- `struct isrcry_cipher_ctx`: the key, the initialisation vector for the next block and the
direction. -/
structure CipherCtx where
  key : List UInt8
  iv : List UInt8
  encrypting : Bool

/-- `memset(cctx->iv, 0, cctx->cipher->blocklen)`. -/
def zeroIv : List UInt8 := replicate 16 0

/-- `isrcry_cipher_init` without an initialisation vector; `aes_init` accepts three key
lengths. -/
def cipherInit (encrypting : Bool) (key : List UInt8) : Except Result CipherCtx :=
  if key.length ≠ 16 ∧ key.length ≠ 24 ∧ key.length ≠ 32 then .error .invalidArgument
  else .ok { key, iv := zeroIv, encrypting }

/-- `iv[x] ^= in[x]`. -/
def xorBlock (a b : List UInt8) : List UInt8 := List.zipWith (· ^^^ ·) a b

variable (aes : Aes) {inp iv c : List UInt8} {n : Nat} {cctx : CipherCtx}

/-- The loop of `cbc_encrypt` over `n` blocks: the output and the last `iv`. -/
def cbcEncryptBlocks (key : List UInt8) : Nat → List UInt8 → List UInt8 → List UInt8 × List UInt8
  | 0, iv, _ => ([], iv)
  | n + 1, iv, inp =>
    let c := aes.encrypt key (xorBlock iv (inp.take 16))
    let (out, iv) := cbcEncryptBlocks key n c (inp.drop 16)
    (c ++ out, iv)

/-- The loop of `cbc_decrypt`. -/
def cbcDecryptBlocks (key : List UInt8) : Nat → List UInt8 → List UInt8 → List UInt8 × List UInt8
  | 0, iv, _ => ([], iv)
  | n + 1, iv, inp =>
    let p := xorBlock iv (aes.decrypt key (inp.take 16))
    let (out, iv) := cbcDecryptBlocks key n (inp.take 16) (inp.drop 16)
    (p ++ out, iv)

/-- `cbc_encrypt`. -/
def cbcEncrypt (cctx : CipherCtx) (inp : List UInt8) : Except Result (List UInt8 × CipherCtx) :=
  if inp.length % 16 ≠ 0 then .error .invalidArgument
  else
    let (out, iv) := cbcEncryptBlocks aes cctx.key (inp.length / 16) cctx.iv inp
    .ok (out, { cctx with iv })

/-- `cbc_decrypt`. -/
def cbcDecrypt (cctx : CipherCtx) (inp : List UInt8) : Except Result (List UInt8 × CipherCtx) :=
  if inp.length % 16 ≠ 0 then .error .invalidArgument
  else
    let (out, iv) := cbcDecryptBlocks aes cctx.key (inp.length / 16) cctx.iv inp
    .ok (out, { cctx with iv })

/-- `isrcry_cipher_process`. -/
def cipherProcess (cctx : CipherCtx) (inp : List UInt8) : Except Result (List UInt8) :=
  if cctx.encrypting then (cbcEncrypt aes cctx inp).map Prod.fst
  else (cbcDecrypt aes cctx inp).map Prod.fst

/-- `pkcs5_pad`: `data` is the part of the last block that is there. -/
def pkcs5Pad (data : List UInt8) : Except Result (List UInt8) :=
  if 16 ≤ data.length then .error .invalidArgument
  else .ok (data ++ replicate (16 - data.length) (UInt8.ofNat (16 - data.length)))

/-- `pkcs5_unpad`: the length of the data in the last block. -/
def pkcs5Unpad (buf : List UInt8) : Except Result Nat :=
  let pad := (buf.getD 15 0).toNat
  if pad = 0 ∨ 16 < pad then .error .badPadding
  else if ∀ n ∈ List.range' 1 (pad - 1), (buf.getD (16 - n - 1) 0).toNat = pad then .ok (16 - pad)
  else .error .badPadding

/-- `isrcry_cipher_final` with PKCS5 padding and `outlen` bytes of room. The result is as much of
`out` as `*outlen` says in the end, and when it encrypts that is an `unsigned` sum. -/
def cipherFinal (cctx : CipherCtx) (inp : List UInt8) (outlen : Nat) :
    Except Result (List UInt8) :=
  if cctx.encrypting then do
    let lblockOffset := inp.length - inp.length % 16
    let total := (lblockOffset + 16) % 2 ^ 32
    if outlen < total then throw .invalidArgument
    let lblock ← pkcs5Pad (inp.drop lblockOffset)
    let (out, cctx) ← cbcEncrypt aes cctx (inp.take lblockOffset)
    let (last, _) ← cbcEncrypt aes cctx lblock
    return (out ++ last).take total
  else do
    if inp.length = 0 ∨ inp.length % 16 ≠ 0 then throw .invalidArgument
    let lblockOffset := inp.length - 16
    if outlen < lblockOffset then throw .invalidArgument
    let (out, cctx) ← cbcDecrypt aes cctx (inp.take lblockOffset)
    let (lblock, _) ← cbcDecrypt aes cctx (inp.drop lblockOffset)
    let lblockLen ← pkcs5Unpad lblock
    if outlen < lblockOffset + lblockLen then throw .invalidArgument
    return out ++ lblock.take lblockLen

/-! ## Decryption undoes encryption -/

theorem xorBlock_length (a b : List UInt8) (h : a.length = b.length) :
    (xorBlock a b).length = b.length := by
  simp [xorBlock, h]

theorem xorBlock_xorBlock (a b : List UInt8) (h : a.length = b.length) :
    xorBlock a (xorBlock a b) = b := by
  induction a generalizing b with
  | nil => exact (eq_nil_of_length_eq_zero h.symm).symm
  | cons x a ih =>
    cases b with
    | nil => cases h
    | cons y b =>
      have hxy : x ^^^ (x ^^^ y) = y := by rw [← UInt8.xor_assoc, UInt8.xor_self, UInt8.zero_xor]
      simp only [xorBlock, zipWith_cons_cons, hxy]
      congr 1
      exact ih b (Nat.succ.inj h)

theorem cbcEncryptBlocks_length (key : List UInt8) (hiv : iv.length = 16)
    (hn : inp.length = n * 16) :
    (cbcEncryptBlocks aes key n iv inp).1.length = n * 16 ∧
      (cbcEncryptBlocks aes key n iv inp).2.length = 16 := by
  induction n generalizing iv inp with
  | zero => exact ⟨rfl, hiv⟩
  | succ n ih =>
    have htake : (inp.take 16).length = 16 := by rw [length_take]; omega
    have hc : (aes.encrypt key (xorBlock iv (inp.take 16))).length = 16 :=
      aes.encrypt_length _ _ (by rw [xorBlock_length _ _ (by omega), htake])
    obtain ⟨hout, hiv'⟩ :=
      ih hc (show (inp.drop 16).length = n * 16 by rw [length_drop]; omega)
    refine ⟨?_, hiv'⟩
    simp only [cbcEncryptBlocks, length_append, hc, hout]
    omega

theorem cbcDecryptBlocks_cbcEncryptBlocks (key : List UInt8) (hiv : iv.length = 16)
    (hn : inp.length = n * 16) :
    cbcDecryptBlocks aes key n iv (cbcEncryptBlocks aes key n iv inp).1
      = (inp, (cbcEncryptBlocks aes key n iv inp).2) := by
  induction n generalizing iv inp with
  | zero =>
    rw [show inp = [] from eq_nil_of_length_eq_zero (by omega)]
    rfl
  | succ n ih =>
    have htake : (inp.take 16).length = 16 := by rw [length_take]; omega
    have hx : (xorBlock iv (inp.take 16)).length = 16 := by
      rw [xorBlock_length _ _ (by omega), htake]
    have hc := aes.encrypt_length key _ hx
    have ih := ih hc (show (inp.drop 16).length = n * 16 by rw [length_drop]; omega)
    simp only [cbcEncryptBlocks, cbcDecryptBlocks, take_left' hc, drop_left' hc, ih,
      aes.decrypt_encrypt key _ hx, xorBlock_xorBlock iv (inp.take 16) (by omega),
      take_append_drop]

theorem cbcEncrypt_spec (cctx : CipherCtx) (inp : List UInt8) (hiv : cctx.iv.length = 16)
    (hn : inp.length % 16 = 0) :
    ∃ out iv, cbcEncrypt aes cctx inp = .ok (out, { cctx with iv }) ∧ iv.length = 16 ∧
      out.length = inp.length ∧
      ∀ encrypting, cbcDecrypt aes { cctx with encrypting } out
        = .ok (inp, { cctx with encrypting, iv }) := by
  have hlen : inp.length = inp.length / 16 * 16 := by omega
  obtain ⟨hout, hiv'⟩ := cbcEncryptBlocks_length aes cctx.key hiv hlen
  have hback := cbcDecryptBlocks_cbcEncryptBlocks aes cctx.key hiv hlen
  refine ⟨_, _, by rw [cbcEncrypt, if_neg (not_not.mpr hn)], hiv', by omega, fun e => ?_⟩
  rw [cbcDecrypt, if_neg (by omega), show
    (cbcEncryptBlocks aes cctx.key (inp.length / 16) cctx.iv inp).1.length / 16
      = inp.length / 16 by omega]
  simp only [hback]

theorem pkcs5Unpad_pkcs5Pad (data : List UInt8) (h : data.length < 16) :
    ∃ buf, pkcs5Pad data = .ok buf ∧ buf.length = 16 ∧ buf.take data.length = data ∧
      pkcs5Unpad buf = .ok data.length := by
  have hget : ∀ i, data.length ≤ i → i < 16 →
      ((data ++ replicate (16 - data.length) (UInt8.ofNat (16 - data.length))).getD i 0).toNat
        = 16 - data.length := by
    intro i hi h16
    rw [getD_eq_getElem?_getD, getElem?_append_right hi,
      getElem?_replicate_of_lt (by omega), Option.getD_some, UInt8.toNat_ofNat']
    omega
  refine ⟨_, if_neg (by omega), ?_, take_left' rfl, ?_⟩
  · rw [length_append, length_replicate]
    omega
  · unfold pkcs5Unpad
    rw [hget 15 (by omega) (by omega), if_neg (by omega), if_pos]
    · rw [show 16 - (16 - data.length) = data.length by omega]
    · intro n hn
      rw [mem_range'_1] at hn
      exact hget (16 - n - 1) (by omega) (by omega)

/-- Encryption writes whole blocks, which decryption returns. The caller gets as many of the bytes
as fit the `unsigned` that their number is stored in. -/
theorem cipherFinal_encrypts (cctx : CipherCtx) (inp : List UInt8) {outlen : Nat}
    (hdir : cctx.encrypting = true) (hiv : cctx.iv.length = 16)
    (hout : (inp.length - inp.length % 16 + 16) % 2 ^ 32 ≤ outlen) :
    ∃ out, cipherFinal aes cctx inp outlen
        = .ok (out.take ((inp.length - inp.length % 16 + 16) % 2 ^ 32)) ∧
      out.length = inp.length - inp.length % 16 + 16 ∧
      ∀ outlen', inp.length ≤ outlen' →
        cipherFinal aes { cctx with encrypting := false } out outlen' = .ok inp := by
  generalize hoff : inp.length - inp.length % 16 = off at hout ⊢
  have htake : (inp.take off).length = off := by rw [length_take]; omega
  have hdrop : (inp.drop off).length = inp.length % 16 := by rw [length_drop]; omega
  obtain ⟨buf, hpad, hbuf, hbuft, hunpad⟩ :=
    pkcs5Unpad_pkcs5Pad (inp.drop off) (by omega)
  obtain ⟨out₁, iv₁, henc₁, hiv₁, hlen₁, hdec₁⟩ :=
    cbcEncrypt_spec aes cctx (inp.take off) hiv (by omega)
  obtain ⟨out₂, iv₂, henc₂, -, hlen₂, hdec₂⟩ :=
    cbcEncrypt_spec aes { cctx with iv := iv₁ } buf hiv₁ (by omega)
  refine ⟨out₁ ++ out₂, ?_, by rw [length_append]; omega, fun outlen' hout' => ?_⟩
  · rw [cipherFinal, if_pos hdir]
    simp only [hoff, if_neg (not_lt.mpr hout), hpad, henc₁, henc₂, bind, Except.bind, pure,
      Except.pure]
  · have hl : (out₁ ++ out₂).length = off + 16 := by rw [length_append]; omega
    have hsub : off + 16 - 16 = off := rfl
    simp only [cipherFinal, Bool.false_eq_true, if_false, hl, hsub,
      take_left' (hlen₁.trans htake), drop_left' (hlen₁.trans htake), hdec₁, hdec₂,
      hunpad, hbuft, bind, Except.bind, pure, Except.pure, take_append_drop]
    rw [if_neg (by omega), if_neg (by omega), if_neg (by omega)]

theorem cipherFinal_spec (cctx : CipherCtx) (inp : List UInt8) {outlen : Nat}
    (hdir : cctx.encrypting = true) (hiv : cctx.iv.length = 16) (hlt : inp.length < 2 ^ 32 - 16)
    (hout : inp.length - inp.length % 16 + 16 ≤ outlen) :
    ∃ out, cipherFinal aes cctx inp outlen = .ok out ∧
      out.length = inp.length - inp.length % 16 + 16 ∧
      ∀ outlen', inp.length ≤ outlen' →
        cipherFinal aes { cctx with encrypting := false } out outlen' = .ok inp := by
  have hmod : (inp.length - inp.length % 16 + 16) % 2 ^ 32 = inp.length - inp.length % 16 + 16 :=
    Nat.mod_eq_of_lt (by omega)
  obtain ⟨out, hok, hlen, hback⟩ := cipherFinal_encrypts aes cctx inp hdir hiv (hmod.symm ▸ hout)
  rw [hmod, ← hlen, take_length] at hok
  exact ⟨out, hok, hlen, hback⟩

/-! ## The length of what is decrypted -/

theorem Aes.exists_block (key : List UInt8) (hc : c.length = 16) :
    ∃ b, b.length = 16 ∧ aes.encrypt key b = c := by
  have : Finite UInt8 := Finite.of_injective UInt8.toFin fun _ _ h => UInt8.toFin_inj.mp h
  have hmaps : Set.MapsTo (aes.encrypt key) {b | b.length = 16} {b | b.length = 16} :=
    fun b hb => aes.encrypt_length key b hb
  have hinj : Set.InjOn (aes.encrypt key) {b | b.length = 16} := by
    intro b hb b' hb' h
    rw [← aes.decrypt_encrypt key b hb, h, aes.decrypt_encrypt key b' hb']
  exact (((finite_length_eq UInt8 16).injOn_iff_bijOn_of_mapsTo hmaps).mp hinj).surjOn hc

theorem Aes.decrypt_length (key : List UInt8) (hc : c.length = 16) :
    (aes.decrypt key c).length = 16 := by
  obtain ⟨b, hb, rfl⟩ := aes.exists_block key hc
  rw [aes.decrypt_encrypt key b hb]
  exact hb

theorem cbcDecryptBlocks_length (key : List UInt8) (hiv : iv.length = 16)
    (hinp : inp.length = n * 16) : (cbcDecryptBlocks aes key n iv inp).1.length = n * 16 := by
  induction n generalizing iv inp with
  | zero => rfl
  | succ n ih =>
    have htake : (inp.take 16).length = 16 := by
      rw [length_take]
      omega
    have hdec := aes.decrypt_length key htake
    have hrest := ih htake (show (inp.drop 16).length = n * 16 by rw [length_drop]; omega)
    simp only [cbcDecryptBlocks, length_append, hrest, xorBlock_length _ _ (hiv.trans hdec.symm),
      hdec]
    omega

/-- `isrcry_cipher_process` decrypts as many bytes as it is given. -/
theorem cipherProcess_length {out : List UInt8} (hdir : cctx.encrypting = false)
    (hiv : cctx.iv.length = 16) (h : cipherProcess aes cctx inp = .ok out) :
    out.length = inp.length := by
  simp only [cipherProcess, hdir, Bool.false_eq_true, if_false, cbcDecrypt] at h
  split at h
  next => cases h
  next h16 =>
    cases h
    rw [cbcDecryptBlocks_length aes _ hiv] <;> omega

/-! ## In pieces -/

/-- CBC over the whole blocks of the input, in the direction of the context. -/
def cbc (cctx : CipherCtx) (inp : List UInt8) : List UInt8 × CipherCtx :=
  let (out, iv) :=
    if cctx.encrypting then cbcEncryptBlocks aes cctx.key (inp.length / 16) cctx.iv inp
    else cbcDecryptBlocks aes cctx.key (inp.length / 16) cctx.iv inp
  (out, { cctx with iv })

theorem cbcEncrypt_eq_cbc (hdir : cctx.encrypting = true) (h16 : inp.length % 16 = 0) :
    cbcEncrypt aes cctx inp = .ok (cbc aes cctx inp) := by
  simp only [cbcEncrypt, cbc, hdir, h16, ne_eq, not_true_eq_false, if_false, if_true]

theorem cbcDecrypt_eq_cbc (hdir : cctx.encrypting = false) (h16 : inp.length % 16 = 0) :
    cbcDecrypt aes cctx inp = .ok (cbc aes cctx inp) := by
  simp only [cbcDecrypt, cbc, hdir, h16, ne_eq, not_true_eq_false, if_false, Bool.false_eq_true]

@[simp] theorem cbc_key (cctx : CipherCtx) (inp : List UInt8) :
    (cbc aes cctx inp).2.key = cctx.key := rfl

@[simp] theorem cbc_encrypting (cctx : CipherCtx) (inp : List UInt8) :
    (cbc aes cctx inp).2.encrypting = cctx.encrypting := rfl

theorem cbcEncryptBlocks_append (key : List UInt8) (k : Nat) :
    ∀ {iv a : List UInt8}
    (b : List UInt8), a.length = n * 16 →
    cbcEncryptBlocks aes key (n + k) iv (a ++ b)
      = ((cbcEncryptBlocks aes key n iv a).1 ++
          (cbcEncryptBlocks aes key k (cbcEncryptBlocks aes key n iv a).2 b).1,
        (cbcEncryptBlocks aes key k (cbcEncryptBlocks aes key n iv a).2 b).2) := by
  induction n with
  | zero =>
    intro iv a b ha
    rw [eq_nil_of_length_eq_zero (by omega : a.length = 0), Nat.zero_add]
    rfl
  | succ n ih =>
    intro iv a b ha
    rw [Nat.succ_add]
    simp only [cbcEncryptBlocks, take_append_of_le_length (by omega : 16 ≤ a.length),
      drop_append_of_le_length (by omega : 16 ≤ a.length), append_assoc,
      ih b (by rw [length_drop]; omega : (a.drop 16).length = n * 16)]

theorem cbcDecryptBlocks_append (key : List UInt8) (k : Nat) :
    ∀ {iv a : List UInt8}
    (b : List UInt8), a.length = n * 16 →
    cbcDecryptBlocks aes key (n + k) iv (a ++ b)
      = ((cbcDecryptBlocks aes key n iv a).1 ++
          (cbcDecryptBlocks aes key k (cbcDecryptBlocks aes key n iv a).2 b).1,
        (cbcDecryptBlocks aes key k (cbcDecryptBlocks aes key n iv a).2 b).2) := by
  induction n with
  | zero =>
    intro iv a b ha
    rw [eq_nil_of_length_eq_zero (by omega : a.length = 0), Nat.zero_add]
    rfl
  | succ n ih =>
    intro iv a b ha
    rw [Nat.succ_add]
    simp only [cbcDecryptBlocks, take_append_of_le_length (by omega : 16 ≤ a.length),
      drop_append_of_le_length (by omega : 16 ≤ a.length), append_assoc,
      ih b (by rw [length_drop]; omega : (a.drop 16).length = n * 16)]

theorem blockwise_cbc : Base.Blockwise 16 (cbc aes) := by
  refine ⟨fun cctx => ?_, fun cctx a b ha hb => ?_⟩
  · obtain ⟨key, iv, encrypting⟩ := cctx
    cases encrypting <;> rfl
  · have hdiv : (a ++ b).length / 16 = a.length / 16 + b.length / 16 := by
      rw [length_append]
      omega
    have hlen : a.length = a.length / 16 * 16 := by omega
    unfold cbc
    rw [hdiv]
    cases cctx.encrypting with
    | true =>
      simp only [if_true, cbcEncryptBlocks_append aes cctx.key (b.length / 16) b hlen]
    | false =>
      simp only [Bool.false_eq_true, if_false,
        cbcDecryptBlocks_append aes cctx.key (b.length / 16) b hlen]

theorem cbcDecryptBlocks_iv (key : List UInt8) :
    ∀ {iv inp : List UInt8},
    iv.length = 16 → inp.length = n * 16 → (cbcDecryptBlocks aes key n iv inp).2.length = 16 := by
  induction n with
  | zero => exact fun hiv _ => hiv
  | succ n ih =>
    intro iv inp _ hinp
    refine ih ?_ ?_
    · rw [length_take]
      omega
    · rw [length_drop]
      omega

/-- Whole blocks stay as long as they are, and so does the initialisation vector. -/
theorem cbc_length (hiv : cctx.iv.length = 16) (h16 : inp.length % 16 = 0) :
    (cbc aes cctx inp).1.length = inp.length ∧ (cbc aes cctx inp).2.iv.length = 16 := by
  have hlen : inp.length = inp.length / 16 * 16 := by omega
  unfold cbc
  cases cctx.encrypting with
  | true =>
    obtain ⟨hout, hiv'⟩ := cbcEncryptBlocks_length aes cctx.key hiv hlen
    exact ⟨hout.trans hlen.symm, hiv'⟩
  | false =>
    exact ⟨(cbcDecryptBlocks_length aes cctx.key hiv hlen).trans hlen.symm,
      cbcDecryptBlocks_iv aes cctx.key hiv hlen⟩

theorem cbc_cbc {key : List UInt8} (hiv : iv.length = 16) (h16 : inp.length % 16 = 0) :
    (cbc aes ⟨key, iv, false⟩ (cbc aes ⟨key, iv, true⟩ inp).1).1 = inp := by
  have hlen : inp.length = inp.length / 16 * 16 := by omega
  have hout : (cbc aes ⟨key, iv, true⟩ inp).1.length = inp.length := (cbc_length aes hiv h16).1
  have hback := cbcDecryptBlocks_cbcEncryptBlocks aes key hiv hlen
  show (cbcDecryptBlocks aes key ((cbc aes ⟨key, iv, true⟩ inp).1.length / 16) iv
    (cbcEncryptBlocks aes key (inp.length / 16) iv inp).1).1 = inp
  rw [hout, hback]

end OpenIsr.Crypto
