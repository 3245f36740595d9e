import OpenIsr.Crypto.Cipher

/-!
# What isrcry_cipher_final accepts

`Cipher.lean` has that decryption returns what has been encrypted. Here is the other direction:
what the decryption of a string accepts is the encryption of the result, so that each plaintext has
one ciphertext and no string that is rejected is a ciphertext. Both need that the length of the
ciphertext is an `unsigned`; a plaintext of the last 16 lengths is encrypted to nothing.

It rests on two facts. The block cipher is a permutation, so the loop of `cbc_encrypt` undoes the
loop of `cbc_decrypt` as well (`cbcEncryptBlocks_cbcDecryptBlocks`). And `pkcs5_unpad` looks at all
bytes of the padding, so a block that it accepts is what `pkcs5_pad` makes of the data in it
(`pkcs5Pad_pkcs5Unpad`).
-/

namespace OpenIsr.Crypto

open List

/-- `isrcry_cipher_init`. It copies a block from `iv`, if that is not NULL. -/
def cipherInitIv (encrypting : Bool) (key : List UInt8) (iv : Option (List UInt8)) :
    Except Result CipherCtx :=
  if key.length ≠ 16 ∧ key.length ≠ 24 ∧ key.length ≠ 32 then .error .invalidArgument
  else
    match iv with
    | some iv => .ok { key, iv := iv.take 16, encrypting }
    | none => .ok { key, iv := zeroIv, encrypting }

theorem cipherInit_eq (encrypting : Bool) (key : List UInt8) :
    cipherInit encrypting key = cipherInitIv encrypting key none := rfl

variable (aes : Aes) {c p : List UInt8} {cctx : CipherCtx} {n outlen : Nat}

/-! ## Encryption undoes decryption -/

theorem Aes.encrypt_decrypt (key : List UInt8) (hc : c.length = 16) :
    aes.encrypt key (aes.decrypt key c) = c := by
  obtain ⟨b, hb, rfl⟩ := aes.exists_block key hc
  rw [aes.decrypt_encrypt key b hb]

theorem cbcEncryptBlocks_cbcDecryptBlocks (key : List UInt8) :
    ∀ {iv c : List UInt8},
    iv.length = 16 → c.length = n * 16 →
    cbcEncryptBlocks aes key n iv (cbcDecryptBlocks aes key n iv c).1
      = (c, (cbcDecryptBlocks aes key n iv c).2) := by
  induction n with
  | zero =>
    intro iv c hiv hc
    rw [eq_nil_of_length_eq_zero (by omega : c.length = 0)]
    rfl
  | succ n ih =>
    intro iv c hiv hc
    have htake : (c.take 16).length = 16 := by
      rw [length_take]
      omega
    have hdec := aes.decrypt_length key htake
    have hp : (xorBlock iv (aes.decrypt key (c.take 16))).length = 16 := by
      rw [xorBlock_length _ _ (hiv.trans hdec.symm), hdec]
    have ih := ih htake (show (c.drop 16).length = n * 16 by rw [length_drop]; omega)
    -- the first block of the ciphertext comes back, and is the `iv` of the next
    simp only [cbcDecryptBlocks, cbcEncryptBlocks, take_left' hp, drop_left' hp,
      xorBlock_xorBlock iv _ (hiv.trans hdec.symm), aes.encrypt_decrypt key htake, ih,
      take_append_drop]

theorem cbcDecrypt_spec (cctx : CipherCtx) (c : List UInt8) (hiv : cctx.iv.length = 16)
    (hn : c.length % 16 = 0) :
    ∃ out iv, cbcDecrypt aes cctx c = .ok (out, { cctx with iv }) ∧ iv.length = 16 ∧
      out.length = c.length ∧
      ∀ encrypting, cbcEncrypt aes { cctx with encrypting } out
        = .ok (c, { cctx with encrypting, iv }) := by
  have hlen : c.length = c.length / 16 * 16 := by omega
  have hout := cbcDecryptBlocks_length aes cctx.key hiv hlen
  have hback := cbcEncryptBlocks_cbcDecryptBlocks aes cctx.key hiv hlen
  refine ⟨_, _, by rw [cbcDecrypt, if_neg (not_not.mpr hn)],
    cbcDecryptBlocks_iv aes cctx.key hiv hlen, hout.trans hlen.symm, fun e => ?_⟩
  rw [cbcEncrypt, if_neg (by omega), hout, Nat.mul_div_cancel _ (by decide : 0 < 16)]
  simp only [hback]

/-! ## The padding -/

theorem pkcs5Pad_pkcs5Unpad {buf : List UInt8} (hbuf : buf.length = 16)
    (h : pkcs5Unpad buf = .ok n) : n < 16 ∧ pkcs5Pad (buf.take n) = .ok buf := by
  unfold pkcs5Unpad at h
  dsimp only at h
  split at h
  next => cases h
  next hpad =>
    split at h
    next hall =>
      cases h
      generalize hlast : (buf.getD 15 0).toNat = pad at hpad hall
      have hlen : (buf.take (16 - pad)).length = 16 - pad := by
        rw [length_take]
        omega
      have hsub : 16 - (16 - pad) = pad := by omega
      -- all bytes from 16 - pad on are `pad`
      have hbyte : ∀ i, 16 - pad ≤ i → i < 16 → buf.getD i 0 = UInt8.ofNat pad := by
        intro i hi h16
        have hnat : (buf.getD i 0).toNat = pad := by
          by_cases h15 : i = 15
          · rw [h15, hlast]
          · have := hall (15 - i) (mem_range'_1.mpr (by omega))
            rwa [show 16 - (15 - i) - 1 = i by omega] at this
        rw [← hnat, UInt8.ofNat_toNat]
      have hdrop : buf.drop (16 - pad) = replicate pad (UInt8.ofNat pad) := by
        refine eq_replicate_iff.mpr ⟨by rw [length_drop]; omega, fun b hb => ?_⟩
        obtain ⟨j, hj, rfl⟩ := mem_iff_getElem.mp hb
        rw [length_drop] at hj
        rw [getElem_drop, ← hbyte (16 - pad + j) (by omega) (by omega),
          getD_eq_getElem?_getD, getElem?_eq_getElem (by omega), Option.getD_some]
      refine ⟨by omega, ?_⟩
      rw [pkcs5Pad, if_neg (by omega), hlen, hsub, ← hdrop, take_append_drop]
    next => cases h

/-! ## The last call -/

/-- The room that the encryption of `p` asks for. -/
def cipherRoom (p : List UInt8) : Nat := (p.length - p.length % 16 + 16) % 2 ^ 32

theorem cipherFinal_of_decrypt (cctx : CipherCtx) {outlen' : Nat} (hdir : cctx.encrypting = false)
    (hiv : cctx.iv.length = 16) (hlt : c.length < 2 ^ 32)
    (h : cipherFinal aes cctx c outlen = .ok p) (hroom : cipherRoom p ≤ outlen') :
    cipherFinal aes { cctx with encrypting := true } p outlen' = .ok c := by
  rw [cipherFinal, if_neg (by rw [hdir]; exact Bool.false_ne_true)] at h
  by_cases hc : c.length = 0 ∨ c.length % 16 ≠ 0
  · rw [if_pos hc] at h
    cases h
  · generalize hoff : c.length - 16 = off at h
    have htake : (c.take off).length = off := by
      rw [length_take]
      omega
    have hdrop : (c.drop off).length = 16 := by
      rw [length_drop]
      omega
    obtain ⟨out₁, iv₁, hdec₁, hiv₁, hlen₁, henc₁⟩ :=
      cbcDecrypt_spec aes cctx (c.take off) hiv (by omega)
    obtain ⟨out₂, iv₂, hdec₂, -, hlen₂, henc₂⟩ :=
      cbcDecrypt_spec aes { cctx with iv := iv₁ } (c.drop off) hiv₁ (by omega)
    simp only [if_neg hc, hdec₁, hdec₂, bind, Except.bind, pure, Except.pure] at h
    cases hun : pkcs5Unpad out₂ with
    | error e =>
      rw [hun] at h
      split at h <;> cases h
    | ok n =>
      obtain ⟨hn, hpad⟩ := pkcs5Pad_pkcs5Unpad (hlen₂.trans hdrop) hun
      obtain rfl : out₁ ++ out₂.take n = p := by
        rw [hun] at h
        split at h
        next => cases h
        dsimp only at h
        split at h
        next => cases h
        next => exact Except.ok.inj h
      have hlen : (out₁ ++ out₂.take n).length = off + n := by
        rw [length_append, length_take]
        omega
      have hlast : (out₁ ++ out₂.take n).length - (out₁ ++ out₂.take n).length % 16 = off := by
        omega
      have hmod : (off + 16) % 2 ^ 32 = c.length := by omega
      rw [cipherRoom, hlast, hmod] at hroom
      rw [cipherFinal, if_pos rfl]
      simp only [hlast, if_neg (not_lt.mpr hroom), take_left' (hlen₁.trans htake),
        drop_left' (hlen₁.trans htake), hpad, henc₁, henc₂, bind, Except.bind, pure,
        Except.pure, take_append_drop, hmod, take_length]

theorem cipherRoom_le (hdir : cctx.encrypting = true) (h : cipherFinal aes cctx p outlen = .ok c) :
    cipherRoom p ≤ outlen := by
  by_contra hlt
  rw [cipherFinal, if_pos hdir] at h
  simp only [if_pos (Nat.lt_of_not_le hlt : outlen < (p.length - p.length % 16 + 16) % 2 ^ 32)] at h
  cases h

/-- For the last 16 lengths the sum is 0. -/
theorem cipherFinal_wrapped (hdir : cctx.encrypting = true) (hiv : cctx.iv.length = 16)
    (hlt : p.length < 2 ^ 32) (hlong : 2 ^ 32 - 16 ≤ p.length) :
    cipherFinal aes cctx p outlen = .ok [] := by
  have hzero : (p.length - p.length % 16 + 16) % 2 ^ 32 = 0 := by omega
  obtain ⟨out, hok, -⟩ := cipherFinal_encrypts aes cctx p hdir hiv
    (hzero.trans_le (Nat.zero_le outlen))
  rw [hok, hzero, take_zero]

theorem cipherFinal_nil (hdir : cctx.encrypting = false) :
    cipherFinal aes cctx [] outlen = .error .invalidArgument := by
  rw [cipherFinal, if_neg (by rw [hdir]; exact Bool.false_ne_true)]
  rfl

theorem cipherInitIv_eq_ok {encrypting : Bool} {key : List UInt8} {iv : Option (List UInt8)}
    (hiv : ∀ b ∈ iv, 16 ≤ b.length) (h : cipherInitIv encrypting key iv = .ok cctx) :
    cctx.encrypting = encrypting ∧ cctx.iv.length = 16 ∧
      ∀ e, cipherInitIv e key iv = .ok { cctx with encrypting := e } := by
  unfold cipherInitIv at h ⊢
  split at h
  next => cases h
  next hkey =>
    cases iv with
    | none =>
      cases h
      exact ⟨rfl, rfl, fun e => if_neg hkey⟩
    | some b =>
      cases h
      refine ⟨rfl, ?_, fun e => if_neg hkey⟩
      have := hiv b rfl
      rw [length_take]
      omega

/-- Encryption and decryption are inverse to each other, between the strings of at most 2^32 - 17
bytes and those that decryption accepts. Decryption returns no longer string, and rejects what it is
encrypted to. -/
theorem cipher_bijection (aes : Aes) {key : List UInt8} {iv : Option (List UInt8)}
    {enc dec : CipherCtx} (hiv : ∀ b ∈ iv, 16 ≤ b.length)
    (henc : cipherInitIv true key iv = .ok enc) (hdec : cipherInitIv false key iv = .ok dec) :
    (∀ p outlen outlen', p.length < 2 ^ 32 → cipherRoom p ≤ outlen → p.length ≤ outlen' →
      ((∃ c, cipherFinal aes enc p outlen = .ok c ∧ cipherFinal aes dec c outlen' = .ok p) ↔
        p.length < 2 ^ 32 - 16)) ∧
    (∀ c p outlen outlen', c.length < 2 ^ 32 → cipherFinal aes dec c outlen = .ok p →
      cipherRoom p ≤ outlen' → cipherFinal aes enc p outlen' = .ok c) ∧
    ∀ c e outlen, c.length ≤ outlen → cipherFinal aes dec c outlen = .error e →
      ∀ p outlen', p.length < 2 ^ 32 → cipherFinal aes enc p outlen' = .ok c →
        2 ^ 32 - 16 ≤ p.length := by
  obtain ⟨hdir, hlen, hinit⟩ := cipherInitIv_eq_ok hiv henc
  obtain rfl : { enc with encrypting := false } = dec :=
    Except.ok.inj ((hinit false).symm.trans hdec)
  have heq : { enc with encrypting := true } = enc := by rw [← hdir]
  have hroom : ∀ {p : List UInt8}, p.length < 2 ^ 32 - 16 →
      cipherRoom p = p.length - p.length % 16 + 16 := fun h => Nat.mod_eq_of_lt (by omega)
  refine ⟨fun p outlen outlen' hp hle hle' => ⟨?_, fun hlt => ?_⟩,
    fun c p outlen outlen' hc h hle => ?_, ?_⟩
  · rintro ⟨c, hc, hback⟩
    by_contra hlong
    rw [cipherFinal_wrapped aes hdir hlen hp (Nat.le_of_not_lt hlong)] at hc
    rw [← Except.ok.inj hc, cipherFinal_nil aes rfl] at hback
    cases hback
  · obtain ⟨c, hc, -, hback⟩ := cipherFinal_spec aes enc p hdir hlen hlt (hroom hlt ▸ hle)
    exact ⟨c, hc, hback outlen' hle'⟩
  · rw [← heq]
    exact cipherFinal_of_decrypt aes { enc with encrypting := false } rfl hlen hc h hle
  · intro c e outlen hle herr p outlen' hp hok
    by_contra hshort
    have hlt : p.length < 2 ^ 32 - 16 := Nat.lt_of_not_le hshort
    obtain ⟨c', hc', hclen, hback⟩ :=
      cipherFinal_spec aes enc p hdir hlen hlt (hroom hlt ▸ cipherRoom_le aes hdir hok)
    cases hc'.symm.trans hok
    rw [hback outlen (by omega)] at herr
    cases herr

/-- Two blocks of a message with a key and an initialisation vector that are not zero. -/
theorem cipher_bijection_rotate : ∃ enc dec,
    cipherInitIv true (replicate 16 5) (some (replicate 16 9)) = .ok enc ∧
    cipherInitIv false (replicate 16 5) (some (replicate 16 9)) = .ok dec ∧
    ∃ c, cipherFinal rotateAes enc (replicate 16 1 ++ [2, 3]) 32 = .ok c ∧
      cipherFinal rotateAes dec c 18 = .ok (replicate 16 1 ++ [2, 3]) := by
  have hiv : ∀ b ∈ some (replicate 16 (9 : UInt8)), 16 ≤ b.length := by decide
  have henc : cipherInitIv true (replicate 16 5) (some (replicate 16 9))
      = .ok ⟨_, replicate 16 9, true⟩ := rfl
  have hdec : cipherInitIv false (replicate 16 5) (some (replicate 16 9))
      = .ok ⟨_, replicate 16 9, false⟩ := rfl
  obtain ⟨hround, -⟩ := cipher_bijection rotateAes hiv henc hdec
  exact ⟨_, _, henc, hdec, (hround _ 32 18 (by decide) (by decide) (by decide)).mpr (by decide)⟩

/-- A buffer of 2^32 - 16 zeros is encrypted with success, and to nothing, whatever room there is
for the result. Decryption rejects that. -/
theorem cipher_wraps : ∃ enc dec,
    cipherInitIv true (replicate 16 5) none = .ok enc ∧
    cipherInitIv false (replicate 16 5) none = .ok dec ∧
    ∀ outlen, cipherFinal rotateAes enc (replicate (2 ^ 32 - 16) 0) outlen = .ok [] ∧
      cipherFinal rotateAes dec [] outlen = .error .invalidArgument := by
  refine ⟨⟨_, zeroIv, true⟩, ⟨_, zeroIv, false⟩, rfl, rfl, fun outlen => ⟨?_, rfl⟩⟩
  have hlen : (replicate (2 ^ 32 - 16) (0 : UInt8)).length = 2 ^ 32 - 16 :=
    length_replicate
  exact cipherFinal_wrapped rotateAes rfl rfl (by omega) (le_of_eq hlen.symm)

end OpenIsr.Crypto
