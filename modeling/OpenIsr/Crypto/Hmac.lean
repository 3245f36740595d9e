import OpenIsr.Crypto.Hash

/-!
# HMAC sessions

A MAC context is keyed with `isrcry_mac_init`, takes data with `isrcry_mac_update` and gives
the MAC of the data since then with `isrcry_mac_final`, which also makes the next call key
the context again with the same key. `hmac_init` keeps the key, padded to a block, in
`ctx->key`; a key that is longer than a block is hashed first, and then only the 20 bytes of
the digest are stored.

`Rfc2104.hmac` is the definition the library refers to. `macSession_of_safe` says that a
whole session gives its values if the rest of the key buffer is zero whenever a long key
arrives (`macSafe`); `macSession_stale_key` is a session in which it is not.
-/

namespace OpenIsr.Crypto

open List

/-- `struct isrcry_hmac_ctx`; `key` has the length of a block. -/
structure HmacCtx where
  hctx : Sha1Ctx
  key : List UInt8
  deriving DecidableEq, Repr

/-- `hmac_alloc`. -/
def hmacAlloc : HmacCtx := ⟨hashAlloc, replicate 64 0⟩

/-- The key, xored with the byte of which `IPAD` or `OPAD` is made. -/
def xorKey (c : UInt8) (key : List UInt8) : List UInt8 := key.map (· ^^^ c)

/-- `hmac_init`. -/
def hmacInit (ctx : HmacCtx) (key : List UInt8) : HmacCtx :=
  let (_, hctx) := hashFinal ctx.hctx
  let (hctx, ctxKey) :=
    if 64 < key.length then
      -- the digest is shorter than the buffer: the bytes after it stay
      let (digest, hctx) := hashFinal (hashUpdate hctx key)
      (hctx, digest ++ ctx.key.drop 20)
    else (hctx, key ++ replicate (64 - key.length) 0)
  ⟨hashUpdate hctx (xorKey 0x36 ctxKey), ctxKey⟩

/-- `hmac_update`. -/
def hmacUpdate (ctx : HmacCtx) (buffer : List UInt8) : HmacCtx :=
  { ctx with hctx := hashUpdate ctx.hctx buffer }

/-- What a call of the MAC functions returns: `ISRCRY_OK`, in `final` with the bytes it has
written, or `ISRCRY_INVALID_ARGUMENT`. -/
inductive MacResult
  | ok
  | mac (out : List UInt8)
  | invalidArgument
  deriving DecidableEq, Repr

/-- `hmac_final`. -/
def hmacFinal (ctx : HmacCtx) (outlen : Nat) : MacResult × HmacCtx :=
  if 20 < outlen then (.invalidArgument, ctx)
  else
    let (hbuf, hctx) := hashFinal ctx.hctx
    let (hbuf, hctx) := hashFinal (hashUpdate (hashUpdate hctx (xorKey 0x5c ctx.key)) hbuf)
    (.mac (hbuf.take outlen), { ctx with hctx })

/-- `struct isrcry_mac_ctx`; `key` is the caller's key. -/
structure MacCtx where
  key : List UInt8
  inited : Bool
  ctx : HmacCtx
  deriving DecidableEq, Repr

/-- `isrcry_mac_alloc`. -/
def macAlloc : MacCtx := ⟨[], false, hmacAlloc⟩

/-- `check_init`; `hmac_init` does not fail. -/
def checkInit (mctx : MacCtx) : MacCtx :=
  if mctx.inited then mctx else { mctx with inited := true, ctx := hmacInit mctx.ctx mctx.key }

/-- `isrcry_mac_init`. -/
def macInit (mctx : MacCtx) (key : List UInt8) : MacCtx :=
  checkInit { mctx with key, inited := false }

/-- `isrcry_mac_update`. -/
def macUpdate (mctx : MacCtx) (buffer : List UInt8) : MacCtx :=
  let mctx := checkInit mctx
  { mctx with ctx := hmacUpdate mctx.ctx buffer }

/-- `isrcry_mac_final`. -/
def macFinal (mctx : MacCtx) (outlen : Nat) : MacResult × MacCtx :=
  let mctx := checkInit mctx
  let (ret, ctx) := hmacFinal mctx.ctx outlen
  (ret, { mctx with ctx, inited := false })

/-- A call on a MAC context. -/
inductive MacCall
  | init (key : List UInt8)
  | update (buffer : List UInt8)
  | final (outlen : Nat)
  deriving DecidableEq, Repr

/-- One call. -/
def macCall (mctx : MacCtx) : MacCall → MacResult × MacCtx
  | .init key => (.ok, macInit mctx key)
  | .update buffer => (.ok, macUpdate mctx buffer)
  | .final outlen => macFinal mctx outlen

/-- The results of a sequence of calls. -/
def macSession (mctx : MacCtx) : List MacCall → List MacResult
  | [] => []
  | call :: calls => (macCall mctx call).1 :: macSession (macCall mctx call).2 calls

/-! ## RFC 2104 -/

namespace Rfc2104

/-- The key, hashed if it is longer than a block, and padded to a block. -/
def blockKey (key : List UInt8) : List UInt8 :=
  let key := if 64 < key.length then Sha1.Standard.sha1 key else key
  key ++ replicate (64 - key.length) 0

/-- HMAC-SHA1. -/
def hmac (key text : List UInt8) : List UInt8 :=
  Sha1.Standard.sha1 (xorKey 0x5c (blockKey key) ++
    Sha1.Standard.sha1 (xorKey 0x36 (blockKey key) ++ text))

end Rfc2104

/-- What a sequence of calls should give, after an init with `key` and the data `text`. -/
def macExpected (key text : List UInt8) : List MacCall → List MacResult
  | [] => []
  | .init key' :: calls => .ok :: macExpected key' [] calls
  | .update buffer :: calls => .ok :: macExpected key (text ++ buffer) calls
  | .final outlen :: calls =>
    (if outlen ≤ 20 then .mac ((Rfc2104.hmac key text).take outlen) else .invalidArgument) ::
      macExpected key [] calls

/-! ## Sessions -/

/-- Where a long key comes in, the key buffer is zero after the first 20 bytes. -/
def macSafe (mctx : MacCtx) : MacCall → Bool
  | .init key => decide (key.length ≤ 64) || (mctx.ctx.key.drop 20).all (· == 0)
  | _ => true

/-- All calls of a session meet `macSafe`. -/
def macSessionSafe (mctx : MacCtx) : List MacCall → Bool
  | [] => true
  | call :: calls => macSafe mctx call && macSessionSafe (macCall mctx call).2 calls

/-- The key buffer can take `key`: the bytes that a digest leaves alone are zero. -/
def Ready (ctx : HmacCtx) (key : List UInt8) : Prop :=
  ctx.key.length = 64 ∧ (64 < key.length → ctx.key.drop 20 = replicate 44 0)

/-- The context has been keyed with `key` and has taken `text` since. -/
structure Keyed (mctx : MacCtx) (key text : List UInt8) : Prop where
  key_eq : mctx.key = key
  ready : Ready mctx.ctx key
  keyed : mctx.inited = true → mctx.ctx.key = Rfc2104.blockKey key ∧
    Hashed mctx.ctx.hctx (xorKey 0x36 (Rfc2104.blockKey key) ++ text)
  fresh : mctx.inited = false → text = []

theorem blockKey_length (key : List UInt8) : (Rfc2104.blockKey key).length = 64 := by
  unfold Rfc2104.blockKey
  split
  next => simp [sha1_length]
  next h => simp; omega

variable {key : List UInt8}

theorem hmacInit_spec {ctx : HmacCtx} (h : Ready ctx key) :
    (hmacInit ctx key).key = Rfc2104.blockKey key ∧
      Hashed (hmacInit ctx key).hctx (xorKey 0x36 (Rfc2104.blockKey key)) := by
  have hreset : (hashFinal ctx.hctx).2 = hashAlloc := rfl
  unfold hmacInit Rfc2104.blockKey
  by_cases hl : 64 < key.length
  · simp only [hreset, if_pos hl, h.2 hl, hashFinal_update, sha1_length]
    exact ⟨trivial, hashed_hashUpdate _⟩
  · simp only [hreset, if_neg hl]
    exact ⟨trivial, hashed_hashUpdate _⟩

variable {mctx : MacCtx} {text : List UInt8}

theorem Keyed.checkInit (h : Keyed mctx key text) :
    Keyed (checkInit mctx) key text ∧ (checkInit mctx).inited = true := by
  unfold Crypto.checkInit
  by_cases hi : mctx.inited = true
  · rw [if_pos hi]
    exact ⟨h, hi⟩
  · rw [if_neg hi]
    have htext := h.fresh (by simpa using hi)
    obtain ⟨hkey, hhash⟩ := hmacInit_spec h.ready
    rw [h.key_eq, htext]
    refine ⟨⟨rfl, ⟨?_, fun hl => ?_⟩, fun _ => ⟨hkey, ?_⟩, nofun⟩, rfl⟩
    · rw [hkey, blockKey_length]
    · -- a long key leaves these bytes as they are
      rw [hkey, Rfc2104.blockKey, if_pos hl, drop_left' (sha1_length key), sha1_length]
    · rw [append_nil]
      exact hhash

/-- A long key meets a buffer that is zero where its digest does not reach. -/
theorem ready_of_safe (hlen : mctx.ctx.key.length = 64) (hsafe : macSafe mctx (.init key) = true) :
    Ready mctx.ctx key := by
  refine ⟨hlen, fun hl => ?_⟩
  simp only [macSafe, Bool.or_eq_true, decide_eq_true_eq, all_eq_true, beq_iff_eq] at hsafe
  have hz := hsafe.resolve_left (by omega)
  refine eq_replicate_iff.mpr ⟨by rw [length_drop, hlen], hz⟩

section

variable (h : Keyed mctx key text)
include h

theorem Keyed.init {key' : List UInt8} (hsafe : macSafe mctx (.init key') = true) :
    Keyed (macInit mctx key') key' [] :=
  have hk : Keyed { mctx with key := key', inited := false } key' [] :=
    ⟨rfl, ready_of_safe h.ready.1 hsafe, nofun, fun _ => rfl⟩
  hk.checkInit.1

theorem Keyed.update (buffer : List UInt8) :
    Keyed (macUpdate mctx buffer) key (text ++ buffer) := by
  obtain ⟨hk, hi⟩ := h.checkInit
  obtain ⟨hkey, hhash⟩ := hk.keyed hi
  refine ⟨hk.key_eq, hk.ready, fun _ => ⟨hkey, ?_⟩, fun hn => ?_⟩
  · rw [← append_assoc]
    exact hhash.hashUpdate buffer
  · rw [macUpdate, hi] at hn
    cases hn

theorem Keyed.final (outlen : Nat) :
    (macFinal mctx outlen).1 = (if outlen ≤ 20
      then .mac ((Rfc2104.hmac key text).take outlen) else .invalidArgument) ∧
      Keyed (macFinal mctx outlen).2 key [] := by
  obtain ⟨hk, hi⟩ := h.checkInit
  obtain ⟨hkey, hhash⟩ := hk.keyed hi
  unfold macFinal hmacFinal
  by_cases hl : 20 < outlen
  · simp only [if_pos hl, if_neg (Nat.not_le.mpr hl)]
    exact ⟨trivial, hk.key_eq, hk.ready, nofun, fun _ => rfl⟩
  · have houter := (hashed_hashUpdate (xorKey 0x5c (Rfc2104.blockKey key))).hashUpdate
      (Sha1.Standard.sha1 (xorKey 0x36 (Rfc2104.blockKey key) ++ text))
    simp only [if_neg hl, if_pos (Nat.not_lt.mp hl), hashFinal_eq hhash, hkey,
      hashFinal_eq houter, Rfc2104.hmac]
    refine ⟨trivial, hk.key_eq, ?_, nofun, fun _ => rfl⟩
    rw [← hkey]
    exact hk.ready

theorem macSession_eq (calls : List MacCall) (hsafe : macSessionSafe mctx calls = true) :
    macSession mctx calls = macExpected key text calls := by
  induction calls generalizing mctx key text with
  | nil => rfl
  | cons call calls ih =>
    rw [macSessionSafe, Bool.and_eq_true] at hsafe
    cases call with
    | init key' =>
      rw [macSession, macExpected, ← ih (h.init hsafe.1) hsafe.2]
      rfl
    | update buffer =>
      rw [macSession, macExpected, ← ih (h.update buffer) hsafe.2]
      rfl
    | final outlen =>
      obtain ⟨hret, hk⟩ := h.final outlen
      rw [macSession, macExpected, ← ih hk hsafe.2, ← hret]
      rfl

end

theorem keyed_alloc : Keyed macAlloc [] [] :=
  ⟨rfl, ⟨rfl, fun h => absurd h (by decide)⟩, nofun, fun _ => rfl⟩

/-- A session on a new context gives the MACs of RFC 2104, each under the key of the last init
and over the data since the last init or final, if every long key finds the key buffer zero
after the first 20 bytes. -/
theorem macSession_of_safe (calls : List MacCall) (h : macSessionSafe macAlloc calls = true) :
    macSession macAlloc calls = macExpected [] [] calls :=
  macSession_eq keyed_alloc calls h

/-- A key of 64 bytes, then one of 65: the MAC is made with the digest of the second and the
last 44 bytes of the first. -/
theorem macSession_stale_key :
    macSession macAlloc [.init (replicate 64 1), .init (replicate 65 0), .final 20] ≠
      macExpected [] [] [.init (replicate 64 1), .init (replicate 65 0), .final 20] := by
  have hsha : ∀ m, Sha1.Standard.sha1 m = (hashFinal (hashUpdate hashAlloc m)).1 := fun m => by
    rw [hashFinal_update]
  simp only [macExpected, Rfc2104.hmac, Rfc2104.blockKey, hsha]
  decide +kernel

/-- The other way round there are no such bytes. -/
theorem macSession_of_safe_long :
    macSession macAlloc [.init (replicate 65 0), .update [1, 2], .final 21, .final 20,
        .init [3], .final 4] =
      macExpected [] [] [.init (replicate 65 0), .update [1, 2], .final 21, .final 20,
        .init [3], .final 4] :=
  macSession_of_safe _ (by decide +kernel)

end OpenIsr.Crypto
