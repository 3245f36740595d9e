import OpenIsr.Base.Blocks
import OpenIsr.Crypto.Sha1

/-!
# Hash contexts

The hash functions of the library as `sha1.c` and `hash.c` have them: a context takes its
input in pieces, keeps less than a block of it in `block`, and counts the blocks it has
compressed. `Standard.sha1` is SHA-1 of a whole message: pad it, and compress its blocks.

`sha1Final_eq` says that a context gives the standard's digest of everything that went into
it since it was initialised, in whatever pieces.
-/

namespace OpenIsr.Crypto

open List

/-- `struct isrcry_sha1_ctx`; `block` holds the first `index` bytes of the array. -/
structure Sha1Ctx where
  digest : Regs
  count : UInt64
  block : List UInt8
  deriving DecidableEq, Repr

/-- The initial values of the registers. -/
def Sha1.iv : Regs := ⟨0x67452301, 0xEFCDAB89, 0x98BADCFE, 0x10325476, 0xC3D2E1F0⟩

/-- `sha1_init`. -/
def sha1Init : Sha1Ctx := ⟨Sha1.iv, 0, []⟩

/-- Compress one block and count it. -/
def sha1Block (s : Regs × UInt64) (block : List UInt8) : Regs × UInt64 :=
  (sha1Compress s.1 block, s.2 + 1)

/-- The end of `sha1_update`: whole blocks straight from the input, then the leftovers. -/
def sha1Blocks (s : Regs × UInt64) (buffer : List UInt8) : Sha1Ctx :=
  let (s, rest) := Base.absorb sha1Block 64 buffer.length s buffer
  ⟨s.1, s.2, rest⟩

/-- `sha1_update`. -/
def sha1Update (ctx : Sha1Ctx) (buffer : List UInt8) : Sha1Ctx :=
  if ctx.block ≠ [] then
    let left := 64 - ctx.block.length
    if buffer.length < left then { ctx with block := ctx.block ++ buffer }
    else
      sha1Blocks (sha1Block (ctx.digest, ctx.count) (ctx.block ++ buffer.take left))
        (buffer.drop left)
  else sha1Blocks (ctx.digest, ctx.count) buffer

/-- The digest as bytes. -/
def Regs.bytes (r : Regs) : List UInt8 :=
  store32h r.a ++ store32h r.b ++ store32h r.c ++ store32h r.d ++ store32h r.e

/-- A 64-bit number, stored as two words. -/
def store64h (x : UInt64) : List UInt8 :=
  store32h (x >>> 32).toUInt32 ++ store32h x.toUInt32

/-- `sha1_final`. -/
def sha1Final (ctx : Sha1Ctx) : List UInt8 :=
  let block := ctx.block ++ [0x80]
  let (digest, block) :=
    if 56 < block.length then
      -- no room for the length: pad this block and start another one
      (sha1Compress ctx.digest (block ++ replicate (64 - block.length) 0), [])
    else (ctx.digest, block)
  let block := block ++ replicate (56 - block.length) 0
  let bitcount := (ctx.count <<< 9) ||| (UInt64.ofNat ctx.block.length <<< 3)
  (sha1Compress digest (block ++ store64h bitcount)).bytes

/-- `isrcry_hash_alloc` for SHA-1. -/
def hashAlloc : Sha1Ctx := sha1Init

/-- `isrcry_hash_update`. -/
def hashUpdate (hctx : Sha1Ctx) (buffer : List UInt8) : Sha1Ctx := sha1Update hctx buffer

/-- `isrcry_hash_final`: the digest, and the context initialised again. -/
def hashFinal (hctx : Sha1Ctx) : List UInt8 × Sha1Ctx := (sha1Final hctx, sha1Init)

/-! ## The standard's definition -/

namespace Sha1.Standard

/-- The message, a one bit, zeros up to eight bytes before the end of a block, and the length
of the message in bits. -/
def pad (m : List UInt8) : List UInt8 :=
  m ++ 0x80 :: replicate ((119 - m.length % 64) % 64) 0 ++
    store64h (UInt64.ofNat (8 * m.length))

/-- SHA-1 of a message. -/
def sha1 (m : List UInt8) : List UInt8 :=
  (Base.absorb compress 64 (pad m).length iv (pad m)).1.bytes

end Sha1.Standard

theorem sha1Compress_eq_compress : sha1Compress = Sha1.Standard.compress :=
  funext₂ sha1Compress_eq

/-! ## Contexts and messages -/

/-- `ctx` has taken the message `m` since it was initialised. -/
def Hashed (ctx : Sha1Ctx) (m : List UInt8) : Prop :=
  Base.Absorbed sha1Block 64 (Sha1.iv, 0) m (ctx.digest, ctx.count) ctx.block

theorem hashed_init : Hashed sha1Init [] := .nil (by decide)

variable {m : List UInt8} {ctx hctx : Sha1Ctx}

theorem Hashed.blocks {l : List UInt8} {s : Regs × UInt64}
    (h : Base.Absorbed sha1Block 64 (Sha1.iv, 0) m s []) : Hashed (sha1Blocks s l) (m ++ l) := by
  have := h.append (l := l) (n := l.length) (by simp)
  simpa [Hashed, sha1Blocks] using this

theorem Hashed.update (h : Hashed ctx m) (l : List UInt8) : Hashed (sha1Update ctx l) (m ++ l) := by
  have hlt : ctx.block.length < 64 := by
    obtain ⟨_, _, _, hlt, _⟩ := h
    exact hlt
  unfold sha1Update
  split
  next =>
    simp only
    split
    next hl =>
      -- all of the piece fits into the block
      have := h.append (l := l) (Nat.le_refl _)
      rwa [Base.absorb_short (by rw [length_append]; omega)] at this
    next hl =>
      have hfill := h.fill (l := l.take (64 - ctx.block.length))
        (by rw [length_take]; omega)
      have := Hashed.blocks (l := l.drop (64 - ctx.block.length)) hfill
      rwa [append_assoc, take_append_drop] at this
  next hb =>
    rw [ne_eq, not_not] at hb
    rw [Hashed, hb] at h
    exact Hashed.blocks h

theorem foldl_sha1Block (bs : List (List UInt8)) (r : Regs) (n : Nat) :
    bs.foldl sha1Block (r, UInt64.ofNat n)
      = (bs.foldl sha1Compress r, UInt64.ofNat (n + bs.length)) := by
  induction bs generalizing r n with
  | nil => rfl
  | cons b bs ih =>
    have hsucc : UInt64.ofNat n + 1 = UInt64.ofNat (n + 1) := by simp
    rw [foldl_cons, foldl_cons, sha1Block, hsucc, ih, length_cons]
    congr 2
    omega

theorem bitcount_eq (n r : Nat) (hr : r < 64) :
    (UInt64.ofNat n <<< 9) ||| (UInt64.ofNat r <<< 3) = UInt64.ofNat (8 * (n * 64 + r)) := by
  apply UInt64.toNat_inj.mp
  have hn : (n % 2 ^ 64) <<< 9 % 2 ^ 64 = (n % 2 ^ 55) <<< 9 := by
    rw [Nat.shiftLeft_eq, Nat.shiftLeft_eq]
    omega
  have hr' : (r % 2 ^ 64) <<< 3 % 2 ^ 64 = 8 * r := by
    rw [Nat.shiftLeft_eq]
    omega
  simp only [UInt64.toNat_or, UInt64.toNat_shiftLeft, UInt64.toNat_ofNat', UInt64.reduceToNat,
    Nat.reduceMod]
  rw [hn, hr', ← Nat.shiftLeft_add_eq_or_of_lt (by omega), Nat.shiftLeft_eq]
  omega

theorem sha1Final_eq (h : Hashed ctx m) : sha1Final ctx = Sha1.Standard.sha1 m := by
  obtain ⟨bs, hbs, hm, hlt, hs⟩ := h
  have hfold := foldl_sha1Block bs Sha1.iv 0
  rw [show (UInt64.ofNat 0 : UInt64) = 0 from rfl, ← hs, Nat.zero_add] at hfold
  obtain ⟨hdigest, hcount⟩ := Prod.mk.inj hfold
  have hlen : m.length = bs.length * 64 + ctx.block.length := by
    rw [hm, length_append, Base.length_flatten_blocks bs hbs]
  have hmod : m.length % 64 = ctx.block.length := by omega
  -- the padded message is the same blocks and one or two more
  have key : ∀ tail : List (List UInt8), (∀ b ∈ tail, b.length = 64) →
      Sha1.Standard.pad m = (bs ++ tail).flatten →
      Sha1.Standard.sha1 m = (tail.foldl sha1Compress ctx.digest).bytes := by
    intro tail htail hpad
    have hall : ∀ b ∈ bs ++ tail, b.length = 64 := fun b hb => by
      rcases mem_append.mp hb with hb | hb
      · exact hbs b hb
      · exact htail b hb
    rw [Sha1.Standard.sha1, hpad, ← append_nil (bs ++ tail).flatten,
      Base.absorb_blocks (bs ++ tail) hall (by simp) ?_, foldl_append, ← sha1Compress_eq_compress,
      ← hdigest]
    rw [append_nil, Base.length_flatten_blocks _ hall]
    omega
  have h8 : ∀ x, (store64h x).length = 8 := fun _ => rfl
  simp only [sha1Final, hcount, bitcount_eq _ _ hlt, length_append, length_singleton]
  rw [← hlen]
  split
  next hi =>
    rw [key [ctx.block ++ [0x80] ++ replicate (64 - (ctx.block.length + 1)) 0,
      replicate 56 0 ++ store64h (UInt64.ofNat (8 * m.length))] ?_ ?_]
    · simp
    · simp [h8]
      omega
    · have hz : (119 - m.length % 64) % 64 = 64 - (ctx.block.length + 1) + 56 := by omega
      rw [Sha1.Standard.pad, hz, replicate_add]
      simp [hm]
  next hi =>
    rw [key [ctx.block ++ [0x80] ++ replicate (56 - (ctx.block.length + 1)) 0 ++
      store64h (UInt64.ofNat (8 * m.length))] ?_ ?_]
    · simp
    · simp [h8]
      omega
    · have hz : (119 - m.length % 64) % 64 = 56 - (ctx.block.length + 1) := by omega
      rw [Sha1.Standard.pad, hz]
      simp [hm]

theorem hashFinal_eq (h : Hashed hctx m) : hashFinal hctx = (Sha1.Standard.sha1 m, hashAlloc) := by
  rw [hashFinal, sha1Final_eq h, hashAlloc]

theorem Hashed.hashUpdate (h : Hashed hctx m) (l : List UInt8) :
    Hashed (hashUpdate hctx l) (m ++ l) :=
  h.update l

theorem hashed_hashUpdate (m : List UInt8) : Hashed (hashUpdate hashAlloc m) m :=
  hashed_init.hashUpdate m

theorem hashFinal_update (m : List UInt8) :
    hashFinal (hashUpdate hashAlloc m) = (Sha1.Standard.sha1 m, hashAlloc) :=
  hashFinal_eq (hashed_hashUpdate m)

theorem sha1_length (m : List UInt8) : (Sha1.Standard.sha1 m).length = 20 := rfl

end OpenIsr.Crypto
