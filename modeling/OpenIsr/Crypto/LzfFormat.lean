import OpenIsr.Crypto.Lzf

/-!
# The LZF format

A compressed block is a sequence of literal runs and back references. `Token` has both, with
the limits the format sets (`Token.Ok`), and `encode` writes them down. `lzf_decompress`
reads them back (`decodeLoop_encode`), and two sequences with the same bytes are the same
(`encode_inj`).
-/

namespace OpenIsr.Crypto.Lzf

open List

/-- A literal run, or a reference to `off + 1` bytes back of length `len + 2`. -/
inductive Token
  | lits (bs : List UInt8)
  | ref (off len : Nat)
  deriving DecidableEq, Repr

/-- What the format can express. -/
def Token.Ok : Token → Prop
  | .lits bs => 1 ≤ bs.length ∧ bs.length ≤ 32
  | .ref off len => off < 8192 ∧ 1 ≤ len ∧ len ≤ 262

/-- The reference does not reach back beyond `n` bytes. -/
def Token.Within (n : Nat) : Token → Prop
  | .lits _ => True
  | .ref off _ => off < n

def Token.bytes : Token → List UInt8
  | .lits bs => UInt8.ofNat (bs.length - 1) :: bs
  | .ref off len => refBytes off len

/-- What the token adds to the output. -/
def Token.apply (out : List UInt8) : Token → List UInt8
  | .lits bs => out ++ bs
  | .ref off len => copy out (out.length - off - 1) (len + 2)

def encode (ts : List Token) : List UInt8 := ts.flatMap Token.bytes

/-- The tokens are within the limits and take the output from `out` to `fin`. -/
def Decodes : List Token → List UInt8 → List UInt8 → Prop
  | [], out, fin => fin = out
  | t :: ts, out, fin => t.Ok ∧ t.Within out.length ∧ Decodes ts (t.apply out) fin

theorem encode_append (ts us : List Token) : encode (ts ++ us) = encode ts ++ encode us :=
  flatMap_append

variable {ts us : List Token} {out fin : List UInt8} {t : Token} {outLen : Nat}

theorem Decodes.append {mid : List UInt8} (h : Decodes ts out mid) (h' : Decodes us mid fin) :
    Decodes (ts ++ us) out fin := by
  induction ts generalizing out with
  | nil =>
    rw [show mid = out from h] at h'
    exact h'
  | cons t ts ih => exact ⟨h.1, h.2.1, ih h.2.2⟩

theorem copy_length (out : List UInt8) (ref n : Nat) :
    (copy out ref n).length = out.length + n := by
  induction n generalizing out ref with
  | zero => rfl
  | succ n ih =>
    rw [copy, ih, length_append, length_singleton]
    omega

theorem Token.length_apply (t : Token) (out : List UInt8) : out.length ≤ (t.apply out).length := by
  cases t with
  | lits bs => simp [apply]
  | ref off len => simp [apply, copy_length]

theorem Decodes.length_le (h : Decodes ts out fin) : out.length ≤ fin.length := by
  induction ts generalizing out with
  | nil =>
    obtain rfl : fin = out := h
    exact le_refl _
  | cons t ts ih => exact le_trans (t.length_apply out) (ih h.2.2)

/-! ## Reading one token -/

theorem backRef_refBytes {off len : Nat} (h : (Token.ref off len).Ok) (rest : List UInt8) :
    ∃ c tail, refBytes off len ++ rest = c :: tail ∧ 32 ≤ c.toNat ∧
      backRef c.toNat tail = .ok (len, off, rest) := by
  obtain ⟨ho, hl, hl'⟩ := h
  unfold refBytes
  split
  next h7 =>
    have hc : (UInt8.ofNat (off / 256 + len * 32)).toNat = off / 256 + len * 32 := by
      rw [UInt8.toNat_ofNat']
      omega
    refine ⟨_, UInt8.ofNat off :: rest, rfl, by omega, ?_⟩
    have hoff : off / 256 * 256 + off % 256 = off := by omega
    have hdiv : (off / 256 + len * 32) / 32 = len := by omega
    have hmod : (off / 256 + len * 32) % 32 = off / 256 := by omega
    simp only [hc, backRef, hdiv, hmod, if_neg (ne_of_lt h7), UInt8.toNat_ofNat', hoff]
  next h7 =>
    have hc : (UInt8.ofNat (off / 256 + 7 * 32)).toNat = off / 256 + 7 * 32 := by
      rw [UInt8.toNat_ofNat']
      omega
    refine ⟨_, UInt8.ofNat (len - 7) :: UInt8.ofNat off :: rest, rfl, by omega, ?_⟩
    have hoff : off / 256 * 256 + off % 256 = off := by omega
    have hlen : 7 + (len - 7) % 256 = len := by omega
    have hdiv : (off / 256 + 7 * 32) / 32 = 7 := by omega
    have hmod : (off / 256 + 7 * 32) % 32 = off / 256 := by omega
    simp only [hc, backRef, hdiv, hmod, if_true, UInt8.toNat_ofNat', hoff, hlen]

theorem Token.lits_ctrl {bs : List UInt8} (h : (Token.lits bs).Ok) :
    (UInt8.ofNat (bs.length - 1)).toNat + 1 = bs.length ∧
      (UInt8.ofNat (bs.length - 1)).toNat < 32 := by
  obtain ⟨h₁, h₂⟩ := h
  rw [UInt8.toNat_ofNat']
  omega

theorem decodeStep_bytes (hok : t.Ok) (hin : t.Within out.length)
    (hlen : (t.apply out).length ≤ outLen) (rest : List UInt8) :
    ∃ c tail, t.bytes ++ rest = c :: tail ∧
      decodeStep outLen c.toNat tail out = .ok (rest, t.apply out) := by
  cases t with
  | lits bs =>
    obtain ⟨hc, hlt⟩ := Token.lits_ctrl hok
    rw [Token.apply, length_append] at hlen
    refine ⟨_, bs ++ rest, rfl, ?_⟩
    rw [decodeStep, if_pos hlt, hc, if_neg (by omega), if_neg (by simp), drop_left, take_left]
    rfl
  | ref off len =>
    obtain ⟨c, tail, heq, hc, hback⟩ := backRef_refBytes hok rest
    rw [Token.apply, copy_length] at hlen
    refine ⟨c, tail, heq, ?_⟩
    have hoff : off < out.length := hin
    simp only [decodeStep, if_neg (not_lt.mpr hc), hback]
    rw [if_neg (by omega), if_neg (by omega)]
    rfl

/-- `lzf_decompress` reads back what `encode` has written. -/
theorem decodeLoop_encode {n : Nat} (h : Decodes ts out fin) (hlen : fin.length ≤ outLen)
    (hn : (encode ts).length ≤ n) : decodeLoop outLen n (encode ts) out = .ok fin := by
  induction ts generalizing out n with
  | nil =>
    rw [show fin = out from h]
    cases n <;> rfl
  | cons t ts ih =>
    obtain ⟨hok, hin, hrest⟩ := h
    obtain ⟨c, tail, heq, hstep⟩ :=
      decodeStep_bytes hok hin (le_trans hrest.length_le hlen) (encode ts)
    have henc : encode (t :: ts) = c :: tail := heq
    have hfewer : (encode ts).length ≤ tail.length := by
      have hbytes : 1 ≤ t.bytes.length := by
        cases t with
        | lits bs => simp [Token.bytes]
        | ref off len =>
          simp only [Token.bytes, refBytes]
          split <;> simp
      have := congrArg List.length heq
      rw [length_append, length_cons] at this
      omega
    rw [henc, length_cons] at hn
    cases n with
    | zero => omega
    | succ n =>
      rw [henc, decodeLoop, hstep]
      exact ih hrest (by omega)

/-! ## The bytes determine the tokens -/

/-- Read one token. -/
def headToken : List UInt8 → Option (Token × List UInt8)
  | [] => none
  | c :: rest =>
    if c.toNat < 32 then some (.lits (rest.take (c.toNat + 1)), rest.drop (c.toNat + 1))
    else
      match backRef c.toNat rest with
      | .error _ => none
      | .ok (len, off, rest) => some (.ref off len, rest)

theorem headToken_bytes (h : t.Ok) (rest : List UInt8) :
    headToken (t.bytes ++ rest) = some (t, rest) := by
  cases t with
  | lits bs =>
    obtain ⟨hc, hlt⟩ := Token.lits_ctrl h
    rw [Token.bytes, cons_append, headToken, if_pos hlt, hc, take_left, drop_left]
  | ref off len =>
    obtain ⟨c, tail, heq, hc, hback⟩ := backRef_refBytes h rest
    rw [Token.bytes, heq]
    simp only [headToken, if_neg (not_lt.mpr hc), hback]

theorem encode_inj (hts : ∀ t ∈ ts, t.Ok) (hus : ∀ t ∈ us, t.Ok) (h : encode ts = encode us) :
    ts = us := by
  induction ts generalizing us with
  | nil =>
    cases us with
    | nil => rfl
    | cons u us =>
      have := headToken_bytes (hus u (mem_cons_self ..)) (encode us)
      rw [show u.bytes ++ encode us = encode (u :: us) from rfl, ← h] at this
      cases this
  | cons t ts ih =>
    have ht := headToken_bytes (hts t (mem_cons_self ..)) (encode ts)
    rw [show t.bytes ++ encode ts = encode (t :: ts) from rfl, h] at ht
    cases us with
    | nil => cases ht
    | cons u us =>
      have hu := headToken_bytes (hus u (mem_cons_self ..)) (encode us)
      rw [show u.bytes ++ encode us = encode (u :: us) from rfl, ht, Option.some.injEq,
        Prod.mk.injEq] at hu
      obtain ⟨rfl, heq⟩ := hu
      rw [ih (fun x hx => hts x (mem_cons_of_mem _ hx))
        (fun x hx => hus x (mem_cons_of_mem _ hx)) heq]

theorem Decodes.ok (h : Decodes ts out fin) : ∀ t ∈ ts, t.Ok := by
  induction ts generalizing out with
  | nil => nofun
  | cons t ts ih =>
    intro x hx
    rcases mem_cons.mp hx with rfl | hx
    · exact h.1
    · exact ih h.2.2 x hx

/-- For each byte of the output, whether it was a literal. -/
def marks (ts : List Token) : List Bool :=
  ts.flatMap fun
    | .lits bs => replicate bs.length true
    | .ref _ len => replicate (len + 2) false

theorem marks_append (ts us : List Token) : marks (ts ++ us) = marks ts ++ marks us :=
  flatMap_append

end OpenIsr.Crypto.Lzf
