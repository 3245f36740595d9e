import OpenIsr.Crypto.LzfBounds
import OpenIsr.Crypto.LzfStreamEncode
import OpenIsr.Crypto.LzfStreamRaw

/-!
# The buffers of the LZF stream code are used as they should be

No call site of `lzf-stream.c` checks the pointer from `get_output_buffer` or a size. `Rep` says
what the memory of `Crypto.LzfStreamRaw` has to be for a context of `Crypto.LzfStream`: which part
of a buffer is in use, and that the offsets and counts are in range. Each function that works on
memory gives a result where the state is so, and the result is so for that of the function on
lists. What is needed of the sizes is `Live` in one direction and `Filling` in the other: the
decoder waits for as many bytes as its state says, a stored block has the size of its plaintext,
and the encoder never has a full buffer between iterations.
-/

namespace OpenIsr.Crypto

open List Option
open Base (peek poke foreverOpt forever foreverOpt_sim peek_eq exists_poke poke_append poke_before
  length_poke take_poke)

/-- The value of `block_type`. -/
def BlockType.code : BlockType → UInt8
  | .stored => 0
  | .compressed => 1
  | .crc => 0x30

/-- The memory for a context and the buffers of a call. -/
structure Raw.Rep (m : Raw) (c : StreamCtx) (io : Io) : Prop where
  crc : m.crc = c.crc
  wroteTrailer : m.wroteTrailer = c.wroteTrailer
  decodeState : m.decodeState = c.decodeState
  outputSize : m.outputSize = c.outputSize
  inCount : m.inCount = c.inCount
  blockType : c.decodeState = .wantHeader3 ∨ c.decodeState = .wantData →
    m.blockType = c.blockType.code
  inBuf : m.inMem.take m.inOffset = c.inBuf
  outBuf : (m.outMem.take m.outCount).drop m.outOffset = c.outBuf
  inLen : m.inMem.length = bufLen
  outLen : m.outMem.length = bufLen
  range : m.InRange
  drained : m.outOffset = m.outCount → m.outCount = 0
  inp : m.src.drop m.inp = io.inp
  inAvail : m.inp + m.inAvail = m.src.length
  written : m.dst.take m.outp = io.written
  room : m.outAvail = io.room
  outAvail : m.outp + m.outAvail = m.dst.length

namespace Raw

variable {m : Raw} {c : StreamCtx} {io : Io} {n room : Nat} {inp w : List UInt8} {p : Loc}

theorem checked_eq (h : m.InRange) : m.checked = some m := if_pos h

namespace Rep

section

variable (h : m.Rep c io)
include h

theorem inOffset_eq : m.inOffset = c.inBuf.length := by
  obtain ⟨hin, hcount, -, -⟩ := h.range
  rw [← h.inBuf, length_take, h.inLen]
  omega

theorem inBuf_le : c.inBuf.length ≤ c.inCount := by
  rw [← h.inOffset_eq, ← h.inCount]
  exact h.range.1

theorem inAvail_eq : m.inAvail = io.inp.length := by
  have := h.inAvail
  rw [← h.inp, length_drop]
  omega

theorem outBuf_length : c.outBuf.length = m.outCount - m.outOffset := by
  obtain ⟨-, -, hout, hcount⟩ := h.range
  rw [← h.outBuf, length_drop, length_take, h.outLen]
  omega

theorem buffered_eq : m.outputDataIsBuffered = Crypto.outputDataIsBuffered c := by
  have hlen := h.outBuf_length
  have hdrained := h.drained
  obtain ⟨-, -, hout, -⟩ := h.range
  have hiff : m.outCount ≠ 0 ↔ c.outBuf ≠ [] := by
    rw [← length_pos_iff]
    omega
  simp only [outputDataIsBuffered, Crypto.outputDataIsBuffered, hiff]

theorem pending_eq : m.inputDataPending = Crypto.inputDataPending c := by
  have hiff : m.inOffset ≠ 0 ↔ c.inBuf ≠ [] := by
    rw [h.inOffset_eq, ne_eq, length_eq_zero_iff]
  unfold inputDataPending Crypto.inputDataPending
  rw [h.decodeState]
  cases c.decodeState <;> simp only [hiff]

theorem free (hbuf : c.outBuf = []) : m.outOffset = 0 ∧ m.outCount = 0 := by
  have hlen := h.outBuf_length
  have hdrained := h.drained
  obtain ⟨-, -, hout, -⟩ := h.range
  rw [hbuf, length_nil] at hlen
  omega

end

end Rep

/-! ## The buffer functions -/

theorem produceOutput_rep (h : m.Rep c io) :
    ∃ m', m.produceOutput = some m' ∧
      m'.Rep (Crypto.produceOutput c io).1 (Crypto.produceOutput c io).2 := by
  have hlen := h.outBuf_length
  have hroom := h.room
  have houtAvail := h.outAvail
  obtain ⟨hin, hinCount, hout, houtCount⟩ := h.range
  have hmin : min m.outAvail (m.outCount - m.outOffset) = min io.room c.outBuf.length := by
    rw [hroom, hlen]
  simp only [produceOutput, Crypto.produceOutput, hmin]
  generalize hn : min io.room c.outBuf.length = n
  have hbytes : peek m.outMem m.outOffset n = some (c.outBuf.take n) := by
    rw [peek_eq (by rw [h.outLen]; omega), ← h.outBuf, drop_take, take_take,
      Nat.min_eq_left (by omega)]
  have hbytesLen : (c.outBuf.take n).length = n := by
    rw [length_take]
    omega
  have hfits : m.outp + (c.outBuf.take n).length ≤ m.dst.length := by omega
  obtain ⟨dst, hpoke⟩ := exists_poke hfits
  have hdstLen := length_poke hpoke
  have hwritten := take_poke hpoke
  rw [hbytesLen, h.written] at hwritten
  have hrest : (m.outMem.take m.outCount).drop (m.outOffset + n) = c.outBuf.drop n := by
    rw [← drop_drop, h.outBuf]
  simp only [hbytes, hpoke, bind_eq_bind, bind_some]
  rw [checked_eq (by exact ⟨hin, hinCount, by dsimp only; omega, houtCount⟩), bind_some]
  dsimp only
  by_cases hall : m.outOffset + n = m.outCount
  · rw [if_pos hall, checked_eq (by exact ⟨hin, hinCount, Nat.le_refl 0, Nat.zero_le _⟩)]
    refine ⟨_, rfl, { h with
      outBuf := ?_, range := ⟨hin, hinCount, Nat.le_refl 0, Nat.zero_le _⟩
      drained := fun _ => rfl, written := hwritten, room := ?_, outAvail := ?_ }⟩
    · dsimp only
      rw [take_zero, drop_zero, drop_of_length_le (by omega)]
    · dsimp only
      rw [hroom]
    · dsimp only
      omega
  · rw [if_neg hall]
    refine ⟨_, rfl, { h with
      outBuf := hrest, range := ⟨hin, hinCount, ?_, houtCount⟩
      drained := fun heq => absurd heq hall, written := hwritten, room := ?_, outAvail := ?_ }⟩
    · dsimp only
      omega
    · dsimp only
      rw [hroom]
    · dsimp only
      omega

theorem consumeInput_rep (h : m.Rep c io) :
    ∃ p m', m.consumeInput = some (p, m') ∧
      m'.Rep (Crypto.consumeInput c io.inp).2.1
        { io with inp := (Crypto.consumeInput c io.inp).2.2 } ∧
      p.isSome = (Crypto.consumeInput c io.inp).1.isSome ∧
      ∀ q buf, p = some q → (Crypto.consumeInput c io.inp).1 = some buf →
        m'.load q c.inCount = some buf := by
  have hoff := h.inOffset_eq
  have havail := h.inAvail_eq
  have hinAvail := h.inAvail
  have hcount := h.inCount
  obtain ⟨hin, hinCount, hout, houtCount⟩ := h.range
  unfold consumeInput Crypto.consumeInput
  by_cases hdirect : c.inBuf.length = 0 ∧ c.inCount ≤ io.inp.length
  · rw [if_pos hdirect, if_pos (by omega)]
    refine ⟨_, _, rfl, { h with inp := ?_, inAvail := ?_ }, rfl, fun q buf hq hbuf => ?_⟩
    · dsimp only
      rw [← drop_drop, h.inp, hcount]
    · dsimp only
      omega
    · cases hq
      cases hbuf
      simp only [load]
      rw [peek_eq (by omega), h.inp]
  · rw [if_neg hdirect, if_neg (by omega)]
    have hmin : min m.inAvail (m.inCount - m.inOffset)
        = min io.inp.length (c.inCount - c.inBuf.length) := by
      rw [havail, hcount, hoff]
    simp only [hmin]
    generalize hn : min io.inp.length (c.inCount - c.inBuf.length) = n
    have hbytes : peek m.src m.inp n = some (io.inp.take n) := by
      rw [peek_eq (by omega), h.inp]
    have hbytesLen : (io.inp.take n).length = n := by
      rw [length_take]
      omega
    have hfits : m.inOffset + (io.inp.take n).length ≤ m.inMem.length := by
      rw [h.inLen]
      omega
    obtain ⟨inMem, hpoke⟩ := exists_poke hfits
    have hmemLen := (length_poke hpoke).trans h.inLen
    have htake := take_poke hpoke
    rw [hbytesLen, h.inBuf] at htake
    have hbufLen : (c.inBuf ++ io.inp.take n).length = m.inOffset + n := by
      rw [length_append, hbytesLen, hoff]
    simp only [hbytes, hpoke, bind_eq_bind, bind_some]
    rw [checked_eq (by exact ⟨by dsimp only; omega, hinCount, hout, houtCount⟩), bind_some]
    dsimp only
    by_cases hall : m.inOffset + n = m.inCount
    · rw [if_pos hall, if_pos (by omega),
        checked_eq (by exact ⟨Nat.zero_le _, hinCount, hout, houtCount⟩)]
      refine ⟨_, _, rfl, { h with
        inBuf := take_zero, inLen := hmemLen
        range := ⟨Nat.zero_le _, hinCount, hout, houtCount⟩, inp := ?_, inAvail := ?_ }, rfl,
        fun q buf hq hbuf => ?_⟩
      · dsimp only
        rw [← drop_drop, h.inp]
      · dsimp only
        omega
      · cases hq
        cases hbuf
        simp only [load]
        rw [peek_eq (by omega), drop_zero, ← hcount, ← hall, htake]
    · rw [if_neg hall, if_neg (by omega)]
      refine ⟨_, _, rfl, { h with
        inBuf := htake, inLen := hmemLen
        range := ⟨?_, hinCount, hout, houtCount⟩, inp := ?_, inAvail := ?_ }, rfl, nofun⟩
      · dsimp only
        omega
      · dsimp only
        rw [← drop_drop, h.inp]
      · dsimp only
        omega

theorem consumeInput_full (h : m.Rep c io) (hle : c.inCount ≤ (c.inBuf ++ io.inp).length) :
    ∃ p m', m.consumeInput = some (some p, m') ∧
      m'.Rep { c with inBuf := [] } { io with inp := (c.inBuf ++ io.inp).drop c.inCount } ∧
      m'.load p c.inCount = some ((c.inBuf ++ io.inp).take c.inCount) := by
  obtain ⟨p, m', heq, hrep, hsome, hload⟩ := consumeInput_rep h
  simp only [consumeInput_eq h.inBuf_le, if_pos hle] at hrep hsome hload
  obtain ⟨q, rfl⟩ := isSome_iff_exists.mp hsome
  exact ⟨q, m', heq, hrep, hload q _ rfl rfl⟩

theorem consumeInput_short (h : m.Rep c io) (hlt : ¬ c.inCount ≤ (c.inBuf ++ io.inp).length) :
    ∃ m', m.consumeInput = some (none, m') ∧
      m'.Rep { c with inBuf := c.inBuf ++ io.inp } { io with inp := [] } := by
  obtain ⟨p, m', heq, hrep, hsome, -⟩ := consumeInput_rep h
  simp only [consumeInput_eq h.inBuf_le, if_neg hlt, isSome_none] at hrep hsome
  rw [isSome_eq_false_iff, isNone_iff_eq_none] at hsome
  rw [hsome] at heq
  exact ⟨m', heq, hrep⟩

theorem store_append (m : Raw) (p : Loc) (v w : List UInt8) :
    (m.store p v).bind (fun m' => m'.store (p.plus v.length) w) = m.store p (v ++ w) := by
  cases p with
  | caller i =>
    have happend := poke_append m.dst i v w
    simp only [store, Loc.plus]
    cases hv : poke m.dst i v with
    | none =>
      rw [hv, bind_none] at happend
      rw [← happend]
      rfl
    | some dst =>
      rw [hv, bind_some] at happend
      rw [← happend]
      rfl
  | own i =>
    have happend := poke_append m.outMem i v w
    simp only [store, Loc.plus]
    cases hv : poke m.outMem i v with
    | none =>
      rw [hv, bind_none] at happend
      rw [← happend]
      rfl
    | some outMem =>
      rw [hv, bind_some] at happend
      rw [← happend]
      rfl

/-- `get_output_buffer` when nothing is buffered: the pointer is not null, it leaves alone what the
callers read after it, and there is room for the bytes. -/
theorem getOutputBuffer_rep (h : m.Rep c io) (hbuf : c.outBuf = []) (hn : n ≤ bufLen) :
    ∃ p m', m.getOutputBuffer n = some (some p, m') ∧
      (m'.blockType = m.blockType ∧ m'.inCount = m.inCount ∧ m'.outputSize = m.outputSize ∧
        ∀ q k, m'.load q k = m.load q k) ∧
      ∀ bytes : List UInt8, bytes.length = n → ∃ m'', m'.store p bytes = some m'' ∧
        m''.Rep (putOutput c io bytes).1 (putOutput c io bytes).2 := by
  have hno : Crypto.outputDataIsBuffered c = false := by
    simp [Crypto.outputDataIsBuffered, hbuf]
  have hroom := h.room
  have houtAvail := h.outAvail
  obtain ⟨hoff, hcount⟩ := h.free hbuf
  obtain ⟨hin, hinCount, -, -⟩ := h.range
  unfold getOutputBuffer
  rw [h.buffered_eq, hno, if_neg Bool.false_ne_true]
  by_cases hle : n ≤ m.outAvail
  · rw [if_pos hle]
    refine ⟨_, _, rfl, ⟨rfl, rfl, rfl, fun _ _ => rfl⟩, fun bytes hlen => ?_⟩
    have hfits : m.outp + bytes.length ≤ m.dst.length := by omega
    obtain ⟨dst, hpoke⟩ := exists_poke hfits
    have hwritten := take_poke hpoke
    rw [hlen, h.written] at hwritten
    have hdstLen := length_poke hpoke
    simp only [store, hpoke, map_some]
    refine ⟨_, rfl, ?_⟩
    rw [putOutput, hno, if_neg Bool.false_ne_true, if_pos (by omega)]
    refine { h with written := hwritten, room := ?_, outAvail := ?_ }
    · dsimp only
      omega
    · dsimp only
      omega
  · rw [if_neg hle, checked_eq (by exact ⟨hin, hinCount, by dsimp only; omega, hn⟩)]
    refine ⟨_, _, rfl, ⟨rfl, rfl, rfl, fun q _ => by cases q <;> rfl⟩, fun bytes hlen => ?_⟩
    have hfits : 0 + bytes.length ≤ m.outMem.length := by
      rw [h.outLen]
      omega
    obtain ⟨outMem, hpoke⟩ := exists_poke hfits
    have hmem := take_poke hpoke
    rw [Nat.zero_add, take_zero, nil_append] at hmem
    have hmemLen := (length_poke hpoke).trans h.outLen
    simp only [store, hpoke, map_some]
    refine ⟨_, rfl, ?_⟩
    rw [putOutput, hno, if_neg Bool.false_ne_true, if_neg (by omega)]
    refine { h with
      outBuf := ?_, outLen := hmemLen, range := ⟨hin, hinCount, ?_, hn⟩, drained := ?_ }
    · dsimp only
      rw [hoff, drop_zero, ← hlen, hmem]
    · dsimp only
      omega
    · dsimp only
      omega

theorem Rep.scribble (h : m.Rep c io) (hbuf : c.outBuf = []) {outMem : List UInt8}
    (hlen : outMem.length = bufLen) : Rep { m with outMem } c io := by
  obtain ⟨hoff, hcount⟩ := h.free hbuf
  refine { h with outBuf := ?_, outLen := hlen }
  dsimp only
  rw [hcount, take_zero, drop_nil, hbuf]

/-- A new state. The input buffer is empty then, so there is no condition on the count but the
length of the buffer. -/
theorem setState_rep (h : m.Rep c io) (hnil : c.inBuf = []) (state : DecodeState)
    (hn : n ≤ bufLen)
    (htype : state = .wantHeader3 ∨ state = .wantData → m.blockType = c.blockType.code) :
    ∃ m', m.setState state n = some m' ∧
      m'.Rep { c with toDecoder := Crypto.setState c.toDecoder state n } io := by
  have hoff : m.inOffset = 0 := by rw [h.inOffset_eq, hnil, length_nil]
  obtain ⟨-, -, hout, houtCount⟩ := h.range
  have hcount : (Crypto.setState c.toDecoder state n).inCount ≤ bufLen := by
    cases state with
    | wantHeader3 | wantData => exact hn
    | wantHeader1 | wantHeader2 | atEof | dataError => exact Nat.le_of_ble_eq_true rfl
  have hrange : RawCtx.InRange { m.toRawCtx with
      decodeState := state, inCount := (Crypto.setState c.toDecoder state n).inCount } :=
    ⟨(Nat.le_of_eq hoff).trans (Nat.zero_le _), hcount, hout, houtCount⟩
  exact ⟨_, checked_eq hrange, { h with
    decodeState := rfl, inCount := rfl, blockType := htype, range := hrange }⟩

theorem setState_rep_of_ne (h : m.Rep c io) (hnil : c.inBuf = []) (state : DecodeState)
    (hne : state ≠ .wantHeader3 ∧ state ≠ .wantData) :
    ∃ m', m.setState state 0 = some m' ∧
      m'.Rep { c with toDecoder := Crypto.setState c.toDecoder state 0 } io :=
  setState_rep h hnil state (Nat.zero_le _) fun hst => (hst.elim hne.1 hne.2).elim

/-- The loop of a call, in either direction: it keeps `J` of the context, `P` holds when it stops,
and `μ` goes down. -/
theorem loop_rep {J : StreamCtx → Prop} {P : Result → StreamCtx × Io → Prop}
    {rawBody : Raw → Option (Option Result × Raw)}
    {body : StreamCtx × Io → Option Result × StreamCtx × Io} {μ : StreamCtx × Io → Nat}
    (hstep : ∀ t, Going J inp (c.outBuf.drop room) room c.outBuf.length t →
      (∃ r t', body t = (some r, t') ∧
        Going J inp (c.outBuf.drop room) room c.outBuf.length t' ∧ P r t') ∨
      ∃ t', body t = (none, t') ∧
        Going J inp (c.outBuf.drop room) room c.outBuf.length t' ∧ μ t' < μ t)
    (hsim : ∀ (m : Raw) (t : StreamCtx × Io), m.Rep t.1 t.2 → J t.1 →
      ∃ m', rawBody m = some ((body t).1, m') ∧ m'.Rep (body t).2.1 (body t).2.2)
    (h : m.Rep c ⟨inp, room, []⟩) (hc : J { c with outBuf := c.outBuf.drop room })
    (hn : ∀ c' (io : Io), io.inp = inp → μ (c', io) < n) :
    ∃ m₁ m₂, m.produceOutput = some m₁ ∧ m₁.inAvail = inp.length ∧
      foreverOpt rawBody n m₁
        = some ((forever body .ok n (Crypto.produceOutput c ⟨inp, room, []⟩)).1, m₂) ∧
      m₂.Rep (forever body .ok n (Crypto.produceOutput c ⟨inp, room, []⟩)).2.1
        ⟨(forever body .ok n (Crypto.produceOutput c ⟨inp, room, []⟩)).2.2.inp,
          room - (forever body .ok n
            (Crypto.produceOutput c ⟨inp, room, []⟩)).2.2.written.length,
          (forever body .ok n (Crypto.produceOutput c ⟨inp, room, []⟩)).2.2.written⟩ := by
  obtain ⟨io, heq, hinp, hgoing⟩ := Going.start hc inp
  obtain ⟨m₁, hprod, hrep₁⟩ := produceOutput_rep h
  rw [heq] at hrep₁
  have hstep' : ∀ t, Going J inp (c.outBuf.drop room) room c.outBuf.length t →
      (∃ r t', body t = (some r, t') ∧
        Going J inp (c.outBuf.drop room) room c.outBuf.length t') ∨
      ∃ t', body t = (none, t') ∧
        Going J inp (c.outBuf.drop room) room c.outBuf.length t' ∧ μ t' < μ t := by
    intro t ht
    rcases hstep t ht with ⟨r, t', hr, ht', -⟩ | hnext
    · exact .inl ⟨r, t', hr, ht'⟩
    · exact .inr hnext
  obtain ⟨m₂, hloop, hrep₂, hgoing₂⟩ := foreverOpt_sim (d := .ok)
    (R := fun (m : Raw) (t : StreamCtx × Io) => m.Rep t.1 t.2) hstep'
    (fun m t hm ht => hsim m t hm ht.ctx) hrep₁ hgoing (hn _ io hinp)
  rw [heq]
  refine ⟨m₁, m₂, hprod, by rw [hrep₁.inAvail_eq, hinp], hloop, { hrep₂ with room := ?_ }⟩
  have htotal := hgoing₂.flow.total
  rw [hrep₂.room]
  dsimp only
  omega

/-! ## Compression -/

theorem store_three {u v : List UInt8} {i j : Nat} {m' : Raw} (hi : u.length = i)
    (hj : (u ++ v).length = j) (h : m.store p (u ++ v ++ w) = some m') :
    (m.store p u).bind (fun m => (m.store (p.plus i) v).bind fun m => m.store (p.plus j) w)
      = some m' := by
  subst hi hj
  rw [← h, ← store_append m p (u ++ v) w, ← store_append m p u v, bind_assoc]

theorem poke_block {b : List UInt8} {x y z b' : List UInt8} (hx : x.length = 3)
    (hy : y.length = 2) (hz : z.length = 2) (h : poke b 0 (x ++ y ++ z ++ w) = some b') :
    (poke b 7 w).bind (fun b => (poke b 0 x).bind fun b => (poke b 3 y).bind fun b => poke b 5 z)
      = some b' := by
  have hxy : (x ++ y).length = 5 := by rw [length_append, hx, hy]
  have hxyz : 0 + (x ++ y ++ z).length = 7 := by rw [length_append, hxy, hz]
  have hheader : ∀ b : List UInt8,
      (poke b 0 x).bind (fun b => (poke b 3 y).bind fun b => poke b 5 z)
        = poke b 0 (x ++ y ++ z) := by
    intro b
    have h₁ := poke_append b 0 x y
    have h₂ := poke_append b 0 (x ++ y) z
    rw [Nat.zero_add, hx] at h₁
    rw [Nat.zero_add, hxy, ← h₁, bind_assoc] at h₂
    exact h₂
  simp only [hheader]
  rw [← h, ← poke_before, hxyz]

theorem length_store16h (n : Nat) : (store16h n).length = 2 := rfl

theorem dataEncode_rep (env : StreamEnv) (h : m.Rep c io) (hbuf : c.outBuf = [])
    {data : List UInt8} (hload : m.load p data.length = some data) (hlen : data.length ≤ maxBlock) :
    ∃ m', m.dataEncode env p data.length = some m' ∧
      m'.Rep (Crypto.dataEncode env c io data).1 (Crypto.dataEncode env c io data).2 := by
  have hcrc : Rep { m with crc := env.crc32 m.crc data }
      { c with crc := env.crc32 c.crc data } io := { h with crc := by rw [h.crc] }
  simp only [dataEncode, hload, bind_eq_bind, bind_some, Crypto.dataEncode]
  cases hc : lzfDoCompress (mem data) data.length maxBlock (env.base data) (env.htab data) with
  | error e =>
    dsimp only
    have hfits : 7 + (env.junk maxBlock).length ≤ m.outMem.length := by
      rw [env.junk_length, h.outLen]
      exact le_of_eq (Nat.add_comm _ _)
    obtain ⟨outMem, hpoke⟩ := exists_poke hfits
    have hrep := hcrc.scribble hbuf ((length_poke hpoke).trans h.outLen)
    obtain ⟨q, m₁, hget, -, hstore⟩ := getOutputBuffer_rep hrep hbuf (n := data.length + 5)
      (by unfold bufLen; omega)
    obtain ⟨m₂, hm₂, hrep₂⟩ := hstore ([0x5A, 0x56, 0] ++ store16h data.length ++ data) (by
      simp only [length_append, length_store16h, length_cons, length_nil]
      omega)
    refine ⟨m₂, ?_, hrep₂⟩
    simp only [hpoke, hget, bind_some]
    exact store_three rfl rfl hm₂
  | ok out =>
    have houtLen : out.length ≤ maxBlock := by
      unfold lzfDoCompress at hc
      split at hc
      next => cases hc
      split at hc
      next hsome => exact Except.ok.inj hc ▸ lzfCompress_length hsome
      next => cases hc
    have hblock : ([0x5A, 0x56, 1] ++ store16h out.length ++ store16h data.length ++ out).length
        = out.length + 7 := by
      simp only [length_append, length_store16h, length_cons, length_nil]
      omega
    have hfits : 0 + ([0x5A, 0x56, 1] ++ store16h out.length ++ store16h data.length
        ++ out).length ≤ m.outMem.length := by
      rw [hblock, h.outLen]
      unfold bufLen
      omega
    obtain ⟨outMem, hpoke⟩ := exists_poke hfits
    have hmem := take_poke hpoke
    rw [Nat.zero_add, take_zero, nil_append, hblock] at hmem
    obtain ⟨hoff, -⟩ := h.free hbuf
    obtain ⟨hin, hinCount, -, -⟩ := h.range
    have hrange : RawCtx.InRange { m.toRawCtx with
        crc := env.crc32 m.crc data, outMem, outCount := out.length + 7 } := by
      refine ⟨hin, hinCount, ?_, Nat.add_le_add_right houtLen 7⟩
      dsimp only
      omega
    have hrep : Rep { m with crc := env.crc32 m.crc data, outMem, outCount := out.length + 7 }
        { c with
          crc := env.crc32 c.crc data
          outBuf := [0x5A, 0x56, 1] ++ store16h out.length ++ store16h data.length ++ out }
        io := by
      refine { hcrc with
        outBuf := ?_, outLen := (length_poke hpoke).trans h.outLen, range := hrange, drained := ?_ }
      · dsimp only
        rw [hoff, drop_zero, hmem]
      · dsimp only
        omega
    obtain ⟨m₂, hm₂, hrep₂⟩ := produceOutput_rep hrep
    refine ⟨m₂, ?_, hrep₂⟩
    have hpokes := poke_block rfl rfl rfl hpoke
    have hchecked := congrArg (fun b => b.bind fun outMem => (checked { m with
      crc := env.crc32 m.crc data, outMem, outCount := out.length + 7 }).bind produceOutput) hpokes
    simp only [bind_assoc, bind_some] at hchecked
    refine hchecked.trans ?_
    rw [checked_eq hrange]
    exact hm₂

theorem compressBody_rep (env : StreamEnv) (h : m.Rep c io) (hc : c.Filling) :
    ∃ m', m.compressBody env = some ((Crypto.compressBody env (c, io)).1, m') ∧
      m'.Rep (Crypto.compressBody env (c, io)).2.1 (Crypto.compressBody env (c, io)).2.2 := by
  by_cases hbuf : c.outBuf = []
  swap
  · have hyes := outputDataIsBuffered_iff.mpr hbuf
    simp only [compressBody, Crypto.compressBody, h.buffered_eq, hyes, if_true]
    exact ⟨m, rfl, h⟩
  have hno : Crypto.outputDataIsBuffered c = false := by
    simp [Crypto.outputDataIsBuffered, hbuf]
  have hfill : c.inBuf.length ≤ maxBlock := le_of_lt hc.inBuf
  obtain ⟨-, -, hout, houtCount⟩ := h.range
  have hrange : RawCtx.InRange { m.toRawCtx with inCount := maxBlock } :=
    ⟨(le_of_eq h.inOffset_eq).trans hfill, Nat.le_add_right _ _, hout, houtCount⟩
  have hrep : Rep { m with inCount := maxBlock } { c with inCount := maxBlock } io :=
    { h with inCount := rfl, range := hrange }
  have hchecked : checked { m with inCount := maxBlock } = some { m with inCount := maxBlock } :=
    checked_eq hrange
  have hle : ({ c with inCount := maxBlock } : StreamCtx).inBuf.length
      ≤ ({ c with inCount := maxBlock } : StreamCtx).inCount := hfill
  simp only [compressBody, Crypto.compressBody, h.buffered_eq, hno, Bool.false_eq_true, if_false,
    hchecked, bind_eq_bind, bind_some, consumeInput_eq hle]
  by_cases hfull : maxBlock ≤ (c.inBuf ++ io.inp).length
  · rw [if_pos hfull]
    obtain ⟨p, m₁, hcons, hrep₁, hload⟩ := consumeInput_full hrep hfull
    have hlen : ((c.inBuf ++ io.inp).take maxBlock).length = maxBlock :=
      length_take_of_le hfull
    have hload₁ : m₁.load p ((c.inBuf ++ io.inp).take maxBlock).length
        = some ((c.inBuf ++ io.inp).take maxBlock) := by
      rw [hlen]
      exact hload
    obtain ⟨m₂, henc, hrep₂⟩ := dataEncode_rep env hrep₁ hbuf hload₁ (le_of_eq hlen)
    have hcount : m₁.inCount = maxBlock := hrep₁.inCount
    rw [hlen] at henc
    refine ⟨m₂, ?_, hrep₂⟩
    simp only [hcons, bind_some, hcount, henc]
  · rw [if_neg hfull]
    obtain ⟨m₁, hcons, hrep₁⟩ := consumeInput_short hrep hfull
    refine ⟨m₁, ?_, hrep₁⟩
    simp only [hcons, bind_some]

theorem compressProcess_rep (env : StreamEnv) (h : m.Rep c ⟨inp, room, []⟩) (hc : c.Filling) :
    ∃ m', m.lzfStreamCompressProcess env = some (.ok, m') ∧
      m'.Rep (Crypto.lzfStreamCompressProcess env c inp room).ctx
        ⟨(Crypto.lzfStreamCompressProcess env c inp room).left,
          room - (Crypto.lzfStreamCompressProcess env c inp room).out.length,
          (Crypto.lzfStreamCompressProcess env c inp room).out⟩ := by
  obtain ⟨m₁, m₂, hprod, hfuel, hloop, hrep⟩ := loop_rep (fun _ => compressBody_going env)
    (fun m t hm ht => compressBody_rep env hm ht) h ⟨hc.state, hc.inBuf⟩
    (n := inp.length + 1) fun c' io hinp => by rw [hinp]; exact Nat.lt_succ_self _
  refine ⟨m₂, ?_, hrep⟩
  simp only [lzfStreamCompressProcess, hprod, bind_eq_bind, bind_some, hfuel, hloop]

theorem lastBlock_rep (env : StreamEnv) (h : m.Rep c io) (hc : c.Filling) (hbuf : c.outBuf = []) :
    ∃ c' io' m', (if Crypto.inputDataPending c then
        ({ (Crypto.dataEncode env c io c.inBuf).1 with inBuf := [] },
          (Crypto.dataEncode env c io c.inBuf).2)
      else (c, io)) = (c', io') ∧ m.lastBlock env = some m' ∧ m'.Rep c' io' := by
  unfold lastBlock
  rw [h.pending_eq]
  cases Crypto.inputDataPending c with
  | false =>
    exact ⟨c, io, m, rfl, rfl, h⟩
  | true =>
    have hload : m.load (.own 0) c.inBuf.length = some c.inBuf := by
      rw [← h.inOffset_eq, load, peek_eq, drop_zero, h.inBuf]
      obtain ⟨hin, hinCount, -, -⟩ := h.range
      rw [h.inLen]
      omega
    obtain ⟨m₁, henc, hrep⟩ := dataEncode_rep env h hbuf hload (Nat.le_of_lt hc.inBuf)
    rw [← h.inOffset_eq] at henc
    obtain ⟨-, hinCount, hout, houtCount⟩ := hrep.range
    have hrange : RawCtx.InRange { m₁.toRawCtx with inOffset := 0 } :=
      ⟨Nat.zero_le _, hinCount, hout, houtCount⟩
    refine ⟨_, _, { m₁ with inOffset := 0 }, rfl, ?_,
      { hrep with inBuf := take_zero, range := hrange }⟩
    simp only [if_true, henc, bind_eq_bind, bind_some]
    exact checked_eq hrange

theorem trailer_rep (h : m.Rep c io) (hbuf : c.outBuf = []) :
    ∃ c' io' m', (if !c.wroteTrailer then
        ({ (putOutput c io ([0x5A, 0x56, 0x30] ++ store32h c.crc)).1 with wroteTrailer := true },
          (putOutput c io ([0x5A, 0x56, 0x30] ++ store32h c.crc)).2)
      else (c, io)) = (c', io') ∧ m.trailer = some m' ∧ m'.Rep c' io' := by
  unfold trailer
  rw [h.wroteTrailer]
  cases c.wroteTrailer with
  | true => exact ⟨c, io, m, rfl, rfl, h⟩
  | false =>
    obtain ⟨p, m₁, hget, -, hstore⟩ := getOutputBuffer_rep h hbuf (n := 7) (by decide)
    obtain ⟨m₂, hm₂, hrep⟩ := hstore ([0x5A, 0x56, 0x30] ++ store32h c.crc) rfl
    rw [← store_append] at hm₂
    refine ⟨_, _, { m₂ with wroteTrailer := true }, rfl, ?_, { hrep with wroteTrailer := rfl }⟩
    obtain ⟨m', hm', hm₂⟩ := bind_eq_some_iff.mp hm₂
    rw [← h.crc] at hm₂
    simp only [Bool.not_false, if_true, hget, bind_eq_bind, bind_some, hm']
    exact congrArg (Option.bind · _) hm₂

/-- The reply to a call, as the memory has it. -/
def Answers (o : Option (Result × Raw)) (r : Base.Reply Result StreamCtx UInt8) : Prop :=
  ∃ m io, o = some (r.status, m) ∧ m.Rep r.ctx io ∧ io.inp = r.left ∧ io.written = r.out

theorem compressFinal_rep (env : StreamEnv) (h : m.Rep c ⟨inp, room, []⟩) (hc : c.Filling) :
    Answers (m.lzfStreamCompressFinal env) (Crypto.lzfStreamCompressFinal env c inp room) := by
  obtain ⟨m₁, hproc, hrep₁⟩ := compressProcess_rep env h hc
  obtain ⟨io₁, hgoing, -⟩ := compressProcess_going env hc inp room
  have hfill₁ : (Crypto.lzfStreamCompressProcess env c inp room).ctx.Filling := hgoing.ctx
  simp only [lzfStreamCompressFinal, hproc, bind_eq_bind, bind_some]
  unfold Crypto.lzfStreamCompressFinal
  generalize Crypto.lzfStreamCompressProcess env c inp room = r at hrep₁ hfill₁ ⊢
  dsimp only
  rw [hrep₁.buffered_eq]
  by_cases hbuf₁ : r.ctx.outBuf = []
  swap
  · rw [if_pos (outputDataIsBuffered_iff.mpr hbuf₁), if_pos (outputDataIsBuffered_iff.mpr hbuf₁)]
    exact ⟨m₁, _, rfl, hrep₁, rfl, rfl⟩
  have hno₁ : ¬ Crypto.outputDataIsBuffered r.ctx = true := by
    simp [Crypto.outputDataIsBuffered, hbuf₁]
  rw [if_neg hno₁, if_neg hno₁]
  -- `out + *outlen` is where `outp` is
  have houtAvail := hrep₁.outAvail
  have hsame : m₁.dst.length - (m₁.dst.length - m₁.outAvail) = m₁.outAvail ∧
      m₁.dst.length - m₁.outAvail = m₁.outp := by omega
  rw [hsame.1, hsame.2]
  obtain ⟨c₂, io₂, m₂, heq₂, hlast, hrep₂⟩ := lastBlock_rep env hrep₁ hfill₁ hbuf₁
  simp only [heq₂, hlast, bind_some]
  rw [hrep₂.buffered_eq]
  by_cases hbuf₂ : c₂.outBuf = []
  swap
  · rw [if_pos (outputDataIsBuffered_iff.mpr hbuf₂), if_pos (outputDataIsBuffered_iff.mpr hbuf₂)]
    exact ⟨m₂, _, rfl, hrep₂, rfl, rfl⟩
  have hno₂ : ¬ Crypto.outputDataIsBuffered c₂ = true := by
    simp [Crypto.outputDataIsBuffered, hbuf₂]
  rw [if_neg hno₂, if_neg hno₂]
  obtain ⟨c₃, io₃, m₃, heq₃, htrailer, hrep₃⟩ := trailer_rep hrep₂ hbuf₂
  simp only [heq₃, htrailer, bind_some]
  rw [hrep₃.buffered_eq]
  split
  next => exact ⟨m₃, _, rfl, hrep₃, rfl, rfl⟩
  next => exact ⟨m₃, _, rfl, hrep₃, rfl, rfl⟩

/-! ## Decompression -/

section decoder

variable {buf inp : List UInt8}

section

variable (h : m.Rep c io) (hnil : c.inBuf = [])
include h hnil

theorem headerDecode1_rep (hload : m.load p 1 = some buf) :
    ∃ m', m.headerDecode1 p = some m' ∧
      m'.Rep { c with toDecoder := Crypto.headerDecode1 c.toDecoder buf } io := by
  simp only [headerDecode1, hload, bind_eq_bind, bind_some, Crypto.headerDecode1]
  split
  next => exact setState_rep_of_ne h hnil .atEof (by decide)
  split
  next => exact setState_rep_of_ne h hnil .wantHeader2 (by decide)
  next => exact setState_rep_of_ne h hnil .dataError (by decide)

theorem headerDecode2_rep (hst : c.decodeState = .wantHeader2) (hload : m.load p 2 = some buf) :
    ∃ m', m.headerDecode2 p = some m' ∧
      m'.Rep { c with toDecoder := Crypto.headerDecode2 c.toDecoder buf } io := by
  -- the type can be changed where it is not looked at
  have hnew : ∀ (x : UInt8) (t : BlockType),
      Rep { m with blockType := x } { c with blockType := t } io := by
    intro x t
    refine { h with blockType := fun hst' => ?_ }
    rcases hst' with hst' | hst' <;> exact absurd (hst.symm.trans hst') (by decide)
  simp only [headerDecode2, hload, bind_eq_bind, bind_some, Crypto.headerDecode2]
  split
  next => exact setState_rep_of_ne h hnil .dataError (by decide)
  split
  next ht => exact setState_rep (hnew _ .stored) hnil .wantHeader3 (by decide) fun _ => ht
  split
  next ht => exact setState_rep (hnew _ .compressed) hnil .wantHeader3 (by decide) fun _ => ht
  split
  next ht => exact setState_rep (hnew _ .crc) hnil .wantHeader3 (by decide) fun _ => ht
  exact setState_rep_of_ne (hnew _ c.blockType) hnil .dataError (by decide)

theorem headerDecode3_rep (hst : c.decodeState = .wantHeader3)
    (hhead : ∃ hd, c.toDecoder.Header hd) (hload : m.load p c.inCount = some buf) :
    ∃ m', m.headerDecode3 p = some m' ∧
      m'.Rep { c with toDecoder := Crypto.headerDecode3 c.toDecoder buf } io := by
  have htype := h.blockType (.inl hst)
  have hsize : ∀ l : List UInt8, load16h l ≤ bufLen :=
    fun l => (load16h_le l).trans (Nat.le_add_right _ _)
  obtain ⟨hd, hhead⟩ := hhead
  cases ht : c.blockType with
  | stored =>
    simp only [Decoder.Header, hst, ht] at hhead
    rw [hhead.2] at hload
    rw [ht] at htype
    obtain ⟨m', hset, hrep⟩ := setState_rep h hnil .wantData (hsize buf) fun _ => by rw [htype, ht]
    refine ⟨{ m' with outputSize := load16h buf }, ?_, ?_⟩
    · simp [headerDecode3, htype, BlockType.code, hload, hset]
    · simp only [Crypto.headerDecode3, ht]
      exact { hrep with outputSize := rfl }
  | compressed =>
    simp only [Decoder.Header, hst, ht] at hhead
    rw [hhead.2] at hload
    rw [ht] at htype
    obtain ⟨m', hset, hrep⟩ := setState_rep h hnil .wantData (hsize buf) fun _ => by rw [htype, ht]
    refine ⟨{ m' with outputSize := load16h (buf.drop 2) }, ?_, ?_⟩
    · simp [headerDecode3, htype, BlockType.code, hload, hset]
    · simp only [Crypto.headerDecode3, ht]
      exact { hrep with outputSize := rfl }
  | crc =>
    simp only [Decoder.Header, hst, ht] at hhead
    rw [hhead.2] at hload
    rw [ht] at htype
    have heq : m.headerDecode3 p = if m.crc ≠ load32h buf then m.setState .dataError 0
        else m.setState .wantHeader1 0 := by
      simp [headerDecode3, htype, BlockType.code, hload]
    simp only [heq, Crypto.headerDecode3, ht, h.crc]
    split
    next => exact setState_rep_of_ne h hnil .dataError (by decide)
    next => exact setState_rep_of_ne h hnil .wantHeader1 (by decide)

end

section

variable (env : StreamEnv)
include env

theorem length_blockData (hst : c.decodeState = .wantData) (hhead : ∃ hd, c.toDecoder.Header hd)
    (hlen : buf.length = c.inCount) :
    ((blockData env c.toDecoder buf).getD (env.junk c.outputSize)).length = c.outputSize ∧
      c.outputSize ≤ maxBlock := by
  obtain ⟨hd, hhead⟩ := hhead
  cases ht : c.blockType with
  | stored =>
    simp only [Decoder.Header, hst, ht] at hhead
    simp only [blockData, ht, getD_some]
    omega
  | compressed =>
    simp only [Decoder.Header, hst, ht] at hhead
    refine ⟨?_, hhead.2.2⟩
    simp only [blockData, ht, blockDecompress]
    split
    next =>
      split
      next hplain => exact hplain
      next => exact env.junk_length _
    next => exact env.junk_length _
  | crc =>
    simp only [Decoder.Header, hst, ht] at hhead

theorem decoded_rep (h : m.Rep c io) (hnil : c.inBuf = []) (plain : List UInt8) :
    ∃ m', setState { m with crc := env.crc32 m.crc plain } .wantHeader1 0 = some m' ∧
      m'.Rep { c with
        toDecoder := Crypto.setState { c.toDecoder with crc := env.crc32 c.crc plain }
          .wantHeader1 0 } io := by
  have hrep : Rep { m with crc := env.crc32 m.crc plain } { c with crc := env.crc32 c.crc plain }
      io := { h with crc := by rw [h.crc] }
  exact setState_rep_of_ne hrep hnil .wantHeader1 (by decide)

/-- `get_output_buffer` and `data_decode`: the pointer is not null, the assertions hold, and as many
bytes are written as the buffer is for. -/
theorem dataDecode_rep (h : m.Rep c io) (hnil : c.inBuf = []) (hbuf : c.outBuf = [])
    (hst : c.decodeState = .wantData) (hhead : ∃ hd, c.toDecoder.Header hd)
    (hload : m.load p c.inCount = some buf) (hlen : buf.length = c.inCount) :
    ∃ q m₁ m₂, m.getOutputBuffer m.outputSize = some (some q, m₁) ∧
      m₁.dataDecode env p q = some m₂ ∧
      m₂.Rep
        { (putOutput c io ((blockData env c.toDecoder buf).getD (env.junk c.outputSize))).1 with
          toDecoder := Crypto.dataDecode env (putOutput c io
            ((blockData env c.toDecoder buf).getD (env.junk c.outputSize))).1.toDecoder buf }
        (putOutput c io ((blockData env c.toDecoder buf).getD (env.junk c.outputSize))).2 := by
  obtain ⟨hbytes, hsize⟩ := length_blockData env hst hhead hlen
  obtain ⟨q, m₁, hget, ⟨htype, hcount, hsame, hloads⟩, hstore⟩ :=
    getOutputBuffer_rep h hbuf (hsize.trans (Nat.le_add_right maxBlock 7))
  obtain ⟨m₂, hm₂, hrep⟩ := hstore _ hbytes
  obtain ⟨b, io', hput, -⟩ := putOutput_spec hbuf io
    ((blockData env c.toDecoder buf).getD (env.junk c.outputSize))
  rw [hput] at hrep ⊢
  rw [h.blockType (.inr hst)] at htype
  rw [h.inCount] at hcount
  rw [h.outputSize] at hsame
  rw [← hloads] at hload
  refine ⟨q, m₁, ?_⟩
  have hresult : ∃ m₃, m₁.dataDecode env p q = some m₃ ∧ m₃.Rep
      { c with outBuf := b, toDecoder := Crypto.dataDecode env c.toDecoder buf } io' := by
    obtain ⟨hd, hhead⟩ := hhead
    cases ht : c.blockType with
    | stored =>
      simp only [Decoder.Header, hst, ht] at hhead
      rw [ht] at htype
      have hdata : blockData env c.toDecoder buf = some buf := by simp [blockData, ht]
      rw [hdata] at hm₂
      simp only [Crypto.dataDecode, hdata]
      obtain ⟨m₃, hset, hrep₃⟩ := decoded_rep env hrep hnil buf
      refine ⟨m₃, ?_, hrep₃⟩
      have heq : c.inCount = c.outputSize := hhead.2.2.symm
      rw [getD_some] at hm₂
      simp only [dataDecode, htype, BlockType.code, hcount, hsame, heq, if_true,
        bind_eq_bind]
      rw [← heq, hload, bind_some, hm₂]
      exact hset
    | compressed =>
      rw [ht] at htype
      have hlzf : ∃ ret, lzfDoDecompress env.beyond buf c.outputSize = some ret :=
        lzfDoDecompress_isSome _ _ (by unfold maxBlock at hsize; omega)
      obtain ⟨ret, hret⟩ := hlzf
      have hne : (1 : UInt8) ≠ 0 := by decide
      simp only [dataDecode, htype, BlockType.code, hcount, hsame, hload, hret, hne, if_true,
        if_false, bind_eq_bind, bind_some]
      cases ret with
      | error e =>
        have hdata : blockData env c.toDecoder buf = none := by
          simp [blockData, ht, blockDecompress, hret]
        rw [hdata, getD_none] at hm₂
        simp only [Crypto.dataDecode, hdata, hm₂, bind_some]
        exact setState_rep_of_ne hrep hnil .dataError (by decide)
      | ok plain =>
        dsimp only
        by_cases hplain : plain.length = c.outputSize
        · have hdata : blockData env c.toDecoder buf = some plain := by
            simp [blockData, ht, blockDecompress, hret, hplain]
          rw [hdata, getD_some] at hm₂
          simp only [Crypto.dataDecode, hdata, if_pos hplain, hm₂, bind_some]
          exact decoded_rep env hrep hnil plain
        · have hdata : blockData env c.toDecoder buf = none := by
            simp [blockData, ht, blockDecompress, hret, hplain]
          rw [hdata, getD_none] at hm₂
          simp only [Crypto.dataDecode, hdata, if_neg hplain, hm₂, bind_some]
          exact setState_rep_of_ne hrep hnil .dataError (by decide)
    | crc => simp only [Decoder.Header, hst, ht] at hhead
  obtain ⟨m₃, hdec, hrep₃⟩ := hresult
  exact ⟨m₃, by rw [h.outputSize]; exact hget, hdec, hrep₃⟩

theorem decompressBody_rep (h : m.Rep c io) (hc : c.Live) :
    ∃ m', m.decompressBody env = some ((Crypto.decompressBody env (c, io)).1, m') ∧
      m'.Rep (Crypto.decompressBody env (c, io)).2.1 (Crypto.decompressBody env (c, io)).2.2 := by
  unfold decompressBody
  rw [h.decodeState, h.buffered_eq]
  by_cases hblock : c.decodeState = .wantData ∧ Crypto.outputDataIsBuffered c = true
  · simp only [Crypto.decompressBody, if_pos hblock]
    exact ⟨m, rfl, h⟩
  rw [if_neg hblock]
  by_cases hle : c.inCount ≤ (c.inBuf ++ io.inp).length
  swap
  · obtain ⟨m₁, hcons, hrep⟩ := consumeInput_short h hle
    simp only [Crypto.decompressBody, if_neg hblock, consumeInput_eq hc.inBuf_le, if_neg hle, hcons,
      bind_eq_bind, bind_some]
    exact ⟨m₁, rfl, hrep⟩
  obtain ⟨q, m₁, hcons, hrep, hload⟩ := consumeInput_full h hle
  have hlen := length_take_of_le hle
  have hstate : m₁.decodeState = c.decodeState := hrep.decodeState
  rw [decompressBody_eq hc.inBuf_le hblock hle, hcons]
  simp only [bind_eq_bind, bind_some, hstate]
  obtain ⟨hd, hhead⟩ := hc.header
  cases hst : c.decodeState with
  | wantHeader1 =>
    simp only [Decoder.Header, hst] at hhead
    rw [hhead.2] at hload
    obtain ⟨m₂, hm₂, hrep₂⟩ := headerDecode1_rep hrep rfl hload
    refine ⟨m₂, by simp only [hm₂, bind_some], ?_⟩
    rw [← hhead.2] at hrep₂
    exact hrep₂
  | wantHeader2 =>
    simp only [Decoder.Header, hst] at hhead
    rw [hhead.2] at hload
    obtain ⟨m₂, hm₂, hrep₂⟩ := headerDecode2_rep hrep rfl hst hload
    refine ⟨m₂, by simp only [hm₂, bind_some], ?_⟩
    rw [← hhead.2] at hrep₂
    exact hrep₂
  | wantHeader3 =>
    obtain ⟨m₂, hm₂, hrep₂⟩ := headerDecode3_rep hrep rfl hst hc.header hload
    exact ⟨m₂, by simp only [hm₂, bind_some], hrep₂⟩
  | wantData =>
    have hbuf : c.outBuf = [] := by
      by_contra hne
      exact hblock ⟨hst, outputDataIsBuffered_iff.mpr hne⟩
    obtain ⟨out, m₂, m₃, hget, hdec, hrep₃⟩ :=
      dataDecode_rep env hrep rfl hbuf hst hc.header hload hlen
    exact ⟨m₃, by simp only [hget, hdec, bind_some], hrep₃⟩
  | atEof =>
    refine ⟨m₁, ?_, hrep⟩
    have havail : 0 < m₁.inAvail ↔ (c.inBuf ++ io.inp).drop c.inCount ≠ [] := by
      rw [hrep.inAvail_eq, length_pos_iff]
    simp only [havail]
  | dataError => exact ⟨m₁, rfl, hrep⟩

theorem decompressProcess_rep {room : Nat} (h : m.Rep c ⟨inp, room, []⟩) (hc : c.Live) :
    Answers (m.lzfStreamDecompressProcess env)
      (Crypto.lzfStreamDecompressProcess env c inp room) := by
  obtain ⟨m₁, m₂, hprod, hfuel, hloop, hrep⟩ := loop_rep (fun _ => decompressBody_going env)
    (fun m t hm ht => decompressBody_rep env hm ht) h ⟨hc.header, hc.inBuf⟩
    (n := 2 * inp.length + 2) fun c' io hinp => by
      simp only [decompressMeasure, hinp]
      split <;> omega
  refine ⟨m₂, _, ?_, hrep, rfl, rfl⟩
  simp only [lzfStreamDecompressProcess, hprod, bind_eq_bind, bind_some, hfuel, hloop,
    Crypto.lzfStreamDecompressProcess]

theorem decompressFinal_rep {room : Nat} (h : m.Rep c ⟨inp, room, []⟩) (hc : c.Live) :
    Answers (m.lzfStreamDecompressFinal env) (Crypto.lzfStreamDecompressFinal env c inp room) := by
  obtain ⟨m₁, io₁, hproc, hrep, hleft, hout⟩ := decompressProcess_rep env h hc
  obtain ⟨io₂, hgoing, -, hleft₂, -⟩ := decompressProcess_going env hc inp room
  have hle : m₁.inAvail ≤ inp.length := by
    rw [hrep.inAvail_eq, hleft, hleft₂]
    exact hgoing.suffix.length_le
  -- all of the input is used
  have hused : inp.length - m₁.inAvail = inp.length ↔
      (Crypto.lzfStreamDecompressProcess env c inp room).left = [] := by
    rw [← hleft, ← length_eq_zero_iff, ← hrep.inAvail_eq]
    omega
  have havail : m.inAvail = inp.length := h.inAvail_eq
  simp only [lzfStreamDecompressFinal, hproc, bind_eq_bind, bind_some, havail, hused,
    hrep.pending_eq, hrep.buffered_eq, Crypto.lzfStreamDecompressFinal]
  split
  next => exact ⟨m₁, io₁, rfl, hrep, hleft, hout⟩
  next hok =>
    split
    next => exact ⟨m₁, io₁, rfl, hrep, hleft, hout⟩
    split
    next => exact ⟨m₁, io₁, rfl, hrep, hleft, hout⟩
    next => exact ⟨m₁, io₁, by rw [not_not.mp hok], hrep, hleft, hout⟩

end

end decoder

end Raw

/-! ## Calls -/

/-- A context between calls. -/
def RawCtx.Rep (c : RawCtx) (d : StreamCtx) : Prop :=
  ∀ k : RawCall, (k.start c).Rep d ⟨k.inp, k.out.length, []⟩

theorem Raw.Rep.toRawCtx {m : Raw} {c : StreamCtx} {io : Io} (h : m.Rep c io) :
    m.toRawCtx.Rep c := by
  intro k
  exact { h with
    inp := drop_zero, inAvail := Nat.zero_add _
    written := take_zero, room := rfl, outAvail := Nat.zero_add _ }

theorem alloc_rep (env : StreamEnv) : (RawCtx.alloc env).Rep (lzfStreamAlloc env) := by
  intro k
  exact {
    crc := rfl, wroteTrailer := rfl, decodeState := rfl, outputSize := rfl, inCount := rfl
    blockType := fun _ => rfl, inBuf := take_zero, outBuf := rfl
    inLen := env.junk_length _, outLen := env.junk_length _
    range := ⟨Nat.zero_le _, (by decide : 1 ≤ bufLen), Nat.le_refl _, Nat.zero_le _⟩
    drained := fun _ => rfl
    inp := drop_zero, inAvail := Nat.zero_add _
    written := take_zero, room := rfl, outAvail := Nat.zero_add _ }

/-- The same call on lists. -/
def RawCall.reply (env : StreamEnv) (encode : Bool) (k : RawCall) (d : StreamCtx) :
    Base.Reply Result StreamCtx UInt8 :=
  if k.final then (lzfStreamCodec env encode).final d k.inp k.out.length
  else (lzfStreamCodec env encode).process d k.inp k.out.length

variable {d : StreamCtx}

theorem RawCall.run_rep (env : StreamEnv) (encode : Bool) (k : RawCall) {c : RawCtx} (h : c.Rep d)
    (hd : CodecOk encode d) : Raw.Answers (k.run env encode c) (k.reply env encode d) := by
  unfold RawCall.run RawCall.reply
  cases encode with
  | true =>
    have hfill : d.Filling := hd
    cases k.final with
    | true => exact Raw.compressFinal_rep env (h k) hfill
    | false =>
      obtain ⟨m, hproc, hrep⟩ := Raw.compressProcess_rep env (h k) hfill
      exact ⟨m, _, hproc, hrep, rfl, rfl⟩
  | false =>
    have hlive : d.Live := hd
    cases k.final with
    | true => exact Raw.decompressFinal_rep env (h k) hlive
    | false => exact Raw.decompressProcess_rep env (h k) hlive

theorem RawCall.reply_ok (env : StreamEnv) (encode : Bool) (k : RawCall) (hd : CodecOk encode d) :
    CodecOk encode (k.reply env encode d).ctx := by
  obtain ⟨stage, hlively⟩ := codec_lively env encode
  unfold RawCall.reply
  split
  next => exact hlively.final k.inp k.out.length hd
  next => exact hlively.process k.inp k.out.length hd

theorem run_rep (env : StreamEnv) (encode : Bool) (calls : List RawCall) {c : RawCtx}
    (h : c.Rep d) (hd : CodecOk encode d) :
    ∃ c' d', c.run env encode calls = some c' ∧ c'.Rep d' := by
  induction calls generalizing c d with
  | nil => exact ⟨c, d, rfl, h⟩
  | cons k calls ih =>
    obtain ⟨m, io, hrun, hrep, -, -⟩ := k.run_rep env encode h hd
    obtain ⟨c', d', hrest, hrep'⟩ := ih hrep.toRawCtx (k.reply_ok env encode hd)
    refine ⟨c', d', ?_, hrep'⟩
    simp only [RawCtx.run, hrun, bind_eq_bind, bind_some]
    exact hrest

/-- The buffers of a context are used as they should be, in any sequence of calls: nothing happens
that must not, and the offsets and counts are in range. -/
theorem stream_buffers_safe (env : StreamEnv) (encode : Bool) (calls : List RawCall) :
    ∃ c, (RawCtx.alloc env).run env encode calls = some c ∧ c.InRange := by
  obtain ⟨c, d, hrun, hrep⟩ := run_rep env encode calls (alloc_rep env) (codecOk_alloc env encode)
  exact ⟨c, hrun, (hrep ⟨false, [], []⟩).range⟩

end OpenIsr.Crypto
