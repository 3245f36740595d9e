import OpenIsr.Crypto.LzfStreamLive

/-!
# The stream decoder and its buffers

A caller can give the decoder its input in any pieces and take the output in any pieces. The
verdict and the output should not depend on that.

`Tracks` is what holds between calls: the decoder is where `Parse` would be, the bytes it has
not read are those in its buffer and those it has not been given, and the plaintext is what
it has written and what it has buffered. `Stopped` says why a call of
`lzf_stream_decompress_process` comes to its end. Together they determine the verdict
(`final_spec`), up to one case: `lzf_stream_decompress_final` takes the header of an empty
block at the end of the input for one whose data is missing, if there is output left in the
buffer. `decode_independent_iff` says that this is the only dependence on the buffers.
-/

namespace OpenIsr.Crypto

open List Option
open Base (Reply Filter forever forever_rule)

variable {env : StreamEnv} {s out sofar buf : List UInt8} {p q r : Parse} {outs : List (List UInt8)}
  {room n : Nat} {d : Decoder}

/-! ## Verdicts -/

/-- The end of a stream can be here. -/
def DecodeState.isEnd : DecodeState → Bool
  | .wantHeader1 | .atEof => true
  | _ => false

/-- The whole input is read, and the end of the stream can be there. -/
def Accepted (env : StreamEnv) (s out : List UInt8) : Prop :=
  ∃ d outs, Parse.Steps env (Parse.start env s) ⟨d, [], outs⟩ ∧ d.decodeState.isEnd = true ∧
    outs.flatten = out

/-- The decoder stops before the end of the input, or in the middle of a block. -/
def Rejected (env : StreamEnv) (s : List UInt8) : Prop :=
  ∃ p, Parse.Steps env (Parse.start env s) p ∧ p.next env = none ∧
    (p.data ≠ [] ∨ p.dec.decodeState.isEnd = false)

/-- The input ends with the header of an empty block, and the data block before it is not
empty. -/
def Stuck (env : StreamEnv) (s : List UInt8) : Prop :=
  ∃ d outs b, Parse.Steps env (Parse.start env s) ⟨d, [], outs⟩ ∧ d.decodeState = .wantData ∧
    d.blockType = .stored ∧ d.inCount = 0 ∧ outs.getLast? = some b ∧ b ≠ []

/-- There are more than `n` bytes of plaintext. -/
def Exceeds (env : StreamEnv) (s : List UInt8) (n : Nat) : Prop :=
  ∃ p, Parse.Steps env (Parse.start env s) p ∧ n < p.outs.flatten.length

theorem Parse.Steps.total (hq : Parse.Steps env p q) (hr : Parse.Steps env p r) :
    Parse.Steps env q r ∨ Parse.Steps env r q :=
  Relation.ReflTransGen.total_of_right_unique
    (fun _ _ _ h₁ h₂ => some.inj (h₁.symm.trans h₂)) hq hr

theorem Parse.Steps.eq_of_next_none (h : Parse.Steps env p q) (hp : p.next env = none) : q = p := by
  induction h with
  | refl => rfl
  | tail _ hq ih =>
    rw [ih, hp] at hq
    cases hq

theorem Parse.Steps.unique (hq : Parse.Steps env p q) (hr : Parse.Steps env p r)
    (hq' : q.next env = none) (hr' : r.next env = none) : q = r := by
  rcases hq.total hr with h | h
  · exact (h.eq_of_next_none hq').symm
  · exact h.eq_of_next_none hr'

theorem Parse.Steps.grows (h : Parse.Steps env p q) :
    (∃ more, q.outs = p.outs ++ more) ∧ q.data.length ≤ p.data.length := by
  induction h with
  | refl => exact ⟨⟨[], (append_nil _).symm⟩, le_refl _⟩
  | @tail q r _ hr ih =>
    obtain ⟨⟨more, hmore⟩, hlen⟩ := ih
    unfold Parse.next at hr
    split at hr
    next => cases hr
    have hdrop : (q.data.drop q.dec.inCount).length ≤ p.data.length := by
      rw [length_drop]
      omega
    split at hr
    next => exact some.inj hr ▸ ⟨⟨more, hmore⟩, hdrop⟩
    next => exact some.inj hr ▸ ⟨⟨more, hmore⟩, hdrop⟩
    next => exact some.inj hr ▸ ⟨⟨more, hmore⟩, hdrop⟩
    next =>
      rw [← some.inj hr]
      exact ⟨⟨more ++ (blockData env q.dec (q.data.take q.dec.inCount)).toList,
        by rw [← append_assoc, ← hmore]⟩, hdrop⟩
    next => cases hr
    next => cases hr

theorem Parsed.header (h : Parse.Steps env (Parse.start env s) p) : ∃ hd, p.dec.Header hd := by
  obtain ⟨-, hd, -, -, hhead⟩ := Parsed.of_steps h
  exact ⟨hd, hhead⟩

theorem next_of_isEnd (h : Parse.Steps env (Parse.start env s) ⟨d, [], outs⟩)
    (hd : d.decodeState.isEnd = true) : Parse.next env ⟨d, [], outs⟩ = none := by
  obtain ⟨hd', hhead⟩ := Parsed.header h
  unfold Parse.next
  cases hst : d.decodeState with
  | wantHeader1 =>
    simp only [Decoder.Header, hst] at hhead
    rw [if_pos (by rw [hhead.2]; exact Nat.zero_lt_one)]
  | atEof => simp
  | wantHeader2 | wantHeader3 | wantData | dataError =>
    rw [hst] at hd
    cases hd

theorem Accepted.unique {out' : List UInt8} (h : Accepted env s out) (h' : Accepted env s out') :
    out = out' := by
  obtain ⟨d, outs, hs, hd, rfl⟩ := h
  obtain ⟨d', outs', hs', hd', rfl⟩ := h'
  have heq := hs.unique hs' (next_of_isEnd hs hd) (next_of_isEnd hs' hd')
  exact congrArg (fun p => p.outs.flatten) heq

theorem Accepted.not_rejected (h : Accepted env s out) : ¬ Rejected env s := by
  obtain ⟨d, outs, hs, hd, -⟩ := h
  rintro ⟨p, hp, hnext, hbad⟩
  obtain rfl := hs.unique hp (next_of_isEnd hs hd) hnext
  rcases hbad with hdata | hend
  · exact hdata rfl
  · rw [hd] at hend
    cases hend

theorem Accepted.lt_of_exceeds (h : Accepted env s out) (hn : Exceeds env s n) :
    n < out.length := by
  obtain ⟨d, outs, hs, hd, rfl⟩ := h
  obtain ⟨p, hp, hlt⟩ := hn
  have hafter : Parse.Steps env p ⟨d, [], outs⟩ := by
    rcases hp.total hs with h | h
    · exact h
    · rw [h.eq_of_next_none (next_of_isEnd hs hd)]
      exact .refl
  obtain ⟨more, hmore⟩ := hafter.grows.1
  dsimp only at hmore
  rw [hmore, flatten_append, length_append]
  omega

theorem Stuck.accepted (h : Stuck env s) :
    ∃ d outs, Parse.Steps env (Parse.start env s) ⟨d, [], outs⟩ ∧ d.decodeState = .wantHeader1 ∧
      outs.getLast? = some [] := by
  obtain ⟨d, outs, b, hs, hst, ht, hcount, -, -⟩ := h
  refine ⟨dataDecode env d [], outs ++ [[]], hs.trans (.single ?_), ?_, by simp⟩
  · simp [Parse.next, hcount, hst, blockData, ht]
  · simp [dataDecode, blockData, ht, setState]

/-! ## One iteration -/

/-- What holds between calls, when `left` is the input that has not been used and `sofar` the
output so far. -/
structure Tracks (env : StreamEnv) (s : List UInt8) (c : StreamCtx) (left sofar : List UInt8) :
    Prop where
  inBuf : c.inBuf = [] ∨ c.inBuf.length < c.inCount
  steps : ∃ outs, Parse.Steps env (Parse.start env s) ⟨c.toDecoder, c.inBuf ++ left, outs⟩ ∧
    (c.decodeState ≠ .dataError → outs.flatten = sofar ++ c.outBuf ∧
      (c.outBuf ≠ [] → ∃ b, outs.getLast? = some b ∧ b ≠ []))

theorem tracks_alloc (env : StreamEnv) (s : List UInt8) :
    Tracks env s (lzfStreamAlloc env) s [] :=
  ⟨.inl rfl, [], .refl, fun _ => ⟨rfl, fun h => absurd rfl h⟩⟩

section body

variable {c : StreamCtx} {io : Io} {later : List UInt8} {held : Nat}

theorem Tracks.header (h : Tracks env s c (io.inp ++ later) sofar)
    (hle : c.inCount ≤ (c.inBuf ++ io.inp).length) (hst : c.decodeState ≠ .dataError)
    (hnext : ∀ outs, Parse.next env ⟨c.toDecoder, c.inBuf ++ io.inp ++ later, outs⟩
      = some ⟨d, (c.inBuf ++ io.inp ++ later).drop c.inCount, outs⟩) :
    Tracks env s { c with inBuf := [], toDecoder := d }
      ((c.inBuf ++ io.inp).drop c.inCount ++ later) sofar := by
  obtain ⟨outs, hsteps, hout⟩ := h.steps
  refine ⟨.inl rfl, outs, ?_, fun _ => hout hst⟩
  rw [nil_append, ← drop_append_of_le_length hle]
  rw [← append_assoc] at hsteps
  exact hsteps.tail (hnext outs)

theorem Tracks.data (h : Tracks env s c (io.inp ++ later) (sofar ++ io.written))
    (hle : c.inCount ≤ (c.inBuf ++ io.inp).length) (hst : c.decodeState = .wantData)
    (hbuf : c.outBuf = []) {io' : Io}
    (hwritten : io'.written ++ buf = io.written ++
      (blockData env c.toDecoder ((c.inBuf ++ io.inp).take c.inCount)).getD
        (env.junk c.outputSize))
    (hne : buf ≠ [] → (blockData env c.toDecoder ((c.inBuf ++ io.inp).take c.inCount)).getD
        (env.junk c.outputSize) ≠ []) :
    Tracks env s
      { c with
        inBuf := [], outBuf := buf
        toDecoder := dataDecode env c.toDecoder ((c.inBuf ++ io.inp).take c.inCount) }
      ((c.inBuf ++ io.inp).drop c.inCount ++ later) (sofar ++ io'.written) := by
  obtain ⟨outs, hsteps, hout⟩ := h.steps
  obtain ⟨hflat, -⟩ := hout (by rw [hst]; nofun)
  rw [hbuf, append_nil] at hflat
  rw [← append_assoc] at hsteps
  have hnext : Parse.next env ⟨c.toDecoder, c.inBuf ++ io.inp ++ later, outs⟩
      = some ⟨dataDecode env c.toDecoder ((c.inBuf ++ io.inp).take c.inCount),
          (c.inBuf ++ io.inp).drop c.inCount ++ later,
          outs ++ (blockData env c.toDecoder ((c.inBuf ++ io.inp).take c.inCount)).toList⟩ := by
    have hlong : ¬ (c.inBuf ++ io.inp ++ later).length < c.inCount := by
      rw [length_append]
      omega
    simp only [Parse.next, if_neg hlong, hst, take_append_of_le_length hle,
      drop_append_of_le_length hle]
  refine ⟨.inl rfl, _, hsteps.tail hnext, fun herr => ?_⟩
  simp only [dataDecode] at herr
  cases hdata : blockData env c.toDecoder ((c.inBuf ++ io.inp).take c.inCount) with
  | none =>
    rw [hdata] at herr
    exact absurd rfl herr
  | some out =>
    rw [hdata, getD_some] at hwritten hne
    simp only [toList_some]
    constructor
    · rw [flatten_append, hflat, append_assoc, append_assoc, hwritten]
      simp
    · intro hb
      exact ⟨out, by simp, hne hb⟩

/-- What the loop of a call keeps; `later` is the input after what was offered. -/
def InCall (env : StreamEnv) (s later sofar : List UInt8) (room held : Nat) (t : StreamCtx × Io) :
    Prop :=
  Tracks env s t.1 (t.2.inp ++ later) (sofar ++ t.2.written) ∧ Flow room held t.1.outBuf t.2

theorem Tracks.live {left : List UInt8} (h : Tracks env s c left sofar) : c.Live := by
  obtain ⟨outs, hsteps, -⟩ := h.steps
  exact ⟨Parsed.header hsteps, h.inBuf⟩

theorem Tracks.body (h : Tracks env s c (io.inp ++ later) (sofar ++ io.written)) :
    Tracks env s (decompressBody env (c, io)).2.1 ((decompressBody env (c, io)).2.2.inp ++ later)
      (sofar ++ (decompressBody env (c, io)).2.2.written) := by
  by_cases hblock : c.decodeState = .wantData ∧ outputDataIsBuffered c = true
  · simp only [decompressBody, if_pos hblock]
    exact h
  by_cases hle : c.inCount ≤ (c.inBuf ++ io.inp).length
  swap
  · simp only [decompressBody, if_neg hblock, consumeInput_eq h.live.inBuf_le, if_neg hle]
    obtain ⟨outs, hsteps, hout⟩ := h.steps
    refine ⟨.inr (Nat.lt_of_not_le hle), outs, ?_, hout⟩
    rw [nil_append, append_assoc]
    exact hsteps
  have hlong : ¬ (c.inBuf ++ io.inp ++ later).length < c.inCount := by
    rw [length_append]
    omega
  rw [decompressBody_eq h.live.inBuf_le hblock hle]
  cases hst : c.decodeState with
  | wantHeader1 | wantHeader2 | wantHeader3 =>
    refine h.header hle (by rw [hst]; decide) fun outs => ?_
    simp only [Parse.next, if_neg hlong, hst, take_append_of_le_length hle]
  | wantData =>
    have hbuf : c.outBuf = [] := by
      by_contra hne
      exact hblock ⟨hst, outputDataIsBuffered_iff.mpr hne⟩
    obtain ⟨buf, io', hput, hinp, hwritten, hne, -⟩ :=
      putOutput_spec (c := { c with inBuf := [] }) hbuf
        { io with inp := (c.inBuf ++ io.inp).drop c.inCount }
        ((blockData env c.toDecoder ((c.inBuf ++ io.inp).take c.inCount)).getD
          (env.junk c.outputSize))
    dsimp only
    rw [hput, hinp]
    exact h.data hle hst hbuf hwritten hne
  | atEof | dataError =>
    obtain ⟨hcount, hnil⟩ := h.live.ended (by simp [hst])
    dsimp only
    rw [hcount, drop_zero, hnil, nil_append, ← hnil]
    exact h

theorem decompressBody_spec (h : InCall env s later sofar room held (c, io)) :
    (∃ r t, decompressBody env (c, io) = (some r, t) ∧ InCall env s later sofar room held t ∧
      Stopped r t.1 t.2.inp) ∨
    ∃ t, decompressBody env (c, io) = (none, t) ∧ InCall env s later sofar room held t ∧
      decompressMeasure t < decompressMeasure (c, io) := by
  have hbody := Tracks.body h.1
  have hgoing : Going StreamCtx.Live io.inp c.outBuf room held (c, io) :=
    ⟨h.1.live, h.2, suffix_refl _, fun _ => .inl rfl⟩
  rcases decompressBody_going env hgoing with ⟨r, t, heq, ht, hstop⟩ | ⟨t, heq, ht, hlt⟩
  · rw [heq] at hbody
    exact .inl ⟨r, t, heq, ⟨hbody, ht.flow⟩, hstop⟩
  · rw [heq] at hbody
    exact .inr ⟨t, heq, ⟨hbody, ht.flow⟩, hlt⟩

end body

/-! ## One call -/

section call

variable {c : StreamCtx} {inp later rest left : List UInt8} {held : Nat}

theorem process_spec (h : Tracks env s c (inp ++ later) sofar) (room : Nat) :
    ∃ io, InCall env s later sofar room c.outBuf.length
        ((lzfStreamDecompressProcess env c inp room).ctx, io) ∧
      Stopped (lzfStreamDecompressProcess env c inp room).status
        (lzfStreamDecompressProcess env c inp room).ctx io.inp ∧
      (lzfStreamDecompressProcess env c inp room).left = io.inp ∧
      (lzfStreamDecompressProcess env c inp room).out = io.written := by
  obtain ⟨buf, io, heq, hinp, hout, hne, hf⟩ := Flow.start c inp room
  have hstart : InCall env s later sofar room c.outBuf.length ({ c with outBuf := buf }, io) := by
    refine ⟨⟨h.inBuf, ?_⟩, hf⟩
    obtain ⟨outs, hsteps, hflat⟩ := h.steps
    refine ⟨outs, by rw [hinp]; exact hsteps, fun hst => ?_⟩
    obtain ⟨hflat, hlast⟩ := hflat hst
    exact ⟨by rw [hflat, append_assoc, hout], fun hbuf => hlast (hne hbuf)⟩
  have hrun := forever_rule (f := decompressBody env) (d := .ok) (n := 2 * inp.length + 2)
    (P := fun r t => InCall env s later sofar room c.outBuf.length t ∧ Stopped r t.1 t.2.inp)
    (m := decompressMeasure) (fun _ ht => decompressBody_spec ht) hstart ?_
  · simp only [lzfStreamDecompressProcess, heq]
    exact ⟨_, hrun.1, hrun.2, rfl, rfl⟩
  · simp only [decompressMeasure, hinp]
    split <;> omega

theorem Flow.tight_total {io : Io} (hf : Flow room held buf io) (hbuf : buf ≠ []) :
    room < io.written.length + buf.length := by
  have htotal := hf.total
  have htight := hf.tight hbuf
  omega

theorem Tracks.exceeds {out : List UInt8} (h : Tracks env s c left (sofar ++ out))
    (hst : c.decodeState ≠ .dataError) (hlt : room < out.length + c.outBuf.length) :
    Exceeds env s (sofar.length + room) := by
  obtain ⟨outs, hsteps, hout⟩ := h.steps
  refine ⟨_, hsteps, ?_⟩
  show sofar.length + room < outs.flatten.length
  rw [(hout hst).1]
  simp only [length_append]
  omega

theorem Stopped.rejected {r : Result} (h : Stopped r c left) (hr : r ≠ .ok)
    (ht : Tracks env s c (left ++ later) sofar) : r = .badFormat ∧ Rejected env s := by
  obtain ⟨outs, hsteps, -⟩ := ht.steps
  cases h with
  | blocked | starved => exact absurd rfl hr
  | atEof hst =>
    have hleft : left ≠ [] := by
      intro hnil
      rw [if_neg (not_not.mpr hnil)] at hr
      exact hr rfl
    refine ⟨if_pos hleft, _, hsteps, ?_, .inl (by simp [hleft])⟩
    simp [Parse.next, hst]
  | dataError hst =>
    refine ⟨rfl, _, hsteps, ?_, .inr (by simp [hst, DecodeState.isEnd])⟩
    simp [Parse.next, hst]

theorem inputDataPending_eq_false :
    inputDataPending c = false ↔ c.decodeState.isEnd = true ∧ c.inBuf = [] := by
  unfold inputDataPending
  cases c.decodeState <;> simp [DecodeState.isEnd]

/-- The input is at its end. If the decoder is in the middle of a block, the data that is
missing is not there, or the block is empty. -/
theorem Stopped.pending (h : Stopped .ok c []) (ht : Tracks env s c [] sofar)
    (hp : inputDataPending c = true) :
    Rejected env s ∨ Stuck env s ∧ c.decodeState = .wantData ∧ c.outBuf ≠ [] := by
  obtain ⟨outs, hsteps, hout⟩ := ht.steps
  rw [append_nil] at hsteps
  have hend : c.inBuf ≠ [] ∨ c.decodeState.isEnd = false := by
    by_contra hno
    rw [not_or, not_not, Bool.not_eq_false] at hno
    rw [inputDataPending_eq_false.mpr ⟨hno.2, hno.1⟩] at hp
    cases hp
  by_cases hlt : c.inBuf.length < c.inCount
  · exact .inl ⟨_, hsteps, if_pos hlt, hend⟩
  have hnil : c.inBuf = [] := ht.inBuf.resolve_right hlt
  have hcount : c.inCount = 0 := by
    rw [hnil, length_nil] at hlt
    omega
  rw [hnil] at hsteps
  rcases h.ok_cases with ⟨hst, hbuf⟩ | ⟨-, hlt'⟩ | ⟨hst, -⟩
  · obtain ⟨hd, hhead⟩ := Parsed.header hsteps
    cases htype : c.blockType with
    | stored =>
      have hne : c.decodeState ≠ .dataError := by
        rw [hst]
        nofun
      obtain ⟨b, hlast, hb⟩ := (hout hne).2 hbuf
      exact .inr ⟨⟨c.toDecoder, outs, b, hsteps, hst, htype, hcount, hlast, hb⟩, hst, hbuf⟩
    | compressed =>
      -- LZF has no empty blocks
      have hnext : Parse.next env ⟨c.toDecoder, [], outs⟩
          = some ⟨setState c.toDecoder .dataError 0, [], outs⟩ := by
        simp [Parse.next, hcount, hst, dataDecode, blockData, htype, blockDecompress_nil]
      exact .inl ⟨_, hsteps.tail hnext, by simp [Parse.next, setState], .inr rfl⟩
    | crc => simp only [Decoder.Header, hst, htype] at hhead
  · exact absurd hlt' hlt
  · rcases hend with hbuf | hend
    · exact absurd hnil hbuf
    · rw [hst] at hend
      cases hend

theorem Stopped.accepted (h : Stopped .ok c left) (ht : Tracks env s c left sofar)
    (hp : ¬ (left = [] ∧ inputDataPending c = true)) (hbuf : c.outBuf = []) :
    Accepted env s sofar := by
  obtain ⟨outs, hsteps, hout⟩ := ht.steps
  have htracks : Tracks env s c (left ++ []) sofar := by
    rw [append_nil]
    exact ht
  have hne := h.not_dataError htracks.live
  have hleft : left = [] := by
    rcases h.ok_cases with ⟨-, hne⟩ | ⟨hleft, -⟩ | ⟨-, hleft⟩
    · exact absurd hbuf hne
    · exact hleft
    · exact hleft
  obtain ⟨hend, hnil⟩ : c.decodeState.isEnd = true ∧ c.inBuf = [] := by
    rw [← inputDataPending_eq_false, ← Bool.not_eq_true]
    exact fun hpend => hp ⟨hleft, hpend⟩
  rw [hnil, hleft] at hsteps
  refine ⟨_, outs, hsteps, hend, ?_⟩
  rw [(hout hne).1, hbuf, append_nil]

/-- What the reply `r` to a call of `lzf_stream_decompress_final` says about the input. -/
inductive Verdict (env : StreamEnv) (s : List UInt8) (c : StreamCtx) (sofar : List UInt8)
    (room : Nat) (r : Reply Result StreamCtx UInt8) : Prop
  | ok (status : r.status = .ok) (accepted : Accepted env s (sofar ++ r.out))
      (le : r.out.length ≤ room)
  | bad (status : r.status = .badFormat) (rejected : Rejected env s)
  | stuck (status : r.status = .badFormat) (stuck : Stuck env s)
      (exceeds : Exceeds env s (sofar.length + room))
  | again (status : r.status = .bufferOverflow)
    (tracks : Tracks env s r.ctx r.left (sofar ++ r.out))
      (not_error : r.ctx.decodeState ≠ .dataError) (outBuf : r.ctx.outBuf ≠ [])
      (place : r.ctx.decodeState = .wantData ∧ r.left ≠ [] ∨
        r.ctx.decodeState.isEnd = true ∧ r.left = [] ∧ r.ctx.inBuf = [])
      (progress : c.outBuf.length + (if 0 < room then 1 else 0)
        ≤ r.ctx.outBuf.length + 2 * r.out.length)
      (tight : room < r.out.length + r.ctx.outBuf.length)

theorem final_spec (h : Tracks env s c rest sofar) (room : Nat) :
    Verdict env s c sofar room (lzfStreamDecompressFinal env c rest room) := by
  rw [← append_nil rest] at h
  obtain ⟨io, hcall, hstop, hleft, hout⟩ := process_spec h room
  unfold lzfStreamDecompressFinal
  generalize lzfStreamDecompressProcess env c rest room = r at hcall hstop hleft hout ⊢
  obtain ⟨status, c', left, out⟩ := r
  dsimp only at hcall hstop hleft hout ⊢
  subst hleft hout
  have htracks : Tracks env s c' (io.inp ++ []) (sofar ++ io.written) := hcall.1
  by_cases hok : status = .ok
  swap
  · obtain ⟨hbad, hrej⟩ := hstop.rejected hok htracks
    rw [if_pos hok]
    exact .bad hbad hrej
  subst hok
  have hne := hstop.not_dataError htracks.live
  rw [append_nil] at htracks
  rw [if_neg (not_not.mpr rfl)]
  by_cases hend : io.inp = [] ∧ inputDataPending c' = true
  · rw [if_pos hend]
    rw [hend.1] at hstop htracks
    rcases hstop.pending htracks hend.2 with hrej | ⟨hstuck, hst, hbuf⟩
    · exact .bad rfl hrej
    · exact .stuck rfl hstuck (htracks.exceeds hne (hcall.2.tight_total hbuf))
  rw [if_neg hend]
  by_cases hbuf : c'.outBuf = []
  · rw [if_neg (by simp [outputDataIsBuffered, hbuf])]
    have htotal : io.written.length + io.room = room := hcall.2.total
    exact .ok rfl (hstop.accepted htracks hend hbuf) (show io.written.length ≤ room by omega)
  rw [if_pos (outputDataIsBuffered_iff.mpr hbuf)]
  refine .again rfl htracks hne hbuf ?_ (hcall.2.progress hbuf) (hcall.2.tight_total hbuf)
  have hplace : io.inp = [] → c'.decodeState.isEnd = true ∧ io.inp = [] ∧ c'.inBuf = [] := by
    intro hleft
    have hpend : inputDataPending c' = false := by
      rw [← Bool.not_eq_true]
      exact fun hpend => hend ⟨hleft, hpend⟩
    obtain ⟨hisEnd, hnil⟩ := inputDataPending_eq_false.mp hpend
    exact ⟨hisEnd, hleft, hnil⟩
  rcases hstop.ok_cases with ⟨hst, -⟩ | ⟨hleft, -⟩ | ⟨-, hleft⟩
  · by_cases hleft : io.inp = []
    · exact .inr (hplace hleft)
    · exact .inl ⟨hst, hleft⟩
  · exact .inr (hplace hleft)
  · exact .inr (hplace hleft)

end call

/-! ## Runs -/

/-- What holds between the calls of a run. -/
def DecodeInv (env : StreamEnv) (s : List UInt8) (c : StreamCtx) (rest sofar : List UInt8) : Prop :=
  Tracks env s c rest sofar ∧ c.decodeState ≠ .dataError

/-- The status at the end of a run is right, but for the case of the empty block. -/
def DecodeEnd (env : StreamEnv) (s : List UInt8) (v : Result) (out : List UInt8) : Prop :=
  v = .ok ∧ Accepted env s out ∨ v = .badFormat ∧ (Rejected env s ∨ Stuck env s)

theorem decoder_keeps (env : StreamEnv) (s : List UInt8) :
    (lzfStreamDecoder env).Keeps (DecodeInv env s) (DecodeEnd env s) where
  process_ok := by
    intro c rest sofar n room ⟨h, _⟩ hok
    rw [← take_append_drop n rest] at h
    obtain ⟨io, hcall, hstop, hleft, hout⟩ := process_spec h room
    have hst : (lzfStreamDecompressProcess env c (rest.take n) room).status = .ok := hok
    rw [hst] at hstop
    simp only [lzfStreamDecoder, hleft, hout]
    exact ⟨hcall.1, hstop.not_dataError hcall.1.live⟩
  process_end := by
    intro c rest sofar n room ⟨h, _⟩ hne
    rw [← take_append_drop n rest] at h
    obtain ⟨io, hcall, hstop, -, -⟩ := process_spec h room
    obtain ⟨hbad, hrej⟩ := hstop.rejected hne hcall.1
    exact .inr ⟨hbad, .inl hrej⟩
  final_again := by
    intro c rest sofar room ⟨h, _⟩ hagain
    have hst : (lzfStreamDecompressFinal env c rest room).status = .bufferOverflow := hagain
    cases final_spec h room with
    | ok hst' | bad hst' | stuck hst' => rw [hst] at hst'; cases hst'
    | again _ htracks hne => exact ⟨htracks, hne⟩
  final_end := by
    intro c rest sofar room ⟨h, _⟩ hne
    cases final_spec h room with
    | ok hst hacc => exact .inl ⟨hst, hacc⟩
    | bad hst hrej => exact .inr ⟨hst, .inl hrej⟩
    | stuck hst hstuck => exact .inr ⟨hst, .inr hstuck⟩
    | again hst => exact absurd hst hne

theorem decoder_progress (env : StreamEnv) (s : List UInt8) :
    (lzfStreamDecoder env).Progress (DecodeInv env s) fun c => c.outBuf.length := by
  intro c rest sofar room ⟨h, _⟩ hagain
  have hst : (lzfStreamDecompressFinal env c rest room).status = .bufferOverflow := hagain
  cases final_spec h room with
  | ok hst' | bad hst' | stuck hst' => rw [hst] at hst'; cases hst'
  | again _ _ _ _ _ hprogress => exact hprogress

/-! ## How much plaintext there can be -/

theorem Block.read_length {b : Block} {p p' : Plain} (h : b.read env p = some p') :
    p'.outs.flatten.length ≤ p.outs.flatten.length + maxBlock ∧ 1 ≤ b.bytes.length := by
  cases b with
  | stored data =>
    simp only [Block.read] at h
    split at h
    next hle =>
      rw [← some.inj h]
      simpa [Block.bytes] using hle
    next => cases h
  | compressed data size =>
    simp only [Block.read] at h
    split at h
    next hle =>
      obtain ⟨out, hout, rfl⟩ := map_eq_some_iff.mp h
      have hlen : out.length = size := by
        unfold blockDecompress at hout
        split at hout
        next =>
          split at hout
          next hlen => rw [← some.inj hout, hlen]
          next => cases hout
        next => cases hout
      simpa [Block.bytes, hlen] using hle.2
    next => cases h
  | crc value =>
    simp only [Block.read] at h
    split at h
    next =>
      rw [← some.inj h]
      exact ⟨Nat.le_add_right .., by simp [Block.bytes]⟩
    next => cases h

theorem readBlocks_length {bs : List Block} {p : Plain} (h : readBlocks env bs = some p) :
    p.outs.flatten.length ≤ maxBlock * (bs.flatMap Block.bytes).length := by
  induction bs using List.reverseRecOn generalizing p with
  | nil =>
    cases h
    exact Nat.zero_le _
  | append_singleton bs b ih =>
    obtain ⟨p₀, hp, hb⟩ := readBlocks_append_eq_some h
    have hbs := ih hp
    obtain ⟨hlen, hbytes⟩ := Block.read_length hb
    have hmul : maxBlock * 1 ≤ maxBlock * b.bytes.length := Nat.mul_le_mul_left _ hbytes
    rw [flatMap_append, length_append, Nat.mul_add]
    simp only [flatMap_cons, flatMap_nil, append_nil]
    omega

/-- Room for the plaintext of any input as long as `s`. -/
def enoughRoom (s : List UInt8) : Nat := maxBlock * s.length

theorem steps_length (h : Parse.Steps env (Parse.start env s) p) :
    p.outs.flatten.length ≤ enoughRoom s := by
  obtain ⟨bs, hd, hbs, hs, -⟩ := Parsed.of_steps h
  refine le_trans (readBlocks_length hbs) (Nat.mul_le_mul_left _ ?_)
  rw [hs, length_append, length_append]
  omega

theorem not_exceeds_enoughRoom (hn : enoughRoom s ≤ n) : ¬ Exceeds env s n := by
  rintro ⟨p, hp, hlt⟩
  have := steps_length hp
  omega

/-! ## One call for all of the input -/

theorem final_of_accepted (h : Accepted env s out) (hroom : out.length ≤ room) :
    (lzfStreamDecompressFinal env (lzfStreamAlloc env) s room).status = .ok ∧
      (lzfStreamDecompressFinal env (lzfStreamAlloc env) s room).out = out := by
  have hno : ¬ Exceeds env s (([] : List UInt8).length + room) := fun hex => by
    have := h.lt_of_exceeds hex
    rw [length_nil] at this
    omega
  cases final_spec (tracks_alloc env s) room with
  | ok hst hacc => exact ⟨hst, hacc.unique h⟩
  | bad _ hrej => exact absurd hrej h.not_rejected
  | stuck _ _ hex => exact absurd hex hno
  | again _ htracks hne _ _ _ htight => exact absurd (htracks.exceeds hne htight) hno

theorem final_of_rejected (h : Rejected env s) (hroom : enoughRoom s ≤ room) :
    (lzfStreamDecompressFinal env (lzfStreamAlloc env) s room).status = .badFormat := by
  have hno : ¬ Exceeds env s (([] : List UInt8).length + room) :=
    not_exceeds_enoughRoom (by rw [length_nil]; omega)
  cases final_spec (tracks_alloc env s) room with
  | ok _ hacc => exact absurd h hacc.not_rejected
  | bad hst _ | stuck hst _ _ => exact hst
  | again _ htracks hne _ _ _ htight => exact absurd (htracks.exceeds hne htight) hno

/-- On the way from a data block to a place before another one, plaintext is added: that of
the block at least, and that of the last block at the end. -/
theorem Parse.Steps.lt_of_data {data b : List UInt8} (h : Parse.Steps env p ⟨d, data, outs⟩)
    (hp : p.dec.decodeState = .wantData) (hd : d.decodeState = .wantData)
    (hne : data.length < p.data.length) (hlast : outs.getLast? = some b) (hb : b ≠ []) :
    p.outs.flatten.length < outs.flatten.length := by
  rcases h.cases_head with heq | ⟨q, hq, hrest⟩
  · rw [heq] at hne
    exact absurd hne (lt_irrefl _)
  have hlong : ¬ p.data.length < p.dec.inCount := by
    intro hlt
    rw [Parse.next, if_pos hlt] at hq
    cases hq
  simp only [Parse.next, if_neg hlong, hp, some.injEq] at hq
  cases hdata : blockData env p.dec (p.data.take p.dec.inCount) with
  | none =>
    -- a block that cannot be decoded is the end
    have hend : q.next env = none := by
      rw [← hq]
      simp [Parse.next, dataDecode, hdata, setState]
    have heq := Parse.Steps.eq_of_next_none hrest hend
    have hst : d.decodeState = q.dec.decodeState := congrArg (fun p => p.dec.decodeState) heq
    rw [hd, ← hq] at hst
    simp [dataDecode, hdata, setState] at hst
  | some out =>
    obtain ⟨⟨more, hmore⟩, -⟩ := Parse.Steps.grows hrest
    rw [← hq, hdata] at hmore
    simp only [toList_some, append_assoc, singleton_append] at hmore
    have hmem : b ∈ out :: more := by
      rw [hmore, getLast?_append_of_ne_nil _ (cons_ne_nil out more)] at hlast
      exact mem_of_getLast? hlast
    have hpos : 0 < (out :: more).flatten.length := by
      rw [length_pos_iff, ne_eq, flatten_eq_nil_iff]
      exact fun hall => hb (hall b hmem)
    rw [hmore, flatten_append, length_append]
    omega

/-- In the case of the empty block there is a size of the output buffer that makes the
verdict wrong. -/
theorem final_of_stuck (h : Stuck env s) :
    ∃ room, (lzfStreamDecompressFinal env (lzfStreamAlloc env) s room).status = .badFormat := by
  obtain ⟨d', outs', hs', hst', hlast'⟩ := h.accepted
  obtain ⟨d, outs, b, hs, hst, ht, hcount, hlast, hb⟩ := h
  have hpos : 0 < outs.flatten.length := by
    rw [length_pos_iff, ne_eq, flatten_eq_nil_iff]
    exact fun hall => hb (hall b (mem_of_getLast? hlast))
  have hend' : Parse.next env ⟨d', [], outs'⟩ = none :=
    next_of_isEnd hs' (by rw [hst']; rfl)
  -- one byte less than there is plaintext
  refine ⟨outs.flatten.length - 1, ?_⟩
  have hverdict := final_spec (tracks_alloc env s) (outs.flatten.length - 1)
  generalize lzfStreamDecompressFinal env (lzfStreamAlloc env) s (outs.flatten.length - 1) = r
    at hverdict ⊢
  cases hverdict with
  | ok _ hacc hle =>
    have hout : Exceeds env s (outs.flatten.length - 1) := ⟨_, hs, by dsimp only; omega⟩
    have := hacc.lt_of_exceeds hout
    rw [nil_append] at this
    omega
  | bad hbad _ | stuck hbad _ _ => exact hbad
  | again _ htracks hne hbuf hplace _ htight =>
    exfalso
    obtain ⟨outs₂, hsteps, hout⟩ := htracks.steps
    obtain ⟨hflat, hlast₂⟩ := hout hne
    rcases hplace with ⟨hdata, hleft⟩ | ⟨hisEnd, hleft, hnil⟩
    · -- before another data block, when all of the plaintext is there
      have hmore : 0 < (r.ctx.inBuf ++ r.left).length :=
        length_pos_iff.mpr (append_ne_nil_of_right_ne_nil _ hleft)
      rcases hsteps.total hs with h | h
      · have hlt := h.lt_of_data hdata hst hmore hlast hb
        dsimp only at hlt
        rw [hflat, nil_append, length_append] at hlt
        omega
      · have hle := h.grows.2
        dsimp only at hle
        rw [length_nil] at hle
        omega
    · -- after the empty block, when the block before it is in the buffer
      rw [hnil, hleft] at hsteps
      have heq := hsteps.unique hs' (next_of_isEnd hsteps hisEnd) hend'
      obtain ⟨b₂, hb₂, hne₂⟩ := hlast₂ hbuf
      have houts : outs₂ = outs' := congrArg Parse.outs heq
      rw [houts, hlast', some.injEq] at hb₂
      exact hne₂ hb₂.symm

/-! ## Independence of the buffers -/

/-- The input consists of blocks; the last is an empty stored block, and the last data block
before it is not empty. -/
def EndsEmpty (env : StreamEnv) (s : List UInt8) : Prop :=
  ∃ bs p b, readBlocks env bs = some p ∧ p.outs.getLast? = some b ∧ b ≠ [] ∧
    s = bs.flatMap Block.bytes ++ (Block.stored []).bytes

theorem stuck_iff : Stuck env s ↔ EndsEmpty env s := by
  constructor
  · rintro ⟨d, outs, b, hs, hst, ht, hcount, hlast, hb⟩
    obtain ⟨bs, hd, hbs, hsplit, hhead⟩ := Parsed.of_steps hs
    simp only [Decoder.Header, hst, ht, hcount] at hhead
    refine ⟨bs, _, b, hbs, hlast, hb, ?_⟩
    rw [hsplit, hhead.1]
    simp [Block.bytes]
  · rintro ⟨bs, p, b, hbs, hlast, hb, rfl⟩
    obtain ⟨d, hd, hs⟩ := steps_of_reads hbs (Block.stored []).bytes
    refine ⟨⟨d.crc, .wantData, .stored, 0, 0⟩, p.outs, b, hs.trans ?_, rfl, rfl, rfl, hlast, hb⟩
    refine Parse.Steps.trans (steps_header hd 0 [0, 0] p.outs) (.single ?_)
    simp [Parse.next, headerDecode2, headerDecode3, setState, load16h]

/-- The verdict, and the output if it is `ISRCRY_OK`, are those of one call for all of the
input, with room for the output, however the calls are made; and a caller that repeats the
last call, with room for some output each time, gets a verdict. -/
def Independent (env : StreamEnv) (s : List UInt8) : Prop :=
  ∀ room, enoughRoom s ≤ room → ∀ calls rooms,
    (∀ v, (lzfStreamDecoder env).run rooms calls (lzfStreamAlloc env) s [] = some v →
      v.1 = (lzfStreamDecompressFinal env (lzfStreamAlloc env) s room).status ∧
      (v.1 = .ok → v.2 = (lzfStreamDecompressFinal env (lzfStreamAlloc env) s room).out)) ∧
    (2 * enoughRoom s < rooms.countP (0 < ·) →
      ((lzfStreamDecoder env).run rooms calls (lzfStreamAlloc env) s []).isSome)

theorem decodeInv_alloc (env : StreamEnv) (s : List UInt8) :
    DecodeInv env s (lzfStreamAlloc env) s [] :=
  ⟨tracks_alloc env s, nofun⟩

theorem decodeInv_length {c : StreamCtx} {rest : List UInt8} (h : DecodeInv env s c rest sofar) :
    sofar.length + c.outBuf.length ≤ enoughRoom s := by
  obtain ⟨outs, hsteps, hout⟩ := h.1.steps
  have hlen : outs.flatten.length ≤ enoughRoom s := steps_length hsteps
  rw [(hout h.2).1, length_append] at hlen
  exact hlen

/-- The decoder is independent of the buffers exactly for the inputs that do not end with an
empty stored block after a data block that is not empty. -/
theorem decode_independent_iff (env : StreamEnv) (s : List UInt8) :
    Independent env s ↔ ¬ EndsEmpty env s := by
  rw [← stuck_iff]
  constructor
  · intro hind hstuck
    obtain ⟨room, hbad⟩ := final_of_stuck hstuck
    have hrun : (lzfStreamDecoder env).run [room] [] (lzfStreamAlloc env) s []
        = some (.badFormat,
          [] ++ (lzfStreamDecompressFinal env (lzfStreamAlloc env) s room).out) := by
      simp [Filter.run, Filter.finish, lzfStreamDecoder, hbad]
    obtain ⟨hsame, -⟩ := (hind _ (le_refl _) [] [room]).1 _ hrun
    obtain ⟨d, outs, hs, hst, -⟩ := hstuck.accepted
    have hacc : Accepted env s outs.flatten := ⟨d, outs, hs, by rw [hst]; rfl, rfl⟩
    rw [(final_of_accepted hacc (steps_length hs)).1] at hsame
    cases hsame
  · intro hno room hroom calls rooms
    refine ⟨fun v hv => ?_, fun hcount => ?_⟩
    · rcases (decoder_keeps env s).run (decodeInv_alloc env s) hv with ⟨hok, hacc⟩ | ⟨hbad, hrej⟩
      · have hlen : v.2.length ≤ room := by
          obtain ⟨d, outs, hs, -, hout⟩ := hacc
          have := steps_length hs
          dsimp only at this
          rw [hout] at this
          omega
        obtain ⟨hst, hout⟩ := final_of_accepted hacc hlen
        exact ⟨hok.trans hst.symm, fun _ => hout.symm⟩
      · have hrej := hrej.resolve_right hno
        refine ⟨hbad.trans (final_of_rejected hrej hroom).symm, fun hok => ?_⟩
        rw [hbad] at hok
        cases hok
    · rw [isSome_iff_ne_none]
      intro hnone
      have := (decoder_keeps env s).countP_le (decoder_progress env s) decodeInv_length
        (decodeInv_alloc env s) hnone
      omega

/-- A bit goes out of the CRC-32 at the low end. -/
def crcShift (crc : UInt32) : UInt32 :=
  if crc &&& 1 = 1 then (crc >>> 1) ^^^ 0xEDB88320 else crc >>> 1

/-- The CRC-32 of zlib, continued from `crc`. -/
def crc32 (crc : UInt32) (data : List UInt8) : UInt32 :=
  ~~~ data.foldl (fun crc b => Nat.iterate crcShift 8 (crc ^^^ b.toUInt32)) (~~~ crc)

/-- An environment for examples: the real CRC, and zeros where the memory is not written. -/
def plainEnv : StreamEnv where
  crc32 := crc32
  crc32Init := 0
  base := fun _ => 1
  htab := fun _ _ => 0
  beyond := 0
  junk := fun n => replicate n 0
  junk_length := fun _ => length_replicate

/-- A stored block with one byte and an empty one. -/
def endsEmptyStream : List UInt8 := [0x5A, 0x56, 0, 0, 1, 0x41, 0x5A, 0x56, 0, 0, 0]

/-- With room for the byte the stream is good, without it is called bad. -/
theorem decode_depends_on_room :
    (lzfStreamDecoder plainEnv).run [1] [(11, 0)] (lzfStreamAlloc plainEnv) endsEmptyStream []
        = some (.ok, [0x41]) ∧
      (lzfStreamDecoder plainEnv).run [0] [] (lzfStreamAlloc plainEnv) endsEmptyStream []
        = some (.badFormat, []) ∧
      ¬ Independent plainEnv endsEmptyStream := by
  have hbad : (lzfStreamDecoder plainEnv).run [0] [] (lzfStreamAlloc plainEnv) endsEmptyStream []
      = some (.badFormat, []) := by decide +kernel
  have hok : (lzfStreamDecompressFinal plainEnv (lzfStreamAlloc plainEnv) endsEmptyStream
      (enoughRoom endsEmptyStream)).status = .ok := by decide +kernel
  refine ⟨by decide +kernel, hbad, fun hind => ?_⟩
  obtain ⟨hsame, -⟩ := (hind _ (le_refl _) [] [0]).1 _ hbad
  rw [hok] at hsame
  cases hsame

end OpenIsr.Crypto
