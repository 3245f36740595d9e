import OpenIsr.Crypto.LzfStreamDecode

/-!
# The stream encoder and its buffers

What the encoder has to write is determined by the plaintext: the blocks of `MAX_BLOCK` bytes,
one by one, the rest, and the trailer (`streamBlocks`). `EncodeInv` is what holds between
calls, in whatever pieces the input comes and the output goes: the output so far, what is
buffered of it, and the blocks of the input that has not been encoded, are that stream.

`stream_encode` has the consequences: the output does not depend on the calls, and the
decoder gives the plaintext back.
-/

namespace OpenIsr.Crypto

open List
open Base (Reply Filter forever forever_rule)

/-! ## The stream for a plaintext -/

/-- The block for some data. -/
def encodeBlock (env : StreamEnv) (data : List UInt8) : Block :=
  match lzfDoCompress (mem data) data.length maxBlock (env.base data) (env.htab data) with
  | .error _ => .stored data
  | .ok out => .compressed out data.length

/-- The blocks for the plaintext `data` when that before it has the CRC `crc`. -/
def streamBlocks (env : StreamEnv) (crc : UInt32) (data : List UInt8) : List Block :=
  if data = [] then [.crc crc]
  else
    encodeBlock env (data.take maxBlock) ::
      streamBlocks env (env.crc32 crc (data.take maxBlock)) (data.drop maxBlock)
termination_by data.length
decreasing_by
  rename_i hne
  have hpos := length_pos_iff.mpr hne
  rw [length_drop, maxBlock]
  omega

/-- The stream for a plaintext. -/
def streamBytes (env : StreamEnv) (crc : UInt32) (data : List UInt8) : List UInt8 :=
  (streamBlocks env crc data).flatMap Block.bytes

variable {env : StreamEnv} {plain data rest sofar : List UInt8} {io : Io}

theorem streamBytes_nil (crc : UInt32) :
    streamBytes env crc [] = [0x5A, 0x56, 0x30] ++ store32h crc := by
  rw [streamBytes, streamBlocks, if_pos rfl]
  simp [Block.bytes]

theorem streamBytes_cons {crc : UInt32} (h : data ≠ []) :
    streamBytes env crc data = (encodeBlock env (data.take maxBlock)).bytes ++
      streamBytes env (env.crc32 crc (data.take maxBlock)) (data.drop maxBlock) := by
  rw [streamBytes, streamBlocks, if_neg h, flatMap_cons]
  rfl

theorem read_encodeBlock (hlen : data.length ≤ maxBlock) (p : Plain) :
    (encodeBlock env data).read env p = some ⟨env.crc32 p.crc data, p.outs ++ [data]⟩ := by
  unfold encodeBlock
  split
  next => rw [Block.read, if_pos hlen]
  next out hout =>
    have hlzf : lzfCompress (mem data) data.length maxBlock (env.base data) (env.htab data)
        = some out := by
      unfold lzfDoCompress at hout
      split at hout
      next => cases hout
      split at hout
      next hsome => rw [hsome, Except.ok.inj hout]
      next => cases hout
    have hback := lzfDecompress_lzfCompress hlzf env.beyond (le_refl data.length)
    rw [pre_mem] at hback
    have hshort : data.length < 2 ^ 31 := by
      unfold maxBlock at hlen
      omega
    have hint : Base.toInt data.length = data.length := if_pos hshort
    have hpos : ¬ (data.length : Int) < 0 := by omega
    have hdata : blockDecompress env out data.length = some data := by
      simp [blockDecompress, lzfDoDecompress, hback, hint, hpos]
    rw [Block.read, if_pos ⟨lzfCompress_length hlzf, hlen⟩, hdata]
    rfl

theorem read_streamBlocks (env : StreamEnv) (data : List UInt8) (p : Plain) :
    ∃ crc pieces, (streamBlocks env p.crc data).foldlM (Block.read env) p
      = some ⟨crc, p.outs ++ pieces⟩ ∧ pieces.flatten = data := by
  induction hn : data.length using Nat.strongRecOn generalizing data p with
  | ind n ih =>
    rw [streamBlocks]
    split
    next hnil =>
      refine ⟨p.crc, [], ?_, hnil.symm⟩
      simp [Block.read]
    next hne =>
      have hpos := length_pos_iff.mpr hne
      have htake : (data.take maxBlock).length ≤ maxBlock := length_take_le ..
      obtain ⟨crc, pieces, hread, hflat⟩ :=
        ih (data.drop maxBlock).length (by rw [length_drop, maxBlock]; omega)
          (data.drop maxBlock)
          ⟨env.crc32 p.crc (data.take maxBlock), p.outs ++ [data.take maxBlock]⟩ rfl
      refine ⟨crc, data.take maxBlock :: pieces, ?_, ?_⟩
      · rw [foldlM_cons, read_encodeBlock htake]
        simpa using hread
      · rw [flatten_cons, hflat, take_append_drop]

theorem accepted_streamBytes (env : StreamEnv) (plain : List UInt8) :
    Accepted env (streamBytes env env.crc32Init plain) plain := by
  obtain ⟨crc, pieces, hread, hflat⟩ := read_streamBlocks env plain ⟨env.crc32Init, []⟩
  have hread' : readBlocks env (streamBlocks env env.crc32Init plain) = some ⟨crc, pieces⟩ := hread
  obtain ⟨d, hd, hsteps⟩ := steps_of_reads hread' []
  rw [append_nil] at hsteps
  exact ⟨d, pieces, hsteps, by rw [hd.state]; rfl, hflat⟩

/-! ## One block -/

section block

variable {c : StreamCtx} {later buf : List UInt8} {room held : Nat}

theorem dataEncode_spec (env : StreamEnv) (h : c.outBuf = []) (io : Io) (data : List UInt8) :
    ∃ buf io', dataEncode env c io data
        = ({ c with crc := env.crc32 c.crc data, outBuf := buf }, io') ∧ io'.inp = io.inp ∧
      io'.written ++ buf = io.written ++ (encodeBlock env data).bytes ∧
      ∀ {room held}, Flow room held [] io → Flow room held buf io' := by
  cases hc : lzfDoCompress (mem data) data.length maxBlock (env.base data) (env.htab data) with
  | error e =>
    simp only [dataEncode, encodeBlock, hc]
    obtain ⟨buf, io', hput, hinp, hwritten, -, hflow⟩ :=
      putOutput_spec (c := { c with crc := env.crc32 c.crc data }) h io
        ([0x5A, 0x56, 0] ++ store16h data.length ++ data)
    exact ⟨buf, io', hput, hinp, hwritten, hflow⟩
  | ok out =>
    simp only [dataEncode, encodeBlock, hc]
    obtain ⟨buf, io', heq, hinp, hwritten, -⟩ :=
      produceOutput_spec { c with
        crc := env.crc32 c.crc data
        outBuf := [0x5A, 0x56, 1] ++ store16h out.length ++ store16h data.length ++ out } io
    exact ⟨buf, io', heq, hinp, hwritten, fun hf => hf.through heq⟩

/-- The encoder waits for input, and the input buffer is not full. -/
structure StreamCtx.Filling (c : StreamCtx) : Prop where
  state : c.decodeState = .wantHeader1
  inBuf : c.inBuf.length < maxBlock

/-- One iteration: it stops when there is something in the buffer or all of the input is used;
otherwise there is one block less. -/
theorem compressBody_going (env : StreamEnv) {inp : List UInt8}
    (h : Going StreamCtx.Filling inp buf room held (c, io)) :
    (∃ r t, compressBody env (c, io) = (some r, t) ∧
      Going StreamCtx.Filling inp buf room held t ∧ (t.1.outBuf ≠ [] ∨ t.2.inp = [])) ∨
    ∃ t, compressBody env (c, io) = (none, t) ∧ Going StreamCtx.Filling inp buf room held t ∧
      t.2.inp.length < io.inp.length := by
  have hfill : c.Filling := h.ctx
  have hf : Flow room held c.outBuf io := h.flow
  by_cases hbuf : c.outBuf = []
  swap
  · refine .inl ⟨.ok, _, ?_, h, .inl hbuf⟩
    simp only [compressBody, if_pos (outputDataIsBuffered_iff.mpr hbuf)]
  have hno : outputDataIsBuffered c = false := by simp [outputDataIsBuffered, hbuf]
  have hle : ({ c with inCount := maxBlock } : StreamCtx).inBuf.length
      ≤ ({ c with inCount := maxBlock } : StreamCtx).inCount := le_of_lt hfill.inBuf
  simp only [compressBody, hno, Bool.false_eq_true, if_false, consumeInput_eq hle]
  by_cases hfull : maxBlock ≤ (c.inBuf ++ io.inp).length
  · rw [if_pos hfull]
    obtain ⟨buf', io', heq, hinp, -, hflow⟩ :=
      dataEncode_spec env (c := { c with inCount := maxBlock, inBuf := [] }) hbuf
        { io with inp := (c.inBuf ++ io.inp).drop maxBlock } ((c.inBuf ++ io.inp).take maxBlock)
    have hdrop : io'.inp = io.inp.drop (maxBlock - c.inBuf.length) := by
      rw [hinp, drop_append, drop_of_length_le (le_of_lt hfill.inBuf), nil_append]
    have hlt : io'.inp.length < io.inp.length := by
      have := hfill.inBuf
      rw [length_append] at hfull
      rw [hdrop, length_drop]
      omega
    obtain ⟨hsuffix, hne⟩ := h.used (hdrop ▸ drop_suffix _ _) hlt
    rw [hbuf] at hf
    exact .inr ⟨_, congrArg (Prod.mk none) heq,
      ⟨⟨hfill.state, Nat.zero_lt_succ _⟩, hflow ⟨hf.total, hf.tight, hf.moved⟩, hsuffix,
        fun hsame => absurd hsame hne⟩, hlt⟩
  · rw [if_neg hfull]
    refine .inl ⟨_, _, rfl, ⟨⟨hfill.state, Nat.lt_of_not_le hfull⟩,
      ⟨hf.total, hf.tight, hf.moved⟩, nil_suffix, fun hnil => h.idle ?_⟩, .inr rfl⟩
    have hsuffix := h.suffix
    rw [← hnil] at hsuffix ⊢
    exact suffix_nil.mp hsuffix

/-- What holds between calls. -/
structure EncodeInv (env : StreamEnv) (plain : List UInt8) (c : StreamCtx)
    (rest sofar : List UInt8) : Prop where
  state : c.decodeState = .wantHeader1
  inBuf : c.inBuf.length < maxBlock
  trailer : c.wroteTrailer = true → c.inBuf = [] ∧ rest = []
  out : sofar ++ c.outBuf ++
      (if c.wroteTrailer then [] else streamBytes env c.crc (c.inBuf ++ rest))
    = streamBytes env env.crc32Init plain

/-- The same inside a call; `later` is the input after what was offered. -/
def InEncode (env : StreamEnv) (plain later sofar : List UInt8) (room held : Nat)
    (t : StreamCtx × Io) : Prop :=
  EncodeInv env plain t.1 (t.2.inp ++ later) (sofar ++ t.2.written) ∧ Flow room held t.1.outBuf t.2

theorem EncodeInv.encode {data left written written' : List UInt8}
    (h : EncodeInv env plain c rest (sofar ++ written)) (hbuf : c.outBuf = [])
    (hsplit : c.inBuf ++ rest = data ++ left) (hne : data ≠ [])
    (hdata : data = (data ++ left).take maxBlock) (n : Nat)
    (hwritten : written' ++ buf = written ++ (encodeBlock env data).bytes) :
    EncodeInv env plain
      { c with inCount := n, inBuf := [], crc := env.crc32 c.crc data, outBuf := buf } left
      (sofar ++ written') := by
  have hne' : c.inBuf ++ rest ≠ [] := by
    rw [hsplit]
    exact append_ne_nil_of_left_ne_nil hne _
  have htrailer : c.wroteTrailer = false := by
    rw [← Bool.not_eq_true]
    intro ht
    obtain ⟨hnil, hrest⟩ := h.trailer ht
    rw [hnil, hrest] at hne'
    exact hne' rfl
  have hdrop : (data ++ left).drop maxBlock = left := by
    have := take_append_drop maxBlock (data ++ left)
    rw [← hdata] at this
    exact append_cancel_left this
  refine ⟨h.state, Nat.zero_lt_succ _, fun ht => ?_, ?_⟩
  · exact absurd (htrailer.symm.trans ht) nofun
  · have hout := h.out
    simp only [htrailer, Bool.false_eq_true, if_false, hbuf, append_nil] at hout ⊢
    rw [streamBytes_cons hne', hsplit, ← hdata, hdrop] at hout
    rw [← hout, append_assoc sofar, hwritten]
    simp

theorem EncodeInv.filling (h : EncodeInv env plain c rest sofar) : c.Filling :=
  ⟨h.state, h.inBuf⟩

theorem EncodeInv.body (h : EncodeInv env plain c (io.inp ++ later) (sofar ++ io.written)) :
    EncodeInv env plain (compressBody env (c, io)).2.1
      ((compressBody env (c, io)).2.2.inp ++ later)
      (sofar ++ (compressBody env (c, io)).2.2.written) := by
  by_cases hbuf : c.outBuf = []
  swap
  · simp only [compressBody, if_pos (outputDataIsBuffered_iff.mpr hbuf)]
    exact h
  have hno : outputDataIsBuffered c = false := by simp [outputDataIsBuffered, hbuf]
  have hle : ({ c with inCount := maxBlock } : StreamCtx).inBuf.length
      ≤ ({ c with inCount := maxBlock } : StreamCtx).inCount := le_of_lt h.inBuf
  simp only [compressBody, hno, Bool.false_eq_true, if_false, consumeInput_eq hle]
  by_cases hfull : maxBlock ≤ (c.inBuf ++ io.inp).length
  · rw [if_pos hfull]
    obtain ⟨buf, io', heq, hinp, hwritten, -⟩ :=
      dataEncode_spec env (c := { c with inCount := maxBlock, inBuf := [] }) hbuf
        { io with inp := (c.inBuf ++ io.inp).drop maxBlock } ((c.inBuf ++ io.inp).take maxBlock)
    have hlen : ((c.inBuf ++ io.inp).take maxBlock).length = maxBlock :=
      length_take_of_le hfull
    dsimp only
    rw [heq, hinp]
    refine h.encode hbuf ?_ ?_ ?_ _ hwritten
    · rw [← append_assoc, ← append_assoc, take_append_drop]
    · rw [← length_pos_iff, hlen]
      exact Nat.zero_lt_succ _
    · rw [take_append_of_le_length (le_of_eq hlen.symm), take_of_length_le
        (le_of_eq hlen)]
  · rw [if_neg hfull]
    refine ⟨h.state, Nat.lt_of_not_le hfull, fun ht => ?_, ?_⟩
    · obtain ⟨hnil, hrest⟩ := h.trailer ht
      obtain ⟨hinp, hlater⟩ := append_eq_nil_iff.mp hrest
      exact ⟨by rw [hnil, hinp]; rfl, by rw [hlater]; rfl⟩
    · have hout := h.out
      dsimp only
      rw [nil_append, append_assoc c.inBuf]
      exact hout

theorem compressBody_spec (h : InEncode env plain later sofar room held (c, io)) :
    (∃ r t, compressBody env (c, io) = (some r, t) ∧ InEncode env plain later sofar room held t ∧
      (t.1.outBuf ≠ [] ∨ t.2.inp = [])) ∨
    ∃ t, compressBody env (c, io) = (none, t) ∧ InEncode env plain later sofar room held t ∧
      t.2.inp.length < io.inp.length := by
  have hbody := EncodeInv.body h.1
  have hgoing : Going StreamCtx.Filling io.inp c.outBuf room held (c, io) :=
    ⟨h.1.filling, h.2, suffix_refl _, fun _ => .inl rfl⟩
  rcases compressBody_going env hgoing with ⟨r, t, heq, ht, hstop⟩ | ⟨t, heq, ht, hlt⟩
  · rw [heq] at hbody
    exact .inl ⟨r, t, heq, ⟨hbody, ht.flow⟩, hstop⟩
  · rw [heq] at hbody
    exact .inr ⟨t, heq, ⟨hbody, ht.flow⟩, hlt⟩

end block

/-! ## One call -/

section call

variable {c : StreamCtx} {inp later : List UInt8} {room held : Nat}

theorem compressProcess_spec (h : EncodeInv env plain c (inp ++ later) sofar) (room : Nat) :
    ∃ io, InEncode env plain later sofar room c.outBuf.length
        ((lzfStreamCompressProcess env c inp room).ctx, io) ∧
      ((lzfStreamCompressProcess env c inp room).ctx.outBuf ≠ [] ∨ io.inp = []) ∧
      (lzfStreamCompressProcess env c inp room).left = io.inp ∧
      (lzfStreamCompressProcess env c inp room).out = io.written := by
  obtain ⟨buf, io, heq, hinp, hout, -, hf⟩ := Flow.start c inp room
  have hstart : InEncode env plain later sofar room c.outBuf.length
      ({ c with outBuf := buf }, io) := by
    refine ⟨⟨h.state, h.inBuf, ?_, ?_⟩, hf⟩
    · dsimp only
      rw [hinp]
      exact h.trailer
    · dsimp only
      rw [hinp, append_assoc sofar, hout]
      exact h.out
  have hrun := forever_rule (f := compressBody env) (d := .ok) (n := inp.length + 1)
    (P := fun _ t => InEncode env plain later sofar room c.outBuf.length t ∧
      (t.1.outBuf ≠ [] ∨ t.2.inp = []))
    (m := fun t => t.2.inp.length) (fun _ ht => compressBody_spec ht) hstart ?_
  · simp only [lzfStreamCompressProcess, heq]
    exact ⟨_, hrun.1, hrun.2, rfl, rfl⟩
  · simp only [hinp]
    exact Nat.lt_succ_self _

theorem InEncode.lastBlock (h : InEncode env plain [] sofar room held (c, io))
    (hinp : io.inp = []) (hbuf : c.outBuf = []) :
    ∃ t, (if inputDataPending c then
        ({ (dataEncode env c io c.inBuf).1 with inBuf := [] }, (dataEncode env c io c.inBuf).2)
      else (c, io)) = t ∧ InEncode env plain [] sofar room held t ∧ t.1.inBuf = [] ∧
      t.2.inp = [] := by
  have hinv : EncodeInv env plain c (io.inp ++ []) (sofar ++ io.written) := h.1
  have hf : Flow room held c.outBuf io := h.2
  refine ⟨_, rfl, ?_⟩
  by_cases hnil : c.inBuf = []
  · have hpend : inputDataPending c = false := by
      simp [inputDataPending, hinv.state, hnil]
    rw [hpend, if_neg Bool.false_ne_true]
    exact ⟨h, hnil, hinp⟩
  · have hpend : inputDataPending c = true := by
      simp [inputDataPending, hinv.state, hnil]
    obtain ⟨buf, io', heq, hinp', hwritten, hflow⟩ := dataEncode_spec env hbuf io c.inBuf
    rw [hpend, if_pos rfl, heq]
    rw [hinp, append_nil] at hinv
    rw [hbuf] at hf
    refine ⟨⟨?_, hflow hf⟩, rfl, hinp'.trans hinp⟩
    dsimp only
    rw [hinp', hinp, append_nil]
    refine hinv.encode hbuf rfl hnil ?_ c.inCount hwritten
    rw [append_nil, take_of_length_le (le_of_lt hinv.inBuf)]

theorem InEncode.trailer (h : InEncode env plain [] sofar room held (c, io)) (hinp : io.inp = [])
    (hnil : c.inBuf = []) (hbuf : c.outBuf = []) :
    ∃ t, (if !c.wroteTrailer then
        ({ (putOutput c io ([0x5A, 0x56, 0x30] ++ store32h c.crc)).1 with wroteTrailer := true },
          (putOutput c io ([0x5A, 0x56, 0x30] ++ store32h c.crc)).2)
      else (c, io)) = t ∧ InEncode env plain [] sofar room held t ∧ t.1.wroteTrailer = true ∧
      t.2.inp = [] := by
  have hinv : EncodeInv env plain c (io.inp ++ []) (sofar ++ io.written) := h.1
  have hf : Flow room held c.outBuf io := h.2
  refine ⟨_, rfl, ?_⟩
  cases htrailer : c.wroteTrailer with
  | true =>
    rw [if_neg (by decide)]
    exact ⟨h, htrailer, hinp⟩
  | false =>
    obtain ⟨buf, io', heq, hinp', hwritten, -, hflow⟩ :=
      putOutput_spec hbuf io ([0x5A, 0x56, 0x30] ++ store32h c.crc)
    rw [if_pos (by decide), heq]
    rw [hbuf] at hf
    refine ⟨⟨⟨hinv.state, hinv.inBuf, fun _ => ⟨hnil, ?_⟩, ?_⟩, hflow hf⟩, rfl, hinp'.trans hinp⟩
    · dsimp only
      rw [hinp', hinp]
      rfl
    · have hout := hinv.out
      rw [htrailer, hbuf, hnil, hinp] at hout
      simp only [Bool.false_eq_true, if_false, append_nil, streamBytes_nil] at hout
      dsimp only
      rw [if_pos rfl, append_nil, append_assoc, hwritten, ← append_assoc]
      exact hout

/-- What the reply `r` to a call of `lzf_stream_compress_final` means. -/
inductive Encoding (env : StreamEnv) (plain : List UInt8) (c : StreamCtx) (sofar : List UInt8)
    (room : Nat) (r : Reply Result StreamCtx UInt8) : Prop
  | ok (status : r.status = .ok)
      (out : sofar ++ r.out = streamBytes env env.crc32Init plain)
  | again (status : r.status = .bufferOverflow)
      (inv : EncodeInv env plain r.ctx r.left (sofar ++ r.out))
      (progress : c.outBuf.length + (if 0 < room then 1 else 0)
        ≤ r.ctx.outBuf.length + 2 * r.out.length)
      (tight : room < r.out.length + r.ctx.outBuf.length)

theorem InEncode.again {c₀ : StreamCtx}
    (h : InEncode env plain [] sofar room c₀.outBuf.length (c, io)) (hbuf : c.outBuf ≠ []) :
    Encoding env plain c₀ sofar room ⟨.bufferOverflow, c, io.inp, io.written⟩ := by
  have hinv : EncodeInv env plain c (io.inp ++ []) (sofar ++ io.written) := h.1
  rw [append_nil] at hinv
  exact .again rfl hinv (h.2.progress hbuf) (h.2.tight_total hbuf)

theorem compressFinal_spec (h : EncodeInv env plain c rest sofar) (room : Nat) :
    Encoding env plain c sofar room (lzfStreamCompressFinal env c rest room) := by
  rw [← append_nil rest] at h
  obtain ⟨io, hcall, hstop, hleft, hout⟩ := compressProcess_spec h room
  unfold lzfStreamCompressFinal
  have hstatus : (lzfStreamCompressProcess env c rest room).status = .ok := rfl
  generalize lzfStreamCompressProcess env c rest room = r at hcall hstop hleft hout hstatus ⊢
  obtain ⟨status, c₁, left, out⟩ := r
  dsimp only at hcall hstop hleft hout hstatus ⊢
  subst hleft hout hstatus
  have hio : (⟨io.inp, room - io.written.length, io.written⟩ : Io) = io := by
    have htotal : io.written.length + io.room = room := hcall.2.total
    rw [← htotal, Nat.add_sub_cancel_left]
  by_cases hbuf : c₁.outBuf = []
  swap
  · rw [if_pos (outputDataIsBuffered_iff.mpr hbuf)]
    exact hcall.again hbuf
  rw [if_neg (by simp [outputDataIsBuffered, hbuf]), hio]
  have hinp : io.inp = [] := hstop.resolve_left (not_not.mpr hbuf)
  obtain ⟨⟨c₂, io₂⟩, heq₂, hcall₂, hnil₂, hinp₂⟩ := hcall.lastBlock hinp hbuf
  simp only [heq₂]
  by_cases hbuf₂ : c₂.outBuf = []
  swap
  · rw [if_pos (outputDataIsBuffered_iff.mpr hbuf₂)]
    exact hcall₂.again hbuf₂
  rw [if_neg (by simp [outputDataIsBuffered, hbuf₂])]
  obtain ⟨⟨c₃, io₃⟩, heq₃, hcall₃, htrailer₃, hinp₃⟩ := hcall₂.trailer hinp₂ hnil₂ hbuf₂
  simp only [heq₃]
  by_cases hbuf₃ : c₃.outBuf = []
  swap
  · rw [if_pos (outputDataIsBuffered_iff.mpr hbuf₃)]
    exact hcall₃.again hbuf₃
  rw [if_neg (by simp [outputDataIsBuffered, hbuf₃])]
  have hall : sofar ++ io₃.written ++ c₃.outBuf
      ++ (if c₃.wroteTrailer then [] else streamBytes env c₃.crc (c₃.inBuf ++ (io₃.inp ++ [])))
      = streamBytes env env.crc32Init plain := hcall₃.1.out
  rw [show c₃.wroteTrailer = true from htrailer₃, if_pos rfl, hbuf₃, append_nil, append_nil] at hall
  exact .ok rfl hall

end call

/-! ## Calls get on -/

section live

variable {c : StreamCtx}

theorem filling_alloc (env : StreamEnv) : (lzfStreamAlloc env).Filling :=
  ⟨rfl, Nat.zero_lt_succ _⟩

theorem compressProcess_going (env : StreamEnv) (h : c.Filling) (inp : List UInt8) (room : Nat) :
    ∃ io, Going StreamCtx.Filling inp (c.outBuf.drop room) room c.outBuf.length
        ((lzfStreamCompressProcess env c inp room).ctx, io) ∧
      ((lzfStreamCompressProcess env c inp room).ctx.outBuf ≠ [] ∨ io.inp = []) ∧
      (lzfStreamCompressProcess env c inp room).left = io.inp ∧
      (lzfStreamCompressProcess env c inp room).out = io.written := by
  have hfill : StreamCtx.Filling { c with outBuf := c.outBuf.drop room } := ⟨h.state, h.inBuf⟩
  obtain ⟨io, heq, hinp, hstart⟩ := Going.start hfill inp
  have hrun := forever_rule (f := compressBody env) (d := .ok) (n := inp.length + 1)
    (P := fun _ t => Going StreamCtx.Filling inp (c.outBuf.drop room) room c.outBuf.length t ∧
      (t.1.outBuf ≠ [] ∨ t.2.inp = []))
    (m := fun t => t.2.inp.length) (fun _ ht => compressBody_going env ht) hstart ?_
  · simp only [lzfStreamCompressProcess, heq]
    exact ⟨_, hrun.1, hrun.2, rfl, rfl⟩
  · simp only [hinp]
    exact Nat.lt_succ_self _

theorem compressProcess_nil (env : StreamEnv) (h : c.Filling) (room : Nat) :
    ∃ n, (lzfStreamCompressProcess env c [] room).ctx
      = { c with inCount := n, outBuf := c.outBuf.drop room } := by
  have hfill : StreamCtx.Filling { c with outBuf := c.outBuf.drop room } := ⟨h.state, h.inBuf⟩
  obtain ⟨io, heq, hinp, -⟩ := Going.start hfill []
  simp only [lzfStreamCompressProcess, heq, length_nil, forever]
  by_cases hbuf : c.outBuf.drop room = []
  · have hle : c.inBuf.length ≤ maxBlock := le_of_lt h.inBuf
    have hnot : ¬ maxBlock ≤ c.inBuf.length := not_le.mpr h.inBuf
    refine ⟨maxBlock, ?_⟩
    simp [compressBody, outputDataIsBuffered, hbuf, hinp, consumeInput_eq, hle, hnot]
  · refine ⟨c.inCount, ?_⟩
    simp [compressBody, outputDataIsBuffered, hbuf]

/-- What there is to do after the input: the last block and the trailer. -/
def StreamCtx.toDo (c : StreamCtx) : Nat :=
  (if c.inBuf = [] then 0 else 1) + if c.wroteTrailer then 0 else 1

theorem StreamCtx.Filling.lastBlock (h : c.Filling) (env : StreamEnv) (hbuf : c.outBuf = [])
    (io : Io) :
    ∃ c' io', (if inputDataPending c then
        ({ (dataEncode env c io c.inBuf).1 with inBuf := [] }, (dataEncode env c io c.inBuf).2)
      else (c, io)) = (c', io') ∧ c'.Filling ∧ c'.inBuf = [] ∧ c'.wroteTrailer = c.wroteTrailer ∧
      (c.inBuf = [] → c'.outBuf = []) := by
  have hpend : inputDataPending c = decide (c.inBuf ≠ []) := by simp [inputDataPending, h.state]
  by_cases hnil : c.inBuf = []
  · refine ⟨c, io, ?_, h, hnil, rfl, fun _ => hbuf⟩
    simp [hpend, hnil]
  · obtain ⟨buf, io', heq, -⟩ := dataEncode_spec env hbuf io c.inBuf
    refine ⟨{ c with crc := env.crc32 c.crc c.inBuf, inBuf := [], outBuf := buf }, io', ?_,
      ⟨h.state, Nat.zero_lt_succ _⟩, rfl, rfl, fun h => absurd h hnil⟩
    simp only [hpend, hnil, ne_eq, not_false_eq_true, decide_true, if_true, heq]

theorem StreamCtx.Filling.trailer (h : c.Filling) (hbuf : c.outBuf = []) (io : Io) :
    ∃ c' io', (if !c.wroteTrailer then
        ({ (putOutput c io ([0x5A, 0x56, 0x30] ++ store32h c.crc)).1 with wroteTrailer := true },
          (putOutput c io ([0x5A, 0x56, 0x30] ++ store32h c.crc)).2)
      else (c, io)) = (c', io') ∧ c'.Filling ∧ c'.inBuf = c.inBuf ∧ c'.wroteTrailer = true ∧
      (c.wroteTrailer = true → c'.outBuf = []) := by
  cases htrailer : c.wroteTrailer with
  | true =>
    refine ⟨c, io, if_neg (by decide), h, rfl, htrailer, fun _ => hbuf⟩
  | false =>
    obtain ⟨buf, io', heq, -⟩ := putOutput_spec hbuf io ([0x5A, 0x56, 0x30] ++ store32h c.crc)
    refine ⟨{ c with outBuf := buf, wroteTrailer := true }, io', ?_, ⟨h.state, h.inBuf⟩, rfl, rfl,
      nofun⟩
    rw [if_pos (by decide), heq]

/-- `lzf_stream_compress_final` stops at what the buffer holds, or encodes what is left; it stops
there only if there was something to do. -/
theorem compressFinal_cases (env : StreamEnv) (h : c.Filling) (inp : List UInt8) (room : Nat) :
    ((lzfStreamCompressFinal env c inp room).ctx = (lzfStreamCompressProcess env c inp room).ctx ∧
      (lzfStreamCompressProcess env c inp room).ctx.outBuf ≠ []) ∨
    (lzfStreamCompressFinal env c inp room).ctx.Filling ∧
      ((lzfStreamCompressFinal env c inp room).status = .bufferOverflow →
        (lzfStreamCompressFinal env c inp room).ctx.toDo
          < (lzfStreamCompressProcess env c inp room).ctx.toDo) := by
  obtain ⟨io, hgoing, -⟩ := compressProcess_going env h inp room
  have hfill : (lzfStreamCompressProcess env c inp room).ctx.Filling := hgoing.ctx
  unfold lzfStreamCompressFinal
  generalize lzfStreamCompressProcess env c inp room = r at hfill ⊢
  obtain ⟨status, c₁, left, out⟩ := r
  dsimp only at hfill ⊢
  by_cases hbuf : c₁.outBuf = []
  swap
  · rw [if_pos (outputDataIsBuffered_iff.mpr hbuf)]
    exact .inl ⟨rfl, hbuf⟩
  rw [if_neg (by simp [outputDataIsBuffered, hbuf])]
  right
  obtain ⟨c₂, io₂, heq₂, hfill₂, hnil₂, htrailer₂, hlast⟩ :=
    hfill.lastBlock env hbuf ⟨left, room - out.length, out⟩
  simp only [heq₂]
  by_cases hbuf₂ : c₂.outBuf = []
  swap
  · -- there was a last block
    rw [if_pos (outputDataIsBuffered_iff.mpr hbuf₂)]
    have hne : c₁.inBuf ≠ [] := fun hnil => hbuf₂ (hlast hnil)
    refine ⟨hfill₂, fun _ => ?_⟩
    simp only [StreamCtx.toDo, htrailer₂, if_pos hnil₂, if_neg hne]
    omega
  rw [if_neg (by simp [outputDataIsBuffered, hbuf₂])]
  obtain ⟨c₃, io₃, heq₃, hfill₃, hnil₃, htrailer₃, hold⟩ := hfill₂.trailer hbuf₂ io₂
  simp only [heq₃]
  by_cases hbuf₃ : c₃.outBuf = []
  swap
  · -- the trailer was not written yet
    rw [if_pos (outputDataIsBuffered_iff.mpr hbuf₃)]
    have hno : c₁.wroteTrailer = false := by
      rw [← htrailer₂, ← Bool.not_eq_true]
      exact fun ht => hbuf₃ (hold ht)
    refine ⟨hfill₃, fun _ => ?_⟩
    simp only [StreamCtx.toDo, hnil₃, if_pos hnil₂, htrailer₃, if_true, hno]
    exact Nat.succ_pos _
  rw [if_neg (by simp [outputDataIsBuffered, hbuf₃])]
  exact ⟨hfill₃, fun hret => by cases hret⟩

theorem encoder_lively (env : StreamEnv) :
    (lzfStreamEncoder env).Lively StreamCtx.Filling (fun c => c.outBuf.length)
      StreamCtx.toDo where
  process := by
    intro c inp room hc
    obtain ⟨io, hgoing, -⟩ := compressProcess_going env hc inp room
    exact hgoing.ctx
  final := by
    intro c inp room hc
    show (lzfStreamCompressFinal env c inp room).ctx.Filling
    rcases compressFinal_cases env hc inp room with ⟨heq, -⟩ | ⟨hfill, -⟩
    · obtain ⟨io, hgoing, -⟩ := compressProcess_going env hc inp room
      rw [heq]
      exact hgoing.ctx
    · exact hfill
  left := by
    intro c inp room hc
    obtain ⟨io, hgoing, -, hleft, -⟩ := compressProcess_going env hc inp room
    show (lzfStreamCompressProcess env c inp room).left <:+ inp
    rw [hleft]
    exact hgoing.suffix
  idle := by
    intro c inp room hc hne hroom _ hsame
    obtain ⟨io, hgoing, hstop, hleft, hout⟩ := compressProcess_going env hc inp room
    have hinp : io.inp = inp := hleft.symm.trans hsame
    have hbuf : (lzfStreamCompressProcess env c inp room).ctx.outBuf ≠ [] :=
      hstop.resolve_right fun hnil => hne (hinp.symm.trans hnil)
    have hdrained := hgoing.drained hinp (by rw [hgoing.ctx.state]; nofun) hbuf hroom
    rw [← hout] at hdrained
    exact hdrained
  again := by
    intro c room hc hroom hagain
    obtain ⟨n, hctx⟩ := compressProcess_nil env hc room
    have hsame : (lzfStreamCompressProcess env c [] room).ctx.toDo = c.toDo := by
      rw [hctx]
      rfl
    show Prod.Lex _ _ ((lzfStreamCompressFinal env c [] room).ctx.toDo,
      (lzfStreamCompressFinal env c [] room).ctx.outBuf.length) _
    rcases compressFinal_cases env hc [] room with ⟨heq, hbuf⟩ | ⟨-, hlt⟩
    · obtain ⟨io, hgoing, -⟩ := compressProcess_going env hc [] room
      have hinp : io.inp = [] := suffix_nil.mp hgoing.suffix
      rw [heq, hsame]
      exact .right _ (hgoing.drained hinp (by rw [hgoing.ctx.state]; nofun) hbuf hroom).2
    · rw [← hsame]
      exact .left _ _ (hlt hagain)

end live

/-! ## Runs -/

theorem encodeInv_alloc (env : StreamEnv) (plain : List UInt8) :
    EncodeInv env plain (lzfStreamAlloc env) plain [] :=
  ⟨rfl, Nat.zero_lt_succ _, nofun, rfl⟩

theorem encoder_keeps (env : StreamEnv) (plain : List UInt8) :
    (lzfStreamEncoder env).Keeps (EncodeInv env plain)
      (fun v out => v = .ok ∧ out = streamBytes env env.crc32Init plain) where
  process_ok := by
    intro c rest sofar n room h _
    rw [← take_append_drop n rest] at h
    obtain ⟨io, hcall, -, hleft, hout⟩ := compressProcess_spec h room
    simp only [lzfStreamEncoder, hleft, hout]
    exact hcall.1
  process_end := fun _ _ _ hne => absurd rfl hne
  final_again := by
    intro c rest sofar room h hagain
    have hst : (lzfStreamCompressFinal env c rest room).status = .bufferOverflow := hagain
    cases compressFinal_spec h room with
    | ok hst' => rw [hst] at hst'; cases hst'
    | again _ hinv => exact hinv
  final_end := by
    intro c rest sofar room h hne
    cases compressFinal_spec h room with
    | ok hst hout => exact ⟨hst, hout⟩
    | again hst => exact absurd hst hne

theorem encoder_progress (env : StreamEnv) (plain : List UInt8) :
    (lzfStreamEncoder env).Progress (EncodeInv env plain) fun c => c.outBuf.length := by
  intro c rest sofar room h hagain
  have hst : (lzfStreamCompressFinal env c rest room).status = .bufferOverflow := hagain
  cases compressFinal_spec h room with
  | ok hst' => rw [hst] at hst'; cases hst'
  | again _ _ hprogress => exact hprogress

theorem encodeInv_length {c : StreamCtx} (h : EncodeInv env plain c rest sofar) :
    sofar.length + c.outBuf.length ≤ (streamBytes env env.crc32Init plain).length := by
  rw [← h.out, length_append, length_append]
  exact Nat.le_add_right ..

/-- There is one stream for a plaintext. One call of `lzf_stream_compress_final` gives it if
there is room for it; a run gives it in whatever pieces the input and the output are, and
comes to its end if its last call is repeated with room for some output; and the decoder
makes the plaintext of it. -/
theorem stream_encode (env : StreamEnv) (plain : List UInt8) :
    ∃ out, (∀ room, out.length ≤ room →
        (lzfStreamCompressFinal env (lzfStreamAlloc env) plain room).status = .ok ∧
        (lzfStreamCompressFinal env (lzfStreamAlloc env) plain room).out = out) ∧
      (∀ calls rooms v, (lzfStreamEncoder env).run rooms calls (lzfStreamAlloc env) plain []
        = some v → v = (.ok, out)) ∧
      (∀ calls rooms, 2 * out.length < rooms.countP (0 < ·) →
        ((lzfStreamEncoder env).run rooms calls (lzfStreamAlloc env) plain []).isSome) ∧
      ∀ room, plain.length ≤ room →
        (lzfStreamDecompressFinal env (lzfStreamAlloc env) out room).status = .ok ∧
        (lzfStreamDecompressFinal env (lzfStreamAlloc env) out room).out = plain := by
  refine ⟨streamBytes env env.crc32Init plain, fun room hroom => ?_, fun calls rooms v hv => ?_,
    fun calls rooms hcount => ?_, fun room hroom => ?_⟩
  · cases compressFinal_spec (encodeInv_alloc env plain) room with
    | ok hst hout => exact ⟨hst, hout⟩
    | again _ hinv _ htight =>
      have hle := encodeInv_length hinv
      rw [nil_append] at hle
      omega
  · obtain ⟨hst, hout⟩ := (encoder_keeps env plain).run (encodeInv_alloc env plain) hv
    exact Prod.ext hst hout
  · rw [Option.isSome_iff_ne_none]
    intro hnone
    have := (encoder_keeps env plain).countP_le (encoder_progress env plain) encodeInv_length
      (encodeInv_alloc env plain) hnone
    omega
  · exact final_of_accepted (accepted_streamBytes env plain) hroom

/-! ## Both directions -/

/-- The codec that `isrcry_compress_init` selects, for the algorithm
`ISRCRY_COMPRESS_LZF_STREAM`. -/
def lzfStreamCodec (env : StreamEnv) (encode : Bool) : Filter Result StreamCtx UInt8 :=
  if encode then lzfStreamEncoder env else lzfStreamDecoder env

/-- What the calls keep of the context. -/
def CodecOk (encode : Bool) : StreamCtx → Prop :=
  if encode then StreamCtx.Filling else StreamCtx.Live

theorem codecOk_alloc (env : StreamEnv) (encode : Bool) :
    CodecOk encode (lzfStreamAlloc env) := by
  cases encode with
  | true => exact filling_alloc env
  | false => exact live_alloc env

theorem codec_lively (env : StreamEnv) (encode : Bool) :
    ∃ stage, (lzfStreamCodec env encode).Lively (CodecOk encode) (fun c => c.outBuf.length)
      stage := by
  cases encode with
  | true => exact ⟨_, encoder_lively env⟩
  | false => exact ⟨_, decoder_lively env⟩

theorem codec_ok (env : StreamEnv) (encode : Bool) :
    (lzfStreamCodec env encode).ok = .ok ∧
      (lzfStreamCodec env encode).again = .bufferOverflow := by
  cases encode <;> exact ⟨rfl, rfl⟩

end OpenIsr.Crypto
