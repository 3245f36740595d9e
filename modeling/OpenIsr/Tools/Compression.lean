import OpenIsr.Crypto.LzfStreamEncode

/-!
# The compression stage of blobtool (tools/blobtool.c)

`run_compression` is called with one buffer after the other, and calls
`isrcry_compress_process` until all of a buffer is used; with the last buffer it also calls
`isrcry_compress_final` until that does not ask for more room. Both are loops without a bound of
their own. Here each has a bound on its iterations and gives no result at the bound, and the
result to be had is that some bound is enough, for the LZF stream codec in either direction and
whatever is in the buffers.

This is so for any filter that is `Lively`: the first loop makes the input shorter or, while the
input stays the same, takes from what is buffered; the second goes through the stages that are
left and empties the buffer in each.
-/

namespace OpenIsr.Tools

open Base Crypto

/-- `BUFSZ`. -/
def bufsz : Nat := 32768

/-- The first loop of `run_compression`, on the input from `in_offset` on; an error is what `die`
reports. The number bounds the iterations. -/
def processLoop (f : Filter Result StreamCtx UInt8) :
    Nat → StreamCtx → List UInt8 → List UInt8 → Option (Except Result (StreamCtx × List UInt8))
  | 0, _, _, _ => none
  | n + 1, ctx, inp, out =>
    let r := f.process ctx inp bufsz
    if r.status ≠ .ok then some (.error r.status)
    else if r.left ≠ [] then processLoop f n r.ctx r.left (out ++ r.out)
    else some (.ok (r.ctx, out ++ r.out))

/-- The second loop. Its input is NULL in the source, and empty here: they differ where
`consume_input` is asked for no bytes. -/
def finalLoop (f : Filter Result StreamCtx UInt8) :
    Nat → StreamCtx → List UInt8 → Option (Except Result (StreamCtx × List UInt8))
  | 0, _, _ => none
  | n + 1, ctx, out =>
    let r := f.final ctx [] bufsz
    if r.status = .bufferOverflow then finalLoop f n r.ctx (out ++ r.out)
    else if r.status ≠ .ok then some (.error r.status)
    else some (.ok (r.ctx, out ++ r.out))

/-- `run_compression`; `ctx` is its static variable, `none` before the first call. -/
def runCompression (env : StreamEnv) (encode : Bool) (n : Nat) (ctx : Option StreamCtx)
    (inp : List UInt8) (final : Bool) : Option (Except Result (StreamCtx × List UInt8)) :=
  let f := lzfStreamCodec env encode
  match processLoop f n (ctx.getD (lzfStreamAlloc env)) inp [] with
  | some (.ok (ctx, out)) => if final then finalLoop f n ctx out else some (.ok (ctx, out))
  | r => r

/-- Calls with one buffer after the other, and their output. -/
def compressBuffers (env : StreamEnv) (encode : Bool) (n : Nat) :
    Option StreamCtx → List (List UInt8 × Bool) → Option (Except Result (List (List UInt8)))
  | _, [] => some (.ok [])
  | ctx, (inp, final) :: rest =>
    match runCompression env encode n ctx inp final with
    | none => none
    | some (.error e) => some (.error e)
    | some (.ok (ctx, out)) =>
      (compressBuffers env encode n (some ctx) rest).map fun r => r.map (out :: ·)

/-! ## The loops end -/

/-- A loop has a result, the same for every bound that is large enough; and `J` holds of the
context. -/
def Ends (J : StreamCtx → Prop)
    (loop : Nat → Option (Except Result (StreamCtx × List UInt8))) : Prop :=
  ∃ N v, (∀ n, N ≤ n → loop n = some v) ∧ ∀ ctx out, v = .ok (ctx, out) → J ctx

section loops

variable {f : Filter Result StreamCtx UInt8} {J : StreamCtx → Prop} {held stage : StreamCtx → Nat}
  {loop : Nat → Option (Except Result (StreamCtx × List UInt8))}

theorem Ends.here {v : Except Result (StreamCtx × List UInt8)} (h : ∀ n, loop (n + 1) = some v)
    (hJ : ∀ ctx out, v = .ok (ctx, out) → J ctx) : Ends J loop := by
  refine ⟨1, v, fun n hn => ?_, hJ⟩
  obtain ⟨n, rfl⟩ : ∃ k, n = k + 1 := ⟨n - 1, by omega⟩
  exact h n

theorem Ends.next {loop' : Nat → Option (Except Result (StreamCtx × List UInt8))}
    (h : Ends J loop') (heq : ∀ n, loop (n + 1) = loop' n) : Ends J loop := by
  obtain ⟨N, v, hv, hJ⟩ := h
  refine ⟨N + 1, v, fun n hn => ?_, hJ⟩
  obtain ⟨n, rfl⟩ : ∃ k, n = k + 1 := ⟨n - 1, by omega⟩
  rw [heq]
  exact hv n (by omega)

/-- The first loop: the input gets shorter, or there is less in the buffer. -/
theorem processLoop_ends (h : f.Lively J held stage) (hok : f.ok = .ok) {ctx : StreamCtx}
    (hctx : J ctx) (inp out : List UInt8) :
    Ends J fun n => processLoop f n ctx inp out := by
  have hkeep := h.process inp bufsz hctx
  by_cases hst : (f.process ctx inp bufsz).status = .ok
  swap
  · exact .here (fun n => if_pos hst) nofun
  by_cases hleft : (f.process ctx inp bufsz).left = []
  · refine .here (v := .ok ((f.process ctx inp bufsz).ctx, out ++ (f.process ctx inp bufsz).out))
      (fun n => ?_) fun c o heq => ?_
    · simp only [processLoop, hst, hleft, ne_eq, not_true, if_false]
    · cases heq
      exact hkeep
  have hsuffix := h.left inp bufsz hctx
  have hinp : inp ≠ [] := by
    intro hnil
    rw [hnil] at hsuffix hleft
    exact hleft (List.suffix_nil.mp hsuffix)
  have hdown : (f.process ctx inp bufsz).left.length < inp.length ∨
      (f.process ctx inp bufsz).left.length = inp.length ∧
        held (f.process ctx inp bufsz).ctx < held ctx := by
    rcases lt_or_eq_of_le hsuffix.length_le with hlt | hlen
    · exact .inl hlt
    · have hsame := hsuffix.eq_of_length hlen
      exact .inr ⟨hlen, (h.idle hctx hinp (by decide) (hst.trans hok.symm) hsame).2⟩
  refine (processLoop_ends h hok hkeep (f.process ctx inp bufsz).left
    (out ++ (f.process ctx inp bufsz).out)).next fun n => ?_
  simp only [processLoop, hst, hleft, ne_eq, not_true, not_false_eq_true, if_true, if_false]
termination_by (inp.length, held ctx)
decreasing_by
  rcases hdown with hlt | ⟨hlen, hlt⟩
  · exact .left _ _ hlt
  · rw [hlen]
    exact .right _ hlt

/-- The second loop: there is less to do, or less in the buffer. -/
theorem finalLoop_ends (h : f.Lively J held stage) (hagain : f.again = .bufferOverflow)
    {ctx : StreamCtx} (hctx : J ctx) (out : List UInt8) :
    Ends J fun n => finalLoop f n ctx out := by
  have hkeep := h.final [] bufsz hctx
  by_cases hst : (f.final ctx [] bufsz).status = .bufferOverflow
  · have hdown := h.again hctx (by decide) (hst.trans hagain.symm)
    refine (finalLoop_ends h hagain hkeep (out ++ (f.final ctx [] bufsz).out)).next fun n => ?_
    exact if_pos hst
  · by_cases hok : (f.final ctx [] bufsz).status = .ok
    · refine .here (v := .ok ((f.final ctx [] bufsz).ctx, out ++ (f.final ctx [] bufsz).out))
        (fun n => ?_) fun c o heq => ?_
      · simp only [finalLoop, hok, ne_eq, not_true, if_false, reduceCtorEq]
      · cases heq
        exact hkeep
    · exact .here (v := .error (f.final ctx [] bufsz).status)
        (fun n => (if_neg hst).trans (if_pos hok)) nofun
termination_by (stage ctx, held ctx)
decreasing_by exact hdown

end loops

/-! ## The stage ends -/

variable {ctx : Option StreamCtx}

theorem runCompression_ends (env : StreamEnv) (encode : Bool)
    (hctx : CodecOk encode (ctx.getD (lzfStreamAlloc env))) (inp : List UInt8) (final : Bool) :
    Ends (CodecOk encode) fun n => runCompression env encode n ctx inp final := by
  obtain ⟨stage, hlively⟩ := codec_lively env encode
  obtain ⟨hok, hagain⟩ := codec_ok env encode
  obtain ⟨N, v, hv, hJ⟩ := processLoop_ends hlively hok hctx inp []
  cases v with
  | error e =>
    refine ⟨N, .error e, fun n hn => ?_, nofun⟩
    simp only [runCompression, hv n hn]
  | ok p =>
    obtain ⟨ctx', out⟩ := p
    cases final with
    | false =>
      refine ⟨N, .ok (ctx', out), fun n hn => ?_, hJ⟩
      simp only [runCompression, hv n hn, Bool.false_eq_true, if_false]
    | true =>
      obtain ⟨M, w, hw, hJ'⟩ := finalLoop_ends hlively hagain (hJ ctx' out rfl) out
      refine ⟨max N M, w, fun n hn => ?_, hJ'⟩
      simp only [runCompression, hv n (by omega), if_true, hw n (by omega)]

theorem compressBuffers_ends (env : StreamEnv) (encode : Bool) (bufs : List (List UInt8 × Bool))
    (hctx : CodecOk encode (ctx.getD (lzfStreamAlloc env))) :
    ∃ N v, ∀ n, N ≤ n → compressBuffers env encode n ctx bufs = some v := by
  induction bufs generalizing ctx with
  | nil => exact ⟨0, .ok [], fun _ _ => rfl⟩
  | cons b bufs ih =>
    obtain ⟨inp, final⟩ := b
    obtain ⟨N, v, hv, hJ⟩ := runCompression_ends env encode hctx inp final
    cases v with
    | error e =>
      refine ⟨N, .error e, fun n hn => ?_⟩
      simp only [compressBuffers, hv n hn]
    | ok p =>
      obtain ⟨ctx', out⟩ := p
      have hnext : CodecOk encode ((some ctx').getD (lzfStreamAlloc env)) := hJ ctx' out rfl
      obtain ⟨M, w, hw⟩ := ih hnext
      refine ⟨max N M, w.map (out :: ·), fun n hn => ?_⟩
      simp only [compressBuffers, hv n (by omega), hw n (by omega), Option.map_some]

/-- The compression stage comes to its end, whatever the buffers contain. Each call of
`isrcry_compress_process` with input and room for output fails, uses input or gives output; calls
do not go on without using input; and repeated calls of `isrcry_compress_final` come to their
end. -/
theorem compression_terminates (env : StreamEnv) (encode : Bool) :
    (∀ bufs, ∃ N v, ∀ n, N ≤ n → compressBuffers env encode n none bufs = some v) ∧
    ∀ c, (lzfStreamCodec env encode).Reach (lzfStreamAlloc env) c →
      (∀ inp room, inp ≠ [] → 0 < room →
        ((lzfStreamCodec env encode).process c inp room).status ≠ .ok ∨
        ((lzfStreamCodec env encode).process c inp room).left.length < inp.length ∨
        ((lzfStreamCodec env encode).process c inp room).out ≠ []) ∧
      (¬ ∃ g : Nat → StreamCtx, g 0 = c ∧
        ∀ k, (lzfStreamCodec env encode).Idle (g k) (g (k + 1))) ∧
      ∀ room : Nat → Nat, (∀ k, 0 < room k) →
        ∃ k, ((lzfStreamCodec env encode).final
          ((lzfStreamCodec env encode).finals room c k) [] (room k)).status ≠ .bufferOverflow := by
  obtain ⟨stage, hlively⟩ := codec_lively env encode
  obtain ⟨hok, hagain⟩ := codec_ok env encode
  refine ⟨fun bufs => compressBuffers_ends env encode bufs (codecOk_alloc env encode), ?_⟩
  intro c hreach
  have hc : CodecOk encode c := hlively.reach (codecOk_alloc env encode) hreach
  refine ⟨?_, hlively.not_idle hc, ?_⟩
  · intro inp room hinp hroom
    rw [← hok]
    exact hlively.progress hc hinp hroom
  · intro room hroom
    rw [← hagain]
    exact hlively.final_ends hc hroom

end OpenIsr.Tools
