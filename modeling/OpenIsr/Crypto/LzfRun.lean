import OpenIsr.Crypto.LzfFormat

/-!
# What the LZF compressor writes

At every point of `lzf_compress` the output so far consists of tokens that decode to the part
of the input in front of the current literal run (`Coded`). That holds whatever the hash
table contains: an entry is used only if it points into the input, before `ip`, at the same
three bytes, and the rest of the match is compared byte by byte.

`lzfDecompress_lzfCompress`: what the compressor returns, the decompressor turns back into
the input.
-/

namespace OpenIsr.Crypto

namespace Lzf

variable {inp : Mem} {inLen base outLen n ref ip len : Nat} {s s' : State} {ts : List Token}

/-- The first `n` bytes of the input. -/
def pre (inp : Mem) (n : Nat) : List UInt8 := (List.range n).map inp

@[simp] theorem pre_length (inp : Mem) (n : Nat) : (pre inp n).length = n := by simp [pre]

theorem pre_succ (inp : Mem) (n : Nat) : pre inp (n + 1) = pre inp n ++ [inp n] := by
  simp [pre, List.range_succ]

theorem pre_getD {i : Nat} (h : i < n) : (pre inp n).getD i 0 = inp i := by
  simp [pre, h]

/-! ## Matches -/

theorem copy_pre {k : Nat} (hr : ref < k) (h : ∀ j < n, inp (ref + j) = inp (k + j)) :
    copy (pre inp k) ref n = pre inp (k + n) := by
  induction n generalizing k ref with
  | zero => rfl
  | succ n ih =>
    have h0 : inp ref = inp k := h 0 (Nat.succ_pos n)
    rw [copy, pre_getD hr, h0, ← pre_succ, ih (by omega), Nat.add_right_comm, Nat.add_assoc]
    intro j hj
    have := h (j + 1) (by omega)
    rwa [show ref + (j + 1) = ref + 1 + j by omega, show k + (j + 1) = k + 1 + j by omega] at this

theorem unrolled_spec (h : ∀ j ≤ len, inp (ref + j) = inp (ip + j)) :
    ∀ l b, unrolled inp ref ip n len = (l, b) → l ≤ len + n ∧
      (∀ j < l, inp (ref + j) = inp (ip + j)) ∧
      (b = true → len < l) ∧ (b = false → l = len + n ∧ inp (ref + l) = inp (ip + l)) := by
  induction n generalizing len with
  | zero =>
    intro l b heq
    obtain ⟨rfl, rfl⟩ := Prod.mk.inj heq
    exact ⟨le_refl _, fun j hj => h j (le_of_lt hj), nofun,
      fun _ => ⟨rfl, h len (le_refl _)⟩⟩
  | succ n ih =>
    intro l b heq
    rw [unrolled] at heq
    by_cases hb : inp (ref + (len + 1)) = inp (ip + (len + 1))
    · rw [if_neg (not_not.mpr hb)] at heq
      have hnext : ∀ j ≤ len + 1, inp (ref + j) = inp (ip + j) := fun j hj => by
        rcases lt_or_eq_of_le hj with hj | rfl
        · exact h j (by omega)
        · exact hb
      obtain ⟨hle, hag, ht, hf⟩ := ih hnext l b heq
      refine ⟨by omega, hag, fun hb => ?_, fun hb => ?_⟩
      · have := ht hb
        omega
      · obtain ⟨rfl, hl⟩ := hf hb
        exact ⟨by omega, hl⟩
    · rw [if_pos hb] at heq
      obtain ⟨rfl, rfl⟩ := Prod.mk.inj heq
      exact ⟨by omega, fun j hj => h j (by omega), fun _ => Nat.lt_succ_self _, nofun⟩

theorem doWhile_spec {maxlen : Nat} (h : ∀ j ≤ len, inp (ref + j) = inp (ip + j)) :
    (∀ j < doWhile inp ref ip maxlen (n + 1) len, inp (ref + j) = inp (ip + j)) ∧
      len < doWhile inp ref ip maxlen (n + 1) len ∧
      doWhile inp ref ip maxlen (n + 1) len ≤ max (len + 1) maxlen := by
  induction n generalizing len with
  | zero =>
    rw [doWhile]
    have : ∀ j < len + 1, inp (ref + j) = inp (ip + j) := fun j hj => h j (by omega)
    split
    next => exact ⟨this, Nat.lt_succ_self _, le_max_left ..⟩
    next => exact ⟨this, Nat.lt_succ_self _, le_max_left ..⟩
  | succ n ih =>
    rw [doWhile]
    by_cases hc : len + 1 < maxlen ∧ inp (ref + (len + 1)) = inp (ip + (len + 1))
    · simp only [if_pos hc]
      have hnext : ∀ j ≤ len + 1, inp (ref + j) = inp (ip + j) := fun j hj => by
        rcases lt_or_eq_of_le hj with hj | rfl
        · exact h j (by omega)
        · exact hc.2
      obtain ⟨hag, hlt, hle⟩ := ih hnext
      exact ⟨hag, by omega, by omega⟩
    · simp only [if_neg hc]
      exact ⟨fun j hj => h j (by omega), Nat.lt_succ_self _, le_max_left ..⟩

/-- A match is long enough for the format, does not run over the end of the input, and has
been compared byte by byte. -/
theorem matchLen_spec (maxlen : Nat) (hmax : 3 ≤ maxlen) (hmax' : maxlen ≤ 264)
    (h : ∀ j ≤ 2, inp (ref + j) = inp (ip + j)) :
    (∀ j < matchLen inp ref ip maxlen, inp (ref + j) = inp (ip + j)) ∧
      3 ≤ matchLen inp ref ip maxlen ∧ matchLen inp ref ip maxlen ≤ maxlen + 2 ∧
      matchLen inp ref ip maxlen ≤ 264 := by
  unfold matchLen
  split
  next h16 =>
    split
    next len heq =>
      obtain ⟨hle, hag, ht, -⟩ := unrolled_spec h _ _ heq
      have := ht rfl
      exact ⟨hag, by omega, by omega, by omega⟩
    next len heq =>
      obtain ⟨-, hag, -, hf⟩ := unrolled_spec h _ _ heq
      obtain ⟨rfl, hlast⟩ := hf rfl
      have hall : ∀ j ≤ 2 + 16, inp (ref + j) = inp (ip + j) := fun j hj => by
        rcases lt_or_eq_of_le hj with hj | rfl
        · exact hag j hj
        · exact hlast
      obtain ⟨hag, hlt, hle⟩ := doWhile_spec (n := maxlen) hall
      exact ⟨hag, by omega, by omega, by omega⟩
  next h16 =>
    obtain ⟨hag, hlt, hle⟩ := doWhile_spec (n := maxlen) h
    exact ⟨hag, by omega, by omega, by omega⟩

theorem isMatch_spec (h : isMatch inp inLen base ref ip = true) :
    base < ref ∧ ref < base + ip ∧ base + ip - ref - 1 < 8192 ∧ ip + 4 < inLen ∧
      ∀ j ≤ 2, inp (ref - base + j) = inp (ip + j) := by
  simp only [isMatch, Bool.and_eq_true, decide_eq_true_eq, beq_iff_eq] at h
  obtain ⟨⟨⟨⟨⟨⟨h₁, h₂⟩, h₃⟩, h₄⟩, h₅⟩, h₆⟩, h₇⟩ := h
  refine ⟨h₄, h₁, h₂, h₃, fun j hj => ?_⟩
  rcases j with _ | _ | _ | j
  · exact h₅
  · exact h₆
  · exact h₇
  · omega

/-! ## The invariant -/

/-- The output is made of the tokens `ts`, which decode to the input in front of the current
literal run. -/
structure Coded (inp : Mem) (s : State) (ts : List Token) : Prop where
  out : s.out = encode ts
  decodes : Decodes ts [] (pre inp (s.ip - s.lits.length))
  lits : pre inp s.ip = pre inp (s.ip - s.lits.length) ++ s.lits
  short : s.lits.length < 32

/-- For each byte in front of `ip`, whether it is a literal. -/
def State.marks (s : State) (ts : List Token) : List Bool :=
  Lzf.marks ts ++ List.replicate s.lits.length true

theorem coded_start (htab : Nat → Nat) : Coded inp (start inp htab) [] :=
  ⟨rfl, rfl, rfl, Nat.zero_lt_succ 31⟩

theorem stopRun_spec (hout : s.out = encode ts)
    (hdec : Decodes ts [] (pre inp (s.ip - s.lits.length)))
    (hlits : pre inp s.ip = pre inp (s.ip - s.lits.length) ++ s.lits) (hle : s.lits.length ≤ 32) :
    ∃ us, s.stopRun = encode us ∧ Decodes us [] (pre inp s.ip) ∧ marks us = s.marks ts := by
  unfold State.stopRun State.marks
  split
  next h0 =>
    refine ⟨ts, hout, ?_, by simp [h0]⟩
    rw [h0] at hdec
    exact hdec
  next h0 =>
    have hrun : Decodes [.lits s.lits] (pre inp (s.ip - s.lits.length)) (pre inp s.ip) :=
      ⟨⟨by omega, hle⟩, trivial, hlits⟩
    refine ⟨ts ++ [.lits s.lits], ?_, hdec.append hrun, ?_⟩
    · rw [encode_append, hout]
      simp [encode, Token.bytes]
    · rw [marks_append]
      simp [Lzf.marks]

theorem Coded.pushLit (h : Coded inp s ts) :
    ∃ us, Coded inp (s.pushLit (inp s.ip)) us ∧
      (s.pushLit (inp s.ip)).marks us = s.marks ts ++ [true] := by
  have hlen := congrArg List.length h.lits
  simp only [List.length_append, pre_length] at hlen
  have hsub : s.ip + 1 - (s.lits ++ [inp s.ip]).length = s.ip - s.lits.length := by
    rw [List.length_append, List.length_singleton]
    omega
  have hshort := h.short
  have hlits : pre inp (s.ip + 1)
      = pre inp (s.ip - s.lits.length) ++ (s.lits ++ [inp s.ip]) := by
    rw [pre_succ, h.lits, List.append_assoc]
  have hmarks : State.marks { s with ip := s.ip + 1, lits := s.lits ++ [inp s.ip] } ts
      = s.marks ts ++ [true] := by
    simp [State.marks, List.replicate_succ']
  unfold State.pushLit
  simp only
  split
  next h32 =>
    -- the run is full
    obtain ⟨us, hus, hdec, hm⟩ :=
      stopRun_spec (s := { s with ip := s.ip + 1, lits := s.lits ++ [inp s.ip] }) h.out
        (by rw [hsub]; exact h.decodes) (by rw [hsub]; exact hlits) (le_of_eq h32)
    refine ⟨us, ⟨hus, hdec, by simp, by simp⟩, ?_⟩
    rw [← hmarks, ← hm]
    simp [State.marks]
  next h32 =>
    refine ⟨ts, ⟨h.out, ?_, ?_, ?_⟩, hmarks⟩
    · rw [hsub]
      exact h.decodes
    · rw [hsub]
      exact hlits
    · rw [List.length_append, List.length_singleton] at h32 ⊢
      omega

theorem pushLit_ip (s : State) (b : UInt8) : (s.pushLit b).ip = s.ip + 1 := by
  unfold State.pushLit
  simp only
  split <;> rfl

theorem Coded.emitRef (h : Coded inp s ts) (hm : isMatch inp inLen base ref s.ip = true)
    (he : emitRef inp inLen base outLen s ref = some s') :
    ∃ us n, Coded inp s' us ∧ s'.marks us = s.marks ts ++ List.replicate (n + 1) false ∧
      s.ip < s'.ip ∧ s'.ip ≤ inLen := by
  obtain ⟨hb, hlt, hoff, hend, hag⟩ := isMatch_spec hm
  obtain ⟨hall, h3, hle, h264⟩ :=
    matchLen_spec (min (inLen - s.ip - 2) 264) (by omega) (by omega) hag
  generalize hL : matchLen inp (ref - base) s.ip (min (inLen - s.ip - 2) 264)
    = L at hall h3 hle h264
  obtain ⟨us, hus, hdec, hmarks⟩ := stopRun_spec h.out h.decodes h.lits (le_of_lt h.short)
  have hok : (Token.ref (base + s.ip - ref - 1) (L - 2)).Ok := ⟨hoff, by omega, by omega⟩
  have happly : (Token.ref (base + s.ip - ref - 1) (L - 2)).apply (pre inp s.ip)
      = pre inp (s.ip + 1 + (L - 2 + 1)) := by
    rw [Token.apply, pre_length, show s.ip - (base + s.ip - ref - 1) - 1 = ref - base by omega,
      show L - 2 + 2 = L by omega, copy_pre (by omega) hall]
    congr 1
    omega
  have hwithin : (Token.ref (base + s.ip - ref - 1) (L - 2)).Within (pre inp s.ip).length := by
    rw [pre_length]
    show base + s.ip - ref - 1 < s.ip
    omega
  -- the state after the match, whatever happens to the table
  have key : ∀ t : State, t.ip = s.ip + 1 + (L - 2 + 1) →
      t.out = s.stopRun ++ refBytes (base + s.ip - ref - 1) (L - 2) → t.lits = [] →
      ∃ us n, Coded inp t us ∧ t.marks us = s.marks ts ++ List.replicate (n + 1) false ∧
        s.ip < t.ip ∧ t.ip ≤ inLen := by
    intro t hip hout hlits
    have href : Decodes [.ref (base + s.ip - ref - 1) (L - 2)] (pre inp s.ip) (pre inp t.ip) :=
      ⟨hok, hwithin, by rw [hip, happly]; rfl⟩
    refine ⟨us ++ [.ref (base + s.ip - ref - 1) (L - 2)], L - 2 + 1, ⟨?_, ?_, ?_, ?_⟩, ?_, ?_, ?_⟩
    · rw [encode_append, ← hus, hout]
      simp [encode, Token.bytes]
    · rw [hlits]
      exact hdec.append href
    · simp [hlits]
    · simp [hlits]
    · rw [State.marks, marks_append, hmarks, hlits]
      simp [Lzf.marks]
    · omega
    · omega
  unfold Lzf.emitRef at he
  split at he
  next => cases he
  simp only [hL] at he
  split at he
  next => rw [← Option.some.inj he]; exact key _ rfl rfl rfl
  next => rw [← Option.some.inj he]; exact key _ rfl rfl rfl

theorem Coded.step (h : Coded inp s ts) (hip : s.ip + 2 < inLen)
    (hs : step inp inLen base outLen s = some s') :
    ∃ us d, Coded inp s' us ∧ s'.marks us = s.marks ts ++ d ∧ s.ip < s'.ip ∧ s'.ip ≤ inLen := by
  unfold Lzf.step at hs
  simp only at hs
  -- the table and the hash value are not part of the invariant
  have h' : ∀ htab hval, Coded inp { s with htab, hval } ts := fun _ _ =>
    ⟨h.out, h.decodes, h.lits, h.short⟩
  split at hs
  next hm =>
    obtain ⟨us, n, hc, hmarks, hlt, hle⟩ := Coded.emitRef
      (h' (Function.update s.htab (idx (next s.hval inp s.ip)) (base + s.ip)) _) hm hs
    exact ⟨us, _, hc, hmarks, hlt, hle⟩
  next hm =>
    split at hs
    next => cases hs
    rw [← Option.some.inj hs]
    obtain ⟨us, hc, hmarks⟩ := (h' _ _).pushLit
    refine ⟨us, _, hc, hmarks, ?_, ?_⟩
    · rw [pushLit_ip]
      exact Nat.lt_succ_self _
    · rw [pushLit_ip]
      show s.ip + 1 ≤ inLen
      omega

section

variable (h : Coded inp s ts) (hip : s.ip ≤ inLen)
include h hip

theorem Coded.loop (hs : loop inp inLen base outLen n s = some s') :
    ∃ us d, Coded inp s' us ∧ s'.marks us = s.marks ts ++ d ∧ s'.ip ≤ inLen ∧
      (s'.ip + 2 < inLen → s.ip + n ≤ s'.ip) := by
  induction n generalizing s ts with
  | zero =>
    rw [Lzf.loop, Option.some.injEq] at hs
    rw [← hs]
    exact ⟨ts, [], h, (List.append_nil _).symm, hip, fun _ => le_refl _⟩
  | succ n ih =>
    rw [Lzf.loop] at hs
    split at hs
    next hlt =>
      obtain ⟨s₁, hs₁, hs⟩ := Option.bind_eq_some_iff.mp hs
      obtain ⟨us, d, hc, hmarks, hlt₁, hle₁⟩ := h.step hlt hs₁
      obtain ⟨us', d', hc', hmarks', hle', hend⟩ := ih hc hle₁ hs
      refine ⟨us', d ++ d', hc', by rw [hmarks', hmarks, List.append_assoc], hle', fun hlt' => ?_⟩
      have := hend hlt'
      omega
    next hge =>
      rw [← Option.some.inj hs]
      exact ⟨ts, [], h, (List.append_nil _).symm, hip, fun hlt => absurd hlt hge⟩

theorem Coded.lastLits (hn : inLen ≤ s.ip + n) :
    ∃ us d, Coded inp (lastLits inp inLen n s) us ∧
      (lastLits inp inLen n s).marks us = s.marks ts ++ d ∧
      (lastLits inp inLen n s).ip = inLen := by
  induction n generalizing s ts with
  | zero => exact ⟨ts, [], h, (List.append_nil _).symm, by rw [Lzf.lastLits]; omega⟩
  | succ n ih =>
    rw [Lzf.lastLits]
    split
    next hlt =>
      obtain ⟨us, hc, hmarks⟩ := h.pushLit
      obtain ⟨us', d, hc', hmarks', hend⟩ :=
        ih hc (by rw [pushLit_ip]; omega) (by rw [pushLit_ip]; omega)
      exact ⟨us', [true] ++ d, hc', by rw [hmarks', hmarks, List.append_assoc], hend⟩
    next hge => exact ⟨ts, [], h, (List.append_nil _).symm, by omega⟩

theorem Coded.loop_end (hs : Lzf.loop inp inLen base outLen inLen s = some s') :
    inLen ≤ s'.ip + 2 := by
  obtain ⟨-, -, -, -, -, hend⟩ := h.loop hip hs
  by_contra hlt
  have := hend (by omega)
  omega

/-- What is left of the run after some state: tokens for the whole input, whose marks go on
from those of the state. -/
theorem Coded.finish {out : List UInt8}
    (hs : (Lzf.loop inp inLen base outLen n s).bind (Lzf.finish inp inLen outLen) = some out) :
    ∃ us d, out = encode us ∧ Decodes us [] (pre inp inLen) ∧ marks us = s.marks ts ++ d := by
  obtain ⟨s₁, hs₁, hs⟩ := Option.bind_eq_some_iff.mp hs
  obtain ⟨us₁, d₁, hc₁, hmarks₁, hle₁, -⟩ := h.loop hip hs₁
  unfold Lzf.finish at hs
  split at hs
  next => cases hs
  obtain ⟨us₂, d₂, hc₂, hmarks₂, hend₂⟩ := hc₁.lastLits hle₁ (n := inLen) (by omega)
  obtain ⟨us, hus, hdec, hmarks⟩ :=
    stopRun_spec hc₂.out hc₂.decodes hc₂.lits (le_of_lt hc₂.short)
  rw [hend₂] at hdec
  refine ⟨us, d₁ ++ d₂, ?_, hdec, ?_⟩
  · rw [← Option.some.inj hs, hus]
  · rw [hmarks, hmarks₂, hmarks₁, List.append_assoc]

end

theorem lastLits_cases (inp : Mem) (n : Nat) (h : inLen ≤ s.ip + 2) :
    lastLits inp inLen n s = s ∨ (∃ a, lastLits inp inLen n s = s.pushLit a) ∨
      ∃ a b, lastLits inp inLen n s = (s.pushLit a).pushLit b := by
  have hdone : ∀ n t, inLen ≤ t.ip → lastLits inp inLen n t = t := by
    intro n t ht
    cases n with
    | zero => rfl
    | succ n => rw [Lzf.lastLits, if_neg (by omega)]
  rcases n with _ | n
  · exact .inl rfl
  rw [Lzf.lastLits]
  split
  next =>
    right
    rcases n with _ | n
    · exact .inl ⟨_, rfl⟩
    rw [Lzf.lastLits]
    split
    next =>
      rw [hdone n _ (by rw [pushLit_ip, pushLit_ip]; omega)]
      exact .inr ⟨_, _, rfl⟩
    next => exact .inl ⟨_, rfl⟩
  next => exact .inl rfl

theorem pushLit_op (s : State) (b : UInt8) :
    (s.pushLit b).op = s.op + 1 ∨ (s.pushLit b).op = s.op + 2 ∧ (s.pushLit b).lits = [] := by
  unfold State.pushLit State.op State.stopRun
  simp only [List.length_append, List.length_singleton]
  split
  next h32 =>
    right
    rw [if_neg (by omega), List.length_append, List.length_cons, List.length_append,
      List.length_singleton, List.length_nil]
    exact ⟨by omega, rfl⟩
  next =>
    left
    show s.out.length + 1 + (s.lits ++ [b]).length = s.out.length + 1 + s.lits.length + 1
    rw [List.length_append, List.length_singleton]
    omega

theorem pushLit_op_nil {s : State} (h : s.lits = []) (b : UInt8) :
    (s.pushLit b).op = s.op + 1 := by
  simp [State.pushLit, State.op, h]

theorem stopRun_length_le (s : State) : s.stopRun.length ≤ s.op := by
  unfold State.stopRun State.op
  split
  next => omega
  rw [List.length_append, List.length_cons]
  omega

/-- The literals after the main loop fit in the three bytes that are tested for. -/
theorem lastLits_op_le (inp : Mem) (n : Nat) (h : inLen ≤ s.ip + 2) :
    (lastLits inp inLen n s).op ≤ s.op + 3 := by
  rcases lastLits_cases inp n h with heq | ⟨a, heq⟩ | ⟨a, b, heq⟩ <;> rw [heq]
  · exact Nat.le_add_right ..
  · rcases pushLit_op s a with h₁ | ⟨h₁, -⟩ <;> omega
  · rcases pushLit_op s a with h₁ | ⟨h₁, hnil⟩
    · rcases pushLit_op (s.pushLit a) b with h₂ | ⟨h₂, -⟩ <;> omega
    · have := pushLit_op_nil hnil b
      omega

end Lzf

open Lzf List Option

theorem pre_mem (l : List UInt8) : pre (mem l) l.length = l := by
  apply ext_getElem
  · simp
  · intro i h₁ h₂
    simp [pre, mem, h₂]

variable {htab : Nat → Nat} {out : List UInt8}

theorem lzfCompress_length {inp : Mem} {inLen outLen base : Nat}
    (h : lzfCompress inp inLen outLen base htab = some out) : out.length ≤ outLen := by
  unfold lzfCompress at h
  split at h
  next => cases h
  obtain ⟨s, hs, h⟩ := bind_eq_some_iff.mp h
  have hend := (coded_start htab).loop_end (Nat.zero_le _) hs
  unfold finish at h
  split at h
  next => cases h
  next hroom =>
    rw [← some.inj h]
    have h₁ := stopRun_length_le (lastLits inp inLen inLen s)
    have h₂ := lastLits_op_le inp inLen hend
    omega

/-- Whatever the table contained, the result is a sequence of tokens for the input. -/
theorem lzfCompress_tokens {inp : Mem} {inLen outLen base : Nat}
    (h : lzfCompress inp inLen outLen base htab = some out) :
    ∃ ts, out = encode ts ∧ Decodes ts [] (pre inp inLen) ∧ 0 < inLen := by
  unfold lzfCompress at h
  split at h
  next => cases h
  next h0 =>
    obtain ⟨ts, -, hout, hdec, -⟩ :=
      (coded_start htab).finish (Nat.zero_le _) h
    exact ⟨ts, hout, hdec, by omega⟩

theorem lzfDecompress_lzfCompress {inp : Mem} {inLen outLen base : Nat}
    (h : lzfCompress inp inLen outLen base htab = some out) (beyond : UInt8) {outLen' : Nat}
    (hlen : inLen ≤ outLen') : lzfDecompress beyond out outLen' = .ok (pre inp inLen) := by
  obtain ⟨ts, rfl, hdec, hpos⟩ := lzfCompress_tokens h
  have hfits : (pre inp inLen).length ≤ outLen' := by
    rw [pre_length]
    exact hlen
  have hback := decodeLoop_encode hdec hfits (le_refl _)
  cases henc : encode ts with
  | nil =>
    -- no output would mean no input
    rw [henc, length_nil, decodeLoop, Except.ok.injEq] at hback
    have := congrArg List.length hback
    rw [pre_length, length_nil] at this
    omega
  | cons c rest =>
    rw [henc] at hback
    exact hback

end OpenIsr.Crypto
