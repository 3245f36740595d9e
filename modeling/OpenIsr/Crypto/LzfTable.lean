import Mathlib.Data.Option.Basic
import OpenIsr.Crypto.LzfRun

/-!
# How the LZF compressor depends on its table

`lzf_compress` is meant to start from an empty table, but clears only slot 0 of it. An entry
that was left in another slot is looked at when the slot is used for the first time, and
taken if it points into the input at the same three bytes. That can happen only where these
bytes are there before `ip` and have not been entered under their slot: positions inside a
match are not, except the last (`Exposed`).

If the run from an empty table does not come to such a position, every table gives the same
result (`lzfCompress_eq_clean`). If it does, there is a table that gives another one
(`exists_other_table`).
-/

namespace OpenIsr.Crypto

namespace Lzf

variable {inp : Mem} {inLen outLen base n : Nat} {htab f : Nat → Nat} {s t : State}

/-- The state after `n` iterations, from an empty table; the input is at address 1. -/
def cleanRun (inp : Mem) (inLen outLen n : Nat) : Option State :=
  loop inp inLen 1 outLen n (start inp fun _ => 0)

/-- The slot for `ip` has not been written, is not slot 0, and the three bytes at `ip` are
also found before it. -/
def Exposed (inp : Mem) (inLen : Nat) (s : State) : Prop :=
  idx (next s.hval inp s.ip) ≠ 0 ∧ s.htab (idx (next s.hval inp s.ip)) = 0 ∧
    s.ip + 4 < inLen ∧
    ∃ r, 0 < r ∧ r < s.ip ∧ s.ip - r - 1 < 8192 ∧ ∀ j ≤ 2, inp (r + j) = inp (s.ip + j)

/-- An entry that was left in the table can matter. -/
def Stale (inp : Mem) (inLen outLen : Nat) : Prop :=
  ∃ n s, cleanRun inp inLen outLen n = some s ∧ Exposed inp inLen s

/-! ## Iterations -/

theorem loop_done (h : ¬ s.ip + 2 < inLen) : loop inp inLen base outLen n s = some s := by
  cases n with
  | zero => rfl
  | succ n => rw [loop, if_neg h]

theorem loop_one (h : s.ip + 2 < inLen) :
    loop inp inLen base outLen 1 s = step inp inLen base outLen s := by
  rw [loop, if_pos h]
  exact Option.bind_fun_some _

theorem loop_add (n m : Nat) (s : State) :
    loop inp inLen base outLen (n + m) s
      = (loop inp inLen base outLen n s).bind (loop inp inLen base outLen m) := by
  induction n generalizing s with
  | zero => rw [Nat.zero_add, loop, Option.bind_some]
  | succ n ih =>
    by_cases h : s.ip + 2 < inLen
    · rw [Nat.succ_add, loop, if_pos h, loop, if_pos h, Option.bind_assoc]
      congr 1
      exact funext ih
    · rw [loop_done h, loop_done h, Option.bind_some, loop_done h]

/-- A run that ends after `k` iterations and comes to slot 0 only. -/
theorem not_stale {k : Nat}
    (hend : (cleanRun inp inLen outLen k).all fun s => inLen ≤ s.ip + 2)
    (hidx : ∀ n < k, (cleanRun inp inLen outLen n).all fun s => idx (next s.hval inp s.ip) = 0) :
    ¬ Stale inp inLen outLen := by
  rintro ⟨n, s, hs, hslot, -, hlt, -⟩
  by_cases hn : n < k
  · have hall := hidx n hn
    rw [hs] at hall
    exact hslot (of_decide_eq_true hall)
  · obtain ⟨m, rfl⟩ := Nat.exists_eq_add_of_le (not_lt.mp hn)
    rw [cleanRun, loop_add] at hs
    obtain ⟨t, ht, hs⟩ := Option.bind_eq_some_iff.mp hs
    rw [cleanRun, ht] at hend
    have hend : inLen ≤ t.ip + 2 := of_decide_eq_true hend
    rw [loop_done (by omega)] at hs
    cases hs
    omega

/-- The state once `ip` is in the table. -/
def State.enter (base : Nat) (hval : UInt32) (s : State) : State :=
  { s with hval, htab := Function.update s.htab (idx hval) (base + s.ip) }

theorem step_eq (s : State) :
    step inp inLen base outLen s =
      if isMatch inp inLen base (s.htab (idx (next s.hval inp s.ip))) s.ip then
        emitRef inp inLen base outLen (s.enter base (next s.hval inp s.ip))
          (s.htab (idx (next s.hval inp s.ip)))
      else if outLen ≤ (s.enter base (next s.hval inp s.ip)).op then none
      else some ((s.enter base (next s.hval inp s.ip)).pushLit (inp s.ip)) := rfl

theorem isMatch_null (ip : Nat) : isMatch inp inLen base 0 ip = false := by
  simp [isMatch]

/-- Only the distance of `ref` from the input's address counts. -/
theorem isMatch_shift (base p ip : Nat) :
    isMatch inp inLen base (base + p) ip = isMatch inp inLen 1 (1 + p) ip := by
  simp only [isMatch, Nat.add_lt_add_iff_left, Nat.add_sub_add_left, Nat.add_sub_cancel_left,
    Nat.lt_add_right_iff_pos]

/-! ## Two tables -/

/-- Two states that differ in the table only: a slot that the run has written leads to the
same position in both, and the others are as they were. -/
structure Same (base : Nat) (htab : Nat → Nat) (s t : State) : Prop where
  ip : t.ip = s.ip
  out : t.out = s.out
  lits : t.lits = s.lits
  hval : t.hval = s.hval
  tab : ∀ k, (∃ p, s.htab k = 1 + p ∧ t.htab k = base + p) ∨
    s.htab k = 0 ∧ t.htab k = Function.update htab 0 0 k

theorem same_start : Same base htab (start inp fun _ => 0) (start inp htab) :=
  ⟨rfl, rfl, rfl, rfl, fun k => .inr ⟨by simp [start], rfl⟩⟩

/-- Both tables get the same position. -/
theorem update_tab {g : Nat → Nat} (i q : Nat)
    (h : ∀ k, (∃ p, f k = 1 + p ∧ g k = base + p) ∨ f k = 0 ∧ g k = Function.update htab 0 0 k)
    (k : Nat) :
    (∃ p, Function.update f i (1 + q) k = 1 + p ∧ Function.update g i (base + q) k = base + p) ∨
      Function.update f i (1 + q) k = 0 ∧
        Function.update g i (base + q) k = Function.update htab 0 0 k := by
  by_cases hk : k = i
  · subst hk
    exact .inl ⟨q, Function.update_self .., Function.update_self ..⟩
  · rw [Function.update_of_ne hk, Function.update_of_ne hk]
    exact h k

theorem rel_ite {α : Type} {r : α → α → Prop} {c : Prop} [Decidable c] {a b a' b' : Option α}
    (h : Option.Rel r a b) (h' : Option.Rel r a' b') :
    Option.Rel r (if c then a else a') (if c then b else b') := by
  split
  next => exact h
  next => exact h'

section

variable (h : Same base htab s t)
include h

theorem Same.pushLit (b : UInt8) : Same base htab (s.pushLit b) (t.pushLit b) := by
  simp only [State.pushLit, State.stopRun, h.ip, h.lits, h.out, h.hval]
  by_cases hfull : (s.lits ++ [b]).length = 32
  · rw [if_pos hfull, if_pos hfull]
    exact ⟨rfl, rfl, rfl, rfl, h.tab⟩
  · rw [if_neg hfull, if_neg hfull]
    exact ⟨rfl, rfl, rfl, rfl, h.tab⟩

theorem Same.op : t.op = s.op := by
  rw [State.op, State.op, h.out, h.lits]

theorem Same.noLit : t.noLit = s.noLit := by
  rw [State.noLit, State.noLit, h.lits]

theorem Same.stopRun : t.stopRun = s.stopRun := by
  rw [State.stopRun, State.stopRun, h.out, h.lits]

theorem Same.literal (b : UInt8) :
    Option.Rel (Same base htab) (if outLen ≤ s.op then none else some (s.pushLit b))
      (if outLen ≤ t.op then none else some (t.pushLit b)) := by
  rw [h.op]
  exact rel_ite .none (.some (h.pushLit b))

theorem Same.emitRef (p : Nat) :
    Option.Rel (Same base htab) (emitRef inp inLen 1 outLen s (1 + p))
      (emitRef inp inLen base outLen t (base + p)) := by
  simp only [Lzf.emitRef, h.op, h.noLit, h.stopRun, h.ip, Nat.add_sub_add_left,
    Nat.add_sub_cancel_left]
  refine rel_ite .none (rel_ite (.some ?_) (.some ?_))
  · exact ⟨rfl, rfl, rfl, h.hval, h.tab⟩
  · exact ⟨rfl, rfl, rfl, rfl, update_tab _ _ h.tab⟩

theorem Same.enter (hval : UInt32) : Same base htab (s.enter 1 hval) (t.enter base hval) := by
  unfold State.enter
  rw [h.ip]
  exact ⟨rfl, h.out, h.lits, rfl, update_tab _ _ h.tab⟩

/-- One iteration goes the same way, unless the old entry matters. -/
theorem Same.step (hexp : ¬ Exposed inp inLen s) :
    Option.Rel (Same base htab) (step inp inLen 1 outLen s) (step inp inLen base outLen t) := by
  rw [step_eq, step_eq, h.ip, h.hval]
  unfold Exposed at hexp
  generalize next s.hval inp s.ip = hval at hexp ⊢
  rcases h.tab (idx hval) with ⟨p, h₁, h₂⟩ | ⟨h₁, h₂⟩
  · -- written by the run
    rw [h₁, h₂, isMatch_shift base]
    exact rel_ite ((h.enter hval).emitRef p) ((h.enter hval).literal _)
  · -- not written: the entry is not taken
    have hno : isMatch inp inLen base (t.htab (idx hval)) s.ip = false := by
      rw [h₂]
      by_cases hi : idx hval = 0
      · rw [hi, Function.update_self, isMatch_null]
      · rw [Function.update_of_ne hi, Bool.eq_false_iff]
        intro hm
        obtain ⟨hb, hlt, hoff, hend, hag⟩ := isMatch_spec hm
        exact hexp ⟨hi, h₁, hend, _, by omega, by omega, by omega, hag⟩
    rw [h₁, hno, isMatch_null]
    exact (h.enter hval).literal _

end

theorem Same.run (hst : ¬ Stale inp inLen outLen) (base : Nat) (htab : Nat → Nat) (n : Nat) :
    Option.Rel (Same base htab) (cleanRun inp inLen outLen n)
      (loop inp inLen base outLen n (start inp htab)) := by
  induction n with
  | zero => exact .some same_start
  | succ n ih =>
    unfold cleanRun at ih ⊢
    rw [loop_add, loop_add]
    generalize hs : loop inp inLen 1 outLen n (start inp fun _ => 0) = o₁ at ih ⊢
    generalize loop inp inLen base outLen n (start inp htab) = o₂ at ih ⊢
    cases ih with
    | none => exact .none
    | @some s t h =>
      rw [Option.bind_some, Option.bind_some]
      by_cases hlt : s.ip + 2 < inLen
      · rw [loop_one hlt, loop_one (by rw [h.ip]; exact hlt)]
        exact h.step fun hexp => hst ⟨n, s, hs, hexp⟩
      · rw [loop_done hlt, loop_done (by rw [h.ip]; exact hlt)]
        exact .some h

theorem Same.lastLits (h : Same base htab s t) (inp : Mem) (inLen n : Nat) :
    Same base htab (lastLits inp inLen n s) (lastLits inp inLen n t) := by
  induction n generalizing s t with
  | zero => exact h
  | succ n ih =>
    rw [Lzf.lastLits, Lzf.lastLits, h.ip]
    split
    next => exact ih (h.pushLit _)
    next => exact h

theorem Same.finish (h : Same base htab s t) :
    Lzf.finish inp inLen outLen t = Lzf.finish inp inLen outLen s := by
  have hl := h.lastLits inp inLen inLen
  unfold Lzf.finish
  rw [h.op, hl.stopRun]

/-! ## An old entry that matters -/

/-- The state with an old entry `v` in slot `k`. -/
def State.plant (k v : Nat) (s : State) : State :=
  { s with htab := Function.update s.htab k v }

variable {s' : State} {k v : Nat}

theorem plant_start (hk : k ≠ 0) :
    start inp (Function.update (fun _ => 0) k v) = (start inp fun _ => 0).plant k v := by
  unfold start State.plant
  rw [Function.update_comm hk]

theorem plant_pushLit (b : UInt8) : (s.plant k v).pushLit b = (s.pushLit b).plant k v := by
  unfold State.pushLit State.plant State.stopRun
  simp only
  split
  next => rfl
  next => rfl

theorem ne_of_update_eq_zero {i : Nat} (h : Function.update f i (1 + n) k = 0) :
    i ≠ k ∧ f k = 0 := by
  by_cases hik : k = i
  · rw [hik, Function.update_self] at h
    omega
  · rw [Function.update_of_ne hik] at h
    exact ⟨Ne.symm hik, h⟩

theorem emitRef_plant {ref : Nat} (h : emitRef inp inLen 1 outLen s ref = some s')
    (hk : s'.htab k = 0) :
    s.htab k = 0 ∧ emitRef inp inLen 1 outLen (s.plant k v) ref = some (s'.plant k v) := by
  simp only [emitRef] at h
  split at h
  next => cases h
  next hfull =>
    split at h
    next hend =>
      cases h
      exact ⟨hk, (if_neg hfull).trans (if_pos hend)⟩
    next hend =>
      cases h
      obtain ⟨hik, hk⟩ := ne_of_update_eq_zero hk
      refine ⟨hk, ((if_neg hfull).trans (if_neg hend)).trans ?_⟩
      simp only [State.plant, State.stopRun]
      rw [Function.update_comm hik.symm]
      rfl

theorem pushLit_htab (b : UInt8) : (s.pushLit b).htab = s.htab := by
  unfold State.pushLit
  simp only
  split
  next => rfl
  next => rfl

theorem plant_enter {hval : UInt32} (hik : idx hval ≠ k) :
    (s.plant k v).enter 1 hval = (s.enter 1 hval).plant k v := by
  simp only [State.plant, State.enter]
  rw [Function.update_comm hik.symm]

theorem step_plant (h : step inp inLen 1 outLen s = some s') (hk : s'.htab k = 0) :
    s.htab k = 0 ∧ step inp inLen 1 outLen (s.plant k v) = some (s'.plant k v) := by
  rw [step_eq] at h
  rw [step_eq, show (s.plant k v).hval = s.hval from rfl, show (s.plant k v).ip = s.ip from rfl]
  generalize next s.hval inp s.ip = hval at h ⊢
  have hsame : idx hval ≠ k → (s.plant k v).htab (idx hval) = s.htab (idx hval) :=
    fun hik => Function.update_of_ne hik ..
  split at h
  next hm =>
    obtain ⟨hk₁, he⟩ := emitRef_plant (v := v) h hk
    obtain ⟨hik, hk'⟩ := ne_of_update_eq_zero hk₁
    refine ⟨hk', ?_⟩
    rw [hsame hik, plant_enter hik, if_pos hm, he]
  next hm =>
    split at h
    next => cases h
    next hfull =>
      cases h
      rw [pushLit_htab] at hk
      obtain ⟨hik, hk'⟩ := ne_of_update_eq_zero hk
      refine ⟨hk', ?_⟩
      rw [hsame hik, plant_enter hik, if_neg hm, plant_pushLit]
      exact if_neg hfull

theorem loop_plant (h : loop inp inLen 1 outLen n s = some s') (hk : s'.htab k = 0) :
    s.htab k = 0 ∧ loop inp inLen 1 outLen n (s.plant k v) = some (s'.plant k v) := by
  induction n generalizing s with
  | zero =>
    cases h
    exact ⟨hk, rfl⟩
  | succ n ih =>
    rw [loop] at h ⊢
    split at h
    next hlt =>
      obtain ⟨s₁, hs₁, h⟩ := Option.bind_eq_some_iff.mp h
      obtain ⟨hk₁, hrun⟩ := ih h
      obtain ⟨hk₀, hstep⟩ := step_plant (v := v) hs₁ hk₁
      refine ⟨hk₀, ?_⟩
      rw [if_pos (show (s.plant k v).ip + 2 < inLen from hlt), hstep, Option.bind_some, hrun]
    next hge =>
      cases h
      exact ⟨hk, if_neg hge⟩

end Lzf

open Lzf Option

/-- If no old entry can matter, the result does not depend on the table and the address. -/
theorem lzfCompress_eq_clean {inp : Mem} {inLen outLen : Nat} (hst : ¬ Stale inp inLen outLen)
    (base : Nat) (htab : Nat → Nat) :
    lzfCompress inp inLen outLen base htab = lzfCompress inp inLen outLen 1 fun _ => 0 := by
  unfold lzfCompress
  split
  next => rfl
  have h := Same.run hst base htab inLen
  unfold cleanRun at h
  generalize loop inp inLen 1 outLen inLen (start inp fun _ => 0) = o₁ at h ⊢
  generalize loop inp inLen base outLen inLen (start inp htab) = o₂ at h ⊢
  cases h with
  | none => rfl
  | some h => rw [bind_some, bind_some, h.finish]

variable {out : List UInt8}

theorem lzfCompress_via {inp : Mem} {inLen outLen base n : Nat} {htab : Nat → Nat} {s : State}
    (hs : loop inp inLen base outLen n (start inp htab) = some s) (hn : n < inLen)
    (hlt : s.ip + 2 < inLen) (h : lzfCompress inp inLen outLen base htab = some out) :
    ∃ s₁ m, step inp inLen base outLen s = some s₁ ∧
      (loop inp inLen base outLen m s₁).bind (Lzf.finish inp inLen outLen) = some out := by
  obtain ⟨m, rfl⟩ := Nat.exists_eq_add_of_lt hn
  unfold lzfCompress at h
  split at h
  next => cases h
  rw [Nat.add_assoc, loop_add, ← Nat.add_assoc, hs, bind_some, loop, if_pos hlt,
    bind_assoc] at h
  obtain ⟨s₁, hs₁, h⟩ := bind_eq_some_iff.mp h
  exact ⟨s₁, m, hs₁, h⟩

/-- A run that puts a literal at `ip`, and one that comes to the same place and finds a match,
have different results. -/
theorem out_ne_of_literal_of_ref {inp : Mem} {inLen outLen base base' ref m m' : Nat}
    {s t t₁ : State} {ts : List Token} {out' : List UInt8} (hs : Coded inp s ts)
    (ht : Coded inp t ts) (hlits : t.lits = s.lits) (hip : s.ip < inLen)
    (hm : isMatch inp inLen base' ref t.ip = true)
    (ht₁ : emitRef inp inLen base' outLen t ref = some t₁)
    (h : (loop inp inLen base outLen m (s.pushLit (inp s.ip))).bind (Lzf.finish inp inLen outLen)
      = some out)
    (h' : (loop inp inLen base' outLen m' t₁).bind (Lzf.finish inp inLen outLen) = some out') :
    out ≠ out' := by
  obtain ⟨us, hc, hmarks⟩ := hs.pushLit
  obtain ⟨us', n, hc', hmarks', -, hip'⟩ := ht.emitRef hm ht₁
  obtain ⟨vs, d, rfl, hdec, hvs⟩ := hc.finish (by rw [pushLit_ip]; exact hip) h
  obtain ⟨vs', d', rfl, hdec', hvs'⟩ := hc'.finish hip' h'
  intro heq
  obtain rfl := encode_inj hdec.ok hdec'.ok heq
  rw [hmarks] at hvs
  rw [hmarks', State.marks, hlits, hvs, ← State.marks, List.append_assoc, List.append_assoc]
    at hvs'
  have := List.append_cancel_left hvs'
  rw [List.replicate_succ] at this
  cases this

theorem exists_other_table {inp : Mem} {inLen outLen : Nat} (h : Stale inp inLen outLen) :
    ∃ htab, ∀ out out', lzfCompress inp inLen outLen 1 (fun _ => 0) = some out →
      lzfCompress inp inLen outLen 1 htab = some out' → out ≠ out' := by
  obtain ⟨n, s, hs, hk, hslot, hend, r, hr, hlt, hoff, hag⟩ := h
  unfold cleanRun at hs
  obtain ⟨ts, d, hc, -, hip, hn⟩ := (coded_start fun _ => 0).loop (Nat.zero_le _) hs
  have hn' : 0 + n ≤ s.ip := hn (by omega)
  have hs' := (loop_plant (v := 1 + r) hs hslot).2
  rw [← plant_start hk] at hs'
  refine ⟨Function.update (fun _ => 0) (idx (next s.hval inp s.ip)) (1 + r),
    fun out out' ho ho' => ?_⟩
  obtain ⟨s₁, m, hs₁, hrun⟩ := lzfCompress_via hs (by omega) (by omega) ho
  obtain ⟨t₁, m', ht₁, hrun'⟩ := lzfCompress_via hs' (by omega) (show s.ip + 2 < inLen by omega) ho'
  have hm : isMatch inp inLen 1 (1 + r) s.ip = true := by
    simp only [isMatch, Bool.and_eq_true, decide_eq_true_eq, beq_iff_eq, Nat.add_sub_cancel_left]
    exact ⟨⟨⟨⟨⟨⟨by omega, by omega⟩, hend⟩, by omega⟩, hag 0 (by omega)⟩, hag 1 (by omega)⟩,
      hag 2 (by omega)⟩
  -- from the empty table, a literal; with the entry in it, a match
  rw [step_eq, hslot, isMatch_null, if_neg Bool.false_ne_true] at hs₁
  rw [step_eq, show (s.plant _ (1 + r)).hval = s.hval from rfl,
    show (s.plant _ (1 + r)).ip = s.ip from rfl,
    show (s.plant _ (1 + r)).htab _ = 1 + r from Function.update_self .., if_pos hm] at ht₁
  split at hs₁
  next => cases hs₁
  cases hs₁
  exact out_ne_of_literal_of_ref (s := s.enter 1 (next s.hval inp s.ip))
    (t := (s.plant _ (1 + r)).enter 1 (next s.hval inp s.ip))
    ⟨hc.out, hc.decodes, hc.lits, hc.short⟩ ⟨hc.out, hc.decodes, hc.lits, hc.short⟩ rfl
    (show s.ip < inLen by omega) hm ht₁ hrun hrun'

end OpenIsr.Crypto
