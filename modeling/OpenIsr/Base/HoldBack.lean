import Mathlib.Data.List.Basic

/-!
# Holding back the end of a stream

A stage that processes whole blocks, and treats the end of its input in a special way, can not
process the last block it has until it knows that more follows. `HeldBack` says what such a stage
has done with a message: everything but the end has been processed, in whole blocks, and the end is
no more than one block and only empty if there was nothing.

`HeldBack.more` is one more piece of the message, and `HeldBack.finish` is the end. How the message
was cut into pieces shows in neither.
-/

namespace OpenIsr.Base

variable {α β σ : Type}

/-- Processing whole blocks of `B` in one go or in two makes no difference. -/
structure Blockwise (B : Nat) (run : σ → List α → List β × σ) : Prop where
  nil : ∀ s, run s [] = ([], s)
  append : ∀ s a b, a.length % B = 0 → b.length % B = 0 →
    run s (a ++ b) = ((run s a).1 ++ (run (run s a).2 b).1, (run (run s a).2 b).2)

/-- Of `m` everything but `held` has been processed, which took `s₀` to `s` and gave `out`. -/
def HeldBack (B : Nat) (run : σ → List α → List β × σ) (s₀ : σ) (m : List α) (s : σ)
    (held : List α) (out : List β) : Prop :=
  ∃ front, m = front ++ held ∧ front.length % B = 0 ∧ held.length ≤ B ∧ (held = [] → m = []) ∧
    run s₀ front = (out, s)

variable {B : Nat} {run : σ → List α → List β × σ} {s₀ s : σ} {m held : List α} {out : List β}

theorem HeldBack.nil (hrun : Blockwise B run) (s₀ : σ) : HeldBack B run s₀ [] s₀ [] [] :=
  ⟨[], rfl, Nat.zero_mod B, Nat.zero_le B, fun _ => rfl, hrun.nil s₀⟩

theorem HeldBack.more (hrun : Blockwise B run) (h : HeldBack B run s₀ m s held out)
    {piece blocks held' : List α} (hcut : held ++ piece = blocks ++ held')
    (hblocks : blocks.length % B = 0) (hle : held'.length ≤ B)
    (hempty : held' = [] → held ++ piece = []) :
    HeldBack B run s₀ (m ++ piece) (run s blocks).2 held' (out ++ (run s blocks).1) := by
  obtain ⟨front, rfl, hfront, -, hnil, hrunFront⟩ := h
  refine ⟨front ++ blocks, ?_, ?_, hle, fun hheld' => ?_, ?_⟩
  · rw [List.append_assoc, hcut, List.append_assoc]
  · rw [List.length_append, Nat.add_mod, hfront, hblocks, Nat.zero_add, Nat.zero_mod]
  · obtain ⟨hheld, hpiece⟩ := List.append_eq_nil_iff.mp (hempty hheld')
    rw [hnil hheld, hpiece]
    rfl
  · rw [hrun.append _ _ _ hfront hblocks, hrunFront]

/-- The end: a function of the whole message that works on the end alone, after everything in front
of it has been processed. -/
theorem HeldBack.finish {γ : Type} (h : HeldBack B run s₀ m s held out) {whole : List α → γ}
    {last : List β → σ → List α → γ}
    (hlast : ∀ front held, front.length % B = 0 → held.length ≤ B → (held = [] → front = []) →
      whole (front ++ held) = last (run s₀ front).1 (run s₀ front).2 held) :
    whole m = last out s held := by
  obtain ⟨front, rfl, hfront, hle, hnil, hrunFront⟩ := h
  rw [hlast front held hfront hle fun h => (List.append_eq_nil_iff.mp (hnil h)).1, hrunFront]

end OpenIsr.Base
