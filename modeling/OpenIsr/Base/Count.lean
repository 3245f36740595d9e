import Mathlib.Data.Fintype.Card
import Mathlib.Data.Finset.Card

/-!
# Counting what a pointwise change moves

Two counters recur in models of shared structures: how many threads are in some
condition (`countT`, over a finite type of threads) and how many members of a list
have some attribute (`List.countP`). A step changes one thread, or one member, so each
counter moves by at most one; the lemmas here say by how much.
-/

namespace OpenIsr.Base

open List

/-- A pointwise update that keeps a component keeps it everywhere. -/
theorem update_proj {T R β : Type} [DecidableEq T] {ρ : T → R} {t : T} {r : R} (f : R → β)
    (h : f r = f (ρ t)) (u : T) : f (Function.update ρ t r u) = f (ρ u) := by
  by_cases hu : u = t
  · subst hu; rw [Function.update_self, h]
  · rw [Function.update_of_ne hu]

section threads

variable {T : Type} [Fintype T]

/-- How many threads satisfy `p`. -/
def countT (p : T → Prop) [DecidablePred p] : Nat := (Finset.univ.filter p).card

variable {p q : T → Prop} [DecidablePred p] [DecidablePred q] {t : T}

theorem countT_eq_zero : countT p = 0 ↔ ∀ t, ¬ p t := by
  unfold countT
  rw [Finset.card_eq_zero, Finset.filter_eq_empty_iff]
  simp

theorem countT_congr (h : ∀ t, p t ↔ q t) : countT p = countT q := by
  unfold countT
  congr 1
  ext t
  simp [h t]

/-- One thread enters the condition: the counter grows by one. -/
theorem countT_enter (hp : ¬ p t) (hq : q t) (hne : ∀ u, u ≠ t → (q u ↔ p u)) :
    countT q = countT p + 1 := by
  classical
  unfold countT
  have hins : Finset.univ.filter q = insert t (Finset.univ.filter p) := by
    ext u
    by_cases hu : u = t
    · subst hu; simp [hq]
    · simp [hu, hne u hu]
  rw [hins, Finset.card_insert_of_notMem (by simp [hp])]

/-- One thread leaves the condition: the counter shrinks by one. -/
theorem countT_leave (hp : p t) (hq : ¬ q t) (hne : ∀ u, u ≠ t → (q u ↔ p u)) :
    countT q + 1 = countT p :=
  (countT_enter hq hp fun u hu => (hne u hu).symm).symm

theorem countT_mono (h : ∀ t, p t → q t) : countT p ≤ countT q := by
  refine Finset.card_le_card fun t ht => ?_
  rw [Finset.mem_filter] at ht ⊢
  exact ⟨ht.1, h t ht.2⟩

theorem countT_exists (h : 0 < countT p) : ∃ t, p t := by
  by_contra hno
  rw [countT_eq_zero.mpr fun t ht => hno ⟨t, ht⟩] at h
  exact lt_irrefl 0 h

/-- Only `t` leaves the condition. -/
theorem countT_le_succ [DecidableEq T] (h : ∀ u, u ≠ t → p u → q u) : countT p ≤ countT q + 1 := by
  have hsub : Finset.univ.filter p ⊆ insert t (Finset.univ.filter q) := by
    intro u hu
    rw [Finset.mem_filter] at hu
    by_cases hut : u = t
    · rw [hut]
      exact Finset.mem_insert_self ..
    · exact Finset.mem_insert_of_mem (by simp [h u hut hu.2])
  exact (Finset.card_le_card hsub).trans (Finset.card_insert_le ..)

/-- No thread leaves the condition, and `t` enters it. -/
theorem countT_lt (h : ∀ u, p u → q u) (hp : ¬ p t) (hq : q t) : countT p + 1 ≤ countT q := by
  have hlt : Finset.univ.filter p ⊂ Finset.univ.filter q := by
    refine ⟨fun u hu => ?_, fun hsub => hp ?_⟩
    · rw [Finset.mem_filter] at hu ⊢
      exact ⟨hu.1, h u hu.2⟩
    · exact (Finset.mem_filter.mp (hsub (Finset.mem_filter.mpr ⟨Finset.mem_univ t, hq⟩))).2
  exact Finset.card_lt_card hlt

end threads

section members

variable {α : Type}

/-- One member of a duplicate-free list gains the attribute. -/
theorem countP_gain [DecidableEq α] {p q : α → Bool} {x : α} :
    ∀ {l : List α}, l.Nodup → x ∈ l → p x = false → q x = true →
      (∀ y ∈ l, y ≠ x → p y = q y) → l.countP q = l.countP p + 1 := by
  intro l
  induction l with
  | nil => intro _ hx; cases hx
  | cons y ys ih =>
    intro hnd hx hp hq hne
    obtain ⟨hy, hys⟩ := nodup_cons.mp hnd
    rw [countP_cons, countP_cons]
    rcases mem_cons.mp hx with rfl | hx
    · have hsame : ys.countP q = ys.countP p :=
        countP_congr fun z hz => by
          rw [hne z (mem_cons_of_mem _ hz) fun he => hy (he ▸ hz)]
      simp [hp, hq, hsame]
    · have hyx : y ≠ x := fun he => hy (he ▸ hx)
      rw [ih hys hx hp hq fun z hz hzx => hne z (mem_cons_of_mem _ hz) hzx,
        hne y (mem_cons_self ..) hyx]
      omega

end members

end OpenIsr.Base
