import Mathlib.Data.List.Nodup

/-!
# Rows of a table

A database table is a list of rows in the order they were inserted. `updateWhere` is
`UPDATE ... SET ... WHERE ...`: it replaces rows in place, so the table keeps its length and,
if the new rows keep their key, its keys. What an invariant needs of an update is then only
that the rows it touches are still in order, and which rows it does not touch.
-/

namespace OpenIsr.Base

open List

variable {α β : Type} {y : α}

/-- `UPDATE rows SET f WHERE p`. -/
def updateWhere (rows : List α) (p : α → Bool) (f : α → α) : List α :=
  rows.map fun x => if p x then f x else x

variable {rows : List α} {p : α → Bool} {f : α → α} {key : α → β} {x : α}

theorem mem_updateWhere :
    y ∈ updateWhere rows p f ↔ ∃ x ∈ rows, (p x = true ∧ y = f x) ∨ (p x = false ∧ y = x) := by
  unfold updateWhere
  rw [mem_map]
  constructor
  · rintro ⟨x, hx, rfl⟩
    refine ⟨x, hx, ?_⟩
    cases hp : p x with
    | true => exact .inl ⟨rfl, if_pos rfl⟩
    | false => exact .inr ⟨rfl, if_neg (by simp)⟩
  · rintro ⟨x, hx, ⟨hp, rfl⟩ | ⟨hp, rfl⟩⟩
    · exact ⟨x, hx, if_pos hp⟩
    · exact ⟨y, hx, if_neg (by simp [hp])⟩

theorem mem_updateWhere_of_not (hx : x ∈ rows) (hp : p x = false) :
    x ∈ updateWhere rows p f := mem_updateWhere.mpr ⟨x, hx, .inr ⟨hp, rfl⟩⟩

theorem mem_updateWhere_of (hx : x ∈ rows) (hp : p x = true) :
    f x ∈ updateWhere rows p f := mem_updateWhere.mpr ⟨x, hx, .inl ⟨hp, rfl⟩⟩

/-- An update that keeps a column of the rows it asks for keeps the column. -/
theorem map_updateWhere (h : ∀ x, key (f x) = key x) :
    (updateWhere rows p f).map key = rows.map key := by
  unfold updateWhere
  rw [map_map]
  refine map_congr_left fun x _ => ?_
  show key (if p x then f x else x) = key x
  split
  next => exact h x
  next => rfl

theorem updateWhere_eq_self (h : ∀ x ∈ rows, p x = false) : updateWhere rows p f = rows := by
  refine (map_congr_left fun x hx => ?_).trans (map_id rows)
  rw [h x hx]
  rfl

theorem nodup_insert (h : (rows.map key).Nodup) (hx : key x ∉ rows.map key) :
    ((rows ++ [x]).map key).Nodup := by
  rw [map_append, nodup_append]
  refine ⟨h, nodup_singleton _, ?_⟩
  rintro a ha _ hb rfl
  rw [mem_singleton.mp hb] at ha
  exact hx ha

theorem eq_of_key (h : (rows.map key).Nodup) (hx : x ∈ rows) (hy : y ∈ rows) (hxy : key x = key y) :
    x = y := inj_on_of_nodup_map h hx hy hxy

theorem find?_of_key [DecidableEq β] (h : (rows.map key).Nodup) (hx : x ∈ rows) :
    rows.find? (key · = key x) = some x := by
  have hsome : (rows.find? (key · = key x)).isSome = true :=
    find?_isSome.mpr ⟨x, hx, decide_eq_true rfl⟩
  obtain ⟨y, hy⟩ := Option.isSome_iff_exists.mp hsome
  have hkey : key y = key x := by simpa using find?_some hy
  rw [hy, eq_of_key h (mem_of_find?_eq_some hy) hx hkey]

/-! ## A column that may be NULL

`UNIQUE` lets any number of rows have NULL. -/

section column

variable {γ : Type} {col : α → Option γ} {c : γ}

/-- At most one row has the value. -/
def OnceIn (rows : List α) (col : α → Option γ) (c : γ) : Prop :=
  ∀ x ∈ rows, ∀ y ∈ rows, col x = some c → col y = some c → x = y

theorem onceIn_of_nodup (h : (rows.filterMap col).Nodup) (c : γ) : OnceIn rows col c := by
  induction rows with
  | nil => exact fun x hx => nomatch hx
  | cons r rows ih =>
    intro x hx y hy hxc hyc
    have hrest : (rows.filterMap col).Nodup :=
      h.sublist ((sublist_cons_self r rows).filterMap col)
    -- if the first row has the value, no other one does
    have hfirst : col r = some c → ∀ z ∈ rows, col z ≠ some c := by
      intro hr z hz hzc
      rw [filterMap_cons_some hr] at h
      exact (nodup_cons.mp h).1 (mem_filterMap.mpr ⟨z, hz, hzc⟩)
    rcases mem_cons.mp hx with rfl | hx' <;> rcases mem_cons.mp hy with rfl | hy'
    · rfl
    · exact absurd hyc (hfirst hxc y hy')
    · exact absurd hxc (hfirst hyc x hx')
    · exact ih hrest x hx' y hy' hxc hyc

/-- `SET col = NULL` keeps it unique, -/
theorem OnceIn.updateWhere (h : OnceIn rows col c) (hf : ∀ x, col (f x) = none) :
    OnceIn (updateWhere rows p f) col c := by
  have hrow : ∀ y ∈ Base.updateWhere rows p f, col y = some c → y ∈ rows := by
    intro y hy hyc
    obtain ⟨x, hx, ⟨-, rfl⟩ | ⟨-, rfl⟩⟩ := mem_updateWhere.mp hy
    · cases (hf x).symm.trans hyc
    · exact hx
  exact fun x hx y hy hxc hyc => h x (hrow x hx hxc) y (hrow y hy hyc) hxc hyc

/-- and what a query for the value finds is the row that it found before, unless that is among
those. -/
theorem OnceIn.find?_updateWhere [DecidableEq γ] (h : OnceIn rows col c)
    (hf : ∀ x, col (f x) = none) {x : α} (hx : x ∈ rows) (hxc : col x = some c) :
    (Base.updateWhere rows p f).find? (col · = some c) = if p x then none else some x := by
  have hfound : ∀ y ∈ Base.updateWhere rows p f, col y = some c → y = x ∧ p x = false := by
    intro y hy hyc
    obtain ⟨z, hz, ⟨-, rfl⟩ | ⟨hp, rfl⟩⟩ := mem_updateWhere.mp hy
    · cases (hf z).symm.trans hyc
    · obtain rfl := h y hz x hx hyc hxc
      exact ⟨rfl, hp⟩
  cases hp : p x with
  | true =>
    refine find?_eq_none.mpr fun y hy hyc => ?_
    cases hp.symm.trans (hfound y hy (of_decide_eq_true hyc)).2
  | false =>
    have hmem := mem_updateWhere_of_not (f := f) hx hp
    have hsome : ((Base.updateWhere rows p f).find? (col · = some c)).isSome = true :=
      find?_isSome.mpr ⟨x, hmem, decide_eq_true hxc⟩
    obtain ⟨y, hy⟩ := Option.isSome_iff_exists.mp hsome
    have hyc : col y = some c := by simpa using find?_some hy
    rw [hy, (hfound y (mem_of_find?_eq_some hy) hyc).1]
    rfl

end column

end OpenIsr.Base
