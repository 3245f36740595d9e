import OpenIsr.Fuse.Effect

/-!
# Where the data of a chunk is

`value disk c hist` is what chunk `c` holds on a plain disk to which the writes of the
history have been applied. `DataInv` says where the cache keeps it: in the stored chunk if
the chunk has no entry; in the entry's buffer unless that is still to be filled; and in
both if the entry is clean, unless a failed `cache_update` has left an older chunk stored,
and then the entry has its error flag.

The invariant holds as long as no entry of such a chunk is freed (`freesLost`): with the
entry the only memory of the failure would go.
-/

namespace OpenIsr.Fuse

open List Function Option

variable {P : Parcel} {W : Type} {c e : Nat} {disk : Nat → Data P} {s s' : St P W} {t u : Tid W}
  {p : Pc} {a : Act P W} {d : Data P}

/-! ## The disk that a history describes -/

/-- Chunk `c` of the disk `disk` after the writes of the history. -/
def value (disk : Nat → Data P) (c : Nat) : List (Event P W) → Data P
  | [] => disk c
  | .wrote _ c' w :: h => if c' = c then w.apply (value disk c h) else value disk c h
  | _ :: h => value disk c h

/-- The last `cache_update` of chunk `c` has failed. -/
def failedLast (c : Nat) : List (Event P W) → Bool
  | [] => false
  | .updated c' _ :: h => if c' = c then false else failedLast c h
  | .updateFailed c' _ :: h => if c' = c then true else failedLast c h
  | _ :: h => failedLast c h

/-- `cache_get(c)` returns what the history says, if it succeeds. -/
def Fresh (disk : Nat → Data P) (s : St P W) (c : Nat) : Prop :=
  s.store c = none ∨ s.store c = some (value disk c s.hist)

/-- The last `cache_update` of chunk `c` has failed, and an older chunk is stored. -/
def lost (disk : Nat → Data P) (s : St P W) (c : Nat) : Bool :=
  failedLast c s.hist &&
    match s.store c with
    | some d => decide (d ≠ value disk c s.hist)
    | none => false

theorem fresh_of_not_lost (hf : failedLast c s.hist = true) (hl : lost disk s c = false) :
    Fresh disk s c := by
  unfold lost at hl
  rw [hf, Bool.true_and] at hl
  split at hl
  next d hd =>
    right
    rw [hd, some.injEq]
    simpa using hl
  next hd => exact .inl hd

/-- The stored chunk is up to date, or the entry remembers that it is not. -/
def Settled (disk : Nat → Data P) (s : St P W) (e : Nat) : Prop :=
  Fresh disk s (s.core e).chunk ∨ failedLast (s.core e).chunk s.hist = true ∧
    (s.core e).error = true

/-- Nothing happens to the contents of chunk `c`. -/
structure SameChunk (disk : Nat → Data P) (s s' : St P W) (c : Nat) : Prop where
  store : s'.store c = s.store c
  value : Fuse.value disk c s'.hist = Fuse.value disk c s.hist
  failed : failedLast c s'.hist = failedLast c s.hist

theorem SameChunk.of_eq (disk : Nat → Data P) (hstore : s'.store = s.store)
    (hhist : s'.hist = s.hist) (c : Nat) : SameChunk disk s s' c :=
  ⟨by rw [hstore], by rw [hhist], by rw [hhist]⟩

theorem Fresh.same (h : Fresh disk s c) (hc : SameChunk disk s s' c) : Fresh disk s' c := by
  unfold Fresh
  rw [hc.store, hc.value]
  exact h

theorem Settled.same (h : Settled disk s e) (hchunk : (s'.core e).chunk = (s.core e).chunk)
    (herr : (s'.core e).error = (s.core e).error) (hc : SameChunk disk s s' (s.core e).chunk) :
    Settled disk s' e := by
  unfold Settled
  rw [hchunk, herr, hc.failed]
  exact h.imp_left fun hf => hf.same hc

/-! ## The invariant -/

/-- Where the data of entry `e` is. -/
structure EntData (disk : Nat → Data P) (s : St P W) (e : Nat) : Prop where
  settled : (s.core e).dirty = 0 → (∃ t, (s.pc t).wrote = some e) ∨ Settled disk s e
  filled : ∀ b, (s.core e).data = some b → (s.core e).error = false ∨ (s.core e).dirty ≠ 0 →
    (s.core e).dirty = 0 ∧ (∃ t, (s.pc t).unfilled P = some e) ∨
      s.mem b = value disk (s.core e).chunk s.hist
  failed : ∀ t k, s.pc t = .cleanFailed k e →
    Fresh disk s (s.core e).chunk ∨ failedLast (s.core e).chunk s.hist = true
  cleaned : ∀ t k, s.pc t = .cleanLock k e → Settled disk s e
  clear : ∀ t, (s.pc t).wrote = some e → (s.core e).error = false

/-- Where the data of every chunk is. -/
structure DataInv (disk : Nat → Data P) (s : St P W) : Prop where
  absent : ∀ c, (∀ e ∈ s.tab.chunks, (s.core e).chunk ≠ c) → Fresh disk s c
  ent : ∀ e ∈ s.tab.chunks, EntData disk s e

theorem Pc.wrote_own (h : p.wrote = some e) : e ∈ p.own := by
  cases p with
  | erLock io x failed =>
    simp only [Pc.wrote] at h
    split at h
    next => simpa [Pc.own] using h.symm
    next => cases h
  | _ => cases h

theorem Pc.late_own (h : p.late = some e) : e ∈ p.own := by
  cases p with
  | cleanFailed k x | cleanLock k x =>
    simp only [Pc.late, some.injEq] at h
    simp [Pc.own, h]
  | _ => cases h

theorem Pc.unfilled_own (h : p.unfilled P = some e) : e ∈ p.own := by
  cases p with
  | release k x =>
    cases k with
    | steal io y => simpa [Pc.unfilled, Rel.pending, Pc.own, Rel.own, eq_comm] using Or.inr h
    | _ => cases h
  | eaFill io x | fillFailed io x => simpa [Pc.unfilled, Pc.own, eq_comm] using h
  | ioBody io x =>
    simp only [Pc.unfilled] at h
    split at h
    next => simpa [Pc.own] using h.symm
    next => cases h
  | _ => cases h

section keep

variable [DecidableEq W] {p' : Pc}

theorem Move.self (mv : Move s t p p' s') : s'.pc t = p' := by
  rw [mv.new, update_self]

theorem Move.other (mv : Move s t p p' s') (hu : u ≠ t) : s'.pc u = s.pc u := by
  rw [mv.new, update_of_ne hu]

/-- What some thread says about the data is still said after the step. -/
theorem Move.exists_keep {β : Type} {f : Pc → Option β} {x : β} (mv : Move s t p p' s')
    (hf : f p = some x → f p' = some x) (h : ∃ u, f (s.pc u) = some x) :
    ∃ u, f (s'.pc u) = some x := by
  obtain ⟨u, hu⟩ := h
  by_cases hut : u = t
  · subst hut
    rw [mv.old] at hu
    exact ⟨u, by rw [mv.self]; exact hf hu⟩
  · exact ⟨u, by rw [mv.other hut]; exact hu⟩

theorem EntData.keep (h : EntData disk s e) (mv : Move s t p p' s')
    (hcore : s'.core e = s.core e) (hc : SameChunk disk s s' (s.core e).chunk)
    (hmem : ∀ b, (s.core e).data = some b → s'.mem b = s.mem b)
    (hw : p'.wrote = some e ↔ p.wrote = some e)
    (hu : p.unfilled P = some e → p'.unfilled P = some e) (hl : p'.late ≠ some e) :
    EntData disk s' e := by
  have hsettled : Settled disk s e → Settled disk s' e :=
    fun hx => hx.same (by rw [hcore]) (by rw [hcore]) hc
  constructor
  · intro hd
    rw [hcore] at hd
    exact (h.settled hd).imp (mv.exists_keep hw.mpr) hsettled
  · intro b hb he
    rw [hcore] at hb he ⊢
    rw [hmem b hb, hc.value]
    exact (h.filled b hb he).imp_left fun hx => ⟨hx.1, mv.exists_keep hu hx.2⟩
  · intro u k hp
    by_cases hut : u = t
    · rw [hut, mv.self] at hp
      exact absurd (by rw [hp]; rfl) hl
    · rw [mv.other hut] at hp
      rw [hcore, hc.failed]
      exact (h.failed u k hp).imp_left fun hf => hf.same hc
  · intro u k hp
    by_cases hut : u = t
    · rw [hut, mv.self] at hp
      exact absurd (by rw [hp]; rfl) hl
    · rw [mv.other hut] at hp
      exact hsettled (h.cleaned u k hp)
  · intro u hp
    rw [hcore]
    by_cases hut : u = t
    · rw [hut, mv.self] at hp
      exact h.clear t (by rw [mv.old]; exact hw.mp hp)
    · rw [mv.other hut] at hp
      exact h.clear u hp

/-- An entry that the acting thread holds neither before nor after the step. -/
theorem EntData.other (h : EntData disk s e) (mv : Move s t p p' s')
    (hcore : s'.core e = s.core e) (hc : SameChunk disk s s' (s.core e).chunk)
    (hmem : ∀ b, (s.core e).data = some b → s'.mem b = s.mem b) (ho : e ∉ p.own)
    (ho' : e ∉ p'.own) : EntData disk s' e :=
  h.keep mv hcore hc hmem
    ⟨fun hx => absurd (Pc.wrote_own hx) ho', fun hx => absurd (Pc.wrote_own hx) ho⟩
    (fun hx => absurd (Pc.unfilled_own hx) ho) (fun hx => ho' (Pc.late_own hx))

theorem DataInv.same (h : DataInv disk s) (mv : Move s t p p' s')
    (hw : p'.wrote = p.wrote) (hu : ∀ e, p.unfilled P = some e → p'.unfilled P = some e)
    (hl : p'.late = none) (tab : SameTab s s') (hmem : s'.mem = s.mem)
    (hc : ∀ c, SameChunk disk s s' c) : DataInv disk s' := by
  refine ⟨fun c hno => ?_, fun e he => ?_⟩
  · refine (h.absent c fun e he => ?_).same (hc c)
    have := hno e (by rw [tab.chunks]; exact he)
    rwa [tab.core e he] at this
  · rw [tab.chunks] at he
    exact (h.ent e he).keep mv (tab.core e he) (hc _) (fun b _ => by rw [hmem]) (by rw [hw]) (hu e)
      (by rw [hl]; simp)

end keep

/-! ## One step -/

/-- While FUSE runs, the step frees the entry of a chunk whose last `cache_update` has
failed and left an older chunk that can be read. -/
def freesLost [DecidableEq W] (disk : Nat → Data P) (s : St P W) (a : Act P W) : Bool :=
  match s.pc a.tid with
  | .release _ e =>
    s.pc .main == .running && (s.tab.ents e).waiters == 0 && (s.tab.ents e).data == none &&
      lost disk s (s.tab.ents e).chunk
  | _ => false

theorem lost_eq_false (h : failedLast c s.hist = false) : lost disk s c = false := by
  rw [lost, h, Bool.false_and]

theorem freesLost_eq_false [DecidableEq W] (h : ∀ c, failedLast c s.hist = false) :
    freesLost disk s a = false := by
  unfold freesLost
  split
  next => rw [lost_eq_false (h _), Bool.and_false]
  next => rfl

/-- The step frees entry `e`. -/
def Frees (s : St P W) (a : Act P W) (e : Nat) : Prop :=
  (∃ k, s.pc a.tid = .release k e) ∧ (s.tab.ents e).waiters = 0 ∧ (s.tab.ents e).data = none

theorem Frees.not_lost [DecidableEq W] (hf : Frees s a e) (hrun : s.pc .main = .running)
    (hC : freesLost disk s a = false) : lost disk s (s.core e).chunk = false := by
  obtain ⟨⟨k, hpc⟩, hw, hd⟩ := hf
  simp only [freesLost, hpc, hrun, hw, hd, beq_self_eq_true, Bool.true_and] at hC
  exact hC

section steps

variable [Fintype W] {n b : Nat} {p' : Pc} {io : Io} {k : Clean}

theorem Inv.owner (h : Inv n s) (ht : e ∈ (s.pc t).own) (hu : e ∈ (s.pc u).own) : t = u :=
  (h.tabInv.ent e (h.tabInv.own_live t e ht)).busyOk.excl t u ht hu

/-- Who holds the entry knows what every thread says about it. -/
theorem Inv.says {f : Pc → Option Nat} (h : Inv n s) (hp : s.pc t = p) (ho : e ∈ p.own)
    (hf : ∀ q, f q = some e → e ∈ q.own) (hx : ∃ u, f (s.pc u) = some e) : f p = some e := by
  obtain ⟨u, hu⟩ := hx
  have hut := h.owner (hp ▸ ho : e ∈ (s.pc t).own) (hf _ hu)
  rw [← hut, hp] at hu
  exact hu

theorem Inv.live (h : Inv n s) (hp : s.pc t = p) (ho : e ∈ p.own) :
    e ∈ s.tab.chunks := h.tabInv.own_live t e (by rw [hp]; exact ho)

theorem DataInv.settled_of (hD : DataInv disk s) (h : Inv n s) (hp : s.pc t = p) (ho : e ∈ p.own)
    (hw : p.wrote = none) (hd : (s.core e).dirty = 0) : Settled disk s e := by
  rcases (hD.ent e (h.live hp ho)).settled hd with hx | hx
  · have := h.says hp ho (fun _ => Pc.wrote_own) hx
    rw [hw] at this
    cases this
  · exact hx

omit [Fintype W] in
theorem DataInv.mem_of_dirty (hD : DataInv disk s) (he : e ∈ s.tab.chunks)
    (hb : (s.core e).data = some b) (hd : (s.core e).dirty ≠ 0) :
    s.mem b = value disk (s.core e).chunk s.hist := by
  rcases (hD.ent e he).filled b hb (.inr hd) with hx | hx
  · exact absurd hx.1 hd
  · exact hx

theorem Inv.dirty_of_cleaning (h : Inv n s) (hp : s.pc t = p) (hc : p.cleaning = some e) :
    (s.core e).dirty ≠ 0 := by
  have ho : e ∈ p.own := p.role.clean_own e hc
  exact (h.tabInv.ent e (h.live hp ho)).dirtyOk.clean t (by rw [hp]; exact hc)

theorem Inv.dirty_of_data (h : Inv n s) (he : e ∈ s.tab.chunks) (hd : (s.core e).data = none) :
    (s.core e).dirty = 0 := by
  by_contra hx
  exact (h.tabInv.ent e he).dirtyOk.data hx hd

variable [DecidableEq W]

/-- What the acting thread held nobody else holds. -/
theorem Inv.own_pc (h : Inv n s) (mv : Move s a.tid p p' s') (ho : e ∈ p.own) (u : Tid W)
    (hu : e ∈ (s'.pc u).own) : s'.pc u = p' := by
  by_cases hut : u = a.tid
  · rw [hut, mv.self]
  · rw [mv.other hut] at hu
    exact absurd (h.owner hu (mv.old ▸ ho : e ∈ (s.pc a.tid).own)) hut

theorem Inv.own_new (h : Inv n s) (mv : Move s a.tid p p' s') (hp' : e ∉ p'.own)
    (hnew : e ∉ s.tab.chunks) (u : Tid W) : e ∉ (s'.pc u).own := by
  intro hu
  by_cases hut : u = a.tid
  · rw [hut, mv.self] at hu
    exact hp' hu
  · rw [mv.other hut] at hu
    exact hnew (h.tabInv.own_live u e hu)

/-- The step says nothing new about an entry other than `e`. -/
def Quiets (P : Parcel) (p p' : Pc) (e : Nat) : Prop :=
  ∀ x, x ≠ e → (p'.wrote = some x ↔ p.wrote = some x) ∧
    (p.unfilled P = some x → p'.unfilled P = some x) ∧ p'.late ≠ some x

theorem Quiets.of_own (hp : ∀ x ∈ p.own, x = e) (hp' : ∀ x ∈ p'.own, x = e) :
    Quiets P p p' e := by
  intro x hx
  refine ⟨⟨fun h => ?_, fun h => ?_⟩, fun h => ?_, fun h => ?_⟩
  · exact absurd (hp' x (Pc.wrote_own h)) hx
  · exact absurd (hp x (Pc.wrote_own h)) hx
  · exact absurd (hp x (Pc.unfilled_own h)) hx
  · exact hx (hp' x (Pc.late_own h))

/-- The entry that the acting thread holds: no other thread says anything about it. -/
theorem EntData.held (h : Inv n s) (mv : Move s a.tid p p' s') (ho : e ∈ p.own)
    (hchunk : (s'.core e).chunk = (s.core e).chunk)
    (hsettled : (s'.core e).dirty = 0 → p'.wrote = some e ∨ Settled disk s' e)
    (hfilled : ∀ b, (s'.core e).data = some b → (s'.core e).error = false ∨ (s'.core e).dirty ≠ 0 →
      (s'.core e).dirty = 0 ∧ p'.unfilled P = some e ∨
        s'.mem b = value disk (s.core e).chunk s'.hist)
    (hfailed : ∀ k, p' = .cleanFailed k e →
      Fresh disk s' (s.core e).chunk ∨ failedLast (s.core e).chunk s'.hist = true)
    (hcleaned : ∀ k, p' = .cleanLock k e → Settled disk s' e)
    (hclear : p'.wrote = some e → (s'.core e).error = false) : EntData disk s' e := by
  have hself := fun u => h.own_pc mv ho u
  refine ⟨fun hd => ?_, fun b hb hz => ?_, fun u k hu => ?_, fun u k hu => ?_, fun u hu => ?_⟩
  · exact (hsettled hd).imp_left fun hw => ⟨a.tid, by rw [mv.self]; exact hw⟩
  · rw [hchunk]
    exact (hfilled b hb hz).imp_left fun hx => ⟨hx.1, a.tid, by rw [mv.self]; exact hx.2⟩
  · rw [hchunk]
    exact hfailed k ((hself u (Pc.late_own (by rw [hu]; rfl))).symm.trans hu)
  · exact hcleaned k ((hself u (Pc.late_own (by rw [hu]; rfl))).symm.trans hu)
  · exact hclear (by rw [← hself u (Pc.wrote_own hu)]; exact hu)

omit [DecidableEq W] [Fintype W] in
theorem DataInv.of_ents (hD : DataInv disk s) (he : e ∈ s.tab.chunks)
    (hch : s'.tab.chunks = s.tab.chunks)
    (hchunk : ∀ x ∈ s.tab.chunks, (s'.core x).chunk = (s.core x).chunk)
    (hc : ∀ c, c ≠ (s.core e).chunk → SameChunk disk s s' c)
    (hents : ∀ x ∈ s.tab.chunks, EntData disk s' x) : DataInv disk s' := by
  refine ⟨fun c hno => ?_, fun x hx => hents x (hch ▸ hx)⟩
  have hold : ∀ x ∈ s.tab.chunks, (s.core x).chunk ≠ c := by
    intro x hx
    rw [← hchunk x hx]
    exact hno x (by rw [hch]; exact hx)
  exact (hD.absent c hold).same (hc c fun heq => hold e he heq.symm)

section

variable (hD : DataInv disk s) (h : Inv n s)
include hD h

/-- A step that changes the data of one entry, which its thread holds: what has to be
shown is about that entry and that thread. -/
theorem DataInv.act (mv : Move s a.tid p p' s') (ho : e ∈ p.own) (hq : Quiets P p p' e)
    (hch : s'.tab.chunks = s.tab.chunks) (hchunk : (s'.core e).chunk = (s.core e).chunk)
    (hcore : ∀ x ∈ s.tab.chunks, x ≠ e → s'.core x = s.core x)
    (hmem : ∀ x ∈ s.tab.chunks, x ≠ e → ∀ b, (s.core x).data = some b → s'.mem b = s.mem b)
    (hc : ∀ c, c ≠ (s.core e).chunk → SameChunk disk s s' c)
    (hsettled : (s'.core e).dirty = 0 → p'.wrote = some e ∨ Settled disk s' e)
    (hfilled : ∀ b, (s'.core e).data = some b → (s'.core e).error = false ∨ (s'.core e).dirty ≠ 0 →
      (s'.core e).dirty = 0 ∧ p'.unfilled P = some e ∨
        s'.mem b = value disk (s.core e).chunk s'.hist)
    (hfailed : ∀ k, p' = .cleanFailed k e →
      Fresh disk s' (s.core e).chunk ∨ failedLast (s.core e).chunk s'.hist = true)
    (hcleaned : ∀ k, p' = .cleanLock k e → Settled disk s' e)
    (hclear : p'.wrote = some e → (s'.core e).error = false) : DataInv disk s' := by
  have he := h.live mv.old ho
  refine hD.of_ents he hch (fun x hx => ?_) hc fun x hx => ?_
  · by_cases hxe : x = e
    · rw [hxe, hchunk]
    · rw [hcore x hx hxe]
  · by_cases hxe : x = e
    · rw [hxe]
      exact .held h mv ho hchunk hsettled hfilled hfailed hcleaned hclear
    · obtain ⟨hw, hu, hl⟩ := hq x hxe
      refine (hD.ent x hx).keep mv (hcore x hx hxe) (hc _ ?_) (hmem x hx hxe) hw hu hl
      exact fun heq => hxe (h.tabInv.key x hx e he heq)

theorem DataInv.stored (mv : Move s a.tid (.cleanUpdate k e) (.cleanLock k e) s')
    (hb : (s.core e).data = some b) (tab : SameTab s s') (hmem : s'.mem = s.mem)
    (hstore : s'.store = update s.store (s.core e).chunk (some (s.mem b)))
    (hhist : s'.hist = .updated (s.core e).chunk (s.mem b) :: s.hist) : DataInv disk s' := by
  have ho : e ∈ (Pc.cleanUpdate k e).own := mem_cons_self ..
  have he := h.live mv.old ho
  have hd := h.dirty_of_cleaning mv.old rfl
  have hcore := tab.core e he
  have hval : ∀ c, value disk c s'.hist = value disk c s.hist := fun c => by rw [hhist]; rfl
  refine hD.act h mv ho
    (fun x hx => ⟨⟨nofun, nofun⟩, nofun, fun hl => hx (some.inj hl).symm⟩)
    tab.chunks (by rw [hcore]) (fun x hx _ => tab.core x hx) (fun _ _ _ _ _ => by rw [hmem]) ?_
    (fun hz => absurd (hcore ▸ hz) hd) ?_ nofun (fun _ _ => .inl (.inr ?_)) nofun
  · intro c hc
    refine ⟨by rw [hstore, update_of_ne hc], hval c, ?_⟩
    rw [hhist]
    exact if_neg (Ne.symm hc)
  · intro b' hb' _
    rw [hmem, hval]
    exact .inr (hD.mem_of_dirty he (hcore ▸ hb') hd)
  · rw [hstore, hcore, update_self, hval, hD.mem_of_dirty he hb hd]

theorem DataInv.storeFailed (mv : Move s a.tid (.cleanUpdate k e) (.cleanFailed k e) s')
    (tab : SameTab s s') (hmem : s'.mem = s.mem)
    (hstore : s'.store = update s.store (s.core e).chunk a.left)
    (hhist : s'.hist = .updateFailed (s.core e).chunk a.left :: s.hist) : DataInv disk s' := by
  have ho : e ∈ (Pc.cleanUpdate k e).own := mem_cons_self ..
  have he := h.live mv.old ho
  have hd := h.dirty_of_cleaning mv.old rfl
  have hcore := tab.core e he
  have hval : ∀ c, value disk c s'.hist = value disk c s.hist := fun c => by rw [hhist]; rfl
  refine hD.act h mv ho
    (fun x hx => ⟨⟨nofun, nofun⟩, nofun, fun hl => hx (some.inj hl).symm⟩)
    tab.chunks (by rw [hcore]) (fun x hx _ => tab.core x hx) (fun _ _ _ _ _ => by rw [hmem]) ?_
    (fun hz => absurd (hcore ▸ hz) hd) ?_ (fun _ _ => .inr ?_) nofun nofun
  · intro c hc
    refine ⟨by rw [hstore, update_of_ne hc], hval c, ?_⟩
    rw [hhist]
    exact if_neg (Ne.symm hc)
  · intro b' hb' _
    rw [hmem, hval]
    exact .inr (hD.mem_of_dirty he (hcore ▸ hb') hd)
  · rw [hhist]
    exact if_pos rfl

/-- A step that leaves the buffers, the stored chunks and the history alone and changes
one entry. -/
theorem DataInv.mark {core : Core} (mv : Move s a.tid p p' s') (ho : e ∈ p.own)
    (hq : Quiets P p p' e) (tab : OneEnt s s' e core) (hchunk : core.chunk = (s.core e).chunk)
    (hmem : s'.mem = s.mem) (hstore : s'.store = s.store) (hhist : s'.hist = s.hist)
    (hsettled : core.dirty = 0 → p'.wrote = some e ∨ Settled disk s e ∧
      ((s.core e).error = true → core.error = true))
    (hfilled : ∀ b, core.data = some b → core.error = false ∨ core.dirty ≠ 0 →
      core.dirty = 0 ∧ p'.unfilled P = some e ∨ s.mem b = value disk (s.core e).chunk s.hist)
    (hcleaned : ∀ k, p' = .cleanLock k e → Fresh disk s (s.core e).chunk ∨
      failedLast (s.core e).chunk s.hist = true ∧ core.error = true)
    (hfailed : ∀ k, p' ≠ .cleanFailed k e) (hclear : p'.wrote = some e → core.error = false) :
    DataInv disk s' := by
  have hsame := SameChunk.of_eq disk hstore hhist
  refine hD.act h mv ho hq tab.chunks (by rw [tab.self, hchunk]) (fun x _ hx => tab.other x hx)
    (fun _ _ _ _ _ => by rw [hmem]) (fun c _ => hsame c)
      ?_ ?_ (fun k hk => absurd hk (hfailed k)) ?_ ?_
  · intro hd
    rw [tab.self] at hd
    refine (hsettled hd).imp_right fun hx => ?_
    unfold Settled
    rw [tab.self, hchunk, hhist]
    exact hx.1.imp (fun hf => hf.same (hsame _)) fun hf => ⟨hf.1, hx.2 hf.2⟩
  · intro b hb hz
    rw [tab.self] at hb hz ⊢
    rw [hmem, hhist]
    exact hfilled b hb hz
  · intro k hk
    unfold Settled
    rw [tab.self, hchunk, hhist]
    exact (hcleaned k hk).imp_left fun hf => hf.same (hsame _)
  · intro hw
    rw [tab.self]
    exact hclear hw

theorem DataInv.storeError (mv : Move s a.tid (.cleanFailed k e) (.cleanLock k e) s')
    (tab : OneEnt s s' e { s.core e with error := true }) (hmem : s'.mem = s.mem)
    (hstore : s'.store = s.store) (hhist : s'.hist = s.hist) : DataInv disk s' := by
  have ho : e ∈ (Pc.cleanFailed k e).own := mem_cons_self ..
  have he := h.live mv.old ho
  have hd := h.dirty_of_cleaning mv.old rfl
  refine hD.mark h mv ho
    (fun x hx => ⟨⟨nofun, nofun⟩, nofun, fun hl => hx (some.inj hl).symm⟩)
    tab rfl hmem hstore hhist (fun hz => absurd hz hd)
    (fun b hb _ => .inr (hD.mem_of_dirty he hb hd)) (fun _ _ => ?_) nofun nofun
  exact ((hD.ent e he).failed a.tid k mv.old).imp_right fun hf => ⟨hf, rfl⟩

theorem DataInv.cleaned (mv : Move s a.tid (.cleanLock k e) (k.next e) s')
    (tab : OneEnt s s' e { s.core e with dirty := 0 }) (hmem : s'.mem = s.mem)
    (hstore : s'.store = s.store) (hhist : s'.hist = s.hist) : DataInv disk s' := by
  have ho : e ∈ (Pc.cleanLock k e).own := mem_cons_self ..
  have he := h.live mv.old ho
  have hd := h.dirty_of_cleaning mv.old rfl
  have hw : (k.next e).wrote = none := by cases k <;> rfl
  have hl : (k.next e).late = none := by cases k <;> rfl
  refine hD.mark h mv ho (fun x hx => ⟨by rw [hw]; exact ⟨nofun, nofun⟩, nofun, by rw [hl]; nofun⟩)
    tab rfl hmem hstore hhist (fun _ => .inr ⟨(hD.ent e he).cleaned a.tid k mv.old, id⟩)
    (fun b hb _ => .inr (hD.mem_of_dirty he hb hd)) ?_ ?_ (by rw [hw]; nofun)
  · intro k' hk
    cases k <;> cases hk
  · intro k' hk
    cases k <;> cases hk

theorem DataInv.fillError (mv : Move s a.tid (.fillFailed io e) (.ioBody io e) s')
    (tab : OneEnt s s' e { s.core e with error := true }) (hmem : s'.mem = s.mem)
    (hstore : s'.store = s.store) (hhist : s'.hist = s.hist) : DataInv disk s' := by
  have hz := (h.ok mv.old).2.2
  have ho : e ∈ (Pc.fillFailed io e).own := mem_singleton.mpr rfl
  refine hD.mark h mv ho (.of_own (by simp [Pc.own]) (by simp [Pc.own])) tab rfl hmem hstore hhist
    (fun hd => .inr ⟨hD.settled_of h mv.old ho rfl hd, fun _ => rfl⟩) ?_ nofun nofun nofun
  rintro b hb (hx | hx)
  · cases hx
  · exact absurd hz hx

theorem DataInv.dirtied {d : Nat}
    (mv : Move s a.tid (.erLock io e false) (.release (.request io false) e) s')
    (hw : io.req.isWrite = true) (hd : d ≠ 0) (tab : OneEnt s s' e { s.core e with dirty := d })
    (hmem : s'.mem = s.mem) (hstore : s'.store = s.store) (hhist : s'.hist = s.hist) :
    DataInv disk s' := by
  have ho : e ∈ (Pc.erLock io e false).own := mem_singleton.mpr rfl
  have hent := hD.ent e (h.live mv.old ho)
  refine hD.mark h mv ho (.of_own (by simp [Pc.own]) (by simp [Pc.own, Rel.own])) tab rfl hmem
    hstore hhist (fun hz => absurd hz hd) ?_ nofun nofun nofun
  intro b hb _
  have hclear := hent.clear a.tid (by rw [mv.old]; simp [Pc.wrote, hw])
  rcases hent.filled b hb (.inl hclear) with hx | hx
  · cases h.says mv.old ho (fun _ => Pc.unfilled_own) hx.2
  · exact .inr hx

theorem DataInv.allocated (mv : Move s a.tid (.eaData io e) (.eaFill io e) s')
    (tab : OneEnt s s' e { s.core e with data := some s.tab.nextBuf })
    (hd : (s.core e).data = none) (hmem : s'.mem = update s.mem s.tab.nextBuf a.junk)
    (hstore : s'.store = s.store) (hhist : s'.hist = s.hist) : DataInv disk s' := by
  have ho : e ∈ (Pc.eaData io e).own := mem_singleton.mpr rfl
  have hz := h.dirty_of_data (h.live mv.old ho) hd
  have hsame := SameChunk.of_eq disk hstore hhist
  refine hD.act h mv ho (.of_own (by simp [Pc.own]) (by simp [Pc.own]))
    tab.chunks (by rw [tab.self])
    (fun x _ hx => tab.other x hx) ?_ (fun c _ => hsame c) (fun _ => .inr ?_) (fun b _ _ => .inl ?_)
    nofun nofun nofun
  · intro x hx _ b hb
    rw [hmem, update_of_ne (ne_of_lt (h.tabInv.buf_lt x hx b hb))]
  · exact (hD.settled_of h mv.old ho rfl hz).same (by rw [tab.self]) (by rw [tab.self]) (hsame _)
  · rw [tab.self]
    exact ⟨hz, rfl⟩

theorem DataInv.stolen {r : Nat}
    (mv : Move s a.tid (.eaSteal io e r) (.release (.steal io e) r) s') (hne : e ≠ r)
    (hch : s'.tab.chunks = s.tab.chunks) (hd : (s.core e).data = none)
    (hself : s'.core e = { s.core e with data := some b })
    (hvictim : s'.core r = { s.core r with data := none })
    (hother : ∀ x, x ≠ e → x ≠ r → s'.core x = s.core x) (hmem : s'.mem = s.mem)
    (hstore : s'.store = s.store) (hhist : s'.hist = s.hist) : DataInv disk s' := by
  have hzr := (h.ok mv.old).2.2.2
  have hoe : e ∈ (Pc.eaSteal io e r).own := by simp [Pc.own]
  have hor : r ∈ (Pc.eaSteal io e r).own := by simp [Pc.own]
  have he := h.live mv.old hoe
  have hz := h.dirty_of_data he hd
  have hsame := SameChunk.of_eq disk hstore hhist
  refine hD.of_ents he hch (fun x _ => ?_) (fun c _ => hsame c) fun x hx => ?_
  · by_cases hxe : x = e
    · rw [hxe, hself]
    · by_cases hxr : x = r
      · rw [hxr, hvictim]
      · rw [hother x hxe hxr]
  · by_cases hxe : x = e
    · subst hxe
      refine .held h mv hoe (by rw [hself]) (fun _ => .inr ?_) (fun _ _ _ => .inl ?_)
        nofun nofun nofun
      · exact (hD.settled_of h mv.old hoe rfl hz).same (by rw [hself]) (by rw [hself]) (hsame _)
      · rw [hself]
        exact ⟨hz, rfl⟩
    · by_cases hxr : x = r
      · subst hxr
        refine .held h mv hor (by rw [hvictim]) (fun _ => .inr ?_) ?_ nofun nofun nofun
        · exact (hD.settled_of h mv.old hor rfl hzr).same (by rw [hvictim]) (by rw [hvictim])
            (hsame _)
        · intro b' hb'
          rw [hvictim] at hb'
          cases hb'
      · refine (hD.ent x hx).other mv (hother x hxe hxr) (hsame _) (fun _ _ => by rw [hmem]) ?_ ?_
        · simp [Pc.own, hxe, hxr]
        · simp [Pc.own, Rel.own, hxe, hxr]

end

omit [DecidableEq W] in
theorem Inv.mem_other (h : Inv n s) (he : e ∈ s.tab.chunks) (hb : (s.core e).data = some b)
    (hmem : s'.mem = update s.mem b d) :
    ∀ x ∈ s.tab.chunks, x ≠ e → ∀ b', (s.core x).data = some b' → s'.mem b' = s.mem b' := by
  intro x hx hxe b' hb'
  have hne : b' ≠ b := fun hbb => hxe (h.tabInv.buf_inj x hx e he b (hbb ▸ hb') hb)
  rw [hmem, update_of_ne hne]

section

variable (hD : DataInv disk s) (h : Inv n s)
include hD h

/-- `cache_get` fills the buffer with the stored chunk: it is the chunk's value, unless the
entry has the error flag. -/
theorem DataInv.filled (mv : Move s a.tid (.eaFill io e) (.ioBody io e) s')
    (hb : (s.core e).data = some b) (hd : s.store (s.core e).chunk = some d) (tab : SameTab s s')
    (hmem : s'.mem = update s.mem b d) (hstore : s'.store = s.store)
    (hhist : s'.hist = s.hist) : DataInv disk s' := by
  have hz := (h.ok mv.old).2.2
  have ho : e ∈ (Pc.eaFill io e).own := mem_singleton.mpr rfl
  have he := h.live mv.old ho
  have hcore := tab.core e he
  have hsame := SameChunk.of_eq disk hstore hhist
  have hset := hD.settled_of h mv.old ho rfl hz
  refine hD.act h mv ho (.of_own (by simp [Pc.own]) (by simp [Pc.own])) tab.chunks (by rw [hcore])
    (fun x hx _ => tab.core x hx) (h.mem_other he hb hmem) (fun c _ => hsame c)
    (fun _ => .inr (hset.same (by rw [hcore]) (by rw [hcore]) (hsame _))) ?_ nofun nofun nofun
  intro b' hb' hx
  rw [hcore] at hb' hx
  have herr : (s.core e).error = false := hx.resolve_right fun hx => hx hz
  right
  rw [hb, some.injEq] at hb'
  rw [hmem, ← hb', update_self, hhist]
  rcases hset with (hf | hf) | hf
  · rw [hd] at hf
    cases hf
  · rw [hd, some.injEq] at hf
    exact hf
  · rw [herr] at hf
    cases hf.2

theorem DataInv.fillFailed (mv : Move s a.tid (.eaFill io e) (.fillFailed io e) s')
    (hb : (s.core e).data = some b) (tab : SameTab s s')
    (hmem : s'.mem = update s.mem b a.junk) (hstore : s'.store = s.store)
    (hhist : s'.hist = s.hist) : DataInv disk s' := by
  have hz := (h.ok mv.old).2.2
  have ho : e ∈ (Pc.eaFill io e).own := mem_singleton.mpr rfl
  have he := h.live mv.old ho
  have hcore := tab.core e he
  have hsame := SameChunk.of_eq disk hstore hhist
  refine hD.act h mv ho (.of_own (by simp [Pc.own]) (by simp [Pc.own])) tab.chunks (by rw [hcore])
    (fun x hx _ => tab.core x hx) (h.mem_other he hb hmem) (fun c _ => hsame c)
    (fun _ => .inr ?_) (fun _ _ _ => .inl ⟨by rw [hcore]; exact hz, rfl⟩) nofun nofun nofun
  exact (hD.settled_of h mv.old ho rfl hz).same (by rw [hcore]) (by rw [hcore]) (hsame _)

theorem DataInv.refused (mv : Move s a.tid (.ioBody io e) (.erLock io e true) s')
    (herr : (s.core e).error = true) (tab : SameTab s s') (hmem : s'.mem = s.mem)
    (hstore : s'.store = s.store) (hhist : s'.hist = s.hist) : DataInv disk s' := by
  have ho : e ∈ (Pc.ioBody io e).own := mem_singleton.mpr rfl
  have he := h.live mv.old ho
  have hcore := tab.core e he
  have hsame := SameChunk.of_eq disk hstore hhist
  have hw : (Pc.erLock io e true).wrote = none := by simp [Pc.wrote]
  refine hD.act h mv ho (.of_own (by simp [Pc.own]) (by simp [Pc.own])) tab.chunks (by rw [hcore])
    (fun x hx _ => tab.core x hx) (fun _ _ _ _ _ => by rw [hmem]) (fun c _ => hsame c)
    (fun hz => .inr ?_) ?_ nofun nofun (by rw [hw]; nofun)
  · rw [hcore] at hz
    exact (hD.settled_of h mv.old ho rfl hz).same (by rw [hcore]) (by rw [hcore]) (hsame _)
  · intro b hb hx
    rw [hcore] at hb hx
    have hd : (s.core e).dirty ≠ 0 := hx.resolve_left (by rw [herr]; simp)
    rw [hmem, hhist]
    exact .inr (hD.mem_of_dirty he hb hd)

end

theorem Io.piece_whole (hok : io.Ok P) (hw : io.wholeChunk P = true) :
    io.piece.off = 0 ∧ io.piece.bytes.length = P.chunksize := by
  obtain ⟨⟨-, hin, hbuf, -⟩, hcount, -⟩ := hok
  simp only [Io.wholeChunk, Bool.and_eq_true, beq_iff_eq] at hw
  obtain ⟨hwrite, hlen⟩ := hw
  cases hreq : io.req with
  | read start count | fsync => simp [hreq, Req.isWrite] at hwrite
  | write start buf =>
    simp only [hreq, Req.count] at hcount
    simp only [Io.piece, hreq, length_take, length_drop]
    omega

section

variable (hD : DataInv disk s) (h : Inv n s)
include hD h

/-- The `memcpy` of `image_write`: the buffer holds the new value, also if it was still to
be filled, because then the whole chunk is overwritten. -/
theorem DataInv.written (mv : Move s a.tid (.ioBody io e) (.erLock io e false) s')
    (hw : io.req.isWrite = true) (herr : (s.core e).error = false) (hb : (s.core e).data = some b)
    (tab : SameTab s s') (hmem : s'.mem = update s.mem b (io.piece.apply (s.mem b)))
    (hstore : s'.store = s.store) (hhist : s'.hist = .wrote a.tid io.cur.chunk io.piece :: s.hist) :
    DataInv disk s' := by
  have hio := (h.ok mv.old).1
  have ho : e ∈ (Pc.ioBody io e).own := mem_singleton.mpr rfl
  have he := h.live mv.old ho
  have hcore := tab.core e he
  have hchunk : (s.core e).chunk = io.cur.chunk := hio.2
  have hwrote : (Pc.erLock io e false).wrote = some e := by simp [Pc.wrote, hw]
  refine hD.act h mv ho (.of_own (by simp [Pc.own]) (by simp [Pc.own])) tab.chunks (by rw [hcore])
    (fun x hx _ => tab.core x hx) (h.mem_other he hb hmem) ?_ (fun _ => .inl hwrote) ?_ nofun nofun
    (fun _ => by rw [hcore]; exact herr)
  · intro c hc
    refine ⟨by rw [hstore], ?_, by rw [hhist]; rfl⟩
    rw [hhist]
    exact if_neg (by rw [← hchunk]; exact Ne.symm hc)
  · intro b' hb' _
    right
    rw [hcore, hb, some.injEq] at hb'
    rw [hmem, ← hb', update_self, hhist, hchunk]
    rw [show value disk io.cur.chunk (.wrote a.tid io.cur.chunk io.piece :: s.hist)
      = io.piece.apply (value disk io.cur.chunk s.hist) from if_pos rfl]
    rcases (hD.ent e he).filled b hb (.inl herr) with hx | hx
    · have hun := h.says mv.old ho (fun _ => Pc.unfilled_own) hx.2
      have hwhole : io.wholeChunk P = true := by
        by_contra hn
        simp [Pc.unfilled, hn] at hun
      obtain ⟨hoff, hlen⟩ := Io.piece_whole hio.1 hwhole
      exact Write.apply_whole hoff hlen _ _
    · rw [hx, hchunk]

theorem DataInv.created (mv : Move s a.tid (.eaLock io) (.acqLoop (.request io) e) s')
    (hnew : e ∉ s.tab.chunks) (hkey : ∀ x ∈ s.tab.chunks, (s.core x).chunk ≠ io.cur.chunk)
    (hch : s'.tab.chunks = s.tab.chunks ++ [e])
    (hself : s'.core e = ⟨io.cur.chunk, none, 0, false⟩)
    (hother : ∀ x ∈ s.tab.chunks, s'.core x = s.core x) (hmem : s'.mem = s.mem)
    (hstore : s'.store = s.store) (hhist : s'.hist = s.hist) : DataInv disk s' := by
  have hsame := SameChunk.of_eq disk hstore hhist
  have hmem' : ∀ x, x ∈ s'.tab.chunks ↔ x ∈ s.tab.chunks ∨ x = e := by simp [hch]
  have hno := h.own_new mv nofun hnew
  refine ⟨fun c hc => ?_, fun x hx => ?_⟩
  · refine (hD.absent c fun x hx => ?_).same (hsame c)
    have := hc x ((hmem' x).mpr (.inl hx))
    rwa [hother x hx] at this
  · rcases (hmem' x).mp hx with hx | rfl
    · exact (hD.ent x hx).keep mv (hother x hx) (hsame _) (fun _ _ => by rw [hmem]) ⟨nofun, nofun⟩
        nofun nofun
    · refine ⟨fun _ => .inr (.inl ?_), fun b hb => ?_, fun u k hu => ?_, fun u k hu => ?_,
        fun u hu => absurd (Pc.wrote_own hu) (hno u)⟩
      · rw [hself]
        exact (hD.absent _ hkey).same (hsame _)
      · rw [hself] at hb
        cases hb
      · exact absurd (Pc.late_own (by rw [hu]; rfl)) (hno u)
      · exact absurd (Pc.late_own (by rw [hu]; rfl)) (hno u)

theorem DataInv.freed {k : Rel} (mv : Move s a.tid (.release k e) p' s')
    (calm : Calm P (.release k e) p') (hd : (s.core e).data = none)
    (hlost : lost disk s (s.core e).chunk = false) (hch : s'.tab.chunks = s.tab.chunks.erase e)
    (hcore : ∀ x, s'.core x = s.core x) (hmem : s'.mem = s.mem) (hstore : s'.store = s.store)
    (hhist : s'.hist = s.hist) : DataInv disk s' := by
  have ho : e ∈ (Pc.release k e).own := mem_cons_self ..
  have he := h.live mv.old ho
  have hsame := SameChunk.of_eq disk hstore hhist
  have hmem' : ∀ x, x ∈ s'.tab.chunks ↔ x ≠ e ∧ x ∈ s.tab.chunks := fun x => by
    rw [hch, h.tabInv.nodup.mem_erase_iff]
  have hfresh : Fresh disk s (s.core e).chunk := by
    rcases hD.settled_of h mv.old ho rfl (h.dirty_of_data he hd) with hf | hf
    · exact hf
    · exact fresh_of_not_lost hf.1 hlost
  refine ⟨fun c hc => ?_, fun x hx => ?_⟩
  · by_cases hce : (s.core e).chunk = c
    · exact (hce ▸ hfresh).same (hsame c)
    · refine (hD.absent c fun x hx => ?_).same (hsame c)
      by_cases hxe : x = e
      · rw [hxe]; exact hce
      · have := hc x ((hmem' x).mpr ⟨hxe, hx⟩)
        rwa [hcore x] at this
  · obtain ⟨hxe, hx⟩ := (hmem' x).mp hx
    exact (hD.ent x hx).keep mv (hcore x) (hsame _) (fun _ _ => by rw [hmem])
      (by rw [calm.wrote]) (calm.unfilled x) (by rw [calm.late]; nofun)

/-- `image_shutdown` takes the buffer from a clean entry. -/
theorem DataInv.dropped (mv : Move s a.tid (.shDrop e) (.release .shutdown e) s')
    (hd : (s.core e).dirty = 0) (tab : OneEnt s s' e { s.core e with data := none })
    (hmem : s'.mem = s.mem) (hstore : s'.store = s.store) (hhist : s'.hist = s.hist) :
    DataInv disk s' := by
  have ho : e ∈ (Pc.shDrop e).own := mem_singleton.mpr rfl
  exact hD.mark h mv ho (.of_own (by simp [Pc.own]) (by simp [Pc.own, Rel.own])) tab rfl hmem
    hstore hhist (fun _ => .inr ⟨hD.settled_of h mv.old ho rfl hd, id⟩) nofun nofun nofun nofun

theorem DataInv.step (hE : Effect s a s')
    (hC : ∀ e, Frees s a e → lost disk s (s.core e).chunk = false) : DataInv disk s' := by
  cases hE with
  | dropped mv _ hd tab mem store hist => exact hD.dropped h mv hd tab mem store hist
  | quiet mv calm tab mem store hist =>
    exact hD.same mv calm.wrote calm.unfilled calm.late tab mem (.of_eq _ store hist)
  | called mv calm tab mem store hist | returned mv calm tab mem store hist _ _ =>
    exact hD.same mv calm.wrote calm.unfilled calm.late tab mem fun c =>
      ⟨by rw [store], by rw [hist]; rfl, by rw [hist]; rfl⟩
  | synced mv _ tab mem store hist =>
    exact hD.same mv rfl nofun rfl tab mem (.of_eq _ store hist)
  | created mv hnew hkey chunks self other mem store hist =>
    exact hD.created h mv hnew hkey chunks self other mem store hist
  | taken mv _ tab mem store hist =>
    exact hD.same mv rfl nofun rfl tab mem fun c =>
      ⟨by rw [store], by rw [hist]; rfl, by rw [hist]; rfl⟩
  | allocated mv tab hd mem store hist => exact hD.allocated h mv tab hd mem store hist
  | stolen mv hne chunks hd _ self victim other mem store hist =>
    exact hD.stolen h mv hne chunks hd self victim other mem store hist
  | stored mv _ hb tab mem store hist => exact hD.stored h mv hb tab mem store hist
  | storeFailed mv _ tab mem store hist => exact hD.storeFailed h mv tab mem store hist
  | storeError mv tab mem store hist => exact hD.storeError h mv tab mem store hist
  | cleaned mv tab mem store hist => exact hD.cleaned h mv tab mem store hist
  | freed mv calm hw hd chunks core mem store hist =>
    exact hD.freed h mv calm hd (hC _ ⟨⟨_, mv.old⟩, hw, hd⟩) chunks core mem store hist
  | filled mv hb hd tab mem store hist => exact hD.filled h mv hb hd tab mem store hist
  | fillFailed mv hb _ tab mem store hist => exact hD.fillFailed h mv hb tab mem store hist
  | fillError mv tab mem store hist => exact hD.fillError h mv tab mem store hist
  | refused mv herr tab mem store hist => exact hD.refused h mv herr tab mem store hist
  | read mv hr _ _ tab mem store hist =>
    refine hD.same mv ?_ (fun x hx => ?_) rfl tab mem fun c =>
      ⟨by rw [store], by rw [hist]; rfl, by rw [hist]; rfl⟩
    · simp [Pc.wrote, hr]
    · simp [Pc.unfilled, Io.wholeChunk, hr] at hx
  | written mv hw herr hb tab mem store hist =>
    exact hD.written h mv hw herr hb tab mem store hist
  | dirtied mv hw hd tab mem store hist => exact hD.dirtied h mv hw hd tab mem store hist

end

omit [Fintype W] in
theorem dataInv_init (allocatable : Nat) : DataInv disk (init W allocatable disk) :=
  ⟨fun _ _ => .inr rfl, nofun⟩

end steps

end OpenIsr.Fuse
