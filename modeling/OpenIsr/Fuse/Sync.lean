import OpenIsr.Fuse.Reads

/-!
# What a successful `fsync` guarantees

`image_sync` writes back the entries it finds on the dirty queue. A write that has returned
but is not stored yet has its entry on that queue, unless another thread has already taken
it off and is in `cache_update` for it, or that call has failed (`PendInv`). So when
`do_fsync` returns 0, all earlier writes are stored in the runs where `image_sync` never
finds the queue empty in such a moment, and no lost write is forgotten (`syncSafe`).
-/

namespace OpenIsr.Fuse

open List

variable {P : Parcel} {W : Type} {t u : Tid W} {e : Nat}

/-- The thread is in `cache_update`. -/
def Pc.updating : Pc → Bool
  | .cleanUpdate _ _ => true
  | _ => false

/-- Some chunk has not been stored since a `cache_update` of it failed. -/
def unstored (hist : List (Event P W)) : Bool :=
  hist.any fun
    | .updateFailed c _ => failedLast c hist
    | _ => false

/-- The step frees no entry with a lost write; and `image_sync`, if the step is the one at
which it finds the dirty queue empty, does so when no failed `cache_update` is outstanding
and none is in progress. -/
def syncSafe [DecidableEq W] [Fintype W] (disk : Nat → Data P) (s : St P W) (a : Act P W) :
    Bool :=
  !freesLost disk s a &&
    match s.pc a.tid with
    | .caLoop .sync => !s.tab.dirty.isEmpty ||
        (!unstored s.hist && decide (∀ t, (s.pc t).updating = false))
    | _ => true

/-- Every write that had returned when `t` called `do_fsync` for the last time has been
stored: after it there is a `cache_update` of its chunk that stored the chunk's value, which
is the value after that write and any later ones. -/
def Durable (disk : Nat → Data P) (t : Tid W) (hist : List (Event P W)) : Prop :=
  ∀ new old later u c w, hist = new ++ .call t .fsync :: (old ++ .wrote u c w :: later) →
    (∀ req, .call t req ∉ new) → (∃ req m out, .ret u req m out ∈ old) →
    ∃ q₁ d q₂, new ++ .call t .fsync :: old = q₁ ++ .updated c d :: q₂ ∧
      d = value disk c (q₂ ++ .wrote u c w :: later)

/-- What a successful `do_fsync` promises. -/
def SyncOk (disk : Nat → Data P) : Event P W → List (Event P W) → Prop
  | .ret t .fsync m _, past => m = 0 → Durable disk t past
  | _, _ => True

variable [DecidableEq W] [Fintype W] {disk : Nat → Data P} {n c : Nat} {s s' : St P W} {a : Act P W}

/-! ## Writes that are not stored yet -/

/-- Chunk `c` has a dirty entry, and it is not just being marked clean. -/
def DirtyChunk (s : St P W) (c : Nat) : Prop :=
  ∃ e ∈ s.tab.chunks, (s.core e).chunk = c ∧ (s.core e).dirty ≠ 0 ∧ ∀ t, (s.pc t).late ≠ some e

/-- A write that is not stored yet has a dirty entry, or could not be stored, or is just about
to get a dirty entry; then its request has not returned. -/
def PendInv (s : St P W) : Prop :=
  ∀ new u c w old, s.hist = new ++ .wrote u c w :: old → (∀ d, .updated c d ∉ new) →
    (DirtyChunk s c ∨ failedLast c s.hist = true) ∨
      (∃ e, (s.pc u).wrote = some e ∧ (s.core e).chunk = c) ∧ ∀ req m out, .ret u req m out ∉ new

omit [Fintype W] in
theorem Effect.chunk_kept (hE : Effect s a s') (hrun' : s'.pc .main = .running) {x : Nat}
    (hx : x ∈ s.tab.chunks) : (s'.core x).chunk = (s.core x).chunk := by
  have one : ∀ {e : Nat} {core : Core}, OneEnt s s' e core → core.chunk = (s.core e).chunk →
      (s'.core x).chunk = (s.core x).chunk := by
    intro e core tab hc
    by_cases hxe : x = e
    · rw [hxe, tab.self, hc]
    · rw [tab.other x hxe]
  cases hE with
  | dropped _ hmain _ _ _ _ _ => exact absurd hrun' hmain
  | quiet _ _ tab _ _ _ | called _ _ tab _ _ _ | returned _ _ tab _ _ _ _ _
  | synced _ _ tab _ _ _ | taken _ _ tab _ _ _ | stored _ _ _ tab _ _ _
  | storeFailed _ _ tab _ _ _ | filled _ _ _ tab _ _ _ | fillFailed _ _ _ tab _ _ _
  | refused _ _ tab _ _ _ | read _ _ _ _ tab _ _ _ | written _ _ _ _ tab _ _ _ => rw [tab.core x hx]
  | created _ _ _ _ _ other _ _ _ => rw [other x hx]
  | allocated _ tab _ _ _ _ | storeError _ tab _ _ _ | cleaned _ tab _ _ _
  | fillError _ tab _ _ _ | dirtied _ _ _ tab _ _ _ => exact one tab rfl
  | @stolen _ e r _ _ _ _ _ _ self victim other _ _ _ =>
    by_cases hxe : x = e
    · rw [hxe, self]
    · by_cases hxr : x = r
      · rw [hxr, victim]
      · rw [other x hxe hxr]
  | freed _ _ _ _ _ core _ _ _ => rw [core x]

omit [Fintype W] in
theorem DirtyChunk.keep {p p' : Pc} (mv : Move s t p p' s') (he' : e ∈ s'.tab.chunks)
    (hchunk : (s'.core e).chunk = c) (hd : (s'.core e).dirty ≠ 0)
    (hl : ∀ t, (s.pc t).late ≠ some e) (hp' : p'.late ≠ some e) : DirtyChunk s' c := by
  refine ⟨e, he', hchunk, hd, fun u => ?_⟩
  by_cases hut : u = t
  · rw [hut, mv.self]
    exact hp'
  · rw [mv.other hut]
    exact hl u

theorem Effect.dirty_kept (hE : Effect s a s') (h : Inv n s) (hrun' : s'.pc .main = .running)
    (hd : DirtyChunk s c) :
    DirtyChunk s' c ∨
      (∃ d, s'.hist = .updated c d :: s.hist) ∨ ∃ l, s'.hist = .updateFailed c l :: s.hist := by
  have hck := fun x hx => hE.chunk_kept hrun' (x := x) hx
  obtain ⟨e, he, hc, hne, hl⟩ := hd
  have hchunk := (hck e he).trans hc
  -- the table is unchanged, or only an entry other than `e` is, or `e` stays dirty
  have same : ∀ {p p' : Pc}, Move s a.tid p p' s' → SameTab s s' → p'.late ≠ some e →
      DirtyChunk s' c := fun mv tab hp' =>
    .keep mv (tab.chunks ▸ he) hchunk (by rw [tab.core e he]; exact hne) hl hp'
  have one : ∀ {x : Nat} {core : Core} {p p' : Pc}, Move s a.tid p p' s' →
      OneEnt s s' x core → (x = e → core.dirty ≠ 0) → p'.late ≠ some e → DirtyChunk s' c := by
    intro x core p p' mv tab hcore hp'
    refine .keep mv (tab.chunks ▸ he) hchunk ?_ hl hp'
    by_cases hxe : x = e
    · rw [← hxe, tab.self]
      exact hcore hxe
    · rw [tab.other e (Ne.symm hxe)]
      exact hne
  have hlate : ∀ {p : Pc} {x : Nat}, s.pc a.tid = p → p.late = some x → x ≠ e := by
    rintro p x hp hpl rfl
    exact hl a.tid (by rw [hp]; exact hpl)
  cases hE with
  | dropped _ hmain _ _ _ _ _ => exact absurd hrun' hmain
  | quiet mv calm tab _ _ _ | called mv calm tab _ _ _ | returned mv calm tab _ _ _ _ _ =>
    exact .inl (same mv tab (by rw [calm.late]; nofun))
  | synced mv _ tab _ _ _ | taken mv _ tab _ _ _ | filled mv _ _ tab _ _ _
  | fillFailed mv _ _ tab _ _ _ | refused mv _ tab _ _ _ | read mv _ _ _ tab _ _ _
  | written mv _ _ _ tab _ _ _ => exact .inl (same mv tab nofun)
  | created mv _ _ chunks _ other _ _ _ =>
    exact .inl (.keep mv (by rw [chunks]; exact mem_append_left _ he) hchunk
      (by rw [other e he]; exact hne) hl nofun)
  | allocated mv tab _ _ _ _ | fillError mv tab _ _ _ =>
    exact .inl (one mv tab (fun hx => hx ▸ hne) nofun)
  | @stolen _ x r _ mv _ chunks _ _ self victim other _ _ _ =>
    refine .inl (.keep mv (chunks ▸ he) hchunk ?_ hl nofun)
    by_cases hxe : e = x
    · rw [hxe, self, ← hxe]
      exact hne
    · by_cases hxr : e = r
      · rw [hxr, victim, ← hxr]
        exact hne
      · rw [other e hxe hxr]
        exact hne
  | @stored k x b mv _ _ tab _ _ hist =>
    by_cases hx : x = e
    · exact .inr (.inl ⟨s.mem b, by rw [hist, hx, hc]⟩)
    · exact .inl (same mv tab fun hp => hx (Option.some.inj hp))
  | @storeFailed k x mv _ tab _ _ hist =>
    by_cases hx : x = e
    · exact .inr (.inr ⟨a.left, by rw [hist, hx, hc]⟩)
    · exact .inl (same mv tab fun hp => hx (Option.some.inj hp))
  | storeError mv tab _ _ _ =>
    have hx := hlate mv.old rfl
    exact .inl (one mv tab (fun hxe => absurd hxe hx) fun hp => hx (Option.some.inj hp))
  | @cleaned k x mv tab _ _ _ =>
    refine .inl (one mv tab (fun hxe => absurd hxe (hlate mv.old rfl)) ?_)
    cases k <;> nofun
  | @freed k x _ mv calm _ hdata chunks core _ _ _ =>
    have hx : e ≠ x := fun hx => hne (h.dirty_of_data he (by rw [hx]; exact hdata))
    refine .inl (.keep mv ?_ hchunk (by rw [core e]; exact hne) hl (by rw [calm.late]; nofun))
    rw [chunks]
    exact (mem_erase_of_ne hx).mpr he
  | dirtied mv _ hd tab _ _ _ => exact .inl (one mv tab (fun _ => hd) nofun)

/-- The thread an event is about. -/
def Event.tid? : Event P W → Option (Tid W)
  | .call t _ | .ret t _ _ _ | .acq t _ _ | .copied t _ _ _ | .wrote t _ _ => some t
  | _ => none

section

variable (hE : Effect s a s')
include hE

omit [Fintype W] in
/-- A step records at most one event, and only about its own thread. -/
theorem Effect.hist_cases :
    s'.hist = s.hist ∨
    ∃ ev : Event P W, s'.hist = ev :: s.hist ∧ ∀ t, ev.tid? = some t → t = a.tid := by
  cases hE <;>
    first
    | exact .inl (by assumption)
    | exact .inr ⟨_, by assumption, fun t ht => by cases ht; rfl⟩
    | exact .inr ⟨_, by assumption, fun t ht => by cases ht⟩

omit [Fintype W] in
theorem Effect.move (hrun' : s'.pc .main = .running) : ∃ p p', Move s a.tid p p' s' := by
  cases hE with
  | dropped _ hmain _ _ _ _ _ => exact absurd hrun' hmain
  | _ => exact ⟨_, _, by assumption⟩

/-- What was just written is marked dirty by the same thread, before its request
returns. -/
theorem Effect.wrote_kept (h : Inv n s) (hrun' : s'.pc .main = .running)
    (hu : (s.pc u).wrote = some e) :
    DirtyChunk s' (s.core e).chunk ∨
      (s'.pc u).wrote = some e ∧ ∀ req m out, s'.hist ≠ .ret u req m out :: s.hist := by
  have he : e ∈ s.tab.chunks := h.tabInv.own_live u e (Pc.wrote_own hu)
  have hchunk := hE.chunk_kept hrun' he
  by_cases hut : u = a.tid
  · subst hut
    cases hE with
    | quiet mv calm _ _ _ hist =>
      rw [mv.old] at hu
      refine .inr ⟨by rw [mv.self, calm.wrote, hu], fun req m out heq => ?_⟩
      rw [hist] at heq
      exact cons_ne_self _ _ heq.symm
    | called mv _ _ _ _ _ | freed mv _ _ _ _ _ _ _ _ | synced mv _ _ _ _ _
    | created mv _ _ _ _ _ _ _ _ | taken mv _ _ _ _ _ | allocated mv _ _ _ _ _
    | stolen mv _ _ _ _ _ _ _ _ _ _ | stored mv _ _ _ _ _ _ | storeFailed mv _ _ _ _ _
    | storeError mv _ _ _ _ | cleaned mv _ _ _ _ | filled mv _ _ _ _ _ _
    | fillFailed mv _ _ _ _ _ _ | fillError mv _ _ _ _ | refused mv _ _ _ _ _
    | read mv _ _ _ _ _ _ _ | written mv _ _ _ _ _ _ _ => rw [mv.old] at hu; cases hu
    | returned mv calm _ _ _ _ _ _ =>
      rw [mv.old, ← calm.wrote] at hu
      cases hu
    | @dirtied io x d mv hw hd tab _ _ _ =>
      rw [mv.old] at hu
      have hxe : x = e := by simpa [Pc.wrote, hw] using hu
      refine .inl (.keep mv (tab.chunks ▸ he) hchunk ?_ (fun t ht => ?_)
        (Option.some_ne_none e).symm)
      · rw [← hxe, tab.self]
        exact hd
      · have hown := h.owner (Pc.late_own ht) (by rw [mv.old]; exact Pc.wrote_own hu)
        rw [hown, mv.old] at ht
        cases ht
    | dropped _ hmain _ _ _ _ _ => exact absurd hrun' hmain
  · obtain ⟨p, p', mv⟩ := hE.move hrun'
    refine .inr ⟨by rw [mv.other hut]; exact hu, fun req m out heq => ?_⟩
    rcases hE.hist_cases with hist | ⟨ev, hist, hev⟩
    · rw [hist] at heq
      exact cons_ne_self _ _ heq.symm
    · rw [hist, List.cons.injEq] at heq
      exact hut (hev u (by rw [heq.1]; rfl))

theorem Effect.wrote_new (h : Inv n s) {w : Write} (heq : s'.hist = .wrote u c w :: s.hist) :
    ∃ e, (s'.pc u).wrote = some e ∧ (s'.core e).chunk = c := by
  cases hE with
  | @written io e b mv hw _ _ tab _ _ hist =>
    rw [hist, List.cons.injEq, Event.wrote.injEq] at heq
    obtain ⟨⟨rfl, rfl, -⟩, -⟩ := heq
    have hio := (h.ok mv.old).1
    have he := h.live mv.old (mem_singleton.mpr rfl)
    refine ⟨e, by rw [mv.self]; simp [Pc.wrote, hw], ?_⟩
    rw [tab.core e he]
    exact hio.2
  | _ => simp_all

end

variable {hist : List (Event P W)}

omit [DecidableEq W] [Fintype W] in
theorem failedLast_cons {ev : Event P W} (h : failedLast c hist = true)
    (hev : ∀ d, ev ≠ .updated c d) : failedLast c (ev :: hist) = true := by
  cases ev with
  | updated c' d =>
    have hne : c' ≠ c := fun hc => hev d (by rw [hc])
    rw [failedLast, if_neg hne, h]
  | updateFailed c' l => rw [failedLast, h, ite_self]
  | _ => exact h

theorem Effect.unstored_kept (hE : Effect s a s') (h : Inv n s) (hrun' : s'.pc .main = .running)
    (hupd : ∀ d, s'.hist ≠ .updated c d :: s.hist)
    (hc : DirtyChunk s c ∨ failedLast c s.hist = true) :
    DirtyChunk s' c ∨ failedLast c s'.hist = true := by
  rcases hc with hd | hf
  · rcases hE.dirty_kept h hrun' hd with hd | ⟨d, hd⟩ | ⟨l, hd⟩
    · exact .inl hd
    · exact absurd hd (hupd d)
    · exact .inr (by rw [hd, failedLast, if_pos rfl])
  · refine .inr ?_
    rcases hE.hist_cases with hist | ⟨ev, hist, -⟩
    · rw [hist, hf]
    · rw [hist]
      exact failedLast_cons hf fun d hd => hupd d (by rw [hist, hd])

theorem PendInv.step (hK : PendInv s) (h : Inv n s) (hE : Effect s a s')
    (hrun' : s'.pc .main = .running) : PendInv s' := by
  intro new u c w old heq hno
  -- a write of an earlier step
  have hold : ∀ new', s.hist = new' ++ .wrote u c w :: old → (∀ d, .updated c d ∉ new') →
      (∀ d, s'.hist ≠ .updated c d :: s.hist) →
        (DirtyChunk s' c ∨ failedLast c s'.hist = true) ∨
        (∃ e, (s'.pc u).wrote = some e ∧ (s'.core e).chunk = c) ∧
          (∀ req m out, .ret u req m out ∉ new') ∧
          ∀ req m out, s'.hist ≠ .ret u req m out :: s.hist := by
    intro new' heq' hno' hupd
    rcases hK new' u c w old heq' hno' with hd | ⟨⟨e, hw, hc⟩, hret⟩
    · exact .inl (hE.unstored_kept h hrun' hupd hd)
    · rcases hE.wrote_kept h hrun' hw with hd | ⟨hw', hret'⟩
      · exact .inl (.inl (hc ▸ hd))
      · have he := h.tabInv.own_live u e (Pc.wrote_own hw)
        exact .inr ⟨⟨e, hw', (hE.chunk_kept hrun' he).trans hc⟩, hret, hret'⟩
  rcases hE.hist_cases with hist | ⟨ev, hist, -⟩
  · have hne : ∀ x : Event P W, s'.hist ≠ x :: s.hist := fun x hx => by
      rw [hist] at hx
      exact cons_ne_self _ _ hx.symm
    rw [hist] at heq
    rcases hold new heq hno fun d => hne _ with hd | ⟨hw, hret, -⟩
    · exact .inl hd
    · exact .inr ⟨hw, hret⟩
  · cases new with
    | nil =>
      rw [hist, nil_append, List.cons.injEq] at heq
      rw [heq.1] at hist
      exact .inr ⟨hE.wrote_new h hist, nofun⟩
    | cons x new' =>
      rw [hist, cons_append, List.cons.injEq] at heq
      obtain ⟨rfl, heq⟩ := heq
      have hupd : ∀ d, s'.hist ≠ .updated c d :: s.hist := fun d hx => by
        rw [hist, List.cons.injEq] at hx
        exact hno d (by rw [hx.1]; exact mem_cons_self ..)
      rcases hold new' heq (fun d hd => hno d (mem_cons_of_mem _ hd)) hupd with
        hd | ⟨hw, hret, hret'⟩
      · exact .inl hd
      · refine .inr ⟨hw, fun req m out hx => ?_⟩
        rcases mem_cons.mp hx with hx | hx
        · exact hret' req m out (by rw [hist, hx])
        · exact hret req m out hx

/-! ## Runs -/

omit [DecidableEq W] [Fintype W] in
theorem exists_failure (h : failedLast c hist = true) : ∃ l, .updateFailed c l ∈ hist := by
  induction hist with
  | nil => cases h
  | cons ev hist ih =>
    have rest : failedLast c hist = true → ∃ l, .updateFailed c l ∈ ev :: hist := fun h =>
      (ih h).imp fun _ => mem_cons_of_mem _
    cases ev with
    | updated c' d =>
      rw [failedLast] at h
      split at h
      next => cases h
      next => exact rest h
    | updateFailed c' l =>
      rw [failedLast] at h
      split at h
      next hc => exact ⟨l, hc ▸ mem_cons_self ..⟩
      next => exact rest h
    | _ => exact rest h

omit [DecidableEq W] [Fintype W] in
theorem failedLast_of_unstored (h : unstored hist = false) (c : Nat) :
    failedLast c hist = false := by
  rw [Bool.eq_false_iff]
  intro hf
  obtain ⟨l, hl⟩ := exists_failure hf
  rw [unstored, any_eq_false] at h
  exact h _ hl hf

/-- What `cache_update` has stored is the chunk's value at that time. -/
def StoredOk (disk : Nat → Data P) : Event P W → List (Event P W) → Prop
  | .updated c d, past => d = value disk c past
  | _, _ => True

/-- What holds while the FUSE loop runs. -/
structure SyncInv (disk : Nat → Data P) (s : St P W) : Prop where
  data : DataInv disk s
  pend : PendInv s
  stored : Base.Always (StoredOk disk) s.hist

theorem SyncInv.step (hI : SyncInv disk s) (h : Inv n s) (hE : Effect s a s')
    (hrun : s.pc .main = .running) (hrun' : s'.pc .main = .running)
    (hC : freesLost disk s a = false) : SyncInv disk s' := by
  refine ⟨hI.data.step h hE fun _ hf => hf.not_lost hrun hC, hI.pend.step h hE hrun', ?_⟩
  cases hE with
  | @stored k e b mv _ hb _ _ _ hist =>
    rw [hist]
    refine .cons ?_ hI.stored
    have he := h.live mv.old (mem_cons_self ..)
    exact hI.data.mem_of_dirty he hb (h.dirty_of_cleaning mv.old rfl)
  | dropped _ hmain _ _ _ _ _ => exact absurd hrun' hmain
  | called mv calm tab mem store hist | returned mv calm tab mem store hist _ _
  | taken mv hb tab mem store hist | storeFailed mv hok tab mem store hist
  | read mv hr herr hb tab mem store hist | written mv hw herr hb tab mem store hist =>
    rw [hist]; exact .cons trivial hI.stored
  | _ => rw [show s'.hist = s.hist by assumption]; exact hI.stored

omit [DecidableEq W] in
/-- When the dirty queue is empty and no `cache_update` is in progress, nothing is dirty. -/
theorem Inv.not_dirty (h : Inv n s) (hq : s.tab.dirty = [])
    (hup : ∀ t, (s.pc t).updating = false) (c : Nat) : ¬ DirtyChunk s c := by
  rintro ⟨e, he, -, hd, hl⟩
  have hno : ¬ ∀ t, (s.pc t).role.cleaning ≠ some e := fun hno => by
    have := (h.tabInv.ent e he).dirtyOk.dirty.mpr ⟨hd, hno⟩
    rw [hq] at this
    cases this
  push Not at hno
  obtain ⟨t, ht⟩ := hno
  have hup := hup t
  have hl := hl t
  generalize s.pc t = p at ht hup hl
  cases p with
  | cleanUpdate k x => cases hup
  | cleanFailed k x | cleanLock k x => exact hl ht
  | _ => cases ht

omit [DecidableEq W] in
/-- All returned writes are stored when `image_sync` is done. -/
theorem SyncInv.durable (hI : SyncInv disk s) (h : Inv n s) (hq : s.tab.dirty = [])
    (hup : ∀ t, (s.pc t).updating = false) (hfail : unstored s.hist = false) (t : Tid W) :
    Durable disk t s.hist := by
  intro new old later u c w heq _ hret
  have hsplit : s.hist = (new ++ .call t .fsync :: old) ++ .wrote u c w :: later := by
    rw [heq, append_assoc, cons_append]
  by_cases hupd : ∃ d, .updated c d ∈ new ++ .call t .fsync :: old
  · obtain ⟨d, hmem⟩ := hupd
    obtain ⟨q₁, q₂, hq⟩ := append_of_mem hmem
    refine ⟨q₁, d, q₂, hq, hI.stored q₁ (.updated c d) _ ?_⟩
    rw [hsplit, hq, append_assoc, cons_append]
  · push Not at hupd
    rcases hI.pend _ u c w later hsplit hupd with (hd | hf) | ⟨-, hno⟩
    · exact absurd hd (h.not_dirty hq hup c)
    · exact absurd hf (by rw [failedLast_of_unstored hfail]; nofun)
    · obtain ⟨req, m, out, hmem⟩ := hret
      exact absurd (mem_append_right _ (mem_cons_of_mem _ hmem)) (hno req m out)

omit [DecidableEq W] [Fintype W] in
theorem Durable.push {ev : Event P W} (hd : Durable disk t hist) (hev : ∀ req, ev ≠ .call t req) :
    Durable disk t (ev :: hist) := by
  intro new old later u c w heq hnew hret
  cases new with
  | nil =>
    rw [nil_append, List.cons.injEq] at heq
    exact absurd heq.1 (hev _)
  | cons x new =>
    rw [cons_append, List.cons.injEq] at heq
    obtain ⟨rfl, heq⟩ := heq
    obtain ⟨q₁, d, q₂, hq, hval⟩ := hd new old later u c w heq
      (fun req hx => hnew req (mem_cons_of_mem _ hx)) hret
    exact ⟨ev :: q₁, d, q₂, by rw [cons_append, hq, cons_append], hval⟩

/-- A worker at the end of `image_sync` has its writes stored. -/
def FlushInv (disk : Nat → Data P) (s : St P W) : Prop :=
  ∀ t, s.pc t = .syncFlush → Durable disk t s.hist

theorem FlushInv.step (hF : FlushInv disk s) (h : Inv n s) (h' : Inv n s')
    (hE : Effect s a s') (hC : syncSafe disk s a = true)
    (hI : s.pc .main = .running → SyncInv disk s) :
    FlushInv disk s' := by
  intro t ht
  have hrun' := h'.running_of ht rfl (Pc.ne_of_ctorIdx rfl)
  by_cases hta : t = a.tid
  · -- the step is the end of `image_sync`
    have hsynced : ∀ {p p' : Pc}, Move s a.tid p p' s' → p' = .syncFlush := fun mv => by
      rw [← mv.self, ← hta]
      exact ht
    cases hE with
    | synced mv hq _ _ _ hist =>
      simp only [syncSafe, mv.old, hq, isEmpty_nil, Bool.not_true, Bool.false_or,
        Bool.and_eq_true, Bool.not_eq_true', decide_eq_true_eq] at hC
      obtain ⟨-, hfail, hup⟩ := hC
      rw [hist]
      exact (hI (h.running_of mv.old rfl (Pc.ne_of_ctorIdx rfl))).durable h hq hup hfail t
    | dropped _ hmain _ _ _ _ _ => exact absurd hrun' hmain
    | quiet mv calm _ _ _ _ | called mv calm _ _ _ _ | freed mv calm _ _ _ _ _ _ _ =>
      exact absurd (hsynced mv) calm.sync
    | @cleaned k e mv _ _ _ _ => have := hsynced mv; cases k <;> cases this
    | _ => cases hsynced (by assumption)
  · obtain ⟨p, p', mv⟩ := hE.move hrun'
    rw [mv.other hta] at ht
    rcases hE.hist_cases with hist | ⟨ev, hist, hev⟩
    · rw [hist]; exact hF t ht
    · rw [hist]
      refine (hF t ht).push fun req hx => hta (hev t ?_)
      rw [hx]
      rfl

omit [Fintype W] in
theorem SyncOk.step (hF : FlushInv disk s) (hE : Effect s a s')
    (hO : Base.Always (SyncOk disk) s.hist) : Base.Always (SyncOk disk) s'.hist := by
  cases hE with
  | @returned req m out p mv calm tab mem store hist hsync hp =>
    rw [hist]
    refine .cons ?_ hO
    cases req with
    | fsync => exact fun _ => hF a.tid (by rw [mv.old]; exact hsync rfl)
    | _ => trivial
  | called mv calm tab mem store hist | taken mv hb tab mem store hist
  | stored mv hok hb tab mem store hist | storeFailed mv hok tab mem store hist
  | read mv hr herr hb tab mem store hist | written mv hw herr hb tab mem store hist =>
    rw [hist]; exact .cons trivial hO
  | _ => rw [show s'.hist = s.hist by assumption]; exact hO

/-- In a run in which `image_sync` never finds the dirty queue empty while a `cache_update` is
in progress or the failure of one is outstanding, and no entry with a lost write is freed, a
successful `do_fsync` means that every write that had returned before the call is stored. -/
theorem fsync_durable_of_safe (allocatable : Nat) (disk : Nat → Data P)
    (hr : Base.Reach step (fun s a => syncSafe disk s a = true) (init W allocatable disk) s) :
    Base.Always (SyncOk disk) s.hist := by
  have key : Inv allocatable s ∧ (s.pc .main = .running → SyncInv disk s) ∧ FlushInv disk s ∧
      Base.Always (SyncOk disk) s.hist := by
    refine hr.inv (I := fun s => Inv allocatable s ∧ (s.pc .main = .running → SyncInv disk s) ∧
      FlushInv disk s ∧ Base.Always (SyncOk disk) s.hist)
      ⟨inv_init _ _, fun _ => ⟨dataInv_init _, ?_, .nil⟩, fun t ht => ?_, .nil⟩ ?_
    · intro new u c w old heq
      cases new <;> cases heq
    · cases t <;> cases ht
    · rintro s a s' ⟨h, hI, hF, hO⟩ hC hs
      have hE := h.effect hs
      have hfree : freesLost disk s a = false := by
        simp only [syncSafe, Bool.and_eq_true, Bool.not_eq_true'] at hC
        exact hC.1
      refine ⟨h.step hs, fun hrun' => ?_, hF.step h (h.step hs) hE hC hI, SyncOk.step hF hE hO⟩
      have hrun := hE.digest.running hrun'
      exact (hI hrun).step h hE hrun hrun' hfree
  exact key.2.2.2

/-- Worker 0 writes; `other` steps of the cleaner follow, late enough for it to find the entry
old; then worker 1 calls `fsync`. -/
def fsyncRun (other steps : Nat) : List (Act tinyParcel (Fin 2)) :=
  Act.call former (.write 0 [7]) :: replicate 9 (Act.go former) ++
  replicate other { Act.go .cleaner with now := 9, now_pos := Nat.succ_pos 8 } ++
  replicate steps (Act.go latter)

/-- `fsync` returns right behind a write. -/
def fsyncBehindWrite : List (Event tinyParcel (Fin 2)) → Bool
  | .ret t .fsync m _ :: .call t' .fsync :: .ret u _ _ _ :: .wrote u' _ _ :: _ =>
    m == 0 && t == t' && u == u'
  | _ => false

/-- `entry_clean` takes the entry off the dirty queue before it calls `cache_update`, so
`image_sync` does not wait for it. -/
theorem fsync_returns_before_update : ∃ s, Base.Reach step (fun _ _ => True)
    (init (P := tinyParcel) (Fin 2) 1 fun _ _ => 0) s ∧
      ¬ Base.Always (SyncOk fun _ _ => 0) s.hist := by
  have hrun : (Base.exec step (fun _ _ => true) (init (Fin 2) 1 fun _ _ => 0)
      (fsyncRun 6 4)).any (fun s => fsyncBehindWrite s.hist) = true := by
    decide +kernel
  obtain ⟨s, hs, hchk⟩ := Base.reach_of_exec_any (D := fun _ _ => True)
    (fun _ _ _ => trivial) _ hrun
  refine ⟨s, hs, fun hall => ?_⟩
  unfold fsyncBehindWrite at hchk
  split at hchk
  next t m out t' u req n out' u' c w later heq =>
    simp only [Bool.and_eq_true, beq_iff_eq] at hchk
    obtain ⟨⟨rfl, rfl⟩, rfl⟩ := hchk
    obtain ⟨q₁, d, q₂, hq, -⟩ := hall [] _ _ heq rfl [] [.ret u req n out'] later u c w rfl
      (fun _ => not_mem_nil) ⟨req, n, out', mem_singleton_self _⟩
    have hmem : Event.updated c d ∈ [] ++ .call t .fsync :: [.ret u req n out'] := by
      rw [hq]
      exact mem_append_right _ (mem_cons_self ..)
    simp at hmem
  next => cases hchk

/-- `fsync` returns right behind an update. -/
def fsyncBehindUpdate : List (Event tinyParcel (Fin 2)) → Bool
  | .ret _ .fsync m out :: .updated _ _ :: _ => m == 0 && out == []
  | _ => false

/-- Without the cleaner, `image_sync` stores the chunk itself. -/
theorem fsync_durable_of_safe_alone : ∃ s, Base.Reach step
    (fun s a => syncSafe (fun _ _ => 0) s a = true)
    (init (P := tinyParcel) (Fin 2) 1 fun _ _ => 0) s ∧
      (∃ t c d past, s.hist = .ret t .fsync 0 [] :: .updated c d :: past) ∧
      Base.Always (SyncOk fun _ _ => 0) s.hist := by
  have hrun : (Base.exec step (syncSafe fun _ _ => 0) (init (Fin 2) 1 fun _ _ => 0)
      (fsyncRun 0 11)).any (fun s => fsyncBehindUpdate s.hist) = true := by
    decide +kernel
  obtain ⟨s, hs, hchk⟩ :=
    Base.reach_of_exec_any (D := fun s a => syncSafe (fun _ _ => 0) s a = true)
    (fun _ _ h => h) _ hrun
  refine ⟨s, hs, ?_, fsync_durable_of_safe 1 (fun _ _ => 0) hs⟩
  unfold fsyncBehindUpdate at hchk
  split at hchk
  next t m out c d past heq =>
    simp only [Bool.and_eq_true, beq_iff_eq] at hchk
    obtain ⟨rfl, rfl⟩ := hchk
    exact ⟨t, c, d, past, heq⟩
  next => cases hchk

end OpenIsr.Fuse
