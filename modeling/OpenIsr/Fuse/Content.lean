import OpenIsr.Fuse.Reads

/-!
# What the disk shows

`value` is the disk that every write has gone to; a failed `cache_update` takes the image away
from it. `shown` is the disk as its users find it, whatever has failed: a write changes a chunk, a
failed `cache_update` puts what it has left in its place, and nothing else does anything.

`content` is where the image keeps it. It is the buffer of an entry with changes that are still to
be written back, and the stored chunk otherwise, also while an entry with its error flag stands in
the way. `content_eq` says that the two are the same in every state that can be reached: freeing
an entry, filling a buffer, a successful `cache_update` and a failed `cache_get` show on no disk.
-/

namespace OpenIsr.Fuse

open List Function Option

variable {P : Parcel} {W : Type} {c e x q : Nat} {disk : Nat → Data P} {s s' : St P W}

/-! ## The disk and where it is -/

/-- Chunk `c` after the events of a history, if it was `d` before them; `none` cannot be read. -/
def shown (d : Option (Data P)) (c : Nat) : List (Event P W) → Option (Data P)
  | [] => d
  | .wrote _ c' w :: h =>
    if c' = c then some (w.apply ((shown d c h).getD fun _ => 0)) else shown d c h
  | .updateFailed c' left :: h => if c' = c then left else shown d c h
  | _ :: h => shown d c h

/-- The entry whose `cache_update` has failed and that does not have its error flag yet. -/
def Pc.unsound : Pc → Option Nat
  | .cleanFailed _ e => some e
  | _ => none

/-- Entry `e` has changes that will be written back. -/
def Unsaved (s : St P W) (e : Nat) : Prop :=
  (s.core e).error = false ∧ (¬ ∃ t, (s.pc t).unsound = some e) ∧
    ((s.core e).dirty ≠ 0 ∨ ∃ t, (s.pc t).wrote = some e)

instance [Fintype W] (s : St P W) (e : Nat) : Decidable (Unsaved s e) :=
  inferInstanceAs (Decidable (_ ∧ _ ∧ _))

/-- Chunk `c` of the disk, in the buffer of its entry or in the local cache. -/
def content [Fintype W] (s : St P W) (c : Nat) : Option (Data P) :=
  match s.tab.lookup c with
  | none => s.store c
  | some e => if Unsaved s e then (s.core e).data.map s.mem else s.store c

/-- The stored chunk is what the disk shows. -/
def Stored (disk : Nat → Data P) (s : St P W) (c : Nat) : Prop :=
  s.store c = shown (some (disk c)) c s.hist

/-- Nothing happens to what chunk `c` shows. -/
structure SameShown (disk : Nat → Data P) (s s' : St P W) (c : Nat) : Prop where
  store : s'.store c = s.store c
  shown : Fuse.shown (some (disk c)) c s'.hist = Fuse.shown (some (disk c)) c s.hist

theorem SameShown.of_eq (disk : Nat → Data P) (hstore : s'.store = s.store)
    (hhist : s'.hist = s.hist) (c : Nat) : SameShown disk s s' c :=
  ⟨by rw [hstore], by rw [hhist]⟩

theorem Stored.same (h : Stored disk s c) (hc : SameShown disk s s' c) : Stored disk s' c := by
  unfold Stored
  rw [hc.store, hc.shown]
  exact h

/-! ## The invariant -/

/-- Where entry `e` keeps what its chunk shows. -/
structure EntShown (disk : Nat → Data P) (s : St P W) (e : Nat) : Prop where
  settled : (s.core e).dirty = 0 → (∃ t, (s.pc t).wrote = some e) ∨ Stored disk s (s.core e).chunk
  late : ∀ t, (s.pc t).late = some e → Stored disk s (s.core e).chunk
  doomed : (s.core e).error = true → (s.core e).dirty ≠ 0 → ∃ t, (s.pc t).late = some e
  clear : ∀ t, (s.pc t).wrote = some e → (s.core e).error = false
  filled : ∀ b, (s.core e).data = some b → (s.core e).error = false →
    (s.core e).dirty = 0 ∧ (∃ t, (s.pc t).unfilled P = some e) ∨
      (∃ t, (s.pc t).unsound = some e) ∨
      shown (some (disk (s.core e).chunk)) (s.core e).chunk s.hist = some (s.mem b)

/-- Where every chunk is kept. -/
structure ShownInv (disk : Nat → Data P) (s : St P W) : Prop where
  absent : ∀ c, (∀ e ∈ s.tab.chunks, (s.core e).chunk ≠ c) → Stored disk s c
  ent : ∀ e ∈ s.tab.chunks, EntShown disk s e

theorem EntShown.refused (h : EntShown disk s e) (herr : (s.core e).error = true) :
    Stored disk s (s.core e).chunk := by
  by_cases hd : (s.core e).dirty = 0
  · refine (h.settled hd).resolve_left ?_
    rintro ⟨t, ht⟩
    rw [h.clear t ht] at herr
    cases herr
  · obtain ⟨t, ht⟩ := h.doomed herr hd
    exact h.late t ht

theorem Pc.unsound_late {p : Pc} (h : p.unsound = some e) : p.late = some e := by
  cases p with
  | cleanFailed k x => exact h
  | _ => cases h

theorem Pc.unsound_own {p : Pc} (h : p.unsound = some e) : e ∈ p.own :=
  Pc.late_own (Pc.unsound_late h)

/-- The step says nothing new about entry `x`. -/
structure Mute (P : Parcel) (p p' : Pc) (x : Nat) : Prop where
  wrote : p'.wrote = some x ↔ p.wrote = some x
  unfilled : p.unfilled P = some x → p'.unfilled P = some x
  late : p'.late = some x ↔ p.late = some x
  unsound : p.unsound = some x → p'.unsound = some x

theorem Mute.of_own {p p' : Pc} (hp : x ∉ p.own) (hp' : x ∉ p'.own) : Mute P p p' x :=
  ⟨⟨fun h => absurd (Pc.wrote_own h) hp', fun h => absurd (Pc.wrote_own h) hp⟩,
    fun h => absurd (Pc.unfilled_own h) hp,
    ⟨fun h => absurd (Pc.late_own h) hp', fun h => absurd (Pc.late_own h) hp⟩,
    fun h => absurd (Pc.unsound_own h) hp⟩

/-- Neither program counter says anything about an entry. -/
theorem Mute.of_none {p p' : Pc} (hwrote : p.wrote = none) (hwrote' : p'.wrote = none)
    (hunfilled : p.unfilled P = none) (hlate : p.late = none) (hlate' : p'.late = none) :
    Mute P p p' x := by
  refine ⟨by rw [hwrote, hwrote'], fun h => ?_, by rw [hlate, hlate'], fun h => ?_⟩
  · rw [hunfilled] at h
    cases h
  · rw [Pc.unsound_late h] at hlate
    cases hlate

theorem Calm.mute {p p' : Pc} (calm : Calm P p p') (hl : p.late = none) (x : Nat) :
    Mute P p p' x := by
  refine ⟨by rw [calm.wrote], calm.unfilled x, by rw [calm.late, hl], fun h => ?_⟩
  rw [Pc.unsound_late h] at hl
  cases hl

section steps

variable [DecidableEq W] [Fintype W] {n b : Nat} {a : Act P W} {p p' : Pc} {io : Io} {t : Tid W}
  {k : Clean}

omit [Fintype W] in
theorem EntShown.keep (h : EntShown disk s e) (mv : Move s t p p' s')
    (hcore : s'.core e = s.core e) (hc : SameShown disk s s' (s.core e).chunk)
    (hmem : ∀ b, (s.core e).data = some b → s'.mem b = s.mem b) (hm : Mute P p p' e) :
    EntShown disk s' e := by
  have hback : ∀ {f : Pc → Option Nat}, (f p' = some e → f p = some e) →
      ∀ u, f (s'.pc u) = some e → f (s.pc u) = some e := by
    intro f hf u hu
    by_cases hut : u = t
    · rw [hut, mv.self] at hu
      rw [hut, mv.old]
      exact hf hu
    · rwa [mv.other hut] at hu
  constructor
  · intro hd
    rw [hcore] at hd ⊢
    exact (h.settled hd).imp (mv.exists_keep hm.wrote.mpr) fun hx => hx.same hc
  · intro u hu
    rw [hcore]
    exact (h.late u (hback hm.late.mp u hu)).same hc
  · intro he hd
    rw [hcore] at he hd
    exact mv.exists_keep hm.late.mpr (h.doomed he hd)
  · intro u hu
    rw [hcore]
    exact h.clear u (hback hm.wrote.mp u hu)
  · intro b hb he
    rw [hcore] at hb he ⊢
    rw [hmem b hb, hc.shown]
    rcases h.filled b hb he with hx | hx | hx
    · exact .inl ⟨hx.1, mv.exists_keep hm.unfilled hx.2⟩
    · exact .inr (.inl (mv.exists_keep hm.unsound hx))
    · exact .inr (.inr hx)

omit [Fintype W] in
theorem ShownInv.same (hS : ShownInv disk s) (mv : Move s a.tid p p' s')
    (hm : ∀ x, Mute P p p' x) (tab : SameTab s s') (hmem : s'.mem = s.mem)
    (hc : ∀ c, SameShown disk s s' c) : ShownInv disk s' := by
  refine ⟨fun c hno => ?_, fun x hx => ?_⟩
  · refine (hS.absent c fun x hx => ?_).same (hc c)
    have := hno x (by rw [tab.chunks]; exact hx)
    rwa [tab.core x hx] at this
  · rw [tab.chunks] at hx
    exact (hS.ent x hx).keep mv (tab.core x hx) (hc _) (fun b _ => by rw [hmem]) (hm x)

/-- The part of `EntShown` that is about the entry its thread holds, after a step to `p'`. -/
structure HeldShown (disk : Nat → Data P) (s' : St P W) (p' : Pc) (e c : Nat) : Prop where
  chunk : (s'.core e).chunk = c
  settled : (s'.core e).dirty = 0 → p'.wrote = some e ∨ Stored disk s' c
  late : p'.late = some e → Stored disk s' c
  doomed : (s'.core e).error = true → (s'.core e).dirty ≠ 0 → p'.late = some e
  clear : p'.wrote = some e → (s'.core e).error = false
  filled : ∀ b, (s'.core e).data = some b → (s'.core e).error = false →
    (s'.core e).dirty = 0 ∧ p'.unfilled P = some e ∨ p'.unsound = some e ∨
      shown (some (disk c)) c s'.hist = some (s'.mem b)

/-- No other thread says anything about an entry that the acting thread holds. -/
theorem HeldShown.ent (hH : HeldShown disk s' p' e (s.core e).chunk) (h : Inv n s)
    (mv : Move s a.tid p p' s') (ho : e ∈ p.own) : EntShown disk s' e := by
  have hself := fun u => h.own_pc mv ho u
  refine ⟨fun hd => ?_, fun u hu => ?_, fun he hd => ?_, fun u hu => ?_, fun b hb he => ?_⟩
  · rw [hH.chunk]
    exact (hH.settled hd).imp_left fun hw => ⟨a.tid, by rw [mv.self]; exact hw⟩
  · rw [hH.chunk]
    exact hH.late (by rw [← hself u (Pc.late_own hu)]; exact hu)
  · exact ⟨a.tid, by rw [mv.self]; exact hH.doomed he hd⟩
  · exact hH.clear (by rw [← hself u (Pc.wrote_own hu)]; exact hu)
  · rw [hH.chunk]
    rcases hH.filled b hb he with hx | hx | hx
    · exact .inl ⟨hx.1, a.tid, by rw [mv.self]; exact hx.2⟩
    · exact .inr (.inl ⟨a.tid, by rw [mv.self]; exact hx⟩)
    · exact .inr (.inr hx)

omit [DecidableEq W] [Fintype W] in
theorem ShownInv.of_ents (hS : ShownInv disk s) (he : e ∈ s.tab.chunks)
    (hch : s'.tab.chunks = s.tab.chunks)
    (hc : ∀ c, c ≠ (s.core e).chunk → SameShown disk s s' c)
    (hchunk : ∀ x ∈ s.tab.chunks, (s'.core x).chunk = (s.core x).chunk)
    (hents : ∀ x ∈ s.tab.chunks, EntShown disk s' x) : ShownInv disk s' := by
  refine ⟨fun c hno => ?_, fun x hx => hents x (hch ▸ hx)⟩
  have hold : ∀ x ∈ s.tab.chunks, (s.core x).chunk ≠ c := by
    intro x hx
    rw [← hchunk x hx]
    exact hno x (by rw [hch]; exact hx)
  exact (hS.absent c hold).same (hc c fun heq => hold e he heq.symm)

section

variable (hS : ShownInv disk s) (h : Inv n s)
include hS h

theorem ShownInv.act (mv : Move s a.tid p p' s') (ho : e ∈ p.own)
    (hm : ∀ x, x ≠ e → Mute P p p' x) (hch : s'.tab.chunks = s.tab.chunks)
    (hcore : ∀ x ∈ s.tab.chunks, x ≠ e → s'.core x = s.core x)
    (hmem : ∀ x ∈ s.tab.chunks, x ≠ e → ∀ b, (s.core x).data = some b → s'.mem b = s.mem b)
    (hc : ∀ c, c ≠ (s.core e).chunk → SameShown disk s s' c)
    (hH : HeldShown disk s' p' e (s.core e).chunk) : ShownInv disk s' := by
  have he := h.live mv.old ho
  refine hS.of_ents he hch hc (fun x hx => ?_) fun x hx => ?_
  · by_cases hxe : x = e
    · rw [hxe, hH.chunk]
    · rw [hcore x hx hxe]
  · by_cases hxe : x = e
    · rw [hxe]
      exact hH.ent h mv ho
    · refine (hS.ent x hx).keep mv (hcore x hx hxe) (hc _ ?_) (hmem x hx hxe) (hm x hxe)
      exact fun heq => hxe (h.tabInv.key x hx e he heq)

omit [DecidableEq W] in
theorem ShownInv.stored_of (hp : s.pc t = p) (ho : e ∈ p.own) (hw : p.wrote = none)
    (hd : (s.core e).dirty = 0) : Stored disk s (s.core e).chunk := by
  rcases (hS.ent e (h.live hp ho)).settled hd with hx | hx
  · have := h.says hp ho (fun _ => Pc.wrote_own) hx
    rw [hw] at this
    cases this
  · exact hx

omit [DecidableEq W] in
theorem ShownInv.mem_of (hp : s.pc t = p) (ho : e ∈ p.own) (hn : p.unsound = none)
    (hb : (s.core e).data = some b) (herr : (s.core e).error = false) :
    (s.core e).dirty = 0 ∧ p.unfilled P = some e ∨
      shown (some (disk (s.core e).chunk)) (s.core e).chunk s.hist = some (s.mem b) := by
  rcases (hS.ent e (h.live hp ho)).filled b hb herr with hx | hx | hx
  · exact .inl ⟨hx.1, h.says hp ho (fun _ => Pc.unfilled_own) hx.2⟩
  · have := h.says hp ho (fun _ => Pc.unsound_own) hx
    rw [hn] at this
    cases this
  · exact .inr hx

omit [DecidableEq W] in
/-- An entry with its error flag is clean, unless its holder's write-back has just failed. -/
theorem ShownInv.clean_of (hp : s.pc t = p) (ho : e ∈ p.own) (hl : p.late = none)
    (herr : (s.core e).error = true) : (s.core e).dirty = 0 := by
  by_contra hd
  have := h.says hp ho (fun _ => Pc.late_own) ((hS.ent e (h.live hp ho)).doomed herr hd)
  rw [hl] at this
  cases this

/-! ## One step -/

/-- `cache_update` succeeds: the entry has no error flag. -/
theorem ShownInv.stored (mv : Move s a.tid (.cleanUpdate k e) (.cleanLock k e) s')
    (hb : (s.core e).data = some b) (tab : SameTab s s') (hmem : s'.mem = s.mem)
    (hstore : s'.store = update s.store (s.core e).chunk (some (s.mem b)))
    (hhist : s'.hist = .updated (s.core e).chunk (s.mem b) :: s.hist) : ShownInv disk s' := by
  have ho : e ∈ (Pc.cleanUpdate k e).own := mem_cons_self ..
  have hcore := tab.core e (h.live mv.old ho)
  have hd := h.dirty_of_cleaning mv.old rfl
  have herr : (s.core e).error = false := by
    by_contra hx
    exact hd (hS.clean_of h mv.old ho rfl (by simpa using hx))
  have hval : ∀ c, shown (some (disk c)) c s'.hist = shown (some (disk c)) c s.hist :=
    fun c => by rw [hhist]; rfl
  have hbuf := (hS.mem_of h mv.old ho rfl hb herr).resolve_left fun hx => hd hx.1
  have hin : Stored disk s' (s.core e).chunk := by
    unfold Stored
    rw [hstore, update_self, hval, hbuf]
  refine hS.act h mv ho (fun x hx => ?_) tab.chunks (fun x hx _ => tab.core x hx)
    (fun _ _ _ _ _ => by rw [hmem])
    (fun c hc => ⟨by rw [hstore, update_of_ne hc], hval c⟩) ?_
  · exact ⟨⟨nofun, nofun⟩, nofun, ⟨fun hl => absurd (some.inj hl).symm hx, nofun⟩, nofun⟩
  · refine ⟨by rw [hcore], fun _ => .inr hin, fun _ => hin, fun _ _ => rfl, nofun, ?_⟩
    intro b' hb' _
    rw [hcore, hb, some.injEq] at hb'
    rw [hval, hmem, ← hb']
    exact .inr (.inr hbuf)

theorem ShownInv.storeFailed (mv : Move s a.tid (.cleanUpdate k e) (.cleanFailed k e) s')
    (tab : SameTab s s') (hmem : s'.mem = s.mem)
    (hstore : s'.store = update s.store (s.core e).chunk a.left)
    (hhist : s'.hist = .updateFailed (s.core e).chunk a.left :: s.hist) : ShownInv disk s' := by
  have ho : e ∈ (Pc.cleanUpdate k e).own := mem_cons_self ..
  have hcore := tab.core e (h.live mv.old ho)
  have hin : Stored disk s' (s.core e).chunk := by
    unfold Stored
    rw [hstore, update_self, hhist]
    exact (if_pos rfl).symm
  refine hS.act h mv ho (fun x hx => ?_) tab.chunks (fun x hx _ => tab.core x hx)
    (fun _ _ _ _ _ => by rw [hmem]) (fun c hc => ?_) ?_
  · exact ⟨⟨nofun, nofun⟩, nofun, ⟨fun hl => absurd (some.inj hl).symm hx, nofun⟩, nofun⟩
  · refine ⟨by rw [hstore, update_of_ne hc], ?_⟩
    rw [hhist]
    exact if_neg (Ne.symm hc)
  · exact ⟨by rw [hcore], fun _ => .inr hin, fun _ => hin, fun _ _ => rfl, nofun,
      fun _ _ _ => .inr (.inl rfl)⟩

/-- A step that leaves the buffers, the stored chunks and the history alone and changes one
entry. -/
theorem ShownInv.mark {core : Core} (mv : Move s a.tid p p' s') (ho : e ∈ p.own)
    (hm : ∀ x, x ≠ e → Mute P p p' x) (tab : OneEnt s s' e core)
    (hchunk : core.chunk = (s.core e).chunk) (hmem : s'.mem = s.mem) (hstore : s'.store = s.store)
    (hhist : s'.hist = s.hist)
    (hsettled : core.dirty = 0 → p'.wrote = some e ∨ Stored disk s (s.core e).chunk)
    (hlate : p'.late = some e → Stored disk s (s.core e).chunk)
    (hdoomed : core.error = true → core.dirty ≠ 0 → p'.late = some e)
    (hclear : p'.wrote = some e → core.error = false)
    (hfilled : ∀ b, core.data = some b → core.error = false →
      core.dirty = 0 ∧ p'.unfilled P = some e ∨ p'.unsound = some e ∨
        shown (some (disk (s.core e).chunk)) (s.core e).chunk s.hist = some (s.mem b)) :
    ShownInv disk s' := by
  have hsame := SameShown.of_eq disk hstore hhist
  refine hS.act h mv ho hm tab.chunks (fun x _ hx => tab.other x hx)
    (fun _ _ _ _ _ => by rw [hmem]) (fun c _ => hsame c) ?_
  refine ⟨by rw [tab.self, hchunk], ?_, fun hl => (hlate hl).same (hsame _), ?_, ?_, ?_⟩
  all_goals rw [tab.self]
  · exact fun hd => (hsettled hd).imp_right fun hx => hx.same (hsame _)
  · exact hdoomed
  · exact hclear
  · rw [hmem, hhist]
    exact hfilled

theorem ShownInv.storeError (mv : Move s a.tid (.cleanFailed k e) (.cleanLock k e) s')
    (tab : OneEnt s s' e { s.core e with error := true }) (hmem : s'.mem = s.mem)
    (hstore : s'.store = s.store) (hhist : s'.hist = s.hist) : ShownInv disk s' := by
  have ho : e ∈ (Pc.cleanFailed k e).own := mem_cons_self ..
  have hin := (hS.ent e (h.live mv.old ho)).late a.tid (by rw [mv.old]; rfl)
  refine hS.mark h mv ho (fun x hx => ?_) tab rfl hmem hstore hhist (fun _ => .inr hin)
    (fun _ => hin) (fun _ _ => rfl) nofun nofun
  have hno : some e ≠ some x := fun hl => hx (some.inj hl).symm
  exact ⟨⟨nofun, nofun⟩, nofun, ⟨fun hl => absurd hl hno, fun hl => absurd hl hno⟩,
    fun hl => absurd hl hno⟩

theorem ShownInv.cleaned (mv : Move s a.tid (.cleanLock k e) (k.next e) s')
    (tab : OneEnt s s' e { s.core e with dirty := 0 }) (hmem : s'.mem = s.mem)
    (hstore : s'.store = s.store) (hhist : s'.hist = s.hist) : ShownInv disk s' := by
  have ho : e ∈ (Pc.cleanLock k e).own := mem_cons_self ..
  have hd := h.dirty_of_cleaning mv.old rfl
  have hin := (hS.ent e (h.live mv.old ho)).late a.tid (by rw [mv.old]; rfl)
  have hw : (k.next e).wrote = none := by cases k <;> rfl
  have hl : (k.next e).late = none := by cases k <;> rfl
  refine hS.mark h mv ho (fun x hx => ?_) tab rfl hmem hstore hhist (fun _ => .inr hin)
    (fun _ => hin) (fun _ hz => absurd rfl hz) (by rw [hw]; nofun) fun b hb herr => ?_
  · have hno : some e ≠ some x := fun hl => hx (some.inj hl).symm
    exact ⟨by rw [hw]; exact ⟨nofun, nofun⟩, nofun,
      by rw [hl]; exact ⟨nofun, fun hl => absurd hl hno⟩, nofun⟩
  · exact .inr (.inr ((hS.mem_of h mv.old ho rfl hb herr).resolve_left fun hx => hd hx.1))

theorem ShownInv.fillError (mv : Move s a.tid (.fillFailed io e) (.ioBody io e) s')
    (tab : OneEnt s s' e { s.core e with error := true }) (hmem : s'.mem = s.mem)
    (hstore : s'.store = s.store) (hhist : s'.hist = s.hist) : ShownInv disk s' := by
  have hz := (h.ok mv.old).2.2
  have ho : e ∈ (Pc.fillFailed io e).own := mem_singleton.mpr rfl
  exact hS.mark h mv ho (fun x hx => .of_own (by simpa [Pc.own]) (by simpa [Pc.own])) tab rfl hmem
    hstore hhist (fun hd => .inr (hS.stored_of h mv.old ho rfl hd)) nofun (fun _ hd => absurd hz hd)
    nofun nofun

theorem ShownInv.dirtied {d : Nat}
    (mv : Move s a.tid (.erLock io e false) (.release (.request io false) e) s')
    (hw : io.req.isWrite = true) (hd : d ≠ 0) (tab : OneEnt s s' e { s.core e with dirty := d })
    (hmem : s'.mem = s.mem) (hstore : s'.store = s.store) (hhist : s'.hist = s.hist) :
    ShownInv disk s' := by
  have ho : e ∈ (Pc.erLock io e false).own := mem_singleton.mpr rfl
  have hclear := (hS.ent e (h.live mv.old ho)).clear a.tid (by rw [mv.old]; simp [Pc.wrote, hw])
  refine hS.mark h mv ho
    (fun x hx => .of_own (by simpa [Pc.own]) (by simpa [Pc.own, Rel.own])) tab rfl hmem
    hstore hhist (fun hz => absurd hz hd) (fun hx => by cases hx) (fun herr _ => ?_)
    (fun hx => by cases hx) fun b hb herr => ?_
  · rw [hclear] at herr
    cases herr
  · exact .inr (.inr ((hS.mem_of h mv.old ho rfl hb herr).resolve_left fun hx => by cases hx.2))

/-- `image_shutdown` takes the buffer from a clean entry. -/
theorem ShownInv.dropped (mv : Move s a.tid (.shDrop e) (.release .shutdown e) s')
    (hd : (s.core e).dirty = 0) (tab : OneEnt s s' e { s.core e with data := none })
    (hmem : s'.mem = s.mem) (hstore : s'.store = s.store) (hhist : s'.hist = s.hist) :
    ShownInv disk s' := by
  have ho : e ∈ (Pc.shDrop e).own := mem_singleton.mpr rfl
  exact hS.mark h mv ho
    (fun x hx => .of_own (by simpa [Pc.own]) (by simpa [Pc.own, Rel.own])) tab rfl hmem hstore
    hhist (fun _ => .inr (hS.stored_of h mv.old ho rfl hd)) nofun (fun _ hz => absurd hd hz) nofun
    nofun

/-- A step that overwrites at most the buffer of the entry and leaves the rest of the data
alone. -/
theorem ShownInv.touch (mv : Move s a.tid p p' s') (ho : e ∈ p.own)
    (hm : ∀ x, x ≠ e → Mute P p p' x) (hw : p.wrote = none) (hw' : p'.wrote = none)
    (hl : p.late = none) (hl' : p'.late = none) (tab : SameTab s s')
    (hmem : ∀ x ∈ s.tab.chunks, x ≠ e → ∀ b, (s.core x).data = some b → s'.mem b = s.mem b)
    (hstore : s'.store = s.store) (hhist : s'.hist = s.hist)
    (hfilled : ∀ b, (s.core e).data = some b → (s.core e).error = false →
      (s.core e).dirty = 0 ∧ p'.unfilled P = some e ∨
        shown (some (disk (s.core e).chunk)) (s.core e).chunk s.hist = some (s'.mem b)) :
    ShownInv disk s' := by
  have hcore := tab.core e (h.live mv.old ho)
  have hsame := SameShown.of_eq disk hstore hhist
  refine hS.act h mv ho hm tab.chunks (fun x hx _ => tab.core x hx) hmem (fun c _ => hsame c) ?_
  refine ⟨by rw [hcore], ?_, by rw [hl']; nofun, ?_, by rw [hw']; nofun, ?_⟩
  all_goals rw [hcore]
  · exact fun hd => .inr ((hS.stored_of h mv.old ho hw hd).same (hsame _))
  · exact fun herr hd => absurd (hS.clean_of h mv.old ho hl herr) hd
  · intro b hb herr
    rw [hhist]
    exact (hfilled b hb herr).imp_right .inr

theorem ShownInv.filled {d : Data P} (mv : Move s a.tid (.eaFill io e) (.ioBody io e) s')
    (hb : (s.core e).data = some b) (hd : s.store (s.core e).chunk = some d) (tab : SameTab s s')
    (hmem : s'.mem = update s.mem b d) (hstore : s'.store = s.store)
    (hhist : s'.hist = s.hist) : ShownInv disk s' := by
  have hz := (h.ok mv.old).2.2
  have ho : e ∈ (Pc.eaFill io e).own := mem_singleton.mpr rfl
  have hin := hS.stored_of h mv.old ho rfl hz
  refine hS.touch h mv ho (fun x hx => .of_own (by simpa [Pc.own]) (by simpa [Pc.own])) rfl rfl rfl
    rfl tab (h.mem_other (h.live mv.old ho) hb hmem) hstore hhist fun b' hb' _ => .inr ?_
  rw [hb, some.injEq] at hb'
  rw [hmem, ← hb', update_self, ← hd]
  exact hin.symm

theorem ShownInv.fillFailed (mv : Move s a.tid (.eaFill io e) (.fillFailed io e) s')
    (hb : (s.core e).data = some b) (tab : SameTab s s')
    (hmem : s'.mem = update s.mem b a.junk) (hstore : s'.store = s.store)
    (hhist : s'.hist = s.hist) : ShownInv disk s' := by
  have hz := (h.ok mv.old).2.2
  have ho : e ∈ (Pc.eaFill io e).own := mem_singleton.mpr rfl
  exact hS.touch h mv ho (fun x hx => .of_own (by simpa [Pc.own]) (by simpa [Pc.own])) rfl rfl rfl
    rfl tab (h.mem_other (h.live mv.old ho) hb hmem) hstore hhist fun _ _ _ => .inl ⟨hz, rfl⟩

theorem ShownInv.refused (mv : Move s a.tid (.ioBody io e) (.erLock io e true) s')
    (herr : (s.core e).error = true) (tab : SameTab s s') (hmem : s'.mem = s.mem)
    (hstore : s'.store = s.store) (hhist : s'.hist = s.hist) : ShownInv disk s' := by
  have ho : e ∈ (Pc.ioBody io e).own := mem_singleton.mpr rfl
  refine hS.touch h mv ho (fun x hx => .of_own (by simpa [Pc.own]) (by simpa [Pc.own])) rfl
    (by simp [Pc.wrote]) rfl rfl tab (fun _ _ _ _ _ => by rw [hmem]) hstore hhist fun b _ hx => ?_
  rw [herr] at hx
  cases hx

/-- The `memcpy` of `image_write`. The buffer is the chunk, unless it is still to be filled; but
then the whole of it is overwritten. -/
theorem ShownInv.written (mv : Move s a.tid (.ioBody io e) (.erLock io e false) s')
    (hw : io.req.isWrite = true) (herr : (s.core e).error = false) (hb : (s.core e).data = some b)
    (tab : SameTab s s') (hmem : s'.mem = update s.mem b (io.piece.apply (s.mem b)))
    (hstore : s'.store = s.store) (hhist : s'.hist = .wrote a.tid io.cur.chunk io.piece :: s.hist) :
    ShownInv disk s' := by
  have hio := (h.ok mv.old).1
  have ho : e ∈ (Pc.ioBody io e).own := mem_singleton.mpr rfl
  have he := h.live mv.old ho
  have hcore := tab.core e he
  have hchunk : (s.core e).chunk = io.cur.chunk := hio.2
  have hwrote : (Pc.erLock io e false).wrote = some e := by simp [Pc.wrote, hw]
  have hnew : shown (some (disk (s.core e).chunk)) (s.core e).chunk s'.hist
      = some (io.piece.apply (s.mem b)) := by
    rw [hhist, shown, if_pos hchunk.symm]
    rcases hS.mem_of h mv.old ho rfl hb herr with hx | hx
    · have hwhole : io.wholeChunk P = true := by
        by_contra hn
        simp [Pc.unfilled, hn] at hx
      obtain ⟨hoff, hlen⟩ := Io.piece_whole hio.1 hwhole
      rw [Write.apply_whole hoff hlen]
    · rw [hx, getD_some]
  refine hS.act h mv ho (fun x hx => .of_own (by simpa [Pc.own]) (by simpa [Pc.own])) tab.chunks
    (fun x hx _ => tab.core x hx) (h.mem_other he hb hmem) (fun c hc => ⟨by rw [hstore], ?_⟩) ?_
  · rw [hhist, shown, if_neg]
    rw [← hchunk]
    exact Ne.symm hc
  · refine ⟨by rw [hcore], fun _ => .inl hwrote, (absurd · (some_ne_none e).symm),
      fun hx => ?_,
      fun _ => by rw [hcore]; exact herr, fun b' hb' _ => .inr (.inr ?_)⟩
    · rw [hcore, herr] at hx
      cases hx
    · rw [hcore, hb, some.injEq] at hb'
      rw [hnew, hmem, ← hb', update_self]

theorem ShownInv.allocated (mv : Move s a.tid (.eaData io e) (.eaFill io e) s')
    (tab : OneEnt s s' e { s.core e with data := some s.tab.nextBuf })
    (hd : (s.core e).data = none) (hmem : s'.mem = update s.mem s.tab.nextBuf a.junk)
    (hstore : s'.store = s.store) (hhist : s'.hist = s.hist) : ShownInv disk s' := by
  have ho : e ∈ (Pc.eaData io e).own := mem_singleton.mpr rfl
  have hz := h.dirty_of_data (h.live mv.old ho) hd
  have hsame := SameShown.of_eq disk hstore hhist
  refine hS.act h mv ho (fun x hx => .of_own (by simpa [Pc.own]) (by simpa [Pc.own])) tab.chunks
    (fun x _ hx => tab.other x hx) (fun x hx _ b hb => ?_) (fun c _ => hsame c) ?_
  · rw [hmem, update_of_ne (ne_of_lt (h.tabInv.buf_lt x hx b hb))]
  · refine ⟨by rw [tab.self], fun _ => .inr ?_, nofun, fun _ hx => ?_, nofun,
      fun _ _ _ => .inl ⟨by rw [tab.self]; exact hz, rfl⟩⟩
    · exact (hS.stored_of h mv.old ho rfl hz).same (hsame _)
    · rw [tab.self] at hx
      exact absurd hz hx

theorem ShownInv.stolen {r : Nat}
    (mv : Move s a.tid (.eaSteal io e r) (.release (.steal io e) r) s') (hne : e ≠ r)
    (hch : s'.tab.chunks = s.tab.chunks) (hd : (s.core e).data = none)
    (hself : s'.core e = { s.core e with data := some b })
    (hvictim : s'.core r = { s.core r with data := none })
    (hother : ∀ x, x ≠ e → x ≠ r → s'.core x = s.core x) (hmem : s'.mem = s.mem)
    (hstore : s'.store = s.store) (hhist : s'.hist = s.hist) : ShownInv disk s' := by
  have hzr := (h.ok mv.old).2.2.2
  have hoe : e ∈ (Pc.eaSteal io e r).own := by simp [Pc.own]
  have hor : r ∈ (Pc.eaSteal io e r).own := by simp [Pc.own]
  have he := h.live mv.old hoe
  have hz := h.dirty_of_data he hd
  have hsame := SameShown.of_eq disk hstore hhist
  refine hS.of_ents he hch (fun c _ => hsame c) (fun x _ => ?_) fun x hx => ?_
  · by_cases hxe : x = e
    · rw [hxe, hself]
    · by_cases hxr : x = r
      · rw [hxr, hvictim]
      · rw [hother x hxe hxr]
  · by_cases hxe : x = e
    · subst hxe
      have hH : HeldShown disk s' (.release (.steal io x) r) x (s.core x).chunk := by
        refine ⟨by rw [hself], fun _ => .inr ?_, nofun, fun _ hx => ?_, nofun,
          fun _ _ _ => .inl ⟨by rw [hself]; exact hz, rfl⟩⟩
        · exact (hS.stored_of h mv.old hoe rfl hz).same (hsame _)
        · rw [hself] at hx
          exact absurd hz hx
      exact hH.ent h mv hoe
    · by_cases hxr : x = r
      · subst hxr
        have hH : HeldShown disk s' (.release (.steal io e) x) x (s.core x).chunk := by
          refine ⟨by rw [hvictim], fun _ => .inr ?_, nofun, fun _ hx => ?_, nofun, fun _ hb' => ?_⟩
          · exact (hS.stored_of h mv.old hor rfl hzr).same (hsame _)
          · rw [hvictim] at hx
            exact absurd hzr hx
          · rw [hvictim] at hb'
            cases hb'
        exact hH.ent h mv hor
      · refine (hS.ent x hx).keep mv (hother x hxe hxr) (hsame _) (fun _ _ => by rw [hmem])
          (.of_own ?_ ?_)
        · simp [Pc.own, hxe, hxr]
        · simp [Pc.own, Rel.own, hxe, hxr]

theorem ShownInv.created (mv : Move s a.tid (.eaLock io) (.acqLoop (.request io) e) s')
    (hnew : e ∉ s.tab.chunks) (hkey : ∀ x ∈ s.tab.chunks, (s.core x).chunk ≠ io.cur.chunk)
    (hch : s'.tab.chunks = s.tab.chunks ++ [e])
    (hself : s'.core e = ⟨io.cur.chunk, none, 0, false⟩)
    (hother : ∀ x ∈ s.tab.chunks, s'.core x = s.core x) (hmem : s'.mem = s.mem)
    (hstore : s'.store = s.store) (hhist : s'.hist = s.hist) : ShownInv disk s' := by
  have hsame := SameShown.of_eq disk hstore hhist
  have hmem' : ∀ x, x ∈ s'.tab.chunks ↔ x ∈ s.tab.chunks ∨ x = e := by simp [hch]
  have hno := h.own_new mv nofun hnew
  refine ⟨fun c hc => ?_, fun x hx => ?_⟩
  · refine (hS.absent c fun x hx => ?_).same (hsame c)
    have := hc x ((hmem' x).mpr (.inl hx))
    rwa [hother x hx] at this
  · rcases (hmem' x).mp hx with hx | rfl
    · exact (hS.ent x hx).keep mv (hother x hx) (hsame _) (fun _ _ => by rw [hmem])
        ⟨⟨nofun, nofun⟩, nofun, ⟨nofun, nofun⟩, nofun⟩
    · refine ⟨fun _ => .inr ?_, fun u hu => absurd (Pc.late_own hu) (hno u), fun hx => ?_,
        fun u hu => absurd (Pc.wrote_own hu) (hno u), fun b hb => ?_⟩
      · rw [hself]
        exact (hS.absent _ hkey).same (hsame _)
      · rw [hself] at hx
        cases hx
      · rw [hself] at hb
        cases hb

theorem ShownInv.freed {k : Rel} (mv : Move s a.tid (.release k e) p' s')
    (calm : Calm P (.release k e) p') (hd : (s.core e).data = none)
    (hch : s'.tab.chunks = s.tab.chunks.erase e) (hcore : ∀ x, s'.core x = s.core x)
    (hmem : s'.mem = s.mem) (hstore : s'.store = s.store) (hhist : s'.hist = s.hist) :
    ShownInv disk s' := by
  have ho : e ∈ (Pc.release k e).own := mem_cons_self ..
  have hsame := SameShown.of_eq disk hstore hhist
  have hmem' : ∀ x, x ∈ s'.tab.chunks ↔ x ≠ e ∧ x ∈ s.tab.chunks := fun x => by
    rw [hch, h.tabInv.nodup.mem_erase_iff]
  have hin := hS.stored_of h mv.old ho rfl (h.dirty_of_data (h.live mv.old ho) hd)
  refine ⟨fun c hc => ?_, fun x hx => ?_⟩
  · by_cases hce : (s.core e).chunk = c
    · exact (hce ▸ hin).same (hsame c)
    · refine (hS.absent c fun x hx => ?_).same (hsame c)
      by_cases hxe : x = e
      · rw [hxe]; exact hce
      · have := hc x ((hmem' x).mpr ⟨hxe, hx⟩)
        rwa [hcore x] at this
  · obtain ⟨-, hx⟩ := (hmem' x).mp hx
    exact (hS.ent x hx).keep mv (hcore x) (hsame _) (fun _ _ => by rw [hmem]) (calm.mute rfl x)

end

/-- A thread whose `cache_update` call has returned goes on to the end of `entry_clean`: no step
that leaves the entries alone is its next. -/
theorem Inv.late_none (h : Inv n s) (hs : Fuse.step s a = some s') (mv : Move s a.tid p p' s')
    (calm : Calm P p p') (tab : SameTab s s') : p.late = none := by
  have hs := h.stepAt_of_step hs
  rw [mv.old] at hs
  cases p with
  | cleanFailed k e =>
    cases hs
    have hnext : p' = .cleanLock k e :=
      mv.self.symm.trans (update_self (f := s.pc) a.tid _)
    have := calm.late
    rw [hnext] at this
    cases this
  | cleanLock k e =>
    have hd := h.dirty_of_cleaning mv.old rfl
    have he := h.live mv.old (mem_cons_self ..)
    simp only [stepAt] at hs
    split at hs
    next =>
      cases hs
      refine absurd ?_ hd
      rw [← tab.core e he]
      exact congrArg Entry.dirty (Table.setEnt_self ..)
    next => cases hs
  | _ => rfl

theorem ShownInv.step (hS : ShownInv disk s) (h : Inv n s) (hs : Fuse.step s a = some s') :
    ShownInv disk s' := by
  cases h.effect hs with
  | dropped mv _ hd tab mem store hist => exact hS.dropped h mv hd tab mem store hist
  | quiet mv calm tab mem store hist =>
    exact hS.same mv (calm.mute (h.late_none hs mv calm tab)) tab mem (.of_eq _ store hist)
  | called mv calm tab mem store hist =>
    exact hS.same mv (calm.mute rfl) tab mem fun c => ⟨by rw [store], by rw [hist]; rfl⟩
  | returned mv calm tab mem store hist _ _ =>
    exact hS.same mv (calm.mute (h.late_none hs mv calm tab)) tab mem fun c =>
      ⟨by rw [store], by rw [hist]; rfl⟩
  | synced mv _ tab mem store hist =>
    exact hS.same mv (fun x => .of_own (by simp [Pc.own]) (by simp [Pc.own])) tab mem
      (.of_eq _ store hist)
  | created mv hnew hkey chunks self other mem store hist =>
    exact hS.created h mv hnew hkey chunks self other mem store hist
  | taken mv _ tab mem store hist =>
    exact hS.same mv (fun x => .of_none rfl rfl rfl rfl rfl) tab mem fun c =>
      ⟨by rw [store], by rw [hist]; rfl⟩
  | allocated mv tab hd mem store hist => exact hS.allocated h mv tab hd mem store hist
  | stolen mv hne chunks hd _ self victim other mem store hist =>
    exact hS.stolen h mv hne chunks hd self victim other mem store hist
  | stored mv _ hb tab mem store hist => exact hS.stored h mv hb tab mem store hist
  | storeFailed mv _ tab mem store hist => exact hS.storeFailed h mv tab mem store hist
  | storeError mv tab mem store hist => exact hS.storeError h mv tab mem store hist
  | cleaned mv tab mem store hist => exact hS.cleaned h mv tab mem store hist
  | freed mv calm hw hd chunks core mem store hist =>
    exact hS.freed h mv calm hd chunks core mem store hist
  | filled mv hb hd tab mem store hist => exact hS.filled h mv hb hd tab mem store hist
  | fillFailed mv hb _ tab mem store hist => exact hS.fillFailed h mv hb tab mem store hist
  | fillError mv tab mem store hist => exact hS.fillError h mv tab mem store hist
  | refused mv herr tab mem store hist => exact hS.refused h mv herr tab mem store hist
  | @read io e b out mv hr herr hb tab mem store hist =>
    have hwrote : (Pc.erLock { io with out } e false).wrote = none := by simp [Pc.wrote, hr]
    have hunfilled : (Pc.ioBody io e).unfilled P = none := by
      simp [Pc.unfilled, Io.wholeChunk, hr]
    exact hS.same mv (fun x => .of_none rfl hwrote hunfilled rfl rfl) tab mem fun c =>
      ⟨by rw [store], by rw [hist]; rfl⟩
  | written mv hw herr hb tab mem store hist =>
    exact hS.written h mv hw herr hb tab mem store hist
  | dirtied mv hw hd tab mem store hist => exact hS.dirtied h mv hw hd tab mem store hist

omit [Fintype W] in
theorem shownInv_init (allocatable : Nat) : ShownInv disk (init W allocatable disk) :=
  ⟨fun _ _ => rfl, nofun⟩

omit [DecidableEq W] in
theorem EntShown.unsaved (hE : EntShown disk s e) (h : Inv n s) (he : e ∈ s.tab.chunks)
    (hu : Unsaved s e) : (s.core e).data.map s.mem
      = shown (some (disk (s.core e).chunk)) (s.core e).chunk s.hist := by
  obtain ⟨herr, hno, hdirty⟩ := hu
  have hwriter : ∀ t, (s.pc t).wrote = some e →
      (s.core e).data ≠ none ∧ (s.pc t).unfilled P = none := by
    intro t ht
    generalize hp : s.pc t = p at ht
    cases p with
    | erLock io x failed =>
      have hdata := (h.ok hp).2
      simp only [Pc.wrote, ite_none_right_eq_some, some.injEq] at ht
      exact ⟨ht.2 ▸ hdata, rfl⟩
    | _ => cases ht
  have hdata : (s.core e).data ≠ none := by
    rcases hdirty with hd | ⟨t, ht⟩
    · exact (h.tabInv.ent e he).dirtyOk.data hd
    · exact (hwriter t ht).1
  obtain ⟨b, hb⟩ := ne_none_iff_exists'.mp hdata
  rw [hb, map_some]
  rcases hE.filled b hb herr with ⟨hd, hx⟩ | hx | hx
  · obtain ⟨t, ht⟩ := hdirty.resolve_left fun hne => hne hd
    have := h.says rfl (Pc.wrote_own ht) (fun _ => Pc.unfilled_own) hx
    rw [(hwriter t ht).2] at this
    cases this
  · exact absurd hx hno
  · exact hx.symm

omit [DecidableEq W] in
theorem ShownInv.content (hS : ShownInv disk s) (h : Inv n s) (c : Nat) :
    content s c = shown (some (disk c)) c s.hist := by
  unfold Fuse.content
  split
  next hno =>
    refine hS.absent c fun e he hc => ?_
    exact find?_eq_none.mp hno e he (beq_iff_eq.mpr hc)
  next e hlook =>
    have he : e ∈ s.tab.chunks := mem_of_find?_eq_some hlook
    have hfound := find?_some hlook
    have hc : (s.core e).chunk = c := beq_iff_eq.mp hfound
    subst hc
    have hE := hS.ent e he
    split
    next hu => exact hE.unsaved h he hu
    next hu =>
      -- the entry has its error flag, or is about to get it, or is clean
      simp only [Unsaved, not_and_or, not_not, not_or, Bool.not_eq_false] at hu
      rcases hu with herr | ⟨t, ht⟩ | ⟨hd, hw⟩
      · exact hE.refused herr
      · exact hE.late t (Pc.unsound_late ht)
      · exact (hE.settled hd).resolve_left hw

/-! ## The moves of requests -/

/-- A `memcpy` reads what the disk shows, or writes inside a chunk that shows something, or to a
whole chunk. -/
def SoundMove (disk : Nat → Data P) : Event P W → List (Event P W) → Prop
  | .copied _ c off bytes, h => off + bytes.length ≤ P.chunksize ∧
      ∃ d, shown (some (disk c)) c h = some d ∧ bytes = slice d off bytes.length
  | .wrote _ c w, h => w.off + w.bytes.length ≤ P.chunksize ∧
      (shown (some (disk c)) c h ≠ none ∨ w.off = 0 ∧ w.bytes.length = P.chunksize)
  | _, _ => True

omit [DecidableEq W] [Fintype W] in
theorem Io.piece_inside (hok : io.Ok P) (hw : io.req.isWrite = true) :
    io.piece.bytes.length = io.cur.length ∧ io.piece.off + io.piece.bytes.length ≤ P.chunksize := by
  obtain ⟨⟨-, hin, hbuf, -⟩, hcount, -⟩ := hok
  cases hreq : io.req with
  | read start count | fsync => simp [hreq, Req.isWrite] at hw
  | write start buf =>
    simp only [hreq, Req.count] at hcount
    simp only [Io.piece, hreq, length_take, length_drop]
    omega

theorem ShownInv.sound (hS : ShownInv disk s) (h : Inv n s) (hs : Fuse.step s a = some s')
    (hM : Base.Always (SoundMove disk) s.hist) : Base.Always (SoundMove disk) s'.hist := by
  cases h.effect hs with
  | @read io e b out mv hr herr hb tab mem store hist =>
    have hio := (h.ok mv.old).1
    have hchunk : (s.core e).chunk = io.cur.chunk := hio.2
    have ho : e ∈ (Pc.ioBody io e).own := mem_singleton.mpr rfl
    have hbuf := (hS.mem_of h mv.old ho rfl hb herr).resolve_left fun hx => by
      simp [Pc.unfilled, Io.wholeChunk, hr] at hx
    rw [hist]
    refine .cons ⟨?_, s.mem b, ?_, ?_⟩ hM
    · rw [slice_length]
      exact hio.1.1.inside
    · rw [← hchunk]
      exact hbuf
    · rw [slice_length]
  | @written io e b mv hw herr hb tab mem store hist =>
    have hio := (h.ok mv.old).1
    have hchunk : (s.core e).chunk = io.cur.chunk := hio.2
    have ho : e ∈ (Pc.ioBody io e).own := mem_singleton.mpr rfl
    rw [hist]
    refine .cons ⟨(Io.piece_inside hio.1 hw).2, ?_⟩ hM
    rcases hS.mem_of h mv.old ho rfl hb herr with hx | hx
    · refine .inr (Io.piece_whole hio.1 ?_)
      by_contra hn
      simp [Pc.unfilled, hn] at hx
    · rw [← hchunk, hx]
      exact .inl (some_ne_none _)
  | quiet _ _ _ _ _ hist | synced _ _ _ _ _ hist | created _ _ _ _ _ _ _ _ hist
  | allocated _ _ _ _ _ hist | stolen _ _ _ _ _ _ _ _ _ _ hist | storeError _ _ _ _ hist
  | cleaned _ _ _ _ hist | freed _ _ _ _ _ _ _ _ hist | filled _ _ _ _ _ _ hist
  | fillFailed _ _ _ _ _ _ hist | fillError _ _ _ _ hist | refused _ _ _ _ _ hist
  | dirtied _ _ _ _ _ _ hist | dropped _ _ _ _ _ _ hist => rwa [hist]
  | called _ _ _ _ _ hist | returned _ _ _ _ _ hist _ _ | taken _ _ _ _ _ hist
  | stored _ _ _ _ _ _ hist | storeFailed _ _ _ _ _ hist => rw [hist]; exact .cons trivial hM

theorem content_eq (allocatable : Nat) (disk : Nat → Data P)
    (hr : Base.Reach Fuse.step (fun _ _ => True) (init W allocatable disk) s) :
    (∀ c, content s c = shown (some (disk c)) c s.hist) ∧
      Base.Always (SoundMove disk) s.hist := by
  have key : Inv allocatable s ∧ ShownInv disk s ∧ Base.Always (SoundMove disk) s.hist := by
    refine hr.inv (I := fun s => Inv allocatable s ∧ ShownInv disk s ∧
      Base.Always (SoundMove disk) s.hist) ⟨inv_init _ _, shownInv_init _, .nil⟩ ?_
    rintro s a s' ⟨h, hS, hM⟩ - hs
    exact ⟨h.step hs, hS.step h hs, hS.sound h hs hM⟩
  exact ⟨key.2.1.content key.1, key.2.2⟩

end steps

/-! ## Single bytes -/

/-- The byte at position `q` of a disk. -/
def byteAt (f : Nat → Option (Data P)) (q : Nat) : Option UInt8 :=
  (f (q / P.chunksize)).map fun d => d ⟨q % P.chunksize, P.mod_chunksize_lt q⟩

/-- A write to chunk `c`, as one to the disk. -/
def Write.onDisk (P : Parcel) (c : Nat) (w : Write) : Write := ⟨c * P.chunksize + w.off, w.bytes⟩

/-- The write covers position `q`. -/
def Write.Covers (w : Write) (q : Nat) : Prop := w.off ≤ q ∧ q < w.off + w.bytes.length

instance (w : Write) (q : Nat) : Decidable (w.Covers q) := inferInstanceAs (Decidable (_ ∧ _))

/-- A write inside chunk `c` covers a position of that chunk, or none. -/
theorem Write.covers_onDisk {w : Write} (hin : w.off + w.bytes.length ≤ P.chunksize) :
    (w.onDisk P c).Covers q ↔ q / P.chunksize = c ∧ w.Covers (q % P.chunksize) := by
  have hq := Nat.div_add_mod' q P.chunksize
  have hlt := Nat.mod_lt q P.chunksize_pos
  simp only [Write.Covers, Write.onDisk]
  constructor
  · rintro ⟨hge, hle⟩
    have hc : q / P.chunksize = c := by
      refine Nat.div_eq_of_lt_le (by omega) ?_
      rw [Nat.succ_mul]
      omega
    rw [hc] at hq
    omega
  · rintro ⟨rfl, hge, hle⟩
    omega

theorem byteAt_wrote {t : Tid W} {w : Write} {h : List (Event P W)} (f : Nat → Option (Data P))
    (hin : w.off + w.bytes.length ≤ P.chunksize)
    (hc : shown (f c) c h ≠ none ∨ w.off = 0 ∧ w.bytes.length = P.chunksize) :
    byteAt (fun c' => shown (f c') c' (.wrote t c w :: h)) q
      = if (w.onDisk P c).Covers q then w.bytes[q - (w.onDisk P c).off]?
        else byteAt (fun c' => shown (f c') c' h) q := by
  have hlt := Nat.mod_lt q P.chunksize_pos
  have hq := Nat.div_add_mod' q P.chunksize
  simp only [byteAt, shown]
  by_cases hqc : c = q / P.chunksize
  · subst hqc
    rw [if_pos rfl, map_some]
    simp only [Write.apply]
    by_cases hcov : w.off ≤ q % P.chunksize ∧ q % P.chunksize < w.off + w.bytes.length
    · rw [if_pos hcov, if_pos ((Write.covers_onDisk hin).mpr ⟨rfl, hcov⟩)]
      have hpos : q - (w.onDisk P (q / P.chunksize)).off = q % P.chunksize - w.off := by
        simp only [Write.onDisk]
        omega
      have hidx : q % P.chunksize - w.off < w.bytes.length := by
        omega
      rw [hpos, getD_eq_getElem?_getD, getElem?_eq_getElem hidx]
      rfl
    · rw [if_neg hcov, if_neg fun hx => hcov ((Write.covers_onDisk hin).mp hx).2]
      -- the write does not reach the byte, so it is not one to the whole chunk
      have hsome := hc.resolve_right fun hx => hcov (by omega)
      obtain ⟨d, hd⟩ := ne_none_iff_exists'.mp hsome
      rw [hd]
      rfl
  · rw [if_neg hqc, if_neg fun hx => hqc ((Write.covers_onDisk hin).mp hx).1.symm]

end OpenIsr.Fuse
