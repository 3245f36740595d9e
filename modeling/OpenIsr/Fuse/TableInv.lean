import OpenIsr.Fuse.Step
import OpenIsr.Base.Count

/-!
# The invariant of the chunk cache

`TabInv tab ρ` ties the table to what its threads are doing. All it needs of a thread is
its `Role`: the entries whose busy flag it holds, the entry it waits for, and the entry
it is cleaning. The part about a single entry is `EntOk`, in three pieces (the busy flag
and its waiters, the reclaimable queue, the dirty queue); `TabInv` asks it of every
entry in the hash table and adds what relates entries to each other.

Every operation of `Table` changes one or two entries and the role of one thread, so its
lemma goes through `TabInv.change`, which leaves only the touched entries to check. Each
lemma also says that the operation's assertions hold.
-/

namespace OpenIsr.Fuse

open List Function
open OpenIsr.Base (countT countT_eq_zero countT_congr countT_enter countT_leave
  countP_gain update_proj)

/-- What a thread is doing with entries: it cleans only an entry whose busy flag it
holds. -/
structure Role where
  own : List Nat
  wait : Option Nat
  cleaning : Option Nat
  clean_own : ∀ e, cleaning = some e → e ∈ own

/-- The entry a thread is inside `entry_clean` for. -/
def Pc.cleaning : Pc → Option Nat
  | .cleanUpdate _ e | .cleanFailed _ e | .cleanLock _ e => some e
  | _ => none

def Pc.role (p : Pc) : Role where
  own := p.own
  wait := p.wait
  cleaning := p.cleaning
  clean_own := by
    intro e he
    cases p <;> simp_all [Pc.cleaning, Pc.own]

section invariant

variable {T : Type} [Fintype T] {e x : Nat} {ent ent' : Entry} {q q' : List Nat} {ρ' ρ : T → Role}
  {tab tab' : Table}

/-- The busy flag has at most one holder, and `waiters` counts the waiters. -/
structure BusyOk (ent : Entry) (ρ : T → Role) (e : Nat) : Prop where
  busy : ent.busy = true ↔ ∃ t, e ∈ (ρ t).own
  excl : ∀ t u, e ∈ (ρ t).own → e ∈ (ρ u).own → t = u
  waiters : ent.waiters = countT fun t => (ρ t).wait = some e

/-- The reclaimable queue holds the entries with a buffer nobody uses; an entry without
a buffer is in use. -/
structure ReclOk (ent : Entry) (queue : List Nat) (e : Nat) : Prop where
  recl : e ∈ queue ↔ ent.busy = false ∧ ent.waiters = 0 ∧ ent.data ≠ none
  link : ent.reclaimableLink = true ↔ e ∈ queue
  nobuf : ent.data = none → ent.busy = true ∨ 0 < ent.waiters

/-- The dirty queue holds the dirty entries that nobody is cleaning. -/
structure DirtyOk (ent : Entry) (queue : List Nat) (ρ : T → Role) (e : Nat) : Prop where
  dirty : e ∈ queue ↔ ent.dirty ≠ 0 ∧ ∀ t, (ρ t).cleaning ≠ some e
  link : ent.dirtyLink = true ↔ e ∈ queue
  clean : ∀ t, (ρ t).cleaning = some e → ent.dirty ≠ 0
  data : ent.dirty ≠ 0 → ent.data ≠ none

/-- The invariant of one entry. -/
structure EntOk (tab : Table) (ρ : T → Role) (e : Nat) : Prop where
  busyOk : BusyOk (tab.ents e) ρ e
  reclOk : ReclOk (tab.ents e) tab.reclaimable e
  dirtyOk : DirtyOk (tab.ents e) tab.dirty ρ e

/-- The invariant of the table. -/
structure TabInv (tab : Table) (ρ : T → Role) : Prop where
  nodup : tab.chunks.Nodup
  fresh : ∀ e ∈ tab.chunks, e < tab.nextEnt
  key : ∀ e ∈ tab.chunks, ∀ e' ∈ tab.chunks, (tab.ents e).chunk = (tab.ents e').chunk → e = e'
  own_live : ∀ t, ∀ e ∈ (ρ t).own, e ∈ tab.chunks
  own_nodup : ∀ t, (ρ t).own.Nodup
  wait_live : ∀ t e, (ρ t).wait = some e → e ∈ tab.chunks
  recl_live : ∀ e ∈ tab.reclaimable, e ∈ tab.chunks
  recl_nodup : tab.reclaimable.Nodup
  dirty_live : ∀ e ∈ tab.dirty, e ∈ tab.chunks
  dirty_nodup : tab.dirty.Nodup
  buf_inj : ∀ e ∈ tab.chunks, ∀ e' ∈ tab.chunks, ∀ b,
    (tab.ents e).data = some b → (tab.ents e').data = some b → e = e'
  buf_lt : ∀ e ∈ tab.chunks, ∀ b, (tab.ents e).data = some b → b < tab.nextBuf
  ent : ∀ e ∈ tab.chunks, EntOk tab ρ e

/-! ## What an operation leaves alone -/

theorem BusyOk.congr (h : BusyOk ent ρ e) (hb : ent'.busy = ent.busy)
    (hw : ent'.waiters = ent.waiters) (hown : ∀ u, e ∈ (ρ' u).own ↔ e ∈ (ρ u).own)
    (hwait : ∀ u, (ρ' u).wait = some e ↔ (ρ u).wait = some e) : BusyOk ent' ρ' e := by
  constructor
  · rw [hb, h.busy]
    simp only [hown]
  · intro u v hu hv
    exact h.excl u v ((hown u).mp hu) ((hown v).mp hv)
  · rw [hw, h.waiters]
    exact countT_congr fun u => (hwait u).symm

omit [Fintype T] in
theorem DirtyOk.congr (h : DirtyOk ent q ρ e) (hd : ent'.dirty = ent.dirty)
    (hl : ent'.dirtyLink = ent.dirtyLink) (hdata : ent.data ≠ none → ent'.data ≠ none)
    (hq : e ∈ q' ↔ e ∈ q) (hclean : ∀ u, (ρ' u).cleaning = some e ↔ (ρ u).cleaning = some e) :
    DirtyOk ent' q' ρ' e := by
  constructor
  · rw [hd, hq, h.dirty]
    simp only [ne_eq, hclean]
  · rw [hl, hq]
    exact h.link
  · intro u hu
    rw [hd]
    exact h.clean u ((hclean u).mp hu)
  · intro hne
    rw [hd] at hne
    exact hdata (h.data hne)

omit [Fintype T] in
theorem DirtyOk.clean_congr (h : DirtyOk ent q ρ e) (hz : ent.dirty = 0)
    (hd : ent'.dirty = ent.dirty) (hl : ent'.dirtyLink = ent.dirtyLink)
    (hclean : ∀ u, (ρ' u).cleaning = some e ↔ (ρ u).cleaning = some e) : DirtyOk ent' q ρ' e := by
  constructor
  · rw [hd, h.dirty]
    simp only [ne_eq, hclean]
  · rw [hl]
    exact h.link
  · intro u hu
    exact absurd hz (h.clean u ((hclean u).mp hu))
  · intro hne
    rw [hd] at hne
    exact absurd hz hne

theorem ReclOk.congr (h : ReclOk ent q e) (hb : ent'.busy = ent.busy)
    (hw : ent'.waiters = ent.waiters) (hl : ent'.reclaimableLink = ent.reclaimableLink)
    (hd : ent'.data = ent.data) (hq : e ∈ q' ↔ e ∈ q) : ReclOk ent' q' e := by
  constructor
  · rw [hq, hb, hw, hd]; exact h.recl
  · rw [hl, hq]; exact h.link
  · rw [hd, hb, hw]; exact h.nobuf

/-- A busy entry that is not queued stays so whatever happens to its buffer. -/
theorem ReclOk.of_busy (h : ReclOk ent q e) (hb : ent.busy = true) (hb' : ent'.busy = true)
    (hl : ent'.reclaimableLink = ent.reclaimableLink) : ReclOk ent' q e := by
  have hq : e ∉ q := fun hx => by
    have := (h.recl.mp hx).1
    rw [hb] at this
    cases this
  constructor
  · simp [hq, hb']
  · rw [hl]; exact h.link
  · exact fun _ => .inl hb'

/-- What an operation leaves alone about an entry it does not touch. -/
structure Same (tab tab' : Table) (r r' : Role) (e : Nat) : Prop where
  ents : tab'.ents e = tab.ents e
  recl : e ∈ tab'.reclaimable ↔ e ∈ tab.reclaimable
  dirty : e ∈ tab'.dirty ↔ e ∈ tab.dirty
  own : e ∈ r'.own ↔ e ∈ r.own
  wait : r'.wait = some e ↔ r.wait = some e
  cleaning : r'.cleaning = some e ↔ r.cleaning = some e

variable [DecidableEq T] {t : T} {r : Role} {c : Option Table.Cond}

omit [Fintype T] in
/-- A property of roles that the role of `t` keeps is kept for every thread. -/
theorem update_iff {t : T} {r : Role} (p : Role → Prop) (h : p r ↔ p (ρ t)) (u : T) :
    p (update ρ t r u) ↔ p (ρ u) :=
  iff_of_eq (update_proj p (propext h) u)

omit [Fintype T] in
theorem own_iff (h : r.own = (ρ t).own) (e : Nat) (u : T) :
    e ∈ (update ρ t r u).own ↔ e ∈ (ρ u).own :=
  update_iff (fun r => e ∈ r.own) (by rw [h]) u

omit [Fintype T] in
theorem wait_iff (h : r.wait = (ρ t).wait) (e : Nat) (u : T) :
    (update ρ t r u).wait = some e ↔ (ρ u).wait = some e :=
  update_iff (fun r => r.wait = some e) (by rw [h]) u

omit [Fintype T] in
theorem cleaning_iff (h : r.cleaning = (ρ t).cleaning) (e : Nat) (u : T) :
    (update ρ t r u).cleaning = some e ↔ (ρ u).cleaning = some e :=
  update_iff (fun r => r.cleaning = some e) (by rw [h]) u

theorem EntOk.same (h : EntOk tab ρ e) (hs : Same tab tab' (ρ t) r e) :
    EntOk tab' (update ρ t r) e := by
  have hown := update_iff (fun r => e ∈ r.own) hs.own
  have hwait := update_iff (fun r => r.wait = some e) hs.wait
  have hclean := update_iff (fun r => r.cleaning = some e) hs.cleaning
  refine ⟨?_, ?_, ?_⟩
  · rw [hs.ents]
    exact h.busyOk.congr rfl rfl hown hwait
  · rw [hs.ents]
    exact h.reclOk.congr rfl rfl rfl rfl hs.recl
  · rw [hs.ents]
    exact h.dirtyOk.congr rfl rfl id hs.dirty hclean

/-- The shape of every operation that neither adds nor frees an entry: thread `t` takes
the role `r`, the entries in `S` are touched, and only these have to be checked. -/
theorem TabInv.change (S : Nat → Prop) (h : TabInv tab ρ)
    (hch : tab'.chunks = tab.chunks) (hnext : tab'.nextEnt = tab.nextEnt)
    (hkey : ∀ e, (tab'.ents e).chunk = (tab.ents e).chunk)
    (hS : ∀ e, S e → e ∈ tab.chunks)
    (hsame : ∀ e, ¬ S e → Same tab tab' (ρ t) r e)
    (hnd : r.own.Nodup) (hrnd : tab'.reclaimable.Nodup) (hdnd : tab'.dirty.Nodup)
    (hinj : ∀ e ∈ tab.chunks, ∀ e' ∈ tab.chunks, ∀ b,
      (tab'.ents e).data = some b → (tab'.ents e').data = some b → e = e')
    (hlt : ∀ e ∈ tab.chunks, ∀ b, (tab'.ents e).data = some b → b < tab'.nextBuf)
    (hent : ∀ e, S e → EntOk tab' (update ρ t r) e) :
    TabInv tab' (update ρ t r) := by
  -- a pointer that a thread or a queue holds is to a touched entry or an old one
  have live : ∀ e, (¬ S e → e ∈ tab.chunks) → e ∈ tab'.chunks := by
    intro e he
    rw [hch]
    by_cases hs : S e
    · exact hS e hs
    · exact he hs
  refine ⟨by rw [hch]; exact h.nodup, by rw [hch, hnext]; exact h.fresh, ?_, ?_, ?_, ?_, ?_,
    hrnd, ?_, hdnd, by rw [hch]; exact hinj, by rw [hch]; exact hlt, ?_⟩
  · intro e he e' he' hk
    rw [hch] at he he'
    rw [hkey, hkey] at hk
    exact h.key e he e' he' hk
  · intro u e he
    refine live e fun hs => h.own_live u e ?_
    exact (update_iff (fun r => e ∈ r.own) (hsame e hs).own u).mp he
  · intro u
    by_cases hu : u = t
    · subst hu; rw [update_self]; exact hnd
    · rw [update_of_ne hu]; exact h.own_nodup u
  · intro u e he
    refine live e fun hs => h.wait_live u e ?_
    exact (update_iff (fun r => r.wait = some e) (hsame e hs).wait u).mp he
  · intro e he
    exact live e fun hs => h.recl_live e ((hsame e hs).recl.mp he)
  · intro e he
    exact live e fun hs => h.dirty_live e ((hsame e hs).dirty.mp he)
  · intro e he
    rw [hch] at he
    by_cases hs : S e
    · exact hent e hs
    · exact (h.ent e he).same (hsame e hs)

section

variable (h : TabInv tab ρ)
include h

/-- `TabInv.change` for an operation on one entry that leaves its chunk number and
buffer alone. -/
theorem TabInv.changeOne (ent : Entry) (he : e ∈ tab.chunks) (hch : tab'.chunks = tab.chunks)
    (hnext : tab'.nextEnt = tab.nextEnt) (hbuf : tab'.nextBuf = tab.nextBuf)
    (hents : tab'.ents = (tab.setEnt e ent).ents) (hk : ent.chunk = (tab.ents e).chunk)
    (hd : ent.data = (tab.ents e).data)
    (hsame : ∀ e', e' ≠ e → tab'.ents e' = tab.ents e' → Same tab tab' (ρ t) r e')
    (hnd : r.own.Nodup) (hrnd : tab'.reclaimable.Nodup) (hdnd : tab'.dirty.Nodup)
    (hbusy : BusyOk ent (update ρ t r) e) (hrecl : ReclOk ent tab'.reclaimable e)
    (hdirty : DirtyOk ent tab'.dirty (update ρ t r) e) :
    TabInv tab' (update ρ t r) := by
  have hdata : ∀ e', (tab'.ents e').data = (tab.ents e').data := fun e' => by
    rw [hents]; exact Table.setEnt_proj Entry.data hd e'
  have hself : tab'.ents e = ent := by rw [hents, Table.setEnt_self]
  refine TabInv.change (· = e) h hch hnext ?_ (by rintro _ rfl; exact he) ?_ hnd hrnd hdnd
    ?_ ?_ ?_
  · intro e'
    rw [hents]
    exact Table.setEnt_proj Entry.chunk hk e'
  · intro e' hne
    exact hsame e' hne (by rw [hents, Table.setEnt_ne _ _ hne])
  · intro e₁ h₁ e₂ h₂ b hb₁ hb₂
    rw [hdata] at hb₁ hb₂
    exact h.buf_inj e₁ h₁ e₂ h₂ b hb₁ hb₂
  · intro e₁ h₁ b hb
    rw [hdata] at hb
    rw [hbuf]
    exact h.buf_lt e₁ h₁ b hb
  · rintro _ rfl
    exact ⟨by rw [hself]; exact hbusy, by rw [hself]; exact hrecl, by rw [hself]; exact hdirty⟩

/-! ## Acquiring the busy flag -/

theorem TabInv.acquireEnter (he : e ∈ tab.chunks) (hw : (ρ t).wait = none) (hrw : r.wait = some e)
    (hro : r.own = (ρ t).own) (hrc : r.cleaning = (ρ t).cleaning) :
    TabInv (tab.acquireEnter e) (update ρ t r) := by
  have hk := h.ent e he
  obtain ⟨hmem, hlink, hnd⟩ := queueDeleteWithLink_spec hk.reclOk.link h.recl_nodup
  have hown := update_proj Role.own hro
  have hcount : countT (fun u => (update ρ t r u).wait = some e)
      = countT (fun u => (ρ u).wait = some e) + 1 := by
    refine countT_enter (t := t) (by rw [hw]; simp) (by rw [update_self, hrw]) ?_
    intro u hu
    rw [update_of_ne hu]
  have hrecl : e ∉ (tab.acquireEnter e).reclaimable := fun hx => ((hmem e).mp hx).2 rfl
  refine h.changeOne _ he rfl rfl rfl rfl rfl rfl ?_ (hro ▸ h.own_nodup t) hnd h.dirty_nodup
    ⟨?_, ?_, ?_⟩ ⟨?_, ?_, ?_⟩ ?_
  · intro e' hne hents
    refine ⟨hents, ?_, Iff.rfl, by rw [hro], ?_, by rw [hrc]⟩
    · exact (hmem e').trans (by simp [hne])
    · rw [hrw, hw]
      simpa using Ne.symm hne
  · simp only [hown]
    exact hk.busyOk.busy
  · simp only [hown]
    exact hk.busyOk.excl
  · rw [hcount, ← hk.busyOk.waiters]
  · simp [hrecl]
  · show (queueDeleteWithLink tab.reclaimable (tab.ents e).reclaimableLink e).2 = true ↔ _
    simp [hrecl, hlink]
  · simp
  · exact hk.dirtyOk.congr rfl rfl id Iff.rfl (cleaning_iff hrc _)

/-- `entry_acquire` adds an entry for a chunk that has none and becomes its first
waiter. -/
theorem TabInv.newEnter {c : Nat} (hc : tab.lookup c = none) (hw : (ρ t).wait = none)
    (hrw : r.wait = some tab.nextEnt) (hro : r.own = (ρ t).own)
    (hrc : r.cleaning = (ρ t).cleaning) :
    TabInv ((tab.lookupOrNew c).1.acquireEnter tab.nextEnt) (update ρ t r) := by
  set n := tab.nextEnt with hn
  have hnew : n ∉ tab.chunks := fun hmem => lt_irrefl _ (h.fresh n hmem)
  have hown := update_proj Role.own hro
  have hclean := update_proj Role.cleaning hrc
  -- the table after both operations, field by field
  have htab : (tab.lookupOrNew c).1.acquireEnter n =
      { tab with
        chunks := tab.chunks ++ [n]
        ents := update (update tab.ents n (Entry.new c)) n
          { Entry.new c with waiters := 1 }
        nextEnt := n + 1 } := by
    simp [Table.lookupOrNew, hc, Table.acquireEnter, queueDeleteWithLink, Table.setEnt,
      Entry.new, ← hn]
  rw [htab, update_idem]
  have hne : ∀ e ∈ tab.chunks, e ≠ n := fun e he heq => hnew (heq ▸ he)
  have hents : ∀ e ∈ tab.chunks,
      update tab.ents n { Entry.new c with waiters := 1 } e = tab.ents e :=
    fun e he => update_of_ne (hne e he) ..
  have hkey : ∀ e ∈ tab.chunks, (tab.ents e).chunk ≠ c := by
    intro e he hk
    have := find?_eq_none.mp hc e he
    simp [hk] at this
  have hmem : ∀ e, e ∈ tab.chunks ++ [n] ↔ e ∈ tab.chunks ∨ e = n := by simp
  have hnown : ∀ u, n ∉ (ρ u).own := fun u hu => hnew (h.own_live u n hu)
  have hnclean : ∀ u, (ρ u).cleaning ≠ some n := fun u hu => hnown u ((ρ u).clean_own n hu)
  have hnwait : ∀ u, (ρ u).wait ≠ some n := fun u hu => hnew (h.wait_live u n hu)
  refine ⟨?_, ?_, ?_, ?_, ?_, ?_, ?_, h.recl_nodup, ?_, h.dirty_nodup, ?_, ?_, ?_⟩
  · exact nodup_push h.nodup hnew
  · intro e he
    rcases (hmem e).mp he with he | rfl
    · exact Nat.lt_succ_of_lt (h.fresh e he)
    · exact Nat.lt_succ_self _
  · intro e he e' he' hk
    rcases (hmem e).mp he with he | rfl <;> rcases (hmem e').mp he' with he' | rfl
    · simp only [hents e he, hents e' he'] at hk
      exact h.key e he e' he' hk
    · simp only [hents e he, update_self] at hk
      exact absurd hk (hkey e he)
    · simp only [hents e' he', update_self] at hk
      exact absurd hk.symm (hkey e' he')
    · rfl
  · intro u e he
    rw [hown] at he
    exact (hmem e).mpr (.inl (h.own_live u e he))
  · intro u
    rw [hown]
    exact h.own_nodup u
  · intro u e he
    by_cases hu : u = t
    · subst hu
      rw [update_self, hrw, Option.some.injEq] at he
      exact (hmem e).mpr (.inr he.symm)
    · rw [update_of_ne hu] at he
      exact (hmem e).mpr (.inl (h.wait_live u e he))
  · exact fun e he => (hmem e).mpr (.inl (h.recl_live e he))
  · exact fun e he => (hmem e).mpr (.inl (h.dirty_live e he))
  · intro e he e' he' b hb hb'
    rcases (hmem e).mp he with he | rfl <;> rcases (hmem e').mp he' with he' | rfl
    · simp only [hents e he, hents e' he'] at hb hb'
      exact h.buf_inj e he e' he' b hb hb'
    · simp [Entry.new] at hb'
    · simp [Entry.new] at hb
    · rfl
  · intro e he b hb
    rcases (hmem e).mp he with he | rfl
    · simp only [hents e he] at hb
      exact h.buf_lt e he b hb
    · simp [Entry.new] at hb
  · intro e he
    rcases (hmem e).mp he with he | rfl
    · refine (h.ent e he).same ⟨hents e he, Iff.rfl, Iff.rfl, by rw [hro], ?_, by rw [hrc]⟩
      rw [hrw, hw]
      simpa using Ne.symm (hne e he)
    · have hcount : countT (fun u => (update ρ t r u).wait = some n) = 1 := by
        have h0 : countT (fun u => (ρ u).wait = some n) = 0 := countT_eq_zero.mpr hnwait
        rw [show 1 = countT (fun u => (ρ u).wait = some n) + 1 by rw [h0]]
        refine countT_enter (t := t) (hnwait t) (by rw [update_self, hrw]) ?_
        intro u hu
        rw [update_of_ne hu]
      have hnrecl : n ∉ tab.reclaimable := fun hx => hnew (h.recl_live n hx)
      have hndirty : n ∉ tab.dirty := fun hx => hnew (h.dirty_live n hx)
      refine ⟨⟨?_, ?_, ?_⟩, ⟨?_, ?_, ?_⟩, ⟨?_, ?_, ?_, ?_⟩⟩ <;> simp_all [Entry.new]

/-- The busy flag changes hands: a waiter becomes the owner. -/
theorem TabInv.acquireTake (hb : (tab.ents e).busy = false) (hw : (ρ t).wait = some e)
    (hrw : r.wait = none) (hro : r.own = e :: (ρ t).own) (hrc : r.cleaning = (ρ t).cleaning) :
    TabInv (tab.acquireTake e) (update ρ t r) := by
  have he := h.wait_live t e hw
  have hk := h.ent e he
  have hfree : ∀ u, e ∉ (ρ u).own := by
    intro u hu
    have := hk.busyOk.busy.mpr ⟨u, hu⟩
    rw [hb] at this
    cases this
  have hown : ∀ u, e ∈ (update ρ t r u).own ↔ u = t := by
    intro u
    by_cases hu : u = t
    · subst hu; simp [hro]
    · simp [hu, hfree u]
  have hcount : countT (fun u => (update ρ t r u).wait = some e) + 1
      = countT (fun u => (ρ u).wait = some e) := by
    refine countT_leave (t := t) hw (by rw [update_self, hrw]; simp) ?_
    intro u hu
    rw [update_of_ne hu]
  have hpos := hk.busyOk.waiters
  have hrecl : e ∉ tab.reclaimable := fun hx => by
    have := (hk.reclOk.recl.mp hx).2.1
    omega
  refine h.changeOne { tab.ents e with busy := true, waiters := (tab.ents e).waiters - 1 }
    he rfl rfl rfl rfl rfl rfl ?_ ?_ h.recl_nodup h.dirty_nodup ⟨?_, ?_, ?_⟩ ⟨?_, ?_, ?_⟩ ?_
  · intro e' hne hents
    refine ⟨hents, Iff.rfl, Iff.rfl, by rw [hro]; simp [hne], ?_, by rw [hrc]⟩
    rw [hrw, hw]
    simpa using Ne.symm hne
  · rw [hro]
    exact nodup_cons.mpr ⟨hfree t, h.own_nodup t⟩
  · simp [hown]
  · intro u v hu hv
    rw [hown] at hu hv
    rw [hu, hv]
  · show (tab.ents e).waiters - 1 = _
    omega
  · exact ⟨fun hx => absurd hx hrecl, fun hx => by simp at hx⟩
  · exact hk.reclOk.link
  · exact fun _ => .inl rfl
  · exact hk.dirtyOk.congr rfl rfl id Iff.rfl (cleaning_iff hrc _)

/-! ## Operations on an entry whose busy flag is held -/

omit [DecidableEq T] in
theorem TabInv.owned (ho : e ∈ (ρ t).own) :
    e ∈ tab.chunks ∧ (tab.ents e).busy = true ∧ e ∉ tab.reclaimable ∧
      (tab.ents e).reclaimableLink = false := by
  have he := h.own_live t e ho
  have hk := h.ent e he
  have hb := hk.busyOk.busy.mpr ⟨t, ho⟩
  have hr : e ∉ tab.reclaimable := fun hx => by
    have := (hk.reclOk.recl.mp hx).1
    rw [hb] at this
    cases this
  exact ⟨he, hb, hr, by simpa [hr] using hk.reclOk.link⟩

omit [DecidableEq T] in
theorem TabInv.not_cleaning (ho : e ∈ (ρ t).own) (hc : (ρ t).cleaning ≠ some e) (u : T) :
    (ρ u).cleaning ≠ some e := by
  intro hu
  have hown := (ρ u).clean_own e hu
  have heq := (h.ent e (h.own_live u e hown)).busyOk.excl u t hown ho
  exact hc (heq ▸ hu)

theorem TabInv.allocData (ho : e ∈ (ρ t).own) (hrw : r.wait = (ρ t).wait)
    (hro : r.own = (ρ t).own) (hrc : r.cleaning = (ρ t).cleaning) :
    TabInv (tab.allocData e) (update ρ t r) := by
  obtain ⟨he, hb, -, -⟩ := h.owned ho
  have hk := h.ent e he
  have hself : (tab.allocData e).ents e = { tab.ents e with data := some tab.nextBuf } := by
    simp [Table.allocData]
  have hother : ∀ e', e' ≠ e → (tab.allocData e).ents e' = tab.ents e' :=
    fun e' hne => Table.setEnt_ne _ _ hne
  refine TabInv.change (· = e) h rfl rfl ?_ (by rintro _ rfl; exact he) ?_ (hro ▸ h.own_nodup t)
    h.recl_nodup h.dirty_nodup ?_ ?_ ?_
  · exact Table.setEnt_proj Entry.chunk rfl
  · intro e' hne
    exact ⟨hother e' hne, Iff.rfl, Iff.rfl, by rw [hro], by rw [hrw], by rw [hrc]⟩
  · -- the new buffer is in no other entry
    have hnew : ∀ e' ∈ tab.chunks, (tab.ents e').data ≠ some tab.nextBuf :=
      fun e' he' hd => lt_irrefl _ (h.buf_lt e' he' _ hd)
    intro e₁ h₁ e₂ h₂ b hb₁ hb₂
    by_cases h₁e : e₁ = e <;> by_cases h₂e : e₂ = e
    · rw [h₁e, h₂e]
    · rw [h₁e, hself, Option.some.injEq] at hb₁
      rw [hother e₂ h₂e, ← hb₁] at hb₂
      exact absurd hb₂ (hnew e₂ h₂)
    · rw [h₂e, hself, Option.some.injEq] at hb₂
      rw [hother e₁ h₁e, ← hb₂] at hb₁
      exact absurd hb₁ (hnew e₁ h₁)
    · rw [hother e₁ h₁e] at hb₁
      rw [hother e₂ h₂e] at hb₂
      exact h.buf_inj e₁ h₁ e₂ h₂ b hb₁ hb₂
  · intro e₁ h₁ b hb₁
    show b < tab.nextBuf + 1
    by_cases h₁e : e₁ = e
    · rw [h₁e, hself, Option.some.injEq] at hb₁
      omega
    · rw [hother e₁ h₁e] at hb₁
      exact Nat.lt_succ_of_lt (h.buf_lt e₁ h₁ b hb₁)
  · rintro _ rfl
    refine ⟨?_, ?_, ?_⟩
    · rw [hself]
      exact hk.busyOk.congr rfl rfl (own_iff hro _) (wait_iff hrw _)
    · rw [hself]
      exact hk.reclOk.of_busy hb hb rfl
    · rw [hself]
      exact hk.dirtyOk.congr rfl rfl (fun _ => by simp) Iff.rfl (cleaning_iff hrc _)

theorem TabInv.stealData (ho : e ∈ (ρ t).own) (hx : x ∈ (ρ t).own) (hne : e ≠ x)
    (hd : (tab.ents x).data ≠ none) (hx0 : (tab.ents x).dirty = 0) (hrw : r.wait = (ρ t).wait)
    (hro : r.own = (ρ t).own) (hrc : r.cleaning = (ρ t).cleaning) :
    ∃ tab', tab.stealData e x = some tab' ∧ TabInv tab' (update ρ t r) := by
  obtain ⟨he, hb, -, -⟩ := h.owned ho
  obtain ⟨hxe, hxb, -, -⟩ := h.owned hx
  have hk := h.ent e he
  have hkx := h.ent x hxe
  obtain ⟨b₀, hb₀⟩ := Option.ne_none_iff_exists'.mp hd
  refine ⟨(tab.setEnt e { tab.ents e with data := some b₀ }).setEnt x
    { tab.ents x with data := none }, ?_, ?_⟩
  · unfold Table.stealData
    rw [hb₀]
    simp only
    rw [Table.setEnt_ne _ _ (Ne.symm hne)]
  generalize htab : (tab.setEnt e { tab.ents e with data := some b₀ }).setEnt x
    { tab.ents x with data := none } = tab'
  have hentx : tab'.ents x = { tab.ents x with data := none } := by rw [← htab]; simp
  have hente : tab'.ents e = { tab.ents e with data := some b₀ } := by
    rw [← htab, Table.setEnt_ne _ _ hne, Table.setEnt_self]
  have hent : ∀ e', e' ≠ e → e' ≠ x → tab'.ents e' = tab.ents e' := by
    intro e' h₁ h₂
    rw [← htab, Table.setEnt_ne _ _ h₂, Table.setEnt_ne _ _ h₁]
  have hrecl : tab'.reclaimable = tab.reclaimable := by rw [← htab]; rfl
  have hdirty : tab'.dirty = tab.dirty := by rw [← htab]; rfl
  -- who has buffer `b` afterwards: `e` if `x` had it, else whoever had it
  have hdata : ∀ e' b, (tab'.ents e').data = some b →
      (e' = e ∧ b = b₀) ∨ (e' ≠ x ∧ (tab.ents e').data = some b) := by
    intro e' b hd'
    by_cases h₁ : e' = e
    · subst h₁
      simp only [hente, Option.some.injEq] at hd'
      exact .inl ⟨rfl, hd'.symm⟩
    · by_cases h₂ : e' = x
      · subst h₂
        simp [hentx] at hd'
      · rw [hent e' h₁ h₂] at hd'
        exact .inr ⟨h₂, hd'⟩
  refine TabInv.change (fun e' => e' = e ∨ e' = x) h (by rw [← htab]; rfl) (by rw [← htab]; rfl)
    ?_ (by rintro _ (rfl | rfl) <;> assumption) ?_ (hro ▸ h.own_nodup t)
    (hrecl ▸ h.recl_nodup) (hdirty ▸ h.dirty_nodup) ?_ ?_ ?_
  · intro e'
    by_cases h₁ : e' = e
    · subst h₁; rw [hente]
    · by_cases h₂ : e' = x
      · subst h₂; rw [hentx]
      · rw [hent e' h₁ h₂]
  · intro e' hS
    rw [not_or] at hS
    exact ⟨hent e' hS.1 hS.2, by rw [hrecl], by rw [hdirty], by rw [hro], by rw [hrw], by rw [hrc]⟩
  · intro e₁ h₁ e₂ h₂ b hb₁ hb₂
    rcases hdata e₁ b hb₁ with ⟨rfl, rfl⟩ | ⟨hx₁, hd₁⟩ <;>
      rcases hdata e₂ b hb₂ with ⟨rfl, hbb⟩ | ⟨hx₂, hd₂⟩
    · rfl
    · exact absurd (h.buf_inj e₂ h₂ x hxe b hd₂ hb₀) hx₂
    · exact absurd (h.buf_inj e₁ h₁ x hxe b hd₁ (hbb ▸ hb₀)) hx₁
    · exact h.buf_inj e₁ h₁ e₂ h₂ b hd₁ hd₂
  · intro e₁ h₁ b hb₁
    rw [show tab'.nextBuf = tab.nextBuf by rw [← htab]; rfl]
    rcases hdata e₁ b hb₁ with ⟨-, rfl⟩ | ⟨-, hd₁⟩
    · exact h.buf_lt x hxe b hb₀
    · exact h.buf_lt e₁ h₁ b hd₁
  · rintro e' (rfl | rfl)
    · refine ⟨?_, ?_, ?_⟩
      · rw [hente]
        exact hk.busyOk.congr rfl rfl (own_iff hro _) (wait_iff hrw _)
      · rw [hente, hrecl]
        exact hk.reclOk.of_busy hb hb rfl
      · rw [hente, hdirty]
        exact hk.dirtyOk.congr rfl rfl (fun _ => by simp) Iff.rfl (cleaning_iff hrc _)
    · refine ⟨?_, ?_, ?_⟩
      · rw [hentx]
        exact hkx.busyOk.congr rfl rfl (own_iff hro _) (wait_iff hrw _)
      · rw [hentx, hrecl]
        exact hkx.reclOk.of_busy hxb hxb rfl
      · rw [hentx, hdirty]
        exact hkx.dirtyOk.clean_congr hx0 rfl rfl (cleaning_iff hrc _)

/-- `entry_clean` passes its assertions on a dirty entry whose busy flag the thread holds,
and takes it off the dirty queue. -/
theorem TabInv.cleanStart (ho : e ∈ (ρ t).own) (hd : (tab.ents e).dirty ≠ 0)
    (hc : (ρ t).cleaning = none) (hrw : r.wait = (ρ t).wait) (hro : r.own = (ρ t).own)
    (hrc : r.cleaning = some e) :
    ∃ tab', tab.cleanStart e = some tab' ∧ TabInv tab' (update ρ t r) := by
  obtain ⟨he, -, -, -⟩ := h.owned ho
  have hk := h.ent e he
  have hq : e ∈ tab.dirty :=
    hk.dirtyOk.dirty.mpr ⟨hd, h.not_cleaning ho (by rw [hc]; simp)⟩
  have hl : (tab.ents e).dirtyLink = true := hk.dirtyOk.link.mpr hq
  obtain ⟨hmem, hlink, hnd⟩ := queueDeleteWithLink_spec hk.dirtyOk.link h.dirty_nodup
  have hcl : ∃ u, (update ρ t r u).cleaning = some e :=
    ⟨t, by rw [update_self, hrc]⟩
  have hnq : e ∉ (queueDeleteWithLink tab.dirty (tab.ents e).dirtyLink e).1 :=
    fun hx => ((hmem e).mp hx).2 rfl
  refine ⟨_, by rw [Table.cleanStart, if_neg]; simp [hd, hl, hk.dirtyOk.data hd], ?_⟩
  refine h.changeOne _ he rfl rfl rfl rfl rfl rfl ?_ (hro ▸ h.own_nodup t) h.recl_nodup hnd
    (hk.busyOk.congr rfl rfl (own_iff hro _) (wait_iff hrw _))
    (hk.reclOk.congr rfl rfl rfl rfl Iff.rfl) ⟨?_, ?_, fun _ _ => hd, hk.dirtyOk.data⟩
  · intro e' hne hents
    refine ⟨hents, Iff.rfl, ?_, by rw [hro], by rw [hrw], ?_⟩
    · exact (hmem e').trans (by simp [hne])
    · rw [hrc, hc]
      simpa using Ne.symm hne
  · refine ⟨fun hx => absurd hx hnq, fun hx => ?_⟩
    obtain ⟨u, hu⟩ := hcl
    exact absurd hu (hx.2 u)
  · show (queueDeleteWithLink tab.dirty (tab.ents e).dirtyLink e).2 = true ↔ _
    rw [hlink]
    simpa using hnq

theorem TabInv.cleanDone (hc : (ρ t).cleaning = some e) (hrw : r.wait = (ρ t).wait)
    (hro : r.own = (ρ t).own) (hrc : r.cleaning = none) :
    TabInv (tab.cleanDone e) (update ρ t r) := by
  have ho := (ρ t).clean_own e hc
  obtain ⟨he, -, -, -⟩ := h.owned ho
  have hk := h.ent e he
  have hq : e ∉ tab.dirty := fun hx => (hk.dirtyOk.dirty.mp hx).2 t hc
  have hcl : ∀ u, (update ρ t r u).cleaning ≠ some e := by
    intro u hu
    by_cases hut : u = t
    · rw [hut, update_self, hrc] at hu
      cases hu
    · rw [update_of_ne hut] at hu
      exact hut (hk.busyOk.excl u t ((ρ u).clean_own e hu) ho)
  refine h.changeOne { tab.ents e with dirty := 0 } he rfl rfl rfl rfl rfl rfl ?_
    (hro ▸ h.own_nodup t) h.recl_nodup h.dirty_nodup
    (hk.busyOk.congr rfl rfl (own_iff hro _) (wait_iff hrw _))
    (hk.reclOk.congr rfl rfl rfl rfl Iff.rfl)
    ⟨?_, hk.dirtyOk.link, fun u hu => absurd hu (hcl u), fun hx => absurd rfl hx⟩
  · intro e' hne hents
    refine ⟨hents, Iff.rfl, Iff.rfl, by rw [hro], by rw [hrw], ?_⟩
    rw [hrc, hc]
    simpa using Ne.symm hne
  · exact ⟨fun hx => absurd hx hq, fun hx => absurd rfl hx.1⟩

theorem TabInv.setError (ho : e ∈ (ρ t).own) (hrw : r.wait = (ρ t).wait) (hro : r.own = (ρ t).own)
    (hrc : r.cleaning = (ρ t).cleaning) : TabInv (tab.setError e) (update ρ t r) := by
  obtain ⟨he, -, -, -⟩ := h.owned ho
  have hk := h.ent e he
  refine h.changeOne { tab.ents e with error := true } he rfl rfl rfl rfl rfl rfl ?_
    (hro ▸ h.own_nodup t) h.recl_nodup h.dirty_nodup
    (hk.busyOk.congr rfl rfl (own_iff hro _) (wait_iff hrw _))
    (hk.reclOk.congr rfl rfl rfl rfl Iff.rfl)
    (hk.dirtyOk.congr rfl rfl id Iff.rfl (cleaning_iff hrc _))
  intro e' _ hents
  exact ⟨hents, Iff.rfl, Iff.rfl, by rw [hro], by rw [hrw], by rw [hrc]⟩

theorem TabInv.role (hrw : r.wait = (ρ t).wait) (hro : r.own = (ρ t).own)
    (hrc : r.cleaning = (ρ t).cleaning) : TabInv tab (update ρ t r) := by
  have heq : r = ρ t := by
    cases r
    cases hρ : ρ t
    simp_all
  rw [heq, update_eq_self]
  exact h

/-- `entry_release` marks the entry dirty and queues it, unless it is dirty already. -/
theorem TabInv.markDirty {now : Nat} (ho : e ∈ (ρ t).own) (hnow : 0 < now)
    (hd : (tab.ents e).data ≠ none) (hc : (ρ t).cleaning = none) (hrw : r.wait = (ρ t).wait)
    (hro : r.own = (ρ t).own) (hrc : r.cleaning = (ρ t).cleaning) :
    ∃ tab' c, tab.markDirty e now = some (tab', c) ∧ TabInv tab' (update ρ t r) := by
  obtain ⟨he, -, -, -⟩ := h.owned ho
  have hk := h.ent e he
  unfold Table.markDirty
  by_cases hdirty : (tab.ents e).dirty = 0
  · have hq : e ∉ tab.dirty := fun hx => (hk.dirtyOk.dirty.mp hx).1 hdirty
    have hl : (tab.ents e).dirtyLink = false := by simpa [hq] using hk.dirtyOk.link
    have hcl := h.not_cleaning ho (by rw [hc]; simp)
    have hnd : (tab.dirty ++ [e]).Nodup := nodup_push h.dirty_nodup hq
    simp only [ne_eq, hdirty, not_true_eq_false, if_false, queuePushTailWithLink, hl,
      Bool.false_eq_true]
    refine ⟨_, _, rfl, ?_⟩
    refine h.changeOne { tab.ents e with dirty := now, dirtyLink := true }
      he rfl rfl rfl rfl rfl rfl ?_ (hro ▸ h.own_nodup t) h.recl_nodup
      hnd
      (hk.busyOk.congr rfl rfl (own_iff hro _) (wait_iff hrw _))
      (hk.reclOk.congr rfl rfl rfl rfl Iff.rfl) ⟨?_, by simp, ?_, fun _ => hd⟩
    · intro e' hne hents
      exact ⟨hents, Iff.rfl, by simp [hne], by rw [hro], by rw [hrw], by rw [hrc]⟩
    · simp only [ne_eq, cleaning_iff hrc]
      simpa [Nat.pos_iff_ne_zero.mp hnow] using hcl
    · intro u hu
      exact absurd ((cleaning_iff hrc e u).mp hu) (hcl u)
  · rw [if_pos hdirty]
    exact ⟨tab, none, rfl, h.role hrw hro hrc⟩

/-- `image_shutdown` frees the buffer of a clean entry. -/
theorem TabInv.dropData (ho : e ∈ (ρ t).own) (hd : (tab.ents e).data ≠ none)
    (hz : (tab.ents e).dirty = 0) (hrw : r.wait = (ρ t).wait) (hro : r.own = (ρ t).own)
    (hrc : r.cleaning = (ρ t).cleaning) :
    ∃ tab', tab.dropData e = some tab' ∧ TabInv tab' (update ρ t r) := by
  obtain ⟨he, hb, -, -⟩ := h.owned ho
  have hk := h.ent e he
  refine ⟨_, by rw [Table.dropData, if_neg]; simp [hd, hz], ?_⟩
  have hdata : ∀ e' b, ((tab.setEnt e { tab.ents e with data := none }).ents e').data = some b →
      (tab.ents e').data = some b := by
    intro e' b hb'
    by_cases hee : e' = e
    · subst hee
      simp at hb'
    · rwa [Table.setEnt_ne _ _ hee] at hb'
  refine TabInv.change (· = e) h rfl rfl ?_ (by rintro _ rfl; exact he) ?_ (hro ▸ h.own_nodup t)
    h.recl_nodup h.dirty_nodup ?_ ?_ ?_
  · exact Table.setEnt_proj Entry.chunk rfl
  · intro e' hne
    exact ⟨Table.setEnt_ne _ _ hne, Iff.rfl, Iff.rfl, by rw [hro], by rw [hrw], by rw [hrc]⟩
  · intro e₁ h₁ e₂ h₂ b hb₁ hb₂
    exact h.buf_inj e₁ h₁ e₂ h₂ b (hdata e₁ b hb₁) (hdata e₂ b hb₂)
  · intro e₁ h₁ b hb₁
    exact h.buf_lt e₁ h₁ b (hdata e₁ b hb₁)
  · rintro _ rfl
    refine ⟨?_, ?_, ?_⟩
    · rw [Table.setEnt_self]
      exact hk.busyOk.congr rfl rfl (own_iff hro _) (wait_iff hrw _)
    · rw [Table.setEnt_self]
      exact hk.reclOk.of_busy hb hb rfl
    · rw [Table.setEnt_self]
      exact hk.dirtyOk.clean_congr hz rfl rfl (cleaning_iff hrc _)

end

/-! ## Releasing the busy flag -/

omit [Fintype T] [DecidableEq T] in
/-- Giving up the busy flag of `e` changes the owner of no other entry. -/
theorem own_release (hro : (ρ t).own = e :: r.own) (e' : Nat) (hne : e' ≠ e) :
    e' ∈ r.own ↔ e' ∈ (ρ t).own := by
  rw [hro]
  simp [hne]

section

variable (h : TabInv tab ρ)
include h

theorem TabInv.released (hro : (ρ t).own = e :: r.own) (u : T) :
    e ∉ (update ρ t r u).own := by
  have ho : e ∈ (ρ t).own := by rw [hro]; simp
  by_cases hu : u = t
  · subst hu
    rw [update_self]
    have := h.own_nodup u
    rw [hro] at this
    exact (nodup_cons.mp this).1
  · rw [update_of_ne hu]
    exact fun hx => hu ((h.ent e (h.own_live t e ho)).busyOk.excl u t hx ho)

theorem TabInv.released_busyOk (hro : (ρ t).own = e :: r.own) (hrw : r.wait = (ρ t).wait)
    (hb : ent.busy = false) (hw : ent.waiters = (tab.ents e).waiters) :
    BusyOk ent (update ρ t r) e := by
  have hno := h.released hro
  have he := h.own_live t e (by rw [hro]; simp)
  constructor
  · rw [hb]
    simp [hno]
  · exact fun u _ hu => absurd hu (hno u)
  · rw [hw, (h.ent e he).busyOk.waiters]
    exact countT_congr fun u => (wait_iff hrw e u).symm

/-- Releasing an entry that keeps its place in the table: the last two branches of
`_entry_release` that do not free it differ in the reclaimable queue only. -/
theorem TabInv.releaseKept {queue : List Nat} (link : Bool) (hrw : r.wait = (ρ t).wait)
    (hro : (ρ t).own = e :: r.own) (hrc : r.cleaning = (ρ t).cleaning)
    (hq : ∀ e', e' ≠ e → (e' ∈ queue ↔ e' ∈ tab.reclaimable)) (hqnd : queue.Nodup)
    (hrecl : ReclOk { tab.ents e with busy := false, reclaimableLink := link } queue e) :
    TabInv { tab.setEnt e { tab.ents e with busy := false, reclaimableLink := link } with
      reclaimable := queue } (update ρ t r) := by
  have he := h.own_live t e (by rw [hro]; simp)
  have hk := h.ent e he
  refine h.changeOne { tab.ents e with busy := false, reclaimableLink := link }
    he rfl rfl rfl rfl rfl rfl ?_ ?_ hqnd h.dirty_nodup
    (h.released_busyOk hro hrw rfl rfl) hrecl
    (hk.dirtyOk.congr rfl rfl id Iff.rfl (cleaning_iff hrc _))
  · intro e' hne hents
    exact ⟨hents, hq e' hne, Iff.rfl, own_release hro e' hne, by rw [hrw], by rw [hrc]⟩
  · have := h.own_nodup t
    rw [hro] at this
    exact (nodup_cons.mp this).2

theorem TabInv.releaseFreed (hw : (tab.ents e).waiters = 0) (hd : (tab.ents e).data = none)
    (hrw : r.wait = (ρ t).wait) (hro : (ρ t).own = e :: r.own) (hrc : r.cleaning = (ρ t).cleaning) :
    TabInv { tab.setEnt e { tab.ents e with busy := false } with
      chunks := tab.chunks.erase e } (update ρ t r) := by
  have ho : e ∈ (ρ t).own := by rw [hro]; simp
  obtain ⟨he, -, hr, -⟩ := h.owned ho
  have hk := h.ent e he
  have hno := h.released hro
  have hmem : ∀ e', e' ∈ tab.chunks.erase e ↔ e' ≠ e ∧ e' ∈ tab.chunks :=
    fun e' => h.nodup.mem_erase_iff
  -- nothing refers to `e` any more
  have hnowait : ∀ u, (ρ u).wait ≠ some e :=
    countT_eq_zero.mp (hk.busyOk.waiters.symm.trans hw)
  have hnodirty : e ∉ tab.dirty :=
    fun hx => hk.dirtyOk.data (hk.dirtyOk.dirty.mp hx).1 hd
  have hents : ∀ e', e' ≠ e →
      (tab.setEnt e { tab.ents e with busy := false }).ents e' = tab.ents e' :=
    fun e' hne => Table.setEnt_ne _ _ hne
  have hsub : ∀ u e', e' ∈ (update ρ t r u).own → e' ≠ e ∧ e' ∈ tab.chunks := by
    intro u e' hu
    have hne : e' ≠ e := fun hx => hno u (hx ▸ hu)
    refine ⟨hne, h.own_live u e' ?_⟩
    exact (update_iff (fun r => e' ∈ r.own) (own_release hro e' hne) u).mp hu
  refine ⟨h.nodup.erase e, ?_, ?_, ?_, ?_, ?_, ?_, h.recl_nodup, ?_, h.dirty_nodup, ?_, ?_, ?_⟩
  · exact fun e' he' => h.fresh e' ((hmem e').mp he').2
  · intro e₁ h₁ e₂ h₂ hkey
    obtain ⟨hn₁, h₁⟩ := (hmem e₁).mp h₁
    obtain ⟨hn₂, h₂⟩ := (hmem e₂).mp h₂
    simp only [hents e₁ hn₁, hents e₂ hn₂] at hkey
    exact h.key e₁ h₁ e₂ h₂ hkey
  · exact fun u e' he' => (hmem e').mpr (hsub u e' he')
  · intro u
    by_cases hu : u = t
    · subst hu
      have := h.own_nodup u
      rw [hro] at this
      rw [update_self]
      exact (nodup_cons.mp this).2
    · rw [update_of_ne hu]
      exact h.own_nodup u
  · intro u e' he'
    have hwait := (wait_iff hrw e' u).mp he'
    exact (hmem e').mpr ⟨fun hx => hnowait u (hx ▸ hwait), h.wait_live u e' hwait⟩
  · exact fun e' he' => (hmem e').mpr ⟨fun hx => hr (hx ▸ he'), h.recl_live e' he'⟩
  · exact fun e' he' => (hmem e').mpr ⟨fun hx => hnodirty (hx ▸ he'), h.dirty_live e' he'⟩
  · intro e₁ h₁ e₂ h₂ b hb₁ hb₂
    obtain ⟨hn₁, h₁⟩ := (hmem e₁).mp h₁
    obtain ⟨hn₂, h₂⟩ := (hmem e₂).mp h₂
    simp only [hents e₁ hn₁] at hb₁
    simp only [hents e₂ hn₂] at hb₂
    exact h.buf_inj e₁ h₁ e₂ h₂ b hb₁ hb₂
  · intro e₁ h₁ b hb₁
    obtain ⟨hn₁, h₁⟩ := (hmem e₁).mp h₁
    simp only [hents e₁ hn₁] at hb₁
    exact h.buf_lt e₁ h₁ b hb₁
  · intro e' he'
    obtain ⟨hne, he'⟩ := (hmem e').mp he'
    exact (h.ent e' he').same ⟨hents e' hne, Iff.rfl, Iff.rfl, own_release hro e' hne,
      by rw [hrw], by rw [hrc]⟩

end

/-- What `_entry_release` does, by branch, when the invariant holds. -/
inductive Released (tab : Table) (e : Nat) : Table → Option Table.Cond → Prop
  /-- Somebody waits for the entry. -/
  | handed (hw : 0 < (tab.ents e).waiters) :
      Released tab e (tab.setEnt e { tab.ents e with busy := false }) (some (.available e))
  /-- Nobody waits for it and it has no buffer: it is freed. -/
  | freed (hw : (tab.ents e).waiters = 0) (hd : (tab.ents e).data = none) :
      Released tab e { tab.setEnt e { tab.ents e with busy := false } with
        chunks := tab.chunks.erase e } none
  /-- Its buffer may be reclaimed. -/
  | queued (hw : (tab.ents e).waiters = 0) (hd : (tab.ents e).data ≠ none) :
      Released tab e { tab.setEnt e { tab.ents e with
          busy := false, reclaimableLink := true } with
        reclaimable := tab.reclaimable ++ [e] } (some .reclaimable)

theorem Released.proj {β : Type} (h : Released tab e tab' c) (f : Entry → β)
    (hf : ∀ (ent : Entry) b l, f { ent with busy := b, reclaimableLink := l } = f ent) (x : Nat) :
    f (tab'.ents x) = f (tab.ents x) := by
  cases h with
  | handed | freed | queued => exact Table.setEnt_proj f (hf (tab.ents e) _ _) x

theorem Released.chunks_sub (h : Released tab e tab' c) (hx : x ∈ tab'.chunks) :
    x ∈ tab.chunks := by
  cases h with
  | handed | queued => exact hx
  | freed => exact mem_of_mem_erase hx

theorem TabInv.entryRelease (h : TabInv tab ρ) (hrw : r.wait = (ρ t).wait)
    (hro : (ρ t).own = e :: r.own) (hrc : r.cleaning = (ρ t).cleaning) :
    ∃ tab' c, tab.entryRelease e = some (tab', c) ∧ Released tab e tab' c ∧
      TabInv tab' (update ρ t r) := by
  obtain ⟨he, -, hr, hl⟩ := h.owned (t := t) (e := e) (by rw [hro]; simp)
  have hk := h.ent e he
  by_cases hw : 0 < (tab.ents e).waiters
  · refine ⟨_, _, by simp [Table.entryRelease, hw], .handed hw, ?_⟩
    refine h.releaseKept (tab.ents e).reclaimableLink hrw hro hrc
      (fun _ _ => Iff.rfl) h.recl_nodup ⟨?_, hk.reclOk.link, fun _ => .inr hw⟩
    have : (tab.ents e).waiters ≠ 0 := by omega
    simp [hr, this]
  · have hw0 : (tab.ents e).waiters = 0 := by omega
    by_cases hd : (tab.ents e).data = none
    · exact ⟨_, _, by simp [Table.entryRelease, hw0, hd, hl], .freed hw0 hd,
        h.releaseFreed hw0 hd hrw hro hrc⟩
    · refine ⟨_, _, by simp [Table.entryRelease, hw0, hd, queuePushTailWithLink, hl],
        .queued hw0 hd, ?_⟩
      refine h.releaseKept true hrw hro hrc (fun e' hne => by simp [hne])
        (nodup_push h.recl_nodup hr) ⟨?_, by simp, fun hx => absurd hx hd⟩
      simp [hw0, hd]

end invariant

/-! ## Counting buffers -/

/-- Entries with a buffer, plus the buffers still to be allocated. -/
def Table.total (tab : Table) : Nat :=
  tab.chunks.countP (fun e => (tab.ents e).data.isSome) + tab.allocatable

theorem total_congr {tab tab' : Table} (hch : tab'.chunks = tab.chunks)
    (ha : tab'.allocatable = tab.allocatable)
    (hd : ∀ e ∈ tab.chunks, (tab'.ents e).data = (tab.ents e).data) :
    tab'.total = tab.total := by
  unfold Table.total
  rw [hch, ha]
  congr 1
  exact countP_congr fun e he => by rw [hd e he]

theorem Table.lookupOrNew_none {tab : Table} {c : Nat} (hc : tab.lookup c = none) :
    tab.lookupOrNew c = ((tab.lookupOrNew c).1, tab.nextEnt) ∧
      tab.nextEnt ∈ (tab.lookupOrNew c).1.chunks := by
  simp [Table.lookupOrNew, hc]

/-- `lookupOrNew` adds at most an entry without a buffer. -/
theorem total_lookupOrNew {tab : Table} (hfresh : ∀ e ∈ tab.chunks, e < tab.nextEnt) (c : Nat) :
    (tab.lookupOrNew c).1.total = tab.total := by
  unfold Table.lookupOrNew
  split
  next => rfl
  have hold : tab.chunks.countP (fun e =>
      (update tab.ents tab.nextEnt (Entry.new c) e).data.isSome)
      = tab.chunks.countP (fun e => (tab.ents e).data.isSome) := by
    refine countP_congr fun e he => ?_
    rw [update_of_ne (ne_of_lt (hfresh e he))]
  simp [Table.total, countP_append, hold, show (Entry.new c).data = none from rfl]

variable {e : Nat}

theorem total_allocData {tab : Table} (hnd : tab.chunks.Nodup) (he : e ∈ tab.chunks)
    (hd : (tab.ents e).data = none) (ha : 0 < tab.allocatable) :
    (tab.allocData e).total = tab.total := by
  have hgain := countP_gain (p := fun x => (tab.ents x).data.isSome)
    (q := fun x => ((tab.allocData e).ents x).data.isSome) hnd he (by simp [hd])
    (by simp [Table.allocData])
    (fun y _ hy => by simp only [Table.allocData]; rw [Table.setEnt_ne _ _ hy])
  unfold Table.total
  rw [show (tab.allocData e).chunks = tab.chunks from rfl, hgain,
    show (tab.allocData e).allocatable = tab.allocatable - 1 from rfl]
  omega

theorem total_stealData {tab tab' : Table} {x : Nat} (hnd : tab.chunks.Nodup)
    (he : e ∈ tab.chunks) (hx : x ∈ tab.chunks) (hne : e ≠ x) (hd : (tab.ents e).data = none)
    (h : tab.stealData e x = some tab') : tab'.total = tab.total := by
  obtain ⟨b, hb, rfl⟩ := Table.stealData_eq h hne
  -- halfway, both entries have the buffer
  have hgain := countP_gain (p := fun y => (tab.ents y).data.isSome)
    (q := fun y => ((tab.setEnt e { tab.ents e with data := some b }).ents y).data.isSome)
    hnd he (by simp [hd]) (by simp) (fun y _ hy => by simp only; rw [Table.setEnt_ne _ _ hy])
  have hlose := countP_gain
    (p := fun y => (((tab.setEnt e { tab.ents e with data := some b }).setEnt x
      { tab.ents x with data := none }).ents y).data.isSome)
    (q := fun y => ((tab.setEnt e { tab.ents e with data := some b }).ents y).data.isSome)
    hnd hx (by simp) (by simp only; rw [Table.setEnt_ne _ _ (Ne.symm hne)]; simp [hb])
    (fun y _ hy => by simp only; rw [Table.setEnt_ne (e := x) _ _ hy])
  exact congrArg (· + tab.allocatable) (Nat.succ.inj (hlose.symm.trans hgain))

/-- Freeing an entry without a buffer frees no buffer. -/
theorem total_released {tab tab' : Table} {c : Option Table.Cond} (he : e ∈ tab.chunks)
    (h : Released tab e tab' c) : tab'.total = tab.total := by
  cases h with
  | handed hw | queued hw hd =>
    exact total_congr rfl rfl fun x _ => Table.setEnt_proj Entry.data (by rfl) x
  | freed hw hd =>
    have hp := (perm_cons_erase he).countP_eq fun x => (tab.ents x).data.isSome
    rw [countP_cons_of_neg (by simp [hd])] at hp
    have hc : (tab.chunks.erase e).countP (fun x =>
        ((tab.setEnt e { tab.ents e with busy := false }).ents x).data.isSome)
        = (tab.chunks.erase e).countP (fun x => (tab.ents x).data.isSome) := by
      refine countP_congr fun x _ => ?_
      rw [Table.setEnt_proj (e := e) Entry.data (by rfl) x]
    unfold Table.total
    simp only [hc, ← hp, Table.setEnt_allocatable]

end OpenIsr.Fuse
