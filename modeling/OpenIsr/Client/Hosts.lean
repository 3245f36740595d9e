import OpenIsr.Client.Remote

/-!
# What a host knows of the server

A host is `Live` if the lock on the server has the nonce of its session. Only a live host changes
the versions on the server, and while it is live nobody else does; so what a host knows of the
server is kept as long as it is live, whatever the other hosts do (`Good.frame`).

`Good` is what holds of a host, and it is kept by each operation of its own process (`Good.next`):
an upload that is marked as consistent is one that `copy_dirtychunks` has made, what has been sent
to the server is this upload, and `prev-keyring` is the keyring of the last version, unless the
session itself has made that version. The upload is one of what the host has now, but for
`checkp -Y`, which changes the keyring and leaves an upload that has been made before.
-/

namespace OpenIsr.Client

open Server (VersionDir Store)
open Cache (Keyring iuChunkCryptoDigest)

variable {M : Type} {T : ParcelCfg M} {careful : Prop} {r r' : Remote} {h h' g : Host M}
  {e : Choice} {n : Nat}

/-- The number of the session is known to the host. -/
def Host.Owns (h : Host M) (n : Nat) : Prop := h.nonce = some n ∨ h.pc.session = some n

/-- The session of the host has the lock. -/
def Live (r : Remote) (h : Host M) : Prop :=
  r.lock.isSome ∧ (h.nonce = r.lock ∨ h.pc.session = r.lock)

/-- An upload that `copy_dirtychunks` has made, of the keyring and the image that the host has. -/
def Ready (T : ParcelCfg M) (careful : Prop) (upload : Option VersionDir)
    (keyring : Option Keyring) (cfg : Option M) : Prop :=
  ∃ u k prev, upload = some u ∧ Copied T u k prev ∧ (careful →
    (∀ k', keyring = some k' → k' = k) ∧ ∀ m, cfg = some m → u.cfg.bind T.decryptCfg = some m)

/-- What the host has is what the last version has. -/
def Saved (T : ParcelCfg M) (s : Store) (keyring : Option Keyring) (cfg : Option M) : Prop :=
  (∀ k, keyring = some k → lastKeyring s = some k) ∧
    ∀ m, cfg = some m → (lastCfg s).bind T.decryptCfg = some m

/-- Whether there is the parcel directory, where the process has seen to it. -/
def Pc.checkedOut : Pc → Option Bool
  | .checkout (.acquire _) | .checkout (.rollback _ _) | .checkout (.mkdir _) => some false
  | .idle | .remove _ _ | .release _ _ => none
  | _ => some true

/-- The same of the mark of an upload. -/
def Pc.cdCache : Pc → Option Bool
  | .checkout _ | .running | .sync _ _ .copyDirtychunks | .sync _ _ .touchFlag
  | .sync _ _ .moveImage | .sync _ _ .touchClean | .sync _ _ .removeUpload
  | .discard .removeFiles | .discard .buildCache => some false
  | .sync _ _ .rsync | .sync _ _ .check | .sync _ _ .checkUpload | .sync _ _ .commit => some true
  | _ => none

/-- What the process of a host knows before its next operation. -/
def Here (T : ParcelCfg M) (careful : Prop) (r : Remote) (h : Host M) : Pc → Prop
  | .checkout (.fetchCfg _ k) =>
    ∀ k', k = some k' → Rows T k' ∧ (Live r h → lastKeyring r.store = some k')
  | .checkout (.decryptKeyring _ k) => (Live r h → h.img = lastCfg r.store) ∧
    ∀ k', k = some k' → Rows T k' ∧ (Live r h → lastKeyring r.store = some k')
  | .checkout (.buildCache _) =>
    Live r h → h.img = lastCfg r.store ∧ h.prevKeyring = lastKeyring r.store
  | .checkout (.refresh _) => Live r h → h.keyring = lastKeyring r.store ∧
    h.cfg.isSome ∧ h.cfg = (lastCfg r.store).bind T.decryptCfg
  | .sync _ _ .touchFlag => Ready T careful h.upload h.keyring h.cfg
  | .sync n _ .check | .sync n _ .checkUpload => Live r h → r.uploads n = h.upload
  | .sync n _ .commit => Live r h → r.uploads n = h.upload ∧
      Server.srvCheckparcel T.server (r.dir n) = true
  | .sync _ _ .checkAgain | .sync _ _ .copyKeyring =>
    Live r h → r.author = r.lock ∧ (careful → Saved T r.store h.keyring h.cfg)
  | _ => True

/-- What holds of a host. -/
structure Good (T : ParcelCfg M) (careful : Prop) (r : Remote) (h : Host M) : Prop where
  empty : h.checkedOut = false → h.prevKeyring = none ∧ h.cdCache = false
  keyring : ∀ k, h.keyring = some k → Rows T k
  prevKeyring : ∀ k, h.prevKeyring = some k → Rows T k
  upload : h.cdCache = true → Ready T careful h.upload h.keyring h.cfg
  base : Live r h → ∀ k, h.prevKeyring = some k →
    lastKeyring r.store = some k ∨ r.author = r.lock
  dir : ∀ b, h.pc.checkedOut = some b → h.checkedOut = b
  flag : ∀ b, h.pc.cdCache = some b → h.cdCache = b
  here : Here T careful r h h.pc

/-- What is assumed of an operation: the operations of `srv_commit` succeed, the versions have at
most six digits, chunks with equal tags are equal in a rollback, and of what the client does not
look at, the removal of an old upload and of its mark succeed. -/
def Choice.Allowed (T : ParcelCfg M) (e : Choice) (r : Remote) : Pc → Prop
  | .checkout (.rollback _ version) =>
    Server.Allowed T.server iuChunkCryptoDigest r.store (.rollback version.toNat)
  | .sync _ _ .commit => r.store.lastver + 1 < 10 ^ 6 ∧ e.fails = []
  | .sync _ _ .copyDirtychunks => e.removed = true
  | .sync _ _ .unlinkFlag | .unlinkFlag | .discard .unlinkFlag => e.ok = true
  | _ => True

/-- What is assumed of what happens on a host: moreover, Parcelkeeper neither adds chunks to a
keyring nor removes them. To be careful is not to splice chunks after an upload has been made of
them. -/
def Act.Allowed (T : ParcelCfg M) (careful : Prop) (r : Remote) (h : Host M) : Act M → Prop
  | .next e => e.Allowed T r h.pc
  | .change k _ => ∀ k', h.keyring = some k' → SameRows k k'
  | .splice k => (∀ k', h.keyring = some k' → SameRows k k') ∧ (careful → h.cdCache = false)
  | _ => True

/-! ## The operations of a host -/

/-- What an operation can do to the server. -/
inductive Change (T : ParcelCfg M) (e : Choice) (r : Remote) (h : Host M) : Remote → Prop
  | none : Change T e r h r
  | acquire (v : Int) (hpc : h.pc = .checkout (.acquire v)) :
      Change T e r h { r with lock := some e.nonce }
  | rollback (n : Nat) (v : Int) (hpc : h.pc = .checkout (.rollback n v))
      (hlock : r.lock = some n) : Change T e r h (r.rollback T.server n v.toNat)
  | send (n : Nat) (b : Bool) (u : Option VersionDir) (hpc : h.pc = .sync n b .rsync) :
      Change T e r h (r.send n u)
  | commit (n : Nat) (b : Bool) (hpc : h.pc = .sync n b .commit) (hlock : r.lock = some n) :
      Change T e r h (r.commit n (Server.srvCommit T.server (· ∈ e.fails) (r.dir n)).store
        (Server.srvCommit T.server (· ∈ e.fails) (r.dir n)).ok)
  | release : Change T e r h { r with lock := none }

theorem change_of_next : Change T e r h (h.next T e r).1 := by
  unfold Host.next
  cases hpc : h.pc with
  | checkout p =>
    cases p <;> dsimp only [Host.checkout] <;> (repeat' split) <;> first
      | exact .none
      | exact .acquire _ hpc
      | exact .rollback _ _ hpc (And.right ‹_›)
  | sync n b p =>
    cases p <;> dsimp only [Host.sync] <;> (repeat' split) <;> first
      | exact .none
      | exact .send n b _ hpc
      | exact .commit n b hpc (And.left (And.right ‹_›))
  | _ =>
    dsimp only
    (repeat' split) <;> first | exact .none | exact .release

/-- The keyring of the last version. -/
theorem Sound.fetched (hs : Sound T r.store) {k : Option Keyring}
    (hk : (Client.last r.store).bind (·.keyring) = some k) {k' : Keyring} (hk' : k = some k') :
    Rows T k' ∧ lastKeyring r.store = some k' := by
  obtain ⟨v, l, -, hv, hvk, hlast, hrows, -⟩ := hs.last
  rw [hv, Option.bind_some, hvk] at hk
  cases (Option.some.inj hk).trans hk'
  exact ⟨hrows, hlast⟩

theorem uploads_send (r : Remote) (n : Nat) (u : Option VersionDir) (m : Nat) :
    (r.send n u).uploads m = if m = n then u else r.uploads m := rfl

/-- A host may lose its keyring. -/
theorem Ready.keyring {upload : Option VersionDir} {keyring k : Option Keyring}
    {cfg : Option M} (hr : Ready T careful upload keyring cfg)
    (hk : careful → ∀ x, k = some x → keyring = some x) :
    Ready T careful upload k cfg := by
  obtain ⟨u, l, prev, hu, hcopied, hmatch⟩ := hr
  exact ⟨u, l, prev, hu, hcopied, fun hc =>
    ⟨fun x hx => (hmatch hc).1 x (hk hc x hx), (hmatch hc).2⟩⟩

/-- What `copy_dirtychunks` makes. -/
theorem Good.ready (hg : Good T careful r h) {k l : Keyring} {m : M} {u : Cache.Upload}
    (hk : h.keyring = some k) (hp : h.prevKeyring = some l) (hm : h.cfg = some m)
    (hu : u = Cache.copyForUpload T.parcel e.upload { e.cache with keys := k } l (some ∅))
    (hret : u.ended = .returned 0) : Ready T careful
      (some ⟨some (T.encryptCfg e.salt m), some (some k), some u.dest⟩) h.keyring h.cfg := by
  subst hu
  refine ⟨_, k, l, rfl,
    copied_of_copyForUpload (hg.keyring k hk) (hg.prevKeyring l hp) hret, fun _ => ⟨?_, ?_⟩⟩
  · intro k' hk'
    exact Option.some.inj (hk'.symm.trans hk)
  · intro m' hm'
    rw [← hm', hm]
    exact T.decrypt_encrypt e.salt m

/-- A process that only goes on, in a session that the host knows. -/
theorem Good.goto (hg : Good T careful r h) (pc : Pc)
    (hsession : ∀ n, pc.session = some n → h.Owns n)
    (hdir : ∀ b, pc.checkedOut = some b → h.checkedOut = b)
    (hflag : ∀ b, pc.cdCache = some b → h.cdCache = b)
    (hhere : Here T careful r (h.goto pc) pc) : Good T careful r (h.goto pc) := by
  refine ⟨hg.empty, hg.keyring, hg.prevKeyring, hg.upload, ?_, hdir, hflag, hhere⟩
  rintro ⟨hlock, hn⟩
  refine hg.base ⟨hlock, hn.elim .inl fun hpc => ?_⟩
  obtain ⟨n, hn⟩ := Option.isSome_iff_exists.mp hlock
  rw [hn] at hpc ⊢
  exact hsession n hpc

section

variable (hs : Sound T r.store) (hg : Good T careful r h)
include hs hg

/-- A commit that the server carries out. -/
theorem Good.commit {b : Bool} (hpc : h.pc = .sync n b .commit) (hallowed : e.Allowed T r h.pc)
    (hlock : r.lock = some n) :
    let c := Server.srvCommit T.server (· ∈ e.fails) (r.dir n)
    let r' := r.commit n c.store c.ok
    c.ok = true ∧ Sound T r'.store ∧ Keeps T r.store r'.store ∧
      (careful → Saved T r'.store h.keyring h.cfg) := by
  have hhere := hg.here
  have hflag := hg.flag
  rw [hpc] at hhere hflag hallowed
  obtain ⟨hup, hcheck⟩ := hhere ⟨by rw [hlock]; rfl, .inr (by rw [hpc, hlock]; rfl)⟩
  obtain ⟨u, k, prev, hu, hcopied, hmatch⟩ := hg.upload (hflag true rfl)
  obtain ⟨hok, hs', hkeeps, hk, hcfg⟩ := hs.commit hcopied (hup.trans hu) hcheck hallowed.1
  simp only [hallowed.2, List.not_mem_nil, decide_false]
  refine ⟨hok, hs'.upload none, hkeeps, fun hc => ⟨fun k' hk' => ?_, fun m hm => ?_⟩⟩
  · rw [(hmatch hc).1 k' hk']
    exact hk
  · exact (congrArg (·.bind T.decryptCfg) hcfg).trans ((hmatch hc).2 m hm)

theorem Good.checkout {p : CheckoutPc} (hpc : h.pc = .checkout p) :
    Good T careful (h.checkout T e r p).1 (h.checkout T e r p).2 := by
  have hfetched := fun k => hs.fetched (k := k)
  have hgoto := hg.goto
  obtain ⟨hempty, hkeyring, hprev, hupload, hbase, hdir, hflag, hhere⟩ := hg
  rw [hpc] at hhere hdir hflag
  -- no goal is arithmetic, and it takes long to find that no type is an ordered module
  cases p with
  | acquire version | rollback n version =>
    -- the host has nothing yet that the server could contradict
    simp only [Host.checkout]
    (repeat' split) <;> constructor <;> first
      | assumption
      | grind -linarith [Host.goto, Host.giveUp, Here, Live, Pc.checkedOut, Pc.cdCache, Pc.session,
        CheckoutPc.session, Remote.rollback, Remote.commit]
  | fetchKeyring n | refresh n =>
    simp only [Host.checkout]
    (repeat' split) <;> refine hgoto _ ?_ ?_ ?_ ?_ <;>
      grind -linarith [Host.goto, Host.Owns, Here, Live, Pc.checkedOut, Pc.cdCache, Pc.session,
        CheckoutPc.session]
  | mkdir n | renameNonce n | fetchCfg n k | decryptKeyring n k | buildCache n =>
    -- what has been fetched is of the last version as long as the host is live
    simp only [Host.checkout]
    (repeat' split) <;> constructor <;> first
      | assumption
      | grind -linarith [Host.goto, Host.giveUp, Host.buildCache, Here, Live, Pc.checkedOut,
        Pc.cdCache, Pc.session, CheckoutPc.session]

theorem Good.sync {releasing : Bool} {p : SyncPc} (hpc : h.pc = .sync n releasing p)
    (hallowed : e.Allowed T r h.pc) :
    Good T careful (h.sync T e r n releasing p).1 (h.sync T e r n releasing p).2 := by
  have hcommit := fun b hpc => hg.commit (e := e) (n := n) hs (b := b) hpc hallowed
  have hready := fun k l m u => hg.ready (e := e) (k := k) (l := l) (m := m) (u := u)
  have hkeep := fun k (hr : Ready T careful h.upload h.keyring h.cfg) => hr.keyring (k := k)
  have hgoto := hg.goto
  obtain ⟨hempty, hkeyring, hprev, hupload, hbase, hdir, hflag, hhere⟩ := hg
  rw [hpc] at hhere hdir hflag hallowed
  have hdir := hdir true rfl
  cases p with
  | rsync | commit =>
    -- the server has the upload of the host, and then a version of this session
    simp only [Host.sync]
    (repeat' split) <;> constructor <;> first
      | assumption
      | grind -linarith [Host.goto, Here, Live, Pc.checkedOut, Pc.cdCache, Pc.session,
        Remote.commit, Remote.send, uploads_send]
  | copyDirtychunks | touchFlag | copyKeyring | unlinkFlag | moveImage | touchClean
  | removeUpload =>
    -- what the host has changes
    simp only [Host.sync]
    (repeat' split) <;> constructor <;> first
      | assumption
      | grind -linarith [Host.goto, Here, Live, Saved, Pc.checkedOut, Pc.cdCache, Pc.session,
        Choice.Allowed]
  | test | check | checkUpload | checkAgain | refresh =>
    simp only [Host.sync]
    (repeat' split) <;> refine hgoto _ ?_ ?_ ?_ ?_ <;>
      grind -linarith [Host.goto, Host.Owns, Here, Live, Pc.checkedOut, Pc.cdCache, Pc.session]

theorem Good.next (hallowed : e.Allowed T r h.pc) :
    Good T careful (h.next T e r).1 (h.next T e r).2 := by
  unfold Host.next
  cases hpc : h.pc with
  | checkout p => exact hg.checkout hs hpc
  | sync n releasing p => exact hg.sync hs hpc hallowed
  | discard p =>
    obtain ⟨hempty, hkeyring, hprev, hupload, hbase, hdir, hflag, hhere⟩ := hg
    rw [hpc] at hdir hflag hallowed
    have hdir := hdir true rfl
    cases p <;> constructor <;> grind -linarith [Host.discard, Host.goto, Host.buildCache, Here,
      Live, Pc.checkedOut, Pc.cdCache, Pc.session, Choice.Allowed]
  | unlinkFlag =>
    rw [hpc] at hallowed
    cases hg
    constructor <;> grind -linarith [Host.goto, Here, Live, Pc.checkedOut, Pc.cdCache, Pc.session,
      Choice.Allowed]
  | remove n mode =>
    -- without the directory the host knows nothing
    cases hg
    constructor <;> grind -linarith [Host.goto, Host.removeDir, Host.start, Here, Live,
      Pc.checkedOut, Pc.cdCache, Pc.session]
  | idle => exact hg
  | running => exact hg.goto _ nofun nofun nofun trivial
  | needLock releasing =>
    have hdir := hg.dir
    rw [hpc] at hdir
    dsimp only
    (repeat' split) <;> refine hg.goto _ ?_ ?_ ?_ ?_ <;>
      grind [Host.Owns, Here, Pc.checkedOut, Pc.cdCache, Pc.session]
  | release n mode =>
    -- without the lock no session is live
    cases hg
    constructor <;> grind -linarith [Host.goto, Here, Live, Pc.checkedOut, Pc.cdCache, Pc.session]

/-- The server is sound after an operation too, and no version is lost. -/
theorem Good.safe (hallowed : e.Allowed T r h.pc) :
    Sound T (h.next T e r).1.store ∧ Keeps T r.store (h.next T e r).1.store := by
  have hchange := change_of_next (T := T) (e := e) (r := r) (h := h)
  generalize (h.next T e r).1 = r' at hchange ⊢
  cases hchange with
  | rollback n v hpc =>
    rw [hpc] at hallowed
    exact hs.rollback hallowed
  | commit n b hpc hlock =>
    obtain ⟨-, hs', hkeeps, -⟩ := hg.commit hs hpc hallowed hlock
    exact ⟨hs', hkeeps⟩
  | _ => exact ⟨hs, .refl T r.store⟩

theorem Good.act {a : Act M} (hallowed : a.Allowed T careful r h) :
    Sound T (h.act T r a).1.store ∧ Keeps T r.store (h.act T r a).1.store ∧
      Good T careful (h.act T r a).1 (h.act T r a).2 := by
  have hkeeps := Keeps.refl T r.store
  cases a with
  | next e => exact ⟨(hg.safe hs hallowed).1, (hg.safe hs hallowed).2, hg.next hs hallowed⟩
  | start cmd =>
    have hempty := hg.empty
    have hgood : Good T careful r (h.command cmd) := by
      unfold Host.command
      (repeat' split) <;> first
        | exact hg
        | refine hg.goto _ ?_ ?_ ?_ ?_ <;> grind [Host.Owns, Here, Pc.checkedOut, Pc.cdCache,
          Pc.session, CheckoutPc.session]
    dsimp only [Host.act]
    split
    · exact ⟨hs, hkeeps, hgood⟩
    · exact ⟨hs, hkeeps, hg⟩
  | change k cfg | splice k =>
    have hkeep := fun k (hr : Ready T careful h.upload h.keyring h.cfg) => hr.keyring (k := k)
    have hrows : ∀ k', h.keyring = some k' → Rows T k := fun k' hk' i => by
      rw [← hg.keyring k' hk' i]
      grind [Act.Allowed, SameRows]
    obtain ⟨hempty, hkeyring, hprev, hupload, hbase, hdir, hflag, hhere⟩ := hg
    refine ⟨?_, ?_, ?_, ?_, ?_, ?_, ?_, ?_, ?_, ?_⟩ <;> grind -linarith [Host.act, Here, Live,
      Option.map_eq_some_iff, Act.Allowed, Pc.cdCache]
  | kill => exact ⟨hs, hkeeps, hg.goto _ nofun nofun nofun trivial⟩

end

/-! ## The other hosts -/

/-- A session that a host knows after an operation it knew before, or it has just got the lock. -/
theorem owns_of_next (hown : (h.next T e r).2.Owns n) :
    h.Owns n ∨ (∃ v, h.pc = .checkout (.acquire v)) ∧ n = e.nonce := by
  unfold Host.next at hown
  cases hpc : h.pc with
  | checkout p =>
    cases p <;> grind [Host.checkout, Host.goto, Host.giveUp, Host.buildCache, Host.Owns,
      CheckoutPc.session, Pc.session]
  | sync n releasing p => cases p <;> grind [Host.sync, Host.goto, Host.Owns, Pc.session]
  | discard p =>
    cases p <;> grind [Host.discard, Host.goto, Host.buildCache, Host.Owns, Pc.session]
  | _ => grind [Host.goto, Host.removeDir, Host.start, Host.Owns, Pc.session]

/-- The nonce that `srv_lock` gives out is new. -/
def Fresh (h g : Host M) : Act M → Prop
  | .next e => (∃ v, h.pc = .checkout (.acquire v)) → ¬ g.Owns e.nonce
  | _ => True

/-- Hosts that know no common session know none afterwards. -/
theorem apart_of_act {a : Act M} (hfresh : Fresh h g a)
    (hother : ∀ n, h.Owns n → ¬ g.Owns n) : ∀ n, (h.act T r a).2.Owns n → ¬ g.Owns n := by
  cases a with
  | next e =>
    have hnext := fun n => owns_of_next (T := T) (h := h) (e := e) (r := r) (n := n)
    grind [Host.act, Fresh]
  | start cmd =>
    cases cmd <;> grind [Host.act, Host.command, Host.goto, Host.Owns, Pc.session,
      CheckoutPc.session]
  | _ => grind [Host.act, Host.goto, Host.Owns, Pc.session]

/-- What a host can see of the server is the same, or it is not live. -/
def Unmoved (r r' : Remote) (g : Host M) : Prop :=
  Live r' g → r'.lock = r.lock ∧ r'.store = r.store ∧ r'.author = r.author ∧
    ∀ n, g.Owns n → r'.uploads n = r.uploads n

theorem unmoved_of_lock (hlock : r'.lock = some n) (hno : ¬ g.Owns n) : Unmoved r r' g := by
  rintro ⟨-, hlive⟩
  rw [hlock] at hlive
  exact absurd hlive hno

/-- What happens on a host does not touch what a host of another session can see. -/
theorem unmoved_of_act {a : Act M} (hfresh : Fresh h g a)
    (hother : ∀ n, h.Owns n → ¬ g.Owns n) : Unmoved r (h.act T r a).1 g := by
  have hsession : ∀ n, h.pc.session = some n → ¬ g.Owns n := fun n hn => hother n (.inr hn)
  cases a with
  | next e =>
    have hchange := change_of_next (T := T) (e := e) (r := r) (h := h)
    unfold Host.act
    generalize (h.next T e r).1 = r' at hchange ⊢
    cases hchange with
    | none => exact fun _ => ⟨rfl, rfl, rfl, fun _ _ => rfl⟩
    | acquire v hpc => exact unmoved_of_lock rfl (hfresh ⟨v, hpc⟩)
    | rollback n v hpc hlock =>
      refine unmoved_of_lock ?_ (hsession n (by rw [hpc]; rfl))
      unfold Remote.rollback
      split <;> exact hlock
    | send n b u hpc =>
      refine fun _ => ⟨rfl, rfl, rfl, fun m hm => if_neg ?_⟩
      rintro rfl
      exact hsession m (by rw [hpc]; rfl) hm
    | commit n b hpc hlock => exact unmoved_of_lock hlock (hsession n (by rw [hpc]; rfl))
    | release => exact fun hlive => absurd hlive.1 nofun
  | _ => grind [Host.act, Unmoved]

theorem Good.frame (hg : Good T careful r g) (hu : Unmoved r r' g) : Good T careful r' g := by
  obtain ⟨hempty, hkeyring, hprev, hupload, hbase, hdir, hflag, hhere⟩ := hg
  refine ⟨hempty, hkeyring, hprev, hupload, ?_, hdir, hflag, ?_⟩
  · grind [Unmoved, Live]
  · cases hpc : g.pc with
    | checkout p => cases p <;> grind [Unmoved, Live, Here]
    | sync n releasing p =>
      cases p <;> grind [Unmoved, Live, Here, Host.Owns, Pc.session, Remote.dir]
    | _ => trivial

end OpenIsr.Client
