import Mathlib.Logic.Function.Basic
import OpenIsr.Cache.Upload
import OpenIsr.Lock.Nonce
import OpenIsr.Server.History

/-!
# Sessions of a parcel (client/isr.in)

Any number of hosts use one parcel. On each of them one process of the client runs at a time, a
command of it: `checkout` gets the lock, whose nonce is the number of the session, and makes the
parcel directory; `resume` and `poweroff` change what is in it; `sync` and `checkin` make a new
version on the server of it, `discard` undoes the changes, and `checkin` and `clean` remove the
directory and release the lock. `clean -f` also releases a lock that another host has.

A step is one operation of one process: a command that the server carries out, or a change of a
file on the host. A command may be carried out and `ssh` fail after that, so that the client takes
it for failed, any operation may fail, and a process may be killed between two operations. Where the
script does not look at a result, the process goes on.

A command of the server is one step here. In the source it is not: `srv_commit` and `srv_rollback`
compare the nonce first and take no lock for their work after that, so that a `clean -f` and a
`checkout` may come in between. Only for `srv_lock` it is modelled what happens if commands overlap,
in `OpenIsr.Lock.Nonce`.

What is in the local cache is chosen anew whenever Parcelkeeper reads it, since `copy_for_upload`
compares what it copies with the tags. The memory image is a value of any type.
-/

namespace OpenIsr.Client

open Server (VersionDir Store)
open Cache (Keyring)

variable {M C : Type}

/-- What a session takes from `parcel.cfg`: the geometry of the disk, and the keyroot, with which
`encrypt_cfg` and `decrypt_cfg` code the memory image. The salt is random. -/
structure ParcelCfg (M : Type) where
  parcel : Cache.Parcel
  chunksPerDir_pos : 0 < parcel.chunksPerDir
  encryptCfg : Nat → M → List UInt8
  decryptCfg : List UInt8 → Option M
  decrypt_encrypt : ∀ salt m, decryptCfg (encryptCfg salt m) = some m

/-- The part of `parcel.cfg` that the scripts of the server read. -/
def ParcelCfg.server (T : ParcelCfg M) : Server.Cfg :=
  ⟨T.parcel.chunks, T.parcel.chunksPerDir, T.chunksPerDir_pos⟩

/-! ## The server -/

/-- The version to which `last` is linked. -/
def last (s : Store) : Option VersionDir := s.last.bind fun n => s.versions.lookup n

/-- What `last/keyring.enc` decodes to. -/
def lastKeyring (s : Store) : Option Keyring := (last s).bind fun v => v.keyring.join

/-- `last/cfg.tgz.enc`. -/
def lastCfg (s : Store) : Option (List UInt8) := (last s).bind fun v => v.cfg

/-- The parcel on the server. -/
structure Remote where
  /-- The nonce in `LOCK`. -/
  lock : Option Nat
  store : Store
  /-- The directories `cache/$nonce`. -/
  uploads : Nat → Option VersionDir
  /-- The session that has made the last version. No step reads it. -/
  author : Option Nat

/-- What a script finds that has been given the nonce. -/
def Remote.dir (r : Remote) (nonce : Nat) : Store := { r.store with cache := r.uploads nonce }

/-- The server after `rsync`. -/
def Remote.send (r : Remote) (nonce : Nat) (u : Option VersionDir) : Remote :=
  { r with uploads := fun n => if n = nonce then u else r.uploads n }

/-- The server after `srv_commit`: if it succeeds, it removes all uploads. -/
def Remote.commit (r : Remote) (nonce : Nat) (s : Store) (ok : Bool) : Remote where
  lock := r.lock
  store := { s with cache := none }
  uploads := fun n => if ok then none else if n = nonce then s.cache else r.uploads n
  author := if ok then some nonce else r.author

/-- The server after `srv_rollback`: there is no commit if the target is the last version. -/
def Remote.rollback (cfg : Server.Cfg) (r : Remote) (nonce targetver : Nat) : Remote :=
  if targetver = r.store.lastver then r
  else
    let res := Server.srvRollback cfg (r.dir nonce) targetver
    r.commit nonce res.store res.ok

/-! ## The client -/

/-- Why `clean` has been called. -/
inductive CleanMode
  /-- By `clean`, or because a `checkout` has failed. -/
  | soft
  /-- By `clean -f`. -/
  | hard
  | checkin
  deriving DecidableEq, Repr

/-- The operations of `checkout`. Where there is a number, it is `$sessionid`. -/
inductive CheckoutPc
  /-- `srun("lock", … -a)`. -/
  | acquire (version : Int)
  | rollback (n : Nat) (version : Int)
  | mkdir (n : Nat)
  | renameNonce (n : Nat)
  | fetchKeyring (n : Nat)
  /-- The keyring has been fetched. -/
  | fetchCfg (n : Nat) (keyring : Option Keyring)
  | decryptKeyring (n : Nat) (keyring : Option Keyring)
  | buildCache (n : Nat)
  | refresh (n : Nat)
  deriving DecidableEq

/-- The operations of `sync`, with those of `upload`, `commit` and `clientcommit`. -/
inductive SyncPc
  /-- The test of `$cleancache_file`, and those at the beginning of `upload`. -/
  | test
  | copyDirtychunks
  | touchFlag
  | rsync
  /-- `srun("checkparcel", "-p …")`. -/
  | check
  /-- `srun("checkparcel", "-s …")`. -/
  | checkUpload
  | commit
  | checkAgain
  | copyKeyring
  | unlinkFlag
  | moveImage
  | touchClean
  | removeUpload
  | refresh
  deriving DecidableEq, Repr

/-- The operations of `discard`. -/
inductive DiscardPc
  | unlinkFlag
  | removeFiles
  | buildCache
  deriving DecidableEq, Repr

/-- The next operation of a process. -/
inductive Pc
  | idle
  | checkout (p : CheckoutPc)
  /-- `run` and `poweroff`, before the two `unlink`. -/
  | unlinkFlag
  | running
  /-- `need_remote_parcel_and_lock` for `sync` or, if it is `releasing`, for `checkin`. -/
  | needLock (releasing : Bool)
  | sync (n : Nat) (releasing : Bool) (p : SyncPc)
  /-- `clean`; the nonce may be unknown. -/
  | remove (n : Option Nat) (mode : CleanMode)
  | release (n : Option Nat) (mode : CleanMode)
  | discard (p : DiscardPc)
  deriving DecidableEq

def CheckoutPc.session : CheckoutPc → Option Nat
  | acquire _ => none
  | rollback n _ | mkdir n | renameNonce n | fetchKeyring n | fetchCfg n _ | decryptKeyring n _
  | buildCache n | refresh n => some n

/-- `$sessionid` of the process, unless it reads it from the parcel directory. -/
def Pc.session : Pc → Option Nat
  | checkout p => p.session
  | sync n _ _ => some n
  | remove n _ | release n _ => n
  | _ => none

/-- The files of a host and its process. Without a parcel directory there are no files in it. -/
structure Host (M : Type) where
  /-- `-e $parceldir`. -/
  checkedOut : Bool
  nonce : Option Nat
  prevKeyring : Option Keyring
  keyring : Option Keyring
  /-- The memory image, in the directory `cfg`. -/
  cfg : Option M
  /-- `$cleancache_file`. -/
  cleanCache : Bool
  /-- `$cdcache_file`. -/
  cdCache : Bool
  /-- `$uploaddir`. -/
  upload : Option VersionDir
  /-- `$imgbase.cfg`, which is in the hoard cache. -/
  img : Option (List UInt8)
  pc : Pc

def Host.start (M : Type) : Host M where
  checkedOut := false
  nonce := none
  prevKeyring := none
  keyring := none
  cfg := none
  cleanCache := false
  cdCache := false
  upload := none
  img := none
  pc := .idle

def Host.goto (h : Host M) (pc : Pc) : Host M := { h with pc }

/-- `rm -rf $parceldir`. -/
def Host.removeDir (h : Host M) : Host M := { Host.start M with img := h.img, pc := h.pc }

/-- What one operation meets. -/
structure Choice where
  /-- It succeeds; if it is a command for the server, the server gets it. -/
  ok : Bool
  /-- The client is told so. -/
  ack : Bool
  /-- What is removed first is removed. -/
  removed : Bool
  /-- The nonce that `srv_lock` draws. -/
  nonce : Nat
  salt : Nat
  /-- What `copy_for_upload` finds in the local cache and what it meets. -/
  cache : Cache.Store
  upload : Cache.UploadEnv
  /-- What is left in a directory if filling it fails. -/
  left : Option VersionDir
  /-- The operations of `srv_commit` that fail. -/
  fails : List Server.Op

/-- `build_cache`. -/
def Host.buildCache (T : ParcelCfg M) (e : Choice) (h : Host M) : Option (Host M) :=
  if h.cfg.isSome || h.keyring.isSome || !e.ok then none
  else
    match h.img.bind T.decryptCfg, h.prevKeyring with
    | some m, some k => some { h with cfg := some m, keyring := some k, cleanCache := true }
    | _, _ => none

/-- `clean(0)` in `checkout`. -/
def Host.giveUp (h : Host M) (n : Nat) : Host M := h.goto (.remove (some n) .soft)

/-- An operation of `checkout`. -/
def Host.checkout (T : ParcelCfg M) (e : Choice) (r : Remote) (h : Host M) :
    CheckoutPc → Remote × Host M
  | .acquire version =>
    if e.ok ∧ r.lock = none ∧ 1 ≤ e.nonce ∧ e.nonce ≤ Lock.Nonce.maxNonce then
      let pc := if version = 0 then .mkdir e.nonce else .rollback e.nonce version
      ({ r with lock := some e.nonce }, h.goto (if e.ack then .checkout pc else .idle))
    else (r, h.goto .idle)
  | .rollback n version =>
    if version < 1 then (r, h.giveUp n)
    else if e.ok ∧ r.lock = some n then
      let ok := (Server.srvRollback T.server (r.dir n) version.toNat).ok
      (r.rollback T.server n version.toNat,
        if ok ∧ e.ack then h.goto (.checkout (.mkdir n)) else h.giveUp n)
    else (r, h.giveUp n)
  | .mkdir n =>
    (r, if e.ok then { h with checkedOut := true }.goto (.checkout (.renameNonce n))
      else h.giveUp n)
  | .renameNonce n =>
    (r, if e.ok then { h with nonce := some n }.goto (.checkout (.fetchKeyring n))
      else h.giveUp n)
  | .fetchKeyring n =>
    match if e.ok then (last r.store).bind (·.keyring) else none with
    | some k => (r, h.goto (.checkout (.fetchCfg n k)))
    | none => (r, h.giveUp n)
  | .fetchCfg n k =>
    match if e.ok then lastCfg r.store else none with
    | some x => (r, { h with img := some x }.goto (.checkout (.decryptKeyring n k)))
    -- a file of which only a part has come is removed
    | none => (r, { h with img := if e.ack then h.img else none }.giveUp n)
  | .decryptKeyring n k =>
    match if e.ok then k else none with
    | some k => (r, { h with prevKeyring := some k }.goto (.checkout (.buildCache n)))
    | none => (r, h.giveUp n)
  | .buildCache n =>
    match h.buildCache T e with
    | some h => (r, h.goto (.checkout (.refresh n)))
    | none => (r, h.giveUp n)
  | .refresh n => (r, if e.ok then h.goto .idle else h.giveUp n)

/-- An operation of `sync`. -/
def Host.sync (T : ParcelCfg M) (e : Choice) (r : Remote) (h : Host M) (n : Nat)
    (releasing : Bool) : SyncPc → Remote × Host M
  | .test =>
    if h.cleanCache then
      (r, h.goto (if releasing then .remove (some n) .checkin else .idle))
    else if h.keyring.isNone || h.cfg.isNone then (r, h.goto .idle)
    else (r, h.goto (.sync n releasing (if h.cdCache then .rsync else .copyDirtychunks)))
  | .copyDirtychunks =>
    match h.keyring, h.prevKeyring, h.cfg with
    | some k, some prev, some m =>
      -- nobody looks whether the old upload is removed
      let dest := if e.removed then ∅ else (h.upload.bind (·.hdk)).getD ∅
      let u := Cache.copyForUpload T.parcel e.upload { e.cache with keys := k } prev (some dest)
      if u.ended = .returned 0 ∧ e.ok then
        let image := T.encryptCfg e.salt m
        (r, { h with upload := some ⟨some image, some (some k), some u.dest⟩ }.goto
          (.sync n releasing .touchFlag))
      else (r, { h with upload := e.left }.goto .idle)
    | _, _, _ => (r, { h with upload := e.left }.goto .idle)
  | .touchFlag =>
    (r, if e.ok then { h with cdCache := true }.goto (.sync n releasing .rsync) else h.goto .idle)
  | .rsync =>
    if e.ok ∧ h.upload.isSome then (r.send n h.upload, h.goto (.sync n releasing .check))
    else (r.send n e.left, h.goto .idle)
  | .check => (r, h.goto (if e.ok then .sync n releasing .checkUpload else .idle))
  | .checkUpload =>
    (r, h.goto (if e.ok ∧ e.ack ∧ Server.srvCheckparcel T.server (r.dir n) then
      .sync n releasing .commit else .idle))
  | .commit =>
    if e.ok ∧ r.lock = some n ∧ (r.uploads n).isSome then
      let c := Server.srvCommit T.server (· ∈ e.fails) (r.dir n)
      (r.commit n c.store c.ok,
        h.goto (if c.ok ∧ e.ack then .sync n releasing .checkAgain else .idle))
    else (r, h.goto .idle)
  | .checkAgain => (r, h.goto (if e.ok then .sync n releasing .copyKeyring else .idle))
  | .copyKeyring =>
    if e.ok ∧ h.keyring.isSome then
      (r, { h with
        prevKeyring := h.keyring
        keyring := if releasing then none else h.keyring }.goto (.sync n releasing .unlinkFlag))
    else
      -- a copy that fails may have overwritten the file
      (r, { h with prevKeyring := if releasing ∨ e.ack then h.prevKeyring else none }.goto .idle)
  | .unlinkFlag =>
    (r, { h with cdCache := h.cdCache && !e.ok }.goto (.sync n releasing .moveImage))
  | .moveImage =>
    if e.ack then
      -- nobody looks whether the two `rename` succeed
      (r, (if e.ok then { h with
          img := (h.upload.bind (·.cfg)).or h.img
          upload := h.upload.map fun u => { u with cfg := none, keyring := none } }
        else h).goto (.sync n releasing .touchClean))
    else (r, h.goto .idle)
  | .touchClean =>
    (r, if e.ok then { h with cleanCache := true }.goto (.sync n releasing .removeUpload)
      else h.goto .idle)
  | .removeUpload =>
    (r, { h with upload := if e.ok then none else h.upload }.goto (.sync n releasing .refresh))
  | .refresh => (r, h.goto (if e.ok ∧ releasing then .remove (some n) .checkin else .idle))

/-- An operation of `discard`. The directory `cfg` is removed as a whole or not at all. -/
def Host.discard (T : ParcelCfg M) (e : Choice) (h : Host M) : DiscardPc → Host M
  | .unlinkFlag => { h with cdCache := h.cdCache && !e.ok }.goto (.discard .removeFiles)
  | .removeFiles =>
    { h with
      cfg := if e.removed then none else h.cfg
      keyring := if e.ack then none else h.keyring }.goto
        (if e.ok then .discard .buildCache else .idle)
  | .buildCache => ((h.buildCache T e).getD h).goto .idle

/-- The next operation of the process of a host, if there is one. -/
def Host.next (T : ParcelCfg M) (e : Choice) (r : Remote) (h : Host M) : Remote × Host M :=
  match h.pc with
  | .idle => (r, h)
  | .checkout p => h.checkout T e r p
  | .unlinkFlag =>
    (r, { h with
      cleanCache := h.cleanCache && !e.removed
      cdCache := h.cdCache && !e.ok }.goto .running)
  | .running => (r, h.goto .idle)
  | .needLock releasing =>
    match h.nonce with
    | some n =>
      (r, h.goto (if e.ok ∧ e.ack ∧ r.lock = some n then .sync n releasing .test else .idle))
    | none => (r, h.goto .idle)
  | .sync n releasing p => h.sync T e r n releasing p
  | .remove n mode => (r, (if e.ok then h.removeDir else h).goto (.release n mode))
  | .release n mode =>
    (if e.ok ∧ (mode = .hard ∨ n.isSome ∧ r.lock = n) then { r with lock := none } else r,
      h.goto .idle)
  | .discard p => (r, h.discard T e p)

/-! ## The system -/

inductive Cmd
  | checkout (version : Int)
  /-- `resume` of a parcel that is checked out, and `poweroff`. -/
  | run
  /-- `sync`, or `checkin` if it releases the lock. -/
  | sync (releasing : Bool)
  | discard
  | clean (force : Bool)
  deriving DecidableEq, Repr

/-- The first operation of a command, unless it is refused. -/
def Host.command (h : Host M) : Cmd → Host M
  | .checkout version => if h.checkedOut then h else h.goto (.checkout (.acquire version))
  | .run => if h.checkedOut then h.goto .unlinkFlag else h
  | .sync releasing => if h.checkedOut then h.goto (.needLock releasing) else h
  | .discard => if h.checkedOut then h.goto (.discard .unlinkFlag) else h
  | .clean force => h.goto (.remove h.nonce (if force then .hard else .soft))

/-- The same chunks are in both tables. -/
def SameRows (a b : Keyring) : Prop := ∀ i, (a.lookup i).isSome = (b.lookup i).isSome

/-- What happens on a host. -/
inductive Act (M : Type)
  /-- A command is called. -/
  | start (cmd : Cmd)
  /-- The next operation of the process. -/
  | next (e : Choice)
  /-- Parcelkeeper and the VMM change the keyring and the memory image while the parcel runs. -/
  | change (keyring : Keyring) (cfg : Option M)
  /-- `checkp -Y` reverts chunks that are damaged. -/
  | splice (keyring : Keyring)
  /-- The process is killed. -/
  | kill

/-- Nothing is done where it is not its turn. -/
def Host.act (T : ParcelCfg M) (r : Remote) (h : Host M) : Act M → Remote × Host M
  | .start cmd =>
    match h.pc with
    | .idle => (r, h.command cmd)
    | _ => (r, h)
  | .next e => h.next T e r
  | .change keyring cfg =>
    match h.pc with
    -- without a keyring Parcelkeeper does not run
    | .running => (r, { h with keyring := h.keyring.map fun _ => keyring, cfg })
    | _ => (r, h)
  | .splice keyring =>
    match h.pc with
    | .idle => (r, { h with keyring := h.keyring.map fun _ => keyring })
    | _ => (r, h)
  | .kill => (r, h.goto .idle)

structure State (C M : Type) where
  remote : Remote
  hosts : C → Host M

def step [DecidableEq C] (T : ParcelCfg M) (s : State C M) (a : C × Act M) : Option (State C M) :=
  let (r, h) := (s.hosts a.1).act T s.remote a.2
  some ⟨r, Function.update s.hosts a.1 h⟩

end OpenIsr.Client
