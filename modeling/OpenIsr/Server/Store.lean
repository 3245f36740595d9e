import Mathlib.Data.List.AList
import OpenIsr.Base.Decimal
import OpenIsr.Cache.Store

/-!
# Parcels on the server (locksrv)

A parcel is a directory with a directory for each version, named by the number of the version, a
link `last` to the last of them, and the directory that a client has uploaded. In each of these
there are the files `cfg.tgz.enc` and `keyring.enc` and, under `hdk`, the chunks, in directories of
`chunksperdir` files.

A directory is a table of its files by name. Owners, modes and times are left out, and so are files
other than those; a keyring is the table that it decodes to.

The last version has all chunks, and a version before it those that have been replaced in the next
one (`VersionStore`).
-/

namespace OpenIsr.Server

open Base

abbrev Keyring : Type := Cache.Keyring

/-- The name of a file or of a directory. -/
abbrev Name : Type := List Char

/-- A directory of chunk files. -/
abbrev Dir : Type := AList fun _ : Name => List UInt8

/-- What is under `hdk`. -/
abbrev Hdk : Type := AList fun _ : Name => Dir

/-- The file `d/f` under `hdk`, if there is one. -/
def content (h : Option Hdk) (d f : Name) : Option (List UInt8) :=
  (h.bind fun h => h.lookup d).bind fun dir => dir.lookup f

/-- The directory of a version, or one that has been uploaded. -/
structure VersionDir where
  /-- The file `cfg.tgz.enc`. -/
  cfg : Option (List UInt8)
  /-- The file `keyring.enc`, and in it what `blobtool` decodes it to, unless it fails. -/
  keyring : Option (Option Keyring)
  hdk : Option Hdk

/-- The directory of a parcel. -/
structure Store where
  /-- The version directories by their numbers. -/
  versions : AList fun _ : Nat => VersionDir
  /-- The number in the link `last`. -/
  last : Option Nat
  /-- The directory that has been uploaded, `cache/$nonce`. -/
  cache : Option VersionDir

/-- What the scripts take from `parcel.cfg`. -/
structure Cfg where
  numchunks : Nat
  chunksperdir : Nat
  chunksperdir_pos : 0 < chunksperdir

/-- `get_numdirs`. -/
def getNumdirs (cfg : Cfg) : Nat := (cfg.numchunks + cfg.chunksperdir - 1) / cfg.chunksperdir

/-- `sprintf("%06d", $version)`. -/
def verName (n : Nat) : Name := padded 6 n

/-- `int((reverse sort grep(/^\d+$/, readdir(DIR)))[0])`. -/
def Store.lastver (s : Store) : Nat := ((s.versions.keys.map verName).max?.map value).getD 0

/-- The directory and the file of a chunk, as `srv_checkparcel` forms their names. -/
def chunkDir (cfg : Cfg) (c : Nat) : Name := padded 4 (c / cfg.chunksperdir)

def chunkFile (cfg : Cfg) (c : Nat) : Name := padded 4 (c % cfg.chunksperdir)

/-- The data of a chunk in `hdk`. -/
def chunk (cfg : Cfg) (h : Option Hdk) (c : Nat) : Option (List UInt8) :=
  content h (chunkDir cfg c) (chunkFile cfg c)

/-- The chunk has a tag in both keyrings, and they are not the same. -/
def keydiff (a b : Keyring) (i : Int) : Bool :=
  match a.lookup i, b.lookup i with
  | some x, some y => x.tag ≠ y.tag
  | _, _ => false

/-- The file is that of a chunk. -/
def IsChunk (cfg : Cfg) (d f : Name) : Prop :=
  ∃ c < cfg.numchunks, d = chunkDir cfg c ∧ f = chunkFile cfg c

theorem chunkDir_lt {cfg : Cfg} {c : Nat} (h : c < cfg.numchunks) :
    c / cfg.chunksperdir < getNumdirs cfg := by
  have hpos := cfg.chunksperdir_pos
  rw [getNumdirs, Nat.div_lt_iff_lt_mul hpos]
  have := Nat.div_add_mod (cfg.numchunks + cfg.chunksperdir - 1) cfg.chunksperdir
  have := Nat.mod_lt (cfg.numchunks + cfg.chunksperdir - 1) hpos
  rw [Nat.mul_comm]
  omega

/-! ## Versions -/

/-- The version-store invariant: the last version has all chunks, and each version before it has
exactly those whose tags differ from the next version. -/
structure VersionStore (cfg : Cfg) (s : Store) (first last : Nat) : Prop where
  first_le : first ≤ last
  versions : ∀ n, n ∈ s.versions ↔ first ≤ n ∧ n ≤ last
  link : s.last = some last
  whole : ∀ n v, s.versions.lookup n = some v →
    v.cfg.isSome ∧ (∃ k, v.keyring = some (some k)) ∧ v.hdk.isSome
  complete : ∀ v, s.versions.lookup last = some v →
    ∀ c < cfg.numchunks, (chunk cfg v.hdk c).isSome
  delta : ∀ n v v' k k', n < last → s.versions.lookup n = some v →
    s.versions.lookup (n + 1) = some v' → v.keyring = some (some k) →
    v'.keyring = some (some k') →
    ∀ c < cfg.numchunks, (chunk cfg v.hdk c).isSome = keydiff k k' c

end OpenIsr.Server
