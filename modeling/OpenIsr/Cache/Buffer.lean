import OpenIsr.Cache.PutGet

/-!
# The ciphertext buffer of cache_get

`cache_get` has a buffer of one chunk for the ciphertext. Three functions write to it, and each
bounds what it writes in its own way: `_hoard_read_chunk` checks the length before it reads,
`curl_callback` cuts down what it is given, and `_cache_read_chunk` reads as many bytes as the
index says. `cache_get` checks that length, too, but after the read.

`cacheGetWrites` has every write of a call, as position and number of bytes.
`within_iff` says when they stay within the buffer.
-/

namespace OpenIsr.Cache

open Base Crypto Util List

/-- A write to the buffer: position and number of bytes. -/
abbrev BufWrite : Type := Nat × Nat

/-- The writes stay within a buffer of one chunk. -/
def Within (P : Parcel) (writes : List BufWrite) : Prop :=
  ∀ w ∈ writes, w.1 + w.2 ≤ P.chunksize

variable {P : Parcel} {out : Outside} {st : Store} {chunk : Nat}

theorem Within.nil : Within P [] :=
  nofun

theorem Within.append {ws vs : List BufWrite} (hw : Within P ws) (hv : Within P vs) :
    Within P (ws ++ vs) := by
  intro w hmem
  rcases mem_append.mp hmem with h | h
  · exact hw w h
  · exact hv w h

/-! ## The network -/

/-- How a transfer ends that the callback has not stopped. -/
inductive TransferEnd
  | ok
  /-- An error for which `transport_get` returns `PK_NETFAIL`. -/
  | netfail
  | error
  deriving DecidableEq, Repr

/-- A call of `curl_easy_perform`: what it hands to the callback. -/
structure Transfer where
  pieces : List (List UInt8)
  ends : TransferEnd

/-- `curl_callback`: the number of bytes it copies and returns. -/
def curlCallback (P : Parcel) (offset : Nat) (data : List UInt8) : Nat :=
  min data.length (P.chunksize - offset)

/-- The calls of the callback, from `conn->offset` on: what is in the buffer then, and whether
the transfer goes through. It is stopped when the callback does not take everything. -/
def receive (P : Parcel) (buf : List UInt8) : List (List UInt8) → List UInt8 × Bool
  | [] => (buf, true)
  | data :: rest =>
    let count := curlCallback P buf.length data
    if count ≠ data.length then (buf ++ data.take count, false)
    else receive P (buf ++ data.take count) rest

/-- The writes to the buffer that come with it. -/
def receiveWrites (P : Parcel) (offset : Nat) : List (List UInt8) → List BufWrite
  | [] => []
  | data :: rest =>
    let count := curlCallback P offset data
    (offset, count) :: if count ≠ data.length then [] else receiveWrites P (offset + count) rest

/-- `transport_get` on a connection. -/
def Transfer.get (P : Parcel) (t : Transfer) : Except PkErr (List UInt8) :=
  match receive P [] t.pieces with
  | (_, false) => .error .ioerr
  | (buf, true) =>
    match t.ends with
    | .ok => .ok buf
    | .netfail => .error .netfail
    | .error => .error .ioerr

/-- The response that `transportGet` has for the transfer. -/
def Transfer.response (P : Parcel) (t : Transfer) : Response :=
  if P.chunksize < t.pieces.flatten.length then .error
  else
    match t.ends with
    | .ok => .ok t.pieces.flatten
    | .netfail => .netfail
    | .error => .error

/-- The buffer has as much of the transfer as fits, and it goes through if that is all. -/
theorem receive_eq (pieces : List (List UInt8)) : ∀ {buf : List UInt8}, buf.length ≤ P.chunksize →
    receive P buf pieces = ((buf ++ pieces.flatten).take P.chunksize,
      decide (buf.length + pieces.flatten.length ≤ P.chunksize)) := by
  induction pieces with
  | nil =>
    intro buf hbuf
    simp only [receive, flatten_nil, append_nil, length_nil, Nat.add_zero,
      take_of_length_le hbuf, hbuf, decide_true]
  | cons data rest ih =>
    intro buf hbuf
    by_cases hall : data.length ≤ P.chunksize - buf.length
    · have hcount : curlCallback P buf.length data = data.length := Nat.min_eq_left hall
      simp only [receive, hcount, ne_eq, not_true_eq_false, if_false, take_length]
      rw [ih (by rw [length_append]; omega), append_assoc, length_append,
        Nat.add_assoc, flatten_cons, length_append]
    · have hcount : curlCallback P buf.length data = P.chunksize - buf.length :=
        Nat.min_eq_right (Nat.le_of_not_le hall)
      have hcut : P.chunksize - buf.length ≠ data.length := by omega
      have hlong : ¬ buf.length + (data ++ rest.flatten).length ≤ P.chunksize := by
        rw [length_append]
        omega
      simp only [receive, hcount, flatten_cons, decide_eq_false hlong]
      rw [if_pos hcut, take_append, take_of_length_le hbuf,
        take_append_of_le_length (Nat.le_of_not_le hall)]

/-- `transportGet` is `transport_get` with the callback, however the transfer is cut. -/
theorem transportGet_response (t : Transfer) : transportGet P (t.response P) = t.get P := by
  have hreceive : receive P [] t.pieces = _ := receive_eq t.pieces (Nat.zero_le _)
  rw [nil_append, length_nil, Nat.zero_add] at hreceive
  unfold Transfer.response Transfer.get
  rw [hreceive]
  by_cases hlong : P.chunksize < t.pieces.flatten.length
  · rw [if_pos hlong, decide_eq_false (Nat.not_le.mpr hlong)]
    rfl
  · have hfits := Nat.le_of_not_lt hlong
    rw [if_neg hlong, decide_eq_true hfits, take_of_length_le hfits]
    cases t.ends with
    | ok => simp only [transportGet, if_neg hlong]
    | netfail => rfl
    | error => rfl

theorem receiveWrites_within (pieces : List (List UInt8)) : ∀ {offset : Nat},
    offset ≤ P.chunksize → Within P (receiveWrites P offset pieces) := by
  induction pieces with
  | nil => exact fun _ => Within.nil
  | cons data rest ih =>
    intro offset hle w hmem
    have hcount : offset + curlCallback P offset data ≤ P.chunksize := by
      unfold curlCallback
      omega
    simp only [receiveWrites] at hmem
    rcases mem_cons.mp hmem with rfl | hrest
    · exact hcount
    · split at hrest
      next => cases hrest
      next => exact ih hcount w hrest

/-- The writes of the loop of `transport_fetch_chunk`; every attempt starts at the beginning of
the buffer. -/
def transportWrites (P : Parcel) (transfers : Nat → Transfer) : Nat → Nat → List BufWrite
  | 0, _ => []
  | n + 1, i =>
    receiveWrites P 0 (transfers i).pieces ++
      match transportGet P ((transfers i).response P) with
      | .error .netfail => transportWrites P transfers n (i + 1)
      | _ => []

theorem transportWrites_within (transfers : Nat → Transfer) (n i : Nat) :
    Within P (transportWrites P transfers n i) := by
  induction n generalizing i with
  | zero => exact Within.nil
  | succ n ih =>
    refine Within.append (receiveWrites_within _ (Nat.zero_le _)) ?_
    split
    next => exact ih (i + 1)
    next => exact Within.nil

/-! ## The hoard cache -/

/-- The write of `_hoard_read_chunk`. -/
def hoardReadWrites (P : Parcel) (t : HoardTry) (offset length : Int) : List BufWrite :=
  if offset < 0 ∨ length ≤ 0 ∨ (P.chunksize : Int) < length then []
  else if t.readFails then []
  else [(0, (pread t.file (offset.toNat <<< 9) length.toNat).length)]

theorem hoardReadWrites_within (t : HoardTry) (offset length : Int) :
    Within P (hoardReadWrites P t offset length) := by
  unfold hoardReadWrites
  split
  next => exact Within.nil
  next hchecked =>
    split
    next => exact Within.nil
    intro w hmem
    obtain rfl := mem_singleton.mp hmem
    have hle := pread_length_le t.file (offset.toNat <<< 9) length.toNat
    simp only
    omega

/-- The writes of the loop of `hoard_get_chunk`. -/
def hoardGetWrites (P : Parcel) (tag : List UInt8) : List HoardTry → List BufWrite
  | [] => []
  | t :: ts =>
    if t.fault then []
    else
      match t.slot.or t.chunk with
      | none => []
      | some (offset, length) =>
        hoardReadWrites P t (columnInt offset) (columnInt length) ++
          match hoardReadChunk P t (columnInt offset) (columnInt length) tag with
          | .ok _ => []
          | .error _ => hoardGetWrites P tag ts

theorem hoardGetWrites_within (tag : List UInt8) (ts : List HoardTry) :
    Within P (hoardGetWrites P tag ts) := by
  induction ts with
  | nil => exact Within.nil
  | cons t ts ih =>
    simp only [hoardGetWrites]
    split
    next => exact Within.nil
    split
    next => exact Within.nil
    refine Within.append (hoardReadWrites_within _ _ _) ?_
    split
    next => exact Within.nil
    next => exact ih

/-! ## cache_get -/

/-- The writes of the hoard cache and of the server. -/
def fetchWrites (P : Parcel) (out : Outside) (transfers : Nat → Transfer) (tag : List UInt8) :
    List BufWrite :=
  if !out.hoardDir then transportWrites P transfers 5 0
  else
    hoardGetWrites P tag out.hoard ++
      match hoardGetChunk P tag out.hoard with
      | some (.error _) => transportWrites P transfers 5 0
      | _ => []

theorem fetchWrites_within (out : Outside) (transfers : Nat → Transfer) (tag : List UInt8) :
    Within P (fetchWrites P out transfers tag) := by
  unfold fetchWrites
  split
  next => exact transportWrites_within transfers 5 0
  refine Within.append (hoardGetWrites_within tag out.hoard) ?_
  split
  next => exact transportWrites_within transfers 5 0
  next => exact Within.nil

/-- The write of `_cache_read_chunk`. -/
def cacheReadWrites (P : Parcel) (st : Store) (fails : Bool) (chunk chunklen : Nat) :
    List BufWrite :=
  if fails then [] else [(0, (pread st.file (cacheChunkToOffset P st chunk) chunklen).length)]

/-- Everything `cache_get` writes to the ciphertext buffer. The server is given by the transfers,
whose responses are those that `cacheGet` is to meet. -/
def cacheGetWrites (P : Parcel) (out : Outside) (transfers : Nat → Transfer) (st : Store)
    (chunk : Nat) : List BufWrite :=
  if out.fault = some .keys then []
  else
    match st.keys.lookup (toInt chunk) with
    | none => []
    | some row =>
      if !row.valid P then []
      else if out.fault = some .chunks then []
      else if st.length chunk ≠ 0 then
        cacheReadWrites P st out.readFails chunk (st.length chunk)
      else fetchWrites P out transfers row.tag

/-- `cache_get` gets as far as reading the chunk from the local cache, and can read there. -/
def ReadsLocal (P : Parcel) (out : Outside) (st : Store) (chunk : Nat) : Prop :=
  out.fault = none ∧ (∃ row, st.keys.lookup (toInt chunk) = some row ∧ row.valid P = true) ∧
    st.length chunk ≠ 0 ∧ out.readFails = false

variable {transfers : Nat → Transfer}

theorem cacheGetWrites_local (h : ReadsLocal P out st chunk) :
    cacheGetWrites P out transfers st chunk
      = [(0, min (st.length chunk) (st.file.length - cacheChunkToOffset P st chunk))] := by
  obtain ⟨hfault, ⟨row, hrow, hvalid⟩, hlen, hreads⟩ := h
  simp only [cacheGetWrites, cacheReadWrites, hfault, hrow, hvalid, hlen, hreads, pread_length,
    reduceCtorEq, Bool.not_true, Bool.false_eq_true, if_false, if_true, ne_eq, not_false_eq_true]

/-- The two other ways to the ciphertext never leave the buffer. -/
theorem within_of_not_local (h : ¬ ReadsLocal P out st chunk) :
    Within P (cacheGetWrites P out transfers st chunk) := by
  unfold cacheGetWrites
  split
  next => exact Within.nil
  next hkeys =>
    split
    next => exact Within.nil
    next row hrow =>
      split
      next => exact Within.nil
      next hvalid =>
        split
        next => exact Within.nil
        next hchunks =>
          split
          next hlen =>
            unfold cacheReadWrites
            split
            next => exact Within.nil
            next hreads =>
              have hfault : out.fault = none := by
                cases hf : out.fault with
                | none => rfl
                | some f => cases f with
                  | keys => exact absurd hf hkeys
                  | chunks => exact absurd hf hchunks
              refine absurd ⟨hfault, ⟨row, hrow, ?_⟩, hlen, ?_⟩ h
              · simpa using hvalid
              · simpa using hreads
          next => exact fetchWrites_within out transfers row.tag

/-- `cache_get` stays within its buffer, unless it reads the chunk from the local cache and the
index and the file have more than a chunk for it. -/
theorem within_iff (P : Parcel) (out : Outside) (transfers : Nat → Transfer) (st : Store)
    (chunk : Nat) :
    Within P (cacheGetWrites P out transfers st chunk) ↔
      (ReadsLocal P out st chunk →
        min (st.length chunk) (st.file.length - cacheChunkToOffset P st chunk)
          ≤ P.chunksize) := by
  by_cases hlocal : ReadsLocal P out st chunk
  · rw [cacheGetWrites_local hlocal]
    constructor
    · intro hwithin _
      have := hwithin _ (mem_singleton.mpr rfl)
      simpa only [Nat.zero_add] using this
    · intro hle w hmem
      obtain rfl := mem_singleton.mp hmem
      simpa only [Nat.zero_add] using hle hlocal
  · exact ⟨fun _ h => absurd h hlocal, fun _ => within_of_not_local hlocal⟩

/-- A store whose index has a length of 513 for a chunk of 512 bytes. -/
def longStore : Store := ⟨zeroKeys, AList.insert 0 513 ∅, replicate 1025 0, 512, 0⟩

/-- The server sends the chunk of zeros in two pieces. -/
def zeroTransfer : Transfer := ⟨[zeroChunk.take 200, zeroChunk.drop 200], .ok⟩

/-- One byte is written behind the end of the buffer. -/
theorem long_overruns :
    ¬ Within tinyParcel
      (cacheGetWrites tinyParcel zeroServer (fun _ => zeroTransfer) longStore 0) := by
  intro hwithin
  have hlocal : ReadsLocal tinyParcel zeroServer longStore 0 :=
    ⟨rfl, ⟨zeroRow, lookup_zeroKeys, zeroRow_valid⟩, by decide, rfl⟩
  rw [cacheGetWrites_local hlocal] at hwithin
  have := hwithin _ (mem_singleton.mpr rfl)
  revert this
  decide +kernel

end OpenIsr.Cache
