import OpenIsr.Base.Run
import OpenIsr.Base.Text
import OpenIsr.Cache.Store

/-!
# parcel.cfg (parcelkeeper/parcelcfg.c)

`parse_parcel_cfg` reads the parameters of a parcel from lines `KEY = value`. A line is skipped if
it is empty or starts with `#`, and so is a key that is not known. Every known key has to be there
once, and with a value that `pc_handle_option` takes. Whether a UUID is valid is a parameter.

`parseParcelCfg_read` says what an accepted file has in it and what has become of it. What the
other modules take for granted of a parcel follows (`parseParcelCfg_checked`): the chunk size is a
power of two, not less than 512, and chunks that are not compressed are allowed. Nothing else is
checked of the numbers, and `parseuint` cuts them down to 32 bits.
-/

namespace OpenIsr.Cache

open Base Util List

/-- `parseuint` in base 10. -/
def parseuint (s : List Char) : Except PkErr Nat :=
  let (val, endptr) := strtoul s
  if s = [] ∨ endptr ≠ [] then .error .invalid else .ok (val % 2 ^ 32)

theorem parseuint_eq_ok {s : List Char} {u : Nat} :
    parseuint s = .ok u ↔ ∃ v, numeral s = some v ∧ u = toUlong v % 2 ^ 32 := by
  constructor
  · intro h
    unfold parseuint at h
    split at h
    next val endptr hread =>
      split at h
      next => cases h
      next hok =>
        obtain ⟨hne, hend⟩ := not_or.mp hok
        obtain rfl := not_not.mp hend
        obtain ⟨v, hv, rfl⟩ := strtoul_eq.mp ⟨hne, hread⟩
        exact ⟨v, hv, (Except.ok.inj h).symm⟩
  · intro ⟨v, hv, hu⟩
    obtain ⟨hne, hread⟩ := strtoul_eq.mpr ⟨v, hv, rfl⟩
    rw [parseuint, hread, hu]
    exact if_neg fun h => h.elim hne fun h => h rfl

theorem parseuint_lt {s : List Char} {u : Nat} (h : parseuint s = .ok u) : u < 2 ^ 32 := by
  obtain ⟨v, -, rfl⟩ := parseuint_eq_ok.mp h
  exact Nat.mod_lt _ (by decide)

/-! ## Options -/

/-- `enum pc_ident`. -/
inductive PcIdent
  | version
  | chunksize
  | numchunks
  | chunksperdir
  | crypto
  | compress
  | uuid
  | server
  | user
  | parcel
  | rpath
  | duplicate
  | ignore
  deriving DecidableEq, Repr

/-- `pc_options`. -/
def pcOptions : List (List Char × PcIdent) :=
  [("VERSION".toList, .version), ("CHUNKSIZE".toList, .chunksize),
    ("NUMCHUNKS".toList, .numchunks), ("CHUNKSPERDIR".toList, .chunksperdir),
    ("CRYPTO".toList, .crypto), ("COMPRESS".toList, .compress), ("UUID".toList, .uuid),
    ("SERVER".toList, .server), ("USER".toList, .user), ("PARCEL".toList, .parcel),
    ("RPATH".toList, .rpath)]

theorem pcOptions_inj : ∀ o ∈ pcOptions, ∀ o' ∈ pcOptions, o.1 = o'.1 ∨ o.2 = o'.2 → o = o' := by
  decide

/-- `struct pk_parcel`. -/
structure PkParcel where
  crypto : ChunkCrypto := .unknown
  requiredCompress : Nat := 0
  chunks : Nat := 0
  chunksize : Nat := 0
  chunksPerDir : Nat := 0
  hashlen : Nat := 0
  uuid : List Char := []
  server : List Char := []
  user : List Char := []
  parcel : List Char := []
  master : List Char := []
  deriving DecidableEq, Repr

/-- `struct pc_parse_ctx`. -/
structure PcParseCtx where
  pdata : PkParcel := {}
  rpath : List Char := []
  seen : List PcIdent := []
  deriving DecidableEq, Repr

/-- `pc_find_option`. -/
def pcFindOption (ctx : PcParseCtx) (key : List Char) : PcIdent × PcParseCtx :=
  match pcOptions.find? fun opt => opt.1 = key with
  | none => (.ignore, ctx)
  | some (_, ident) =>
    if ident ∈ ctx.seen then (.duplicate, ctx)
    else (ident, { ctx with seen := ident :: ctx.seen })

/-- `pc_have_options`. -/
def pcHaveOptions (ctx : PcParseCtx) : Bool := pcOptions.all fun opt => opt.2 ∈ ctx.seen

/-- `iu_chunk_crypto_parse`. -/
def iuChunkCryptoParse (desc : List Char) : ChunkCrypto :=
  if desc = "aes-sha1".toList then .aesSha1 else .unknown

/-- `iu_chunk_compress_parse`. -/
def iuChunkCompressParse (desc : List Char) : ChunkCompress :=
  if desc = "none".toList then .none
  else if desc = "zlib".toList then .zlib
  else if desc = "lzf".toList then .lzf
  else .unknown

/-- One element of the value of `COMPRESS`. -/
def addCompress (map : Nat) (desc : List Char) : Except PkErr Nat :=
  match iuChunkCompressParse desc with
  | .unknown => .error .invalid
  | compress => .ok (map ||| 1 <<< compressCode compress)

/-- The value of `COMPRESS`; without an element it stands for no compression. -/
def parseCompress (value : List Char) : Except PkErr Nat :=
  (gStrsplit ',' value).foldlM addCompress (1 <<< compressCode .none)

section parse

-- `canonicalize_uuid`, which is `uuid_parse` and `uuid_unparse_lower`
variable (canonicalizeUuid : List Char → Option (List Char)) {map : Nat}

/-- `pc_handle_option`. -/
def pcHandleOption (ctx : PcParseCtx) (ident : PcIdent) (value : List Char) :
    Except PkErr PcParseCtx :=
  match ident with
  | .version =>
    match parseuint value with
    | .error e => .error e
    | .ok u => if u < 3 ∨ 4 < u then .error .invalid else .ok ctx
  | .chunksize =>
    match parseuint value with
    | .error e => .error e
    | .ok u =>
      if u < 512 ∨ u &&& (u - 1) ≠ 0 then .error .invalid
      else .ok { ctx with pdata.chunksize := u }
  | .numchunks =>
    match parseuint value with
    | .error e => .error e
    | .ok u => .ok { ctx with pdata.chunks := u }
  | .chunksperdir =>
    match parseuint value with
    | .error e => .error e
    | .ok u => .ok { ctx with pdata.chunksPerDir := u }
  | .crypto =>
    match iuChunkCryptoParse value with
    | .unknown => .error .invalid
    | .aesSha1 => .ok { ctx with pdata.crypto := .aesSha1, pdata.hashlen := hashlen }
  | .compress =>
    match parseCompress value with
    | .error e => .error e
    | .ok map => .ok { ctx with pdata.requiredCompress := map }
  | .uuid =>
    match canonicalizeUuid value with
    | none => .error .invalid
    | some uuid => .ok { ctx with pdata.uuid := uuid }
  | .server => .ok { ctx with pdata.server := value }
  | .user => .ok { ctx with pdata.user := value }
  | .parcel => .ok { ctx with pdata.parcel := value }
  | .rpath => .ok { ctx with rpath := value }
  | .duplicate => .error .invalid
  | .ignore => .ok ctx

/-- The loop body of `parse_parcel_cfg`. -/
def parseLine (ctx : PcParseCtx) (line : List Char) : Except PkErr PcParseCtx :=
  let line := gStrstrip line
  if line.head? = some '#' ∨ line = [] then .ok ctx
  else
    match gStrsplitPair '=' line with
    | none => .error .ioerr
    | some (key, value) =>
      let (ident, ctx) := pcFindOption ctx (gStrstrip key)
      pcHandleOption canonicalizeUuid ctx ident (gStrstrip value)

/-- `parse_parcel_cfg`, for what `read_file` has got. -/
def parseParcelCfg (file : Except PkErr (List Char)) : Except PkErr PkParcel :=
  match file with
  | .error e => .error e
  | .ok text =>
    match (gStrsplit '\n' (cString text)).foldlM (parseLine canonicalizeUuid) {} with
    | .error _ => .error .ioerr
    | .ok ctx =>
      if pcHaveOptions ctx then
        let master := ctx.rpath ++ '/' :: ctx.pdata.user ++ '/' :: ctx.pdata.parcel ++
          "/last/hdk".toList
        .ok { ctx.pdata with master := master }
      else .error .ioerr

/-! ## What is in a file -/

/-- The key and the value that a line has, if it is not skipped. -/
def cfgEntry (line : List Char) : Option (List Char × List Char) :=
  let line := gStrstrip line
  if line.head? = some '#' ∨ line = [] then none
  else (gStrsplitPair '=' line).map fun parts => (gStrstrip parts.1, gStrstrip parts.2)

/-- The keys of a file with their values. -/
def cfgEntries (text : List Char) : List (List Char × List Char) :=
  (gStrsplit '\n' (cString text)).filterMap cfgEntry

/-- The integer that a file has for a key. -/
def cfgNumeral (text key : List Char) : Option Int := (cfgEntries text).lookup key >>= numeral

/-- What the parcel has from the value of an option, and what is known of the value. -/
def Handled (ctx : PcParseCtx) (value : List Char) : PcIdent → Prop
  | .version => ∃ u, parseuint value = .ok u ∧ 3 ≤ u ∧ u ≤ 4
  | .chunksize => parseuint value = .ok ctx.pdata.chunksize ∧ 512 ≤ ctx.pdata.chunksize ∧
      ctx.pdata.chunksize &&& (ctx.pdata.chunksize - 1) = 0
  | .numchunks => parseuint value = .ok ctx.pdata.chunks
  | .chunksperdir => parseuint value = .ok ctx.pdata.chunksPerDir
  | .crypto => value = "aes-sha1".toList ∧ ctx.pdata.crypto = .aesSha1 ∧
      ctx.pdata.hashlen = Cache.hashlen
  | .compress => parseCompress value = .ok ctx.pdata.requiredCompress
  | .uuid => canonicalizeUuid value = some ctx.pdata.uuid
  | .server => ctx.pdata.server = value
  | .user => ctx.pdata.user = value
  | .parcel => ctx.pdata.parcel = value
  | .rpath => ctx.rpath = value
  | .duplicate => False
  | .ignore => True

variable {canonicalizeUuid} {ctx ctx' : PcParseCtx} {ident : PcIdent} {value desc : List Char}

theorem iuChunkCryptoParse_eq (h : iuChunkCryptoParse desc = .aesSha1) :
    desc = "aes-sha1".toList := by
  unfold iuChunkCryptoParse at h
  split at h
  next heq => exact heq
  next => cases h

/-- `pc_handle_option` makes of an option what it should, nothing of the others, and does not touch
`seen`. -/
theorem pcHandleOption_ok (h : pcHandleOption canonicalizeUuid ctx ident value = .ok ctx') :
    Handled canonicalizeUuid ctx' value ident ∧ ctx'.seen = ctx.seen ∧
      ∀ other v, other ≠ ident → Handled canonicalizeUuid ctx v other →
        Handled canonicalizeUuid ctx' v other := by
  cases ident
  case version =>
    simp only [pcHandleOption] at h
    split at h
    next => cases h
    next u hu =>
      split at h
      next => cases h
      next hrange =>
        cases h
        exact ⟨⟨u, hu, by omega, by omega⟩, rfl, fun _ _ _ hv => hv⟩
  case chunksize =>
    simp only [pcHandleOption] at h
    split at h
    next => cases h
    next u hu =>
      split at h
      next => cases h
      next hsize =>
        obtain ⟨hge, hpow⟩ := not_or.mp hsize
        cases h
        refine ⟨⟨hu, Nat.le_of_not_lt hge, not_not.mp hpow⟩, rfl, fun other v hne hv => ?_⟩
        cases other <;> first | exact hv | exact absurd rfl hne
  case numchunks | chunksperdir | compress =>
    simp only [pcHandleOption] at h
    split at h
    next => cases h
    next u hu =>
      cases h
      refine ⟨hu, rfl, fun other v hne hv => ?_⟩
      cases other <;> first | exact hv | exact absurd rfl hne
  case crypto =>
    simp only [pcHandleOption] at h
    split at h
    next => cases h
    next hparse =>
      cases h
      refine ⟨⟨iuChunkCryptoParse_eq hparse, rfl, rfl⟩, rfl, fun other v hne hv => ?_⟩
      cases other <;> first | exact hv | exact absurd rfl hne
  case uuid =>
    simp only [pcHandleOption] at h
    split at h
    next => cases h
    next u hu =>
      cases h
      refine ⟨hu, rfl, fun other v hne hv => ?_⟩
      cases other <;> first | exact hv | exact absurd rfl hne
  case server | user | parcel | rpath =>
    cases h
    refine ⟨rfl, rfl, fun other v hne hv => ?_⟩
    cases other <;> first | exact hv | exact absurd rfl hne
  case duplicate => cases h
  case ignore =>
    cases h
    exact ⟨trivial, rfl, fun _ _ _ hv => hv⟩

/-- What has become of the entries that have been read: a known key is `seen` if it is among them,
it is among them at most once, and its value has been handled. -/
structure Read (canonicalizeUuid : List Char → Option (List Char))
    (entries : List (List Char × List Char)) (ctx : PcParseCtx) : Prop where
  seen : ∀ o ∈ pcOptions, (o.2 ∈ ctx.seen ↔ o.1 ∈ entries.map Prod.fst)
  once : ∀ o ∈ pcOptions, (entries.map Prod.fst).count o.1 ≤ 1
  handled : ∀ o ∈ pcOptions, ∀ value, (o.1, value) ∈ entries →
    Handled canonicalizeUuid ctx value o.2

variable {entries : List (List Char × List Char)} {key text : List Char} {p : PkParcel}

section

variable (h : Read canonicalizeUuid entries ctx)
include h

theorem Read.ignore (hkey : ∀ o ∈ pcOptions, o.1 ≠ key) (value : List Char) :
    Read canonicalizeUuid (entries ++ [(key, value)]) ctx := by
  refine ⟨fun o ho => ?_, fun o ho => ?_, fun o ho v hv => ?_⟩
  · rw [h.seen o ho, map_append, mem_append]
    exact (or_iff_left fun hmem => hkey o ho (mem_singleton.mp hmem)).symm
  · rw [map_append, count_append, map_singleton,
      count_eq_zero.mpr fun hmem => hkey o ho (mem_singleton.mp hmem)]
    exact h.once o ho
  · rcases mem_append.mp hv with hold | hnew
    · exact h.handled o ho v hold
    · exact absurd (congrArg Prod.fst (mem_singleton.mp hnew)) (hkey o ho)

theorem Read.handle {o : List Char × PcIdent} (ho : o ∈ pcOptions) (hnew : o.2 ∉ ctx.seen)
    (hok : pcHandleOption canonicalizeUuid { ctx with seen := o.2 :: ctx.seen } o.2 value
      = .ok ctx') : Read canonicalizeUuid (entries ++ [(o.1, value)]) ctx' := by
  obtain ⟨hhandled, hseen, hothers⟩ := pcHandleOption_ok hok
  have hfresh : o.1 ∉ entries.map Prod.fst := fun hmem => hnew ((h.seen o ho).mpr hmem)
  refine ⟨fun o' ho' => ?_, fun o' ho' => ?_, fun o' ho' v hv => ?_⟩
  · have hsame : o'.2 = o.2 ↔ o'.1 = o.1 :=
      ⟨fun heq => congrArg Prod.fst (pcOptions_inj o' ho' o ho (.inr heq)),
        fun heq => congrArg Prod.snd (pcOptions_inj o' ho' o ho (.inl heq))⟩
    rw [hseen, mem_cons, hsame, h.seen o' ho', map_append, mem_append, or_comm]
    exact or_congr_right mem_singleton.symm
  · rw [map_append, count_append, map_singleton]
    by_cases heq : o'.1 = o.1
    · rw [heq, count_eq_zero.mpr hfresh, Nat.zero_add]
      exact count_le_length
    · rw [count_eq_zero.mpr fun hmem => heq (mem_singleton.mp hmem)]
      exact h.once o' ho'
  · rcases mem_append.mp hv with hold | hlast
    · have hne : o'.2 ≠ o.2 := by
        intro heq
        obtain rfl := pcOptions_inj o' ho' o ho (.inr heq)
        exact hfresh (mem_map_of_mem hold)
      exact hothers _ v hne (h.handled o' ho' v hold)
    · obtain ⟨hkey, rfl⟩ := Prod.mk.inj (mem_singleton.mp hlast)
      obtain rfl := pcOptions_inj o' ho' o ho (.inl hkey)
      exact hhandled

theorem Read.option
    (hok : pcHandleOption canonicalizeUuid (pcFindOption ctx key).2 (pcFindOption ctx key).1 value
      = .ok ctx') : Read canonicalizeUuid (entries ++ [(key, value)]) ctx' := by
  unfold pcFindOption at hok
  split at hok
  next hfind =>
    cases hok
    refine h.ignore (fun o ho heq => ?_) value
    exact find?_eq_none.mp hfind o ho (decide_eq_true heq)
  next name ident hfind =>
    have ho := mem_of_find?_eq_some hfind
    have hkey := find?_some hfind
    obtain rfl : name = key := of_decide_eq_true hkey
    split at hok
    next => cases hok
    next hnew => exact h.handle ho hnew hok

end

theorem parseLine_ok {line : List Char} (h : parseLine canonicalizeUuid ctx line = .ok ctx') :
    cfgEntry line = none ∧ ctx' = ctx ∨
      ∃ key value, cfgEntry line = some (key, value) ∧
        pcHandleOption canonicalizeUuid (pcFindOption ctx key).2 (pcFindOption ctx key).1 value
          = .ok ctx' := by
  unfold parseLine at h
  unfold cfgEntry
  dsimp only at h ⊢
  split at h
  next hskip => exact .inl ⟨if_pos hskip, (Except.ok.inj h).symm⟩
  next hskip =>
    rw [if_neg hskip]
    split at h
    next => cases h
    next key value hparts =>
      rw [hparts]
      exact .inr ⟨gStrstrip key, gStrstrip value, rfl, h⟩

theorem Read.line {lines : List (List Char)} {line : List Char}
    (h : Read canonicalizeUuid (lines.filterMap cfgEntry) ctx)
    (hok : parseLine canonicalizeUuid ctx line = .ok ctx') :
    Read canonicalizeUuid ((lines ++ [line]).filterMap cfgEntry) ctx' := by
  rw [filterMap_append]
  rcases parseLine_ok hok with ⟨hentry, rfl⟩ | ⟨key, value, hentry, hhandle⟩
  · rw [filterMap_cons_none hentry, filterMap_nil, append_nil]
    exact h
  · rw [filterMap_cons_some hentry, filterMap_nil]
    exact h.option hhandle

/-- What an accepted file has in it: every known key once, with a value that has been handled. -/
theorem parseParcelCfg_read {text : List Char} {p : PkParcel}
    (h : parseParcelCfg canonicalizeUuid (.ok text) = .ok p) :
    ∃ ctx : PcParseCtx, Read canonicalizeUuid (cfgEntries text) ctx ∧
      (∀ o ∈ pcOptions, o.1 ∈ (cfgEntries text).map Prod.fst) ∧
      p = { ctx.pdata with master := ctx.rpath ++ '/' :: ctx.pdata.user ++
              '/' :: ctx.pdata.parcel ++ "/last/hdk".toList } := by
  unfold parseParcelCfg at h
  dsimp only at h
  split at h
  next => cases h
  next ctx hlines =>
    split at h
    next hhave =>
      have hread : Read canonicalizeUuid (cfgEntries text) ctx :=
        foldlM_inv (I := fun lines ctx => Read canonicalizeUuid (lines.filterMap cfgEntry) ctx)
          ⟨fun o _ => by simp, fun o _ => by simp, fun o _ v hv => by cases hv⟩
          (fun lines ctx line ctx' hread hok => hread.line hok) hlines
      refine ⟨ctx, hread, fun o ho => ?_, (Except.ok.inj h).symm⟩
      exact (hread.seen o ho).mp (of_decide_eq_true (all_eq_true.mp hhave o ho))
    next => cases h

theorem parseParcelCfg_value (h : parseParcelCfg canonicalizeUuid (.ok text) = .ok p) :
    ∃ ctx : PcParseCtx, (∃ master, p = { ctx.pdata with master := master }) ∧
      ∀ o ∈ pcOptions, ∃ value, (cfgEntries text).lookup o.1 = some value ∧
        Handled canonicalizeUuid ctx value o.2 := by
  obtain ⟨ctx, hread, hall, hp⟩ := parseParcelCfg_read h
  refine ⟨ctx, ⟨_, hp⟩, fun o ho => ?_⟩
  cases hlookup : (cfgEntries text).lookup o.1 with
  | none =>
    obtain ⟨e, he, hkey⟩ := mem_map.mp (hall o ho)
    have hne := lookup_eq_none_iff.mp hlookup e he
    rw [hkey, bne_self_eq_false] at hne
    cases hne
  | some value =>
    obtain ⟨before, after, hsplit, -⟩ := lookup_eq_some_iff.mp hlookup
    exact ⟨value, rfl, hread.handled o ho value (hsplit ▸ mem_append_cons_self)⟩

/-! ## What is known of an accepted parcel -/

/-- What the rest of the program can rely on. -/
structure PkParcel.Checked (p : PkParcel) : Prop where
  chunksize_eq : p.chunksize = 2 ^ p.chunksize.log2
  chunksize_ge : 512 ≤ p.chunksize
  chunksize_lt : p.chunksize < 2 ^ 32
  chunks_lt : p.chunks < 2 ^ 32
  chunksPerDir_lt : p.chunksPerDir < 2 ^ 32
  none_enabled : iuChunkCompressIsEnabled p.requiredCompress (compressCode .none) = true

/-- The parcel as the rest of the model has it. -/
def PkParcel.toParcel (p : PkParcel) (h : p.Checked) : Parcel where
  chunksize := p.chunksize
  chunks := p.chunks
  log := p.chunksize.log2
  chunksize_eq := h.chunksize_eq
  chunksize_ge := h.chunksize_ge
  chunksize_lt := h.chunksize_lt
  chunks_lt := h.chunks_lt
  requiredCompress := p.requiredCompress
  chunksPerDir := p.chunksPerDir
  chunksPerDir_lt := h.chunksPerDir_lt
  none_enabled := h.none_enabled

theorem addCompress_testBit {map' : Nat} (h : addCompress map desc = .ok map') {i : Nat}
    (hi : map.testBit i = true) : map'.testBit i = true := by
  unfold addCompress at h
  split at h
  next => cases h
  cases h
  rw [Nat.testBit_or, hi, Bool.true_or]

theorem parseCompress_none (h : parseCompress value = .ok map) :
    iuChunkCompressIsEnabled map (compressCode .none) = true :=
  foldlM_inv (I := fun _ map => map.testBit (compressCode .none) = true) (by decide)
    (fun _ _ _ _ hmap hadd => addCompress_testBit hadd hmap) h

theorem eq_two_pow_log2 {n : Nat} (hn : n ≠ 0) (h : n &&& (n - 1) = 0) : n = 2 ^ n.log2 := by
  obtain ⟨k, rfl⟩ := (Nat.and_sub_one_eq_zero_iff_isPowerOfTwo hn).mp h
  rw [Nat.log2_two_pow]

theorem parseParcelCfg_checked (h : parseParcelCfg canonicalizeUuid (.ok text) = .ok p) :
    p.Checked := by
  obtain ⟨ctx, ⟨master, rfl⟩, hvalue⟩ := parseParcelCfg_value h
  obtain ⟨size, -, hsize, hge, hpow⟩ := hvalue ("CHUNKSIZE".toList, .chunksize) (by decide)
  obtain ⟨chunks, -, hchunks⟩ := hvalue ("NUMCHUNKS".toList, .numchunks) (by decide)
  obtain ⟨perDir, -, hperDir⟩ := hvalue ("CHUNKSPERDIR".toList, .chunksperdir) (by decide)
  obtain ⟨types, -, hcompress⟩ := hvalue ("COMPRESS".toList, .compress) (by decide)
  have hne : ctx.pdata.chunksize ≠ 0 := by omega
  exact ⟨eq_two_pow_log2 hne hpow, hge, parseuint_lt hsize, parseuint_lt hchunks,
    parseuint_lt hperDir, parseCompress_none hcompress⟩

/-- What is stored of the numbers is what `strtoul` and 32 bits leave of them. -/
theorem parseParcelCfg_numeral (h : parseParcelCfg canonicalizeUuid (.ok text) = .ok p) :
    (∃ v, cfgNumeral text "CHUNKSIZE".toList = some v ∧ p.chunksize = toUlong v % 2 ^ 32) ∧
    (∃ v, cfgNumeral text "NUMCHUNKS".toList = some v ∧ p.chunks = toUlong v % 2 ^ 32) ∧
    ∃ v, cfgNumeral text "CHUNKSPERDIR".toList = some v ∧ p.chunksPerDir = toUlong v % 2 ^ 32 := by
  obtain ⟨ctx, ⟨master, rfl⟩, hvalue⟩ := parseParcelCfg_value h
  have hnumeral : ∀ {key value : List Char} {u : Nat},
      (cfgEntries text).lookup key = some value → parseuint value = .ok u →
        ∃ v, cfgNumeral text key = some v ∧ u = toUlong v % 2 ^ 32 := by
    intro key value u hlookup hparse
    rw [cfgNumeral, hlookup]
    exact parseuint_eq_ok.mp hparse
  obtain ⟨size, hlookup₁, hsize, -⟩ := hvalue ("CHUNKSIZE".toList, .chunksize) (by decide)
  obtain ⟨chunks, hlookup₂, hchunks⟩ := hvalue ("NUMCHUNKS".toList, .numchunks) (by decide)
  obtain ⟨perDir, hlookup₃, hperDir⟩ := hvalue ("CHUNKSPERDIR".toList, .chunksperdir) (by decide)
  exact ⟨hnumeral hlookup₁ hsize, hnumeral hlookup₂ hchunks, hnumeral hlookup₃ hperDir⟩

end parse

end OpenIsr.Cache
