import OpenIsr.Cache.ParcelCfg

/-!
# The command line of the Parcelkeeper

`parse_cmdline` reads a mode and then one option after the other with `pk_getopt`, which takes one
or two strings of `argv` at a time and keeps its place in its context. What `usage` prints is left
out.

Every access to `argv` goes through the index that the source uses. `argv` ends with a NULL, and
the source looks into each string that it takes, so that a read at `argc` is the end of the
program (`Stop.overrun`).
-/

namespace OpenIsr.Cmdline

open Base Util Cache List

/-! ## Tables -/

/-- `enum arg_type`. -/
inductive ArgType
  | required
  | optional
  | any
  deriving DecidableEq, Repr

/-- `enum option`. -/
inductive Opt
  | parcel
  | hoard
  | uuid
  | destdir
  | compression
  | log
  | maskFile
  | maskStderr
  | foreground
  | check
  | full
  | splice
  | compact
  | allowRoot
  | singleThread
  | mode
  | chunkCache
  deriving DecidableEq, Repr

/-- `enum mode`. -/
inductive Mode
  | run
  | upload
  | hoard
  | examine
  | validate
  | listhoard
  | checkhoard
  | rmhoard
  | gchoard
  | refresh
  | help
  | version
  deriving DecidableEq, Repr

/-- `struct pk_option`: `arg` names the parameter, if the option takes one. -/
structure PkOption where
  name : List Char
  opt : Opt
  arg : Option (List Char)
  deriving DecidableEq, Repr

/-- `struct pk_option_record`. -/
structure PkOptionRecord where
  opt : Opt
  type : ArgType
  deriving DecidableEq, Repr

/-- `struct pk_mode`. -/
structure PkMode where
  name : List Char
  type : Mode
  flags : UInt32
  opts : List PkOptionRecord
  deriving DecidableEq, Repr

/-- `pk_options`. -/
def pkOptions : List PkOption :=
  [⟨"parcel".toList, .parcel, some "parcel_dir".toList⟩,
    ⟨"hoard".toList, .hoard, some "hoard_dir".toList⟩,
    ⟨"uuid".toList, .uuid, some "uuid".toList⟩,
    ⟨"destdir".toList, .destdir, some "dir".toList⟩,
    ⟨"chunk-cache".toList, .chunkCache, some "MB".toList⟩,
    ⟨"compression".toList, .compression, some "algorithm".toList⟩,
    ⟨"log".toList, .log, some "file".toList⟩,
    ⟨"log-filter".toList, .maskFile, some "comma_separated_list".toList⟩,
    ⟨"stderr-filter".toList, .maskStderr, some "comma_separated_list".toList⟩,
    ⟨"foreground".toList, .foreground, none⟩,
    ⟨"check".toList, .check, none⟩,
    ⟨"full".toList, .full, none⟩,
    ⟨"splice".toList, .splice, none⟩,
    ⟨"compact".toList, .compact, none⟩,
    ⟨"allow-root".toList, .allowRoot, none⟩,
    ⟨"single-thread".toList, .singleThread, none⟩,
    ⟨"mode".toList, .mode, some "mode".toList⟩]

def wantLock : UInt32 := 0x0001
def wantCache : UInt32 := 0x0002
def wantPrev : UInt32 := 0x0004
def wantBackground : UInt32 := 0x0008
def wantTransport : UInt32 := 0x0010
def wantCheck : UInt32 := 0x0020
def wantShm : UInt32 := 0x0040
def wantFullCheck : UInt32 := 0x0080
def wantSplice : UInt32 := 0x0100
def wantCompact : UInt32 := 0x0200
def wantGc : UInt32 := 0x0400
def wantAllowRoot : UInt32 := 0x0800
def wantSingleThread : UInt32 := 0x1000

/-- The options of every mode but `help` and `version`. -/
def logOpts : List PkOptionRecord :=
  [⟨.log, .optional⟩, ⟨.maskFile, .optional⟩, ⟨.maskStderr, .optional⟩]

/-- `pk_modes`, with the options of each mode. -/
def pkModes : List PkMode :=
  [⟨"run".toList, .run,
      wantLock ||| wantCache ||| wantPrev ||| wantBackground ||| wantTransport ||| wantShm,
      [⟨.parcel, .required⟩, ⟨.hoard, .optional⟩, ⟨.chunkCache, .optional⟩,
        ⟨.compression, .optional⟩] ++ logOpts ++
        [⟨.allowRoot, .optional⟩, ⟨.singleThread, .optional⟩, ⟨.foreground, .optional⟩]⟩,
    ⟨"upload".toList, .upload, wantLock ||| wantCache ||| wantPrev,
      [⟨.parcel, .required⟩, ⟨.destdir, .required⟩, ⟨.hoard, .optional⟩] ++ logOpts⟩,
    ⟨"hoard".toList, .hoard, wantPrev ||| wantTransport,
      [⟨.parcel, .required⟩, ⟨.hoard, .required⟩, ⟨.check, .optional⟩] ++ logOpts⟩,
    ⟨"examine".toList, .examine, wantCache ||| wantPrev,
      [⟨.parcel, .required⟩, ⟨.hoard, .optional⟩] ++ logOpts⟩,
    ⟨"validate".toList, .validate, wantLock ||| wantCache ||| wantPrev,
      [⟨.parcel, .required⟩, ⟨.full, .optional⟩, ⟨.splice, .optional⟩, ⟨.check, .optional⟩] ++
        logOpts⟩,
    ⟨"listhoard".toList, .listhoard, 0, ⟨.hoard, .required⟩ :: logOpts⟩,
    ⟨"checkhoard".toList, .checkhoard, 0,
      [⟨.hoard, .required⟩, ⟨.full, .optional⟩, ⟨.compact, .optional⟩] ++ logOpts⟩,
    ⟨"rmhoard".toList, .rmhoard, 0, [⟨.hoard, .required⟩, ⟨.uuid, .required⟩] ++ logOpts⟩,
    ⟨"gchoard".toList, .gchoard, 0, ⟨.hoard, .required⟩ :: logOpts⟩,
    ⟨"refresh".toList, .refresh, wantPrev ||| wantGc,
      [⟨.parcel, .required⟩, ⟨.hoard, .required⟩] ++ logOpts⟩,
    ⟨"help".toList, .help, 0, [⟨.mode, .optional⟩]⟩,
    ⟨"version".toList, .version, 0, []⟩]

/-- Every option is in the table, so that `get_option` has no unknown option to report. -/
theorem pkOptions_find (opt : Opt) : (pkOptions.find? fun o => o.opt = opt).isSome := by
  cases opt <;> rfl

/-- `get_option`. -/
def getOption (opt : Opt) : PkOption :=
  (pkOptions.find? fun o => o.opt = opt).get (pkOptions_find opt)

theorem getOption_inj {opt opt' : Opt} (h : (getOption opt).name = (getOption opt').name) :
    opt = opt' := by
  revert h
  cases opt <;> cases opt' <;> decide

/-- `parse_mode`. -/
def parseMode (name : List Char) : Option PkMode := pkModes.find? fun m => name = m.name

theorem pkModes_inj : ∀ m ∈ pkModes, ∀ m' ∈ pkModes, m.name = m'.name → m = m' := by
  decide

theorem parseMode_eq_some {name : List Char} {m : PkMode} :
    parseMode name = some m ↔ m ∈ pkModes ∧ name = m.name := by
  constructor
  · intro h
    exact ⟨mem_of_find?_eq_some h, by simpa using find?_some h⟩
  · intro ⟨hm, hname⟩
    cases hfind : parseMode name with
    | none =>
      have hno := find?_eq_none.mp hfind m hm
      exact absurd (decide_eq_true hname) hno
    | some m' =>
      have hname' : name = m'.name := by simpa using find?_some hfind
      rw [pkModes_inj m' (mem_of_find?_eq_some hfind) m hm (hname'.symm.trans hname)]

/-! ## Configuration -/

/-- `enum pk_log_type`. -/
inductive LogType
  | info
  | chunk
  | fuse
  | transport
  | query
  | slowQuery
  | warning
  | stats
  deriving DecidableEq, Repr

/-- The bit of a log type in a mask. -/
def LogType.bit : LogType → UInt32
  | .info => 0x01
  | .chunk => 0x02
  | .fuse => 0x04
  | .transport => 0x08
  | .query => 0x10
  | .slowQuery => 0x20
  | .warning => 0x40
  | .stats => 0x80

/-- `struct pk_config`, with `default_config`. -/
structure PkConfig where
  modename : List Char := []
  flags : UInt32 := 0
  parcelDir : Option (List Char) := none
  parcelCfg : Option (List Char) := none
  keyring : Option (List Char) := none
  prevKeyring : Option (List Char) := none
  cacheFile : Option (List Char) := none
  cacheIndex : Option (List Char) := none
  vfspath : Option (List Char) := none
  lockfile : Option (List Char) := none
  pidfile : Option (List Char) := none
  hoardDir : Option (List Char) := none
  hoardFile : Option (List Char) := none
  hoardIndex : Option (List Char) := none
  destDir : Option (List Char) := none
  logFile : Option (List Char) := none
  logFileMask : UInt32 := LogType.info.bit ||| LogType.warning.bit ||| LogType.stats.bit
  logStderrMask : UInt32 := LogType.warning.bit
  compress : ChunkCompress := .none
  uuid : Option (List Char) := none
  chunkCache : Nat := 32
  deriving DecidableEq, Repr

/-- `parse_logtype`. -/
def parseLogtype (name : List Char) : Option LogType :=
  if name = "info".toList then some .info
  else if name = "chunk".toList then some .chunk
  else if name = "fuse".toList then some .fuse
  else if name = "transport".toList then some .transport
  else if name = "query".toList then some .query
  else if name = "slow".toList then some .slowQuery
  else if name = "error".toList then some .warning
  else if name = "stats".toList then some .stats
  else none

/-- `logtypes_to_mask`. -/
def logtypesToMask (list : List Char) : Option UInt32 :=
  if list = "none".toList then some 0
  else
    (gStrsplit ',' list).foldlM (fun out name => (parseLogtype name).map (out ||| ·.bit)) 0

/-- What `parse_cmdline` asks of the system. -/
structure Env where
  isDir : List Char → Bool
  isRegular : List Char → Bool
  canonicalizeUuid : List Char → Option (List Char)
  prgname : List Char

/-- What `parse_cmdline` works on besides the context of `pk_getopt`. -/
structure Parsed where
  conf : PkConfig := {}
  helpmode : Option PkMode := none
  deriving DecidableEq, Repr

section values

variable (env : Env)

/-- `check_dir`; an error is the text that it prints. -/
def checkDir (dir : List Char) : Except (List Char) Unit :=
  if env.isDir dir then .ok () else .error (dir ++ " is not a valid directory".toList)

/-- `"%s/%s"`. -/
def joinPath (dir file : List Char) : List Char := dir ++ '/' :: file

/-- `filepath`. -/
def filepath (dir file : List Char) (mustExist : Bool) : Except (List Char) (List Char) :=
  if mustExist && !env.isRegular (joinPath dir file) then
    .error (joinPath dir file ++ " does not exist".toList)
  else .ok (joinPath dir file)

/-- `--parcel`. -/
def setParcel (conf : PkConfig) (dir : List Char) : Except (List Char) PkConfig := do
  checkDir env dir
  let parcelCfg ← filepath env dir "parcel.cfg".toList true
  let keyring ← filepath env dir "keyring".toList (conf.flags &&& wantCache ≠ 0)
  let prevKeyring ← filepath env dir "prev-keyring".toList (conf.flags &&& wantPrev ≠ 0)
  let cacheFile ← filepath env dir "disk".toList false
  let cacheIndex ← filepath env dir "disk.idx".toList false
  let vfspath ← filepath env dir "vfs".toList false
  let lockfile ← filepath env dir "parcelkeeper.lock".toList false
  let pidfile ← filepath env dir "parcelkeeper.pid".toList false
  return { conf with
    parcelDir := dir, parcelCfg := parcelCfg, keyring := keyring, prevKeyring := prevKeyring,
    cacheFile := cacheFile, cacheIndex := cacheIndex, vfspath := vfspath, lockfile := lockfile,
    pidfile := pidfile }

/-- `--hoard`. -/
def setHoard (conf : PkConfig) (dir : List Char) : Except (List Char) PkConfig := do
  let hoardFile ← filepath env dir "hoard".toList false
  let hoardIndex ← filepath env dir "hoard.idx".toList false
  return { conf with hoardDir := dir, hoardFile := hoardFile, hoardIndex := hoardIndex }

/-- The `switch` of `parse_cmdline`; an error is the text for `PARSE_ERROR`. -/
def setOption (p : Parsed) (optparam : List Char) : Opt → Except (List Char) Parsed
  | .parcel => (setParcel env p.conf optparam).map ({ p with conf := · })
  | .uuid =>
    match env.canonicalizeUuid optparam with
    | none => .error ("invalid uuid: ".toList ++ optparam)
    | some uuid => .ok { p with conf.uuid := some uuid }
  | .destdir => .ok { p with conf.destDir := some optparam }
  | .compression =>
    match iuChunkCompressParse optparam with
    | .unknown => .error ("invalid compression type: ".toList ++ optparam)
    | compress => .ok { p with conf.compress := compress }
  | .hoard => (setHoard env p.conf optparam).map ({ p with conf := · })
  | .log => .ok { p with conf.logFile := some optparam }
  | .maskFile =>
    match logtypesToMask optparam with
    | none => .error ("invalid log type list: ".toList ++ optparam)
    | some mask => .ok { p with conf.logFileMask := mask }
  | .maskStderr =>
    match logtypesToMask optparam with
    | none => .error ("invalid log type list: ".toList ++ optparam)
    | some mask => .ok { p with conf.logStderrMask := mask }
  | .foreground => .ok { p with conf.flags := p.conf.flags &&& ~~~wantBackground }
  | .check => .ok { p with conf.flags := p.conf.flags ||| wantCheck }
  | .full => .ok { p with conf.flags := p.conf.flags ||| wantFullCheck }
  | .splice => .ok { p with conf.flags := p.conf.flags ||| wantSplice }
  | .compact => .ok { p with conf.flags := p.conf.flags ||| wantCompact }
  | .allowRoot => .ok { p with conf.flags := p.conf.flags ||| wantAllowRoot }
  | .singleThread => .ok { p with conf.flags := p.conf.flags ||| wantSingleThread }
  | .mode =>
    match parseMode optparam with
    | none =>
      .error ("unknown mode ".toList ++ optparam ++ "; try \"".toList ++ env.prgname ++
        " help\"".toList)
    | some m => .ok { p with helpmode := some m }
  | .chunkCache =>
    match parseuint optparam with
    | .error _ => .error ("invalid integer value: ".toList ++ optparam)
    | .ok size => .ok { p with conf.chunkCache := size }

end values

/-! ## Reading options -/

/-- How `parse_cmdline` ends without a result. -/
inductive Stop
  /-- `usage`, after the text of `PARSE_ERROR` if there is one. -/
  | usage (error : Option (List Char)) (mode : Option Mode)
  /-- A read of `argv` at or after `argc`. -/
  | overrun (i : Nat)
  deriving DecidableEq, Repr

/-- `struct pk_cmdline_parse_ctx`; `optparam` is not used before a parameter has been read. -/
structure ParseCtx where
  curmode : PkMode
  optparam : List Char := []
  optind : Nat
  optseen : Opt → Nat := fun _ => 0

/-- `PARSE_ERROR`. -/
def parseError {α : Type} (ctx : ParseCtx) (error : List Char) : Except Stop α :=
  .error (.usage (some error) (some ctx.curmode.type))

/-- Whether a string starts with `--`. -/
def isOption : List Char → Bool
  | '-' :: '-' :: _ => true
  | _ => false

/-- `optind` of the C library, which `getopt` would move and nothing here calls. -/
def libcOptind : Nat := 1

/-- The record of the current mode that fits, once its name has been found. -/
def takeOption (ctx : ParseCtx) (argv : List (List Char)) (arg : List Char)
    (rec : PkOptionRecord) : Except Stop (Option Opt × ParseCtx) :=
  if rec.type ≠ .any ∧ ctx.optseen rec.opt ≠ 0 then
    parseError ctx ("--".toList ++ arg ++ " may only be specified once".toList)
  else
    let seen := Function.update ctx.optseen rec.opt (ctx.optseen rec.opt + 1)
    if (getOption rec.opt).arg = none then .ok (some rec.opt, { ctx with optseen := seen })
    -- the context has its own `optind`; this one stays where it is
    else if libcOptind = argv.length then
      parseError ctx ("wrong number of arguments to --".toList ++ arg)
    else
      match argv[ctx.optind]? with
      | none => .error (.overrun ctx.optind)
      | some optparam =>
        if isOption optparam then
          parseError ctx ("wrong number of arguments to --".toList ++ arg)
        else
          .ok (some rec.opt,
            { ctx with optseen := seen, optparam := optparam, optind := ctx.optind + 1 })

/-- `pk_getopt`; `none` is `END_OPTS`. -/
def pkGetopt (ctx : ParseCtx) (argv : List (List Char)) : Except Stop (Option Opt × ParseCtx) :=
  if ctx.optind = argv.length then
    match ctx.curmode.opts.find? fun rec => rec.type = .required ∧ ctx.optseen rec.opt = 0 with
    | some rec => parseError ctx ("missing required option --".toList ++ (getOption rec.opt).name)
    | none => .ok (none, ctx)
  else
    match argv[ctx.optind]? with
    | none => .error (.overrun ctx.optind)
    | some arg =>
      if isOption arg = false then
        parseError ctx ("\"".toList ++ arg ++ "\" is not an option element".toList)
      else
        match ctx.curmode.opts.find? fun rec => (getOption rec.opt).name = arg.drop 2 with
        | some rec => takeOption { ctx with optind := ctx.optind + 1 } argv (arg.drop 2) rec
        | none =>
          -- the option may be one of another mode
          if pkOptions.any fun o => o.name = arg.drop 2 then
            parseError ctx ("--".toList ++ arg.drop 2 ++ " not valid in this mode".toList)
          else parseError ctx ("unknown option --".toList ++ arg.drop 2)

theorem takeOption_ok {ctx ctx' : ParseCtx} {argv : List (List Char)} {arg : List Char}
    {rec : PkOptionRecord} {opt : Option Opt} (h : takeOption ctx argv arg rec = .ok (opt, ctx')) :
    ctx.optind ≤ ctx'.optind := by
  unfold takeOption at h
  split at h
  next => cases h
  split at h
  next => cases h; exact le_refl _
  split at h
  next => cases h
  split at h
  next => cases h
  split at h
  next => cases h
  next => cases h; exact Nat.le_succ _

theorem pkGetopt_progress {ctx ctx' : ParseCtx} {argv : List (List Char)} {opt : Opt}
    (h : pkGetopt ctx argv = .ok (some opt, ctx')) :
    argv.length - ctx'.optind < argv.length - ctx.optind := by
  unfold pkGetopt at h
  split at h
  next =>
    split at h
    next => cases h
    next => cases h
  next =>
    split at h
    next => cases h
    next arg harg =>
      obtain ⟨hlt, -⟩ := List.getElem?_eq_some_iff.mp harg
      split at h
      next => cases h
      split at h
      next rec hrec =>
        have hle := takeOption_ok h
        exact Nat.sub_lt_sub_left hlt hle
      next =>
        split at h
        next => cases h
        next => cases h

section parse

variable (env : Env) (argv : List (List Char))

/-- The loop of `parse_cmdline`. -/
def optionLoop (ctx : ParseCtx) (p : Parsed) : Except Stop Parsed :=
  match _h : pkGetopt ctx argv with
  | .error stop => .error stop
  | .ok (none, _) => .ok p
  | .ok (some opt, ctx') =>
    match setOption env p ctx'.optparam opt with
    | .error text => parseError ctx' text
    | .ok p' => optionLoop ctx' p'
termination_by argv.length - ctx.optind
decreasing_by exact pkGetopt_progress _h

/-- What follows the options: the program runs in the mode, or shows a text and ends. -/
inductive Result
  | run (mode : Mode) (conf : PkConfig)
  | help (helpmode : Option PkMode)
  | version
  deriving DecidableEq, Repr

/-- `parse_cmdline`. -/
def parseCmdline : Except Stop Result :=
  match argv with
  | [] => .error (.usage none none)
  | name :: _ =>
    match parseMode name with
    | none => .error (.usage (some ("unknown mode ".toList ++ name)) none)
    | some m =>
      (optionLoop env argv { curmode := m, optind := 1 }
        { conf := { modename := m.name, flags := m.flags } }).map fun p =>
          match m.type with
          | .help => .help p.helpmode
          | .version => .version
          | mode => .run mode p.conf

end parse

end OpenIsr.Cmdline
