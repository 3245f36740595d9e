import OpenIsr.Cmdline.Options

/-!
# Which command lines are accepted

A command line is a mode and a sequence of options (`InGrammar`). `pk_getopt` reads it option by
option, and `optionLoop_judged` says of every state of the loop what the rest of the strings has to
be for the loop to come to its end, given the options that it has read.

The test for the end of the strings before the parameter of an option is one of the wrong
variable. So there is a third kind of command line, next to those that are accepted and those that
are reported: one whose last string is an option that wants a parameter (`Dangling`). Of these the
program reads the NULL after the last string.
-/

namespace OpenIsr.Cmdline

open Base Util Cache List Option

/-! ## The grammar -/

/-- An option of the command line, with its parameter. -/
structure Item where
  opt : Opt
  param : Option (List Char)
  deriving DecidableEq, Repr

/-- The string that stands for an option. -/
def optionText (opt : Opt) : List Char := '-' :: '-' :: (getOption opt).name

/-- The strings of an option and its parameter. -/
def Item.render (i : Item) : List (List Char) := optionText i.opt :: i.param.toList

def render (items : List Item) : List (List Char) := items.flatMap Item.render

/-- The values that the parameter of an option may have. -/
def Acceptable (env : Env) (m : PkMode) (value : List Char) : Opt → Prop
  | .parcel =>
    env.isDir value ∧ env.isRegular (joinPath value "parcel.cfg".toList) ∧
      (m.flags &&& wantCache ≠ 0 → env.isRegular (joinPath value "keyring".toList)) ∧
      (m.flags &&& wantPrev ≠ 0 → env.isRegular (joinPath value "prev-keyring".toList))
  | .uuid => (env.canonicalizeUuid value).isSome
  | .compression => iuChunkCompressParse value ≠ .unknown
  | .maskFile | .maskStderr => (logtypesToMask value).isSome
  | .mode => (parseMode value).isSome
  | .chunkCache => (numeral value).isSome
  | _ => True

/-- An option of the mode, with a parameter if and only if it takes one. -/
structure Item.Valid (env : Env) (m : PkMode) (i : Item) : Prop where
  mode : ∃ rec ∈ m.opts, rec.opt = i.opt
  takes : (getOption i.opt).arg.isSome = i.param.isSome
  value : ∀ v ∈ i.param, isOption v = false ∧ Acceptable env m v i.opt

/-- Options of the mode, of which only those with `ANY` come more than once. -/
structure WellFormed (env : Env) (m : PkMode) (items : List Item) : Prop where
  valid : ∀ i ∈ items, i.Valid env m
  once : ∀ rec ∈ m.opts, rec.type ≠ .any → (items.map Item.opt).count rec.opt ≤ 1

/-- No required option is missing. -/
def Complete (m : PkMode) (items : List Item) : Prop :=
  ∀ rec ∈ m.opts, rec.type = .required → rec.opt ∈ items.map Item.opt

/-- The option may come after these. -/
def Next (m : PkMode) (items : List Item) (opt : Opt) : Prop :=
  ∃ rec ∈ m.opts, rec.opt = opt ∧ (rec.type = .any ∨ opt ∉ items.map Item.opt)

/-- The command lines that are to be accepted. -/
def InGrammar (env : Env) (argv : List (List Char)) : Prop :=
  ∃ m ∈ pkModes, ∃ items, argv = m.name :: render items ∧ WellFormed env m items ∧
    Complete m items

/-- What could be the start of such a command line, if an option at its end, which takes a
parameter, had one. -/
def Dangling (env : Env) (argv : List (List Char)) : Prop :=
  ∃ m ∈ pkModes, ∃ items opt, argv = m.name :: (render items ++ [optionText opt]) ∧
    WellFormed env m items ∧ Next m items opt ∧ (getOption opt).arg ≠ none

/-! ## The values of parameters -/

section values

variable {env : Env} {m : PkMode} {f g bits : UInt32} {dir file : List Char} {mustExist : Bool}
  {p : Parsed}

/-- The flags that the files of a parcel depend on; no option changes them. -/
def SameFiles (f g : UInt32) : Prop :=
  f &&& wantCache = g &&& wantCache ∧ f &&& wantPrev = g &&& wantPrev

theorem or_and_of_and_eq_zero {c : UInt32} (h : bits &&& c = 0) : (f ||| bits) &&& c = f &&& c := by
  have hdistrib : (f ||| bits) &&& c = (f &&& c) ||| (bits &&& c) :=
    UInt32.toBitVec_inj.mp BitVec.and_or_distrib_right
  rw [hdistrib, h, UInt32.or_zero]

theorem SameFiles.set (h : SameFiles f g) (hcache : bits &&& wantCache = 0)
    (hprev : bits &&& wantPrev = 0) : SameFiles (f ||| bits) g := by
  unfold SameFiles
  rw [or_and_of_and_eq_zero hcache, or_and_of_and_eq_zero hprev]
  exact h

theorem SameFiles.clear (h : SameFiles f g) (hcache : bits &&& wantCache = wantCache)
    (hprev : bits &&& wantPrev = wantPrev) : SameFiles (f &&& bits) g := by
  unfold SameFiles
  rw [UInt32.and_assoc, UInt32.and_assoc, hcache, hprev]
  exact h

/-- What an option that is set to a value comes to. -/
def SetTo (env : Env) (m : PkMode) (value : List Char) (opt : Opt) :
    Except (List Char) Parsed → Prop
  | .ok p => Acceptable env m value opt ∧ SameFiles p.conf.flags m.flags
  | .error _ => ¬Acceptable env m value opt

theorem filepath_of_exists (h : mustExist = true → env.isRegular (joinPath dir file) = true) :
    filepath env dir file mustExist = .ok (joinPath dir file) := by
  refine if_neg ?_
  cases mustExist with
  | false => exact nofun
  | true => rw [h rfl]; exact nofun

theorem filepath_of_not_exists
    (h : ¬(mustExist = true → env.isRegular (joinPath dir file) = true)) :
    filepath env dir file mustExist = .error (joinPath dir file ++ " does not exist".toList) := by
  obtain ⟨hmust, hno⟩ := Classical.not_imp.mp h
  refine if_pos ?_
  rw [hmust, Bool.eq_false_iff.mpr hno]
  rfl

theorem setParcel_setTo (h : SameFiles p.conf.flags m.flags) (dir : List Char) :
    SetTo env m dir .parcel ((setParcel env p.conf dir).map ({ p with conf := · })) := by
  unfold setParcel checkDir
  rw [h.1, h.2]
  by_cases hdir : env.isDir dir = true
  case neg => 
    rw [if_neg hdir]
    exact fun hacc => hdir hacc.1
  rw [if_pos hdir]
  by_cases hcfg : true = true → env.isRegular (joinPath dir "parcel.cfg".toList) = true
  case neg =>
    rw [filepath_of_not_exists hcfg]
    exact fun hacc => hcfg fun _ => hacc.2.1
  rw [filepath_of_exists hcfg]
  by_cases hkeyring : decide (m.flags &&& wantCache ≠ 0) = true →
      env.isRegular (joinPath dir "keyring".toList) = true
  case neg =>
    rw [filepath_of_not_exists hkeyring]
    exact fun hacc => hkeyring fun hflag => hacc.2.2.1 (of_decide_eq_true hflag)
  rw [filepath_of_exists hkeyring]
  by_cases hprev : decide (m.flags &&& wantPrev ≠ 0) = true →
      env.isRegular (joinPath dir "prev-keyring".toList) = true
  case neg =>
    rw [filepath_of_not_exists hprev]
    exact fun hacc => hprev fun hflag => hacc.2.2.2 (of_decide_eq_true hflag)
  rw [filepath_of_exists hprev]
  exact ⟨⟨hdir, hcfg rfl, fun hflag => hkeyring (decide_eq_true hflag),
    fun hflag => hprev (decide_eq_true hflag)⟩, h⟩

theorem setOption_setTo (env : Env) (h : SameFiles p.conf.flags m.flags) (value : List Char)
    (opt : Opt) : SetTo env m value opt (setOption env p value opt) := by
  cases opt with
  | parcel => exact setParcel_setTo h value
  | hoard | destdir | log => exact ⟨trivial, h⟩
  | uuid =>
    rw [setOption]
    split
    next hnone => exact fun hacc => absurd hnone (isSome_iff_ne_none.mp hacc)
    next uuid hsome => exact ⟨isSome_of_eq_some hsome, h⟩
  | compression =>
    rw [setOption]
    split
    next hnone => exact fun hacc => hacc hnone
    next compress hsome => exact ⟨hsome, h⟩
  | maskFile | maskStderr =>
    rw [setOption]
    split
    next hnone => exact fun hacc => absurd hnone (isSome_iff_ne_none.mp hacc)
    next mask hsome => exact ⟨isSome_of_eq_some hsome, h⟩
  | mode =>
    rw [setOption]
    split
    next hnone => exact fun hacc => absurd hnone (isSome_iff_ne_none.mp hacc)
    next helpmode hsome => exact ⟨isSome_of_eq_some hsome, h⟩
  | chunkCache =>
    rw [setOption]
    split
    next err hnone =>
      intro hacc
      obtain ⟨v, hv⟩ := isSome_iff_exists.mp hacc
      rw [parseuint_eq_ok.mpr ⟨v, hv, rfl⟩] at hnone
      cases hnone
    next size hsome =>
      obtain ⟨v, hv, -⟩ := parseuint_eq_ok.mp hsome
      exact ⟨isSome_of_eq_some hv, h⟩
  | foreground => exact ⟨trivial, h.clear (by decide) (by decide)⟩
  | check | full | splice | compact | allowRoot | singleThread =>
    exact ⟨trivial, h.set (by decide) (by decide)⟩

end values

/-! ## Reading on -/

theorem optionText_inj {opt opt' : Opt} (h : optionText opt = optionText opt') : opt = opt' :=
  getOption_inj (List.cons.inj (List.cons.inj h).2).2

theorem pkModes_opts_inj :
    ∀ m ∈ pkModes, ∀ rec ∈ m.opts, ∀ rec' ∈ m.opts, rec.opt = rec'.opt → rec = rec' := by
  decide

section reading

variable {env : Env} {m : PkMode} {before more : List Item} {arg : List Char}
  {rest : List (List Char)} {i i' : Item} {opt : Opt}

/-- After some options, the strings that make up a command line. -/
def Reads (env : Env) (m : PkMode) (before : List Item) (rest : List (List Char)) : Prop :=
  ∃ more, rest = render more ∧ WellFormed env m (before ++ more) ∧ Complete m (before ++ more)

/-- After some options, the strings of which the last one wants a parameter. -/
def Dangles (env : Env) (m : PkMode) (before : List Item) (rest : List (List Char)) : Prop :=
  ∃ more opt, rest = render more ++ [optionText opt] ∧ WellFormed env m (before ++ more) ∧
    Next m (before ++ more) opt ∧ (getOption opt).arg ≠ none

theorem WellFormed.next (h : WellFormed env m (before ++ i :: more)) : Next m before i.opt := by
  have hvalid := h.valid i (mem_append_right _ mem_cons_self)
  obtain ⟨rec, hrec, hopt⟩ := hvalid.mode
  refine ⟨rec, hrec, hopt, ?_⟩
  by_cases hany : rec.type = .any
  · exact .inl hany
  · refine .inr fun hmem => ?_
    have hseen : 0 < (before.map Item.opt).count i.opt := count_pos_iff.mpr hmem
    have honce := h.once rec hrec hany
    rw [hopt, map_append, map_cons, count_append, count_cons_self] at honce
    omega

theorem WellFormed.snoc (hm : m ∈ pkModes) (h : WellFormed env m before) (hi : i.Valid env m)
    (hnext : Next m before i.opt) : WellFormed env m (before ++ [i]) := by
  refine ⟨fun j hj => ?_, fun rec hrec hany => ?_⟩
  · rcases mem_append.mp hj with hj | hj
    · exact h.valid j hj
    · rw [mem_singleton.mp hj]
      exact hi
  · have honce := h.once rec hrec hany
    rw [map_append, count_append]
    by_cases hopt : rec.opt = i.opt
    · -- the record that lets the option come next is this one
      obtain ⟨rec', hrec', hopt', hok⟩ := hnext
      obtain rfl := pkModes_opts_inj m hm rec hrec rec' hrec' (hopt.trans hopt'.symm)
      have hno : (before.map Item.opt).count i.opt = 0 :=
        count_eq_zero.mpr (hok.resolve_left hany)
      rw [hopt, hno]
      simp
    · have hother : ([i].map Item.opt).count rec.opt = 0 :=
        count_eq_zero.mpr fun hmem => hopt (mem_singleton.mp hmem)
      omega

/-- The first string of what can be read on is an option that may come next; it is followed by its
parameter, unless it is the last string. -/
theorem head_of_reads (h : Reads env m before (arg :: rest) ∨ Dangles env m before (arg :: rest)) :
    ∃ opt, arg = optionText opt ∧ Next m before opt ∧
      ((getOption opt).arg ≠ none → rest = [] ∨
        ∃ v rest', rest = v :: rest' ∧ isOption v = false ∧ Acceptable env m v opt) := by
  have hcons : ∀ {i : Item} {more : List Item} {tail : List (List Char)},
      arg :: rest = render (i :: more) ++ tail → WellFormed env m (before ++ i :: more) →
      ∃ opt, arg = optionText opt ∧ Next m before opt ∧
        ((getOption opt).arg ≠ none → rest = [] ∨
          ∃ v rest', rest = v :: rest' ∧ isOption v = false ∧ Acceptable env m v opt) := by
    intro i more tail heq hwell
    obtain ⟨harg, hrest⟩ := List.cons.inj heq
    refine ⟨i.opt, harg, hwell.next, fun htakes => .inr ?_⟩
    have hvalid := hwell.valid i (mem_append_right _ mem_cons_self)
    have hsome : i.param.isSome := by
      rw [← hvalid.takes]
      exact isSome_iff_ne_none.mpr htakes
    obtain ⟨v, hv⟩ := isSome_iff_exists.mp hsome
    rw [hv] at hrest
    exact ⟨v, _, hrest, hvalid.value v hv⟩
  rcases h with ⟨more, heq, hwell, -⟩ | ⟨more, opt, heq, hwell, hnext, htakes⟩
  · cases more with
    | nil => cases heq
    | cons i more => exact hcons (heq.trans (append_nil _).symm) hwell
  · cases more with
    | nil =>
      obtain ⟨harg, hrest⟩ := List.cons.inj heq
      rw [append_nil] at hnext
      exact ⟨opt, harg, hnext, fun _ => .inl hrest⟩
    | cons i more => exact hcons heq hwell

theorem Item.Valid.eq_of_append {x y : List (List Char)} (h : i.Valid env m) (h' : i'.Valid env m)
    (heq : i.render ++ x = i'.render ++ y) : i = i' ∧ x = y := by
  obtain ⟨opt, param⟩ := i
  obtain ⟨opt', param'⟩ := i'
  obtain ⟨htext, htail⟩ := List.cons.inj heq
  obtain rfl : opt = opt' := optionText_inj htext
  have htakes : param.isSome = param'.isSome := h.takes.symm.trans h'.takes
  cases param with
  | none =>
    cases param' with
    | none => exact ⟨rfl, htail⟩
    | some v' => cases htakes
  | some v =>
    cases param' with
    | none => cases htakes
    | some v' =>
      obtain ⟨rfl, hrest⟩ := List.cons.inj htail
      exact ⟨rfl, hrest⟩

theorem reads_append (hi : i.Valid env m) :
    Reads env m before (i.render ++ rest) ↔ Reads env m (before ++ [i]) rest := by
  constructor
  · intro ⟨more, heq, hwell, hcomplete⟩
    cases more with
    | nil => cases heq
    | cons j more =>
      have hj := hwell.valid j (mem_append_right _ mem_cons_self)
      obtain ⟨rfl, hrest⟩ := hi.eq_of_append hj heq
      rw [append_cons] at hwell hcomplete
      exact ⟨more, hrest, hwell, hcomplete⟩
  · intro ⟨more, heq, hwell, hcomplete⟩
    rw [← append_cons] at hwell hcomplete
    refine ⟨i :: more, ?_, hwell, hcomplete⟩
    rw [heq]
    rfl

theorem dangles_append (hi : i.Valid env m) :
    Dangles env m before (i.render ++ rest) ↔ Dangles env m (before ++ [i]) rest := by
  constructor
  · intro ⟨more, opt, heq, hwell, hnext, htakes⟩
    cases more with
    | nil =>
      -- the option has its parameter, if it takes one
      obtain ⟨htext, htail⟩ := List.cons.inj heq
      obtain rfl := optionText_inj htext
      have hsome : i.param.isSome := by
        rw [← hi.takes]
        exact isSome_iff_ne_none.mpr htakes
      obtain ⟨v, hv⟩ := isSome_iff_exists.mp hsome
      rw [hv] at htail
      cases htail
    | cons j more =>
      have hj := hwell.valid j (mem_append_right _ mem_cons_self)
      have hrender : render (j :: more) ++ [optionText opt] =
          j.render ++ (render more ++ [optionText opt]) := append_assoc ..
      obtain ⟨rfl, hrest⟩ := hi.eq_of_append hj (heq.trans hrender)
      rw [append_cons] at hwell hnext
      exact ⟨more, opt, hrest, hwell, hnext, htakes⟩
  · intro ⟨more, opt, heq, hwell, hnext, htakes⟩
    rw [← append_cons] at hwell hnext
    refine ⟨i :: more, opt, ?_, hwell, hnext, htakes⟩
    rw [heq]
    exact (append_assoc ..).symm

theorem not_dangles_nil : ¬Dangles env m before [] := by
  intro ⟨more, opt, heq, _⟩
  exact absurd heq.symm (by simp)

end reading

/-! ## The parser -/

section parser

variable {env : Env} {m : PkMode} {argv : List (List Char)} {ctx : ParseCtx} {before : List Item}
  {rest : List (List Char)}

/-- The parser has read these options, and these are the strings that are left. -/
structure At (env : Env) (m : PkMode) (argv : List (List Char)) (ctx : ParseCtx)
    (before : List Item) (rest : List (List Char)) : Prop where
  mode : ctx.curmode = m
  seen : ∀ opt, ctx.optseen opt = (before.map Item.opt).count opt
  pos : 1 ≤ ctx.optind
  bound : ctx.optind ≤ argv.length
  rest : argv.drop ctx.optind = rest
  before : WellFormed env m before

/-- What `pk_getopt` may return, given what can be read from here. The value of a parameter is
checked only after it has returned. -/
def Gets (env : Env) (m : PkMode) (argv : List (List Char)) (before : List Item)
    (rest : List (List Char)) : Except Stop (Option Opt × ParseCtx) → Prop
  | .error (.usage _ _) => ¬(Reads env m before rest ∨ Dangles env m before rest)
  | .error (.overrun _) => Dangles env m before rest
  | .ok (none, _) => Reads env m before rest ∧ ¬Dangles env m before rest
  | .ok (some opt, ctx) =>
    (Acceptable env m ctx.optparam opt → ∃ i rest', i.Valid env m ∧ rest = i.render ++ rest' ∧
      At env m argv ctx (before ++ [i]) rest') ∧
    (¬Acceptable env m ctx.optparam opt →
      ¬(Reads env m before rest ∨ Dangles env m before rest))

theorem acceptable_of_arg_none {opt : Opt} {value : List Char} (h : (getOption opt).arg = none) :
    Acceptable env m value opt := by
  cases opt <;> trivial

theorem At.seen_snoc (h : At env m argv ctx before rest) (i : Item) (opt : Opt) :
    Function.update ctx.optseen i.opt (ctx.optseen i.opt + 1) opt =
      ((before ++ [i]).map Item.opt).count opt := by
  rw [map_append, count_append, ← h.seen]
  by_cases hopt : opt = i.opt
  · rw [hopt, Function.update_self]
    simp
  · rw [Function.update_of_ne hopt]
    simp [Ne.symm hopt]

theorem At.snoc {i : Item} (hm : m ∈ pkModes) (h : At env m argv ctx before (i.render ++ rest))
    (hi : i.Valid env m) (hnext : Next m before i.opt) (optparam : List Char) :
    At env m argv
      { ctx with
        optparam := optparam, optind := ctx.optind + i.render.length,
        optseen := Function.update ctx.optseen i.opt (ctx.optseen i.opt + 1) }
      (before ++ [i]) rest where
  mode := h.mode
  seen := h.seen_snoc i
  pos := Nat.le_add_right_of_le h.pos
  bound := by
    have hlength := congrArg List.length h.rest
    rw [length_drop, length_append] at hlength
    have := h.bound
    change ctx.optind + i.render.length ≤ argv.length
    omega
  rest := by
    change argv.drop (ctx.optind + i.render.length) = rest
    rw [← drop_drop, h.rest, drop_left]
  before := h.before.snoc hm hi hnext

theorem At.cons {arg : List Char} (h : At env m argv ctx before (arg :: rest)) :
    ctx.optind < argv.length ∧ argv[ctx.optind]? = some arg ∧
      argv[ctx.optind + 1]? = rest.head? := by
  have harg : argv[ctx.optind]? = some arg := by rw [← List.head?_drop, h.rest, List.head?_cons]
  obtain ⟨hlt, -⟩ := List.getElem?_eq_some_iff.mp harg
  refine ⟨hlt, harg, ?_⟩
  rw [← List.head?_drop, ← List.drop_drop, h.rest, List.drop_one, List.tail_cons]

theorem takeOption_gets (hm : m ∈ pkModes) {rec : PkOptionRecord} (hrec : rec ∈ m.opts)
    (h : At env m argv ctx before (optionText rec.opt :: rest)) (arg : List Char) :
    Gets env m argv before (optionText rec.opt :: rest)
      (takeOption { ctx with optind := ctx.optind + 1 } argv arg rec) := by
  obtain ⟨hlt, -, hparam⟩ := h.cons
  -- whatever can be read from here starts with this option
  have hhead : ∀ hreads : Reads env m before (optionText rec.opt :: rest) ∨
      Dangles env m before (optionText rec.opt :: rest), Next m before rec.opt ∧
      ((getOption rec.opt).arg ≠ none → rest = [] ∨
        ∃ v rest', rest = v :: rest' ∧ isOption v = false ∧ Acceptable env m v rec.opt) := by
    intro hreads
    obtain ⟨opt, htext, hopt⟩ := head_of_reads hreads
    rw [optionText_inj htext]
    exact hopt
  unfold takeOption
  split
  next hseen =>
    intro hreads
    obtain ⟨⟨rec', hrec', hopt', hok⟩, -⟩ := hhead hreads
    obtain rfl := pkModes_opts_inj m hm rec' hrec' rec hrec hopt'
    have hmem := count_pos_iff.mp (h.seen rec'.opt ▸ pos_of_ne_zero hseen.2)
    exact hok.elim hseen.1 fun hno => hno hmem
  next hseen =>
    have hnext : Next m before rec.opt := by
      refine ⟨rec, hrec, rfl, ?_⟩
      by_cases hany : rec.type = .any
      · exact .inl hany
      · have hzero : ctx.optseen rec.opt = 0 := not_not.mp fun hne => hseen ⟨hany, hne⟩
        exact .inr (count_eq_zero.mp ((h.seen rec.opt).symm.trans hzero))
    split
    next hnone =>
      have hi : Item.Valid env m ⟨rec.opt, none⟩ :=
        ⟨⟨rec, hrec, rfl⟩, congrArg Option.isSome hnone, nofun⟩
      exact ⟨fun _ => ⟨_, rest, hi, rfl, h.snoc hm hi hnext ctx.optparam⟩,
        fun hacc => absurd (acceptable_of_arg_none hnone) hacc⟩
    next htakes =>
      split
      next hlibc =>
        -- there are two strings at least, so that this test never finds anything
        have := h.pos
        unfold libcOptind at hlibc
        omega
      next =>
        cases rest with
        | nil =>
          rw [hparam]
          refine ⟨[], rec.opt, rfl, ?_, ?_, htakes⟩
          · rw [append_nil]
            exact h.before
          · rw [append_nil]
            exact hnext
        | cons v rest =>
          rw [hparam]
          dsimp only [head?_cons]
          split
          next hoption =>
            intro hreads
            obtain ⟨-, hvalue⟩ := hhead hreads
            rcases hvalue htakes with hnil | ⟨v', rest', heq, hno, -⟩
            · cases hnil
            · cases heq
              rw [hno] at hoption
              cases hoption
          next hoption =>
            refine ⟨fun hacc => ?_, fun hacc hreads => ?_⟩
            · have hi : Item.Valid env m ⟨rec.opt, some v⟩ := by
                refine ⟨⟨rec, hrec, rfl⟩, isSome_iff_ne_none.mpr htakes, fun w hw => ?_⟩
                cases hw
                exact ⟨Bool.eq_false_iff.mpr hoption, hacc⟩
              exact ⟨_, rest, hi, rfl, h.snoc hm hi hnext v⟩
            · obtain ⟨-, hvalue⟩ := hhead hreads
              rcases hvalue htakes with hnil | ⟨v', rest', heq, -, hacc'⟩
              · cases hnil
              · cases heq
                exact hacc hacc'

theorem isOption_iff {arg : List Char} : isOption arg = true ↔ arg = '-' :: '-' :: arg.drop 2 := by
  unfold isOption
  split
  next => simp
  next hno =>
    refine ⟨nofun, fun heq => ?_⟩
    exact absurd heq (hno _)

theorem pkGetopt_gets (hm : m ∈ pkModes) (h : At env m argv ctx before rest) :
    Gets env m argv before rest (pkGetopt ctx argv) := by
  obtain rfl := h.mode
  unfold pkGetopt
  cases rest with
  | nil =>
    rw [if_pos (Nat.le_antisymm h.bound (drop_eq_nil_iff.mp h.rest))]
    split
    next rec hfind =>
      intro hreads
      rcases hreads with ⟨more, heq, -, hcomplete⟩ | hdangles
      · have hmore : more = [] := by
          cases more with
          | nil => rfl
          | cons i more => cases heq
        have hrec := find?_some hfind
        rw [decide_eq_true_eq, h.seen, count_eq_zero] at hrec
        rw [hmore, append_nil] at hcomplete
        exact hrec.2 (hcomplete rec (mem_of_find?_eq_some hfind) hrec.1)
      · exact not_dangles_nil hdangles
    next hfind =>
      refine ⟨⟨[], rfl, ?_⟩, not_dangles_nil⟩
      rw [append_nil]
      refine ⟨h.before, fun rec hrec hrequired => ?_⟩
      have hseen := find?_eq_none.mp hfind rec hrec
      rw [decide_eq_true_eq, h.seen] at hseen
      exact count_pos_iff.mp (pos_of_ne_zero fun hzero => hseen ⟨hrequired, hzero⟩)
  | cons arg rest =>
    obtain ⟨hlt, harg, -⟩ := h.cons
    rw [if_neg (ne_of_lt hlt), harg]
    dsimp only
    split
    next hno =>
      intro hreads
      obtain ⟨opt, htext, -⟩ := head_of_reads hreads
      rw [htext] at hno
      cases hno
    next hoption =>
      have htext := isOption_iff.mp (Bool.not_eq_false _ ▸ hoption)
      split
      next rec hfind =>
        have hname : (getOption rec.opt).name = arg.drop 2 := by simpa using find?_some hfind
        have hrec : arg = optionText rec.opt := by
          rw [optionText, hname]
          exact htext
        rw [hrec] at h ⊢
        exact takeOption_gets hm (mem_of_find?_eq_some hfind) h _
      next hfind =>
        have hno : ¬(Reads env ctx.curmode before (arg :: rest) ∨
            Dangles env ctx.curmode before (arg :: rest)) := by
          intro hreads
          obtain ⟨opt, harg, ⟨rec, hrec, hopt, -⟩, -⟩ := head_of_reads hreads
          refine find?_eq_none.mp hfind rec hrec (decide_eq_true ?_)
          rw [hopt, harg]
          rfl
        split
        next => exact hno
        next => exact hno

/-- What the outcome says about the command line. -/
def Judged {α : Type} (accepted dangling : Prop) : Except Stop α → Prop
  | .ok _ => accepted ∧ ¬dangling
  | .error (.usage _ _) => ¬accepted ∧ ¬dangling
  | .error (.overrun _) => dangling

theorem Judged.map {α β : Type} {accepted dangling : Prop} {f : α → β} {r : Except Stop α}
    (h : Judged accepted dangling r) : Judged accepted dangling (r.map f) := by
  cases r with
  | ok a => exact h
  | error stop => cases stop <;> exact h

theorem optionLoop_judged (hm : m ∈ pkModes) (h : At env m argv ctx before rest) {p : Parsed}
    (hflags : SameFiles p.conf.flags m.flags) :
    Judged (Reads env m before rest) (Dangles env m before rest) (optionLoop env argv ctx p) := by
  fun_induction optionLoop env argv ctx p generalizing before rest with
  | case1 ctx p stop hget =>
    have hgets := pkGetopt_gets hm h
    rw [hget] at hgets
    cases stop with
    | usage error mode => exact not_or.mp hgets
    | overrun i => exact hgets
  | case2 ctx p ctx' hget =>
    have hgets := pkGetopt_gets hm h
    rw [hget] at hgets
    exact hgets
  | case3 ctx p opt ctx' hget text hset =>
    have hgets := pkGetopt_gets hm h
    rw [hget] at hgets
    have hto := setOption_setTo env hflags ctx'.optparam opt
    rw [hset] at hto
    exact not_or.mp (hgets.2 hto)
  | case4 ctx p opt ctx' hget p' hset ih =>
    have hgets := pkGetopt_gets hm h
    rw [hget] at hgets
    have hto := setOption_setTo env hflags ctx'.optparam opt
    rw [hset] at hto
    obtain ⟨i, rest', hi, hrest, hat⟩ := hgets.1 hto.1
    rw [hrest, reads_append hi, dangles_append hi]
    exact ih hat hto.2

theorem At.start (m : PkMode) (rest : List (List Char)) :
    At env m (m.name :: rest) { curmode := m, optind := 1 } [] rest where
  mode := rfl
  seen := fun _ => rfl
  pos := Nat.le_refl 1
  bound := Nat.le_add_left 1 rest.length
  rest := rfl
  before := ⟨nofun, fun _ _ _ => Nat.zero_le 1⟩

theorem inGrammar_cons (hm : m ∈ pkModes) :
    InGrammar env (m.name :: rest) ↔ Reads env m [] rest := by
  constructor
  · intro ⟨m', hm', items, heq, hitems⟩
    obtain ⟨hname, hrest⟩ := List.cons.inj heq
    obtain rfl := pkModes_inj m hm m' hm' hname
    exact ⟨items, hrest, hitems⟩
  · intro ⟨items, hrest, hitems⟩
    exact ⟨m, hm, items, by rw [hrest], hitems⟩

theorem dangling_cons (hm : m ∈ pkModes) :
    Dangling env (m.name :: rest) ↔ Dangles env m [] rest := by
  constructor
  · intro ⟨m', hm', items, opt, heq, hitems⟩
    obtain ⟨hname, hrest⟩ := List.cons.inj heq
    obtain rfl := pkModes_inj m hm m' hm' hname
    exact ⟨items, opt, hrest, hitems⟩
  · intro ⟨items, opt, hrest, hitems⟩
    exact ⟨m, hm, items, opt, by rw [hrest], hitems⟩

theorem parseCmdline_judged (env : Env) (argv : List (List Char)) :
    Judged (InGrammar env argv) (Dangling env argv) (parseCmdline env argv) := by
  unfold parseCmdline
  cases argv with
  | nil =>
    refine ⟨?_, ?_⟩
    · intro ⟨m, hm, items, heq, _⟩
      cases heq
    · intro ⟨m, hm, items, opt, heq, _⟩
      cases heq
  | cons name rest =>
    dsimp only
    split
    next hmode =>
      have hno : ∀ m ∈ pkModes, name ≠ m.name := by
        intro m hm hname
        rw [parseMode_eq_some.mpr ⟨hm, hname⟩] at hmode
        cases hmode
      exact ⟨fun ⟨m, hm, _, heq, _⟩ => hno m hm (List.cons.inj heq).1,
        fun ⟨m, hm, _, _, heq, _⟩ => hno m hm (List.cons.inj heq).1⟩
    next m hmode =>
      obtain ⟨hm, rfl⟩ := parseMode_eq_some.mp hmode
      rw [inGrammar_cons hm, dangling_cons hm]
      exact (optionLoop_judged hm (At.start m rest) ⟨rfl, rfl⟩).map

end parser

/-- The parser accepts the command lines of the grammar, reports all others and stays within
`argv`, except for a command line that ends with an option whose parameter is missing. -/
theorem parseCmdline_grammar_iff (env : Env) (argv : List (List Char)) :
    ((∀ i, parseCmdline env argv ≠ .error (.overrun i)) ∧
      ((∃ result, parseCmdline env argv = .ok result) ↔ InGrammar env argv) ∧
      (¬InGrammar env argv → ∃ text mode, parseCmdline env argv = .error (.usage text mode))) ↔
      ¬Dangling env argv := by
  have hjudged := parseCmdline_judged env argv
  cases hparse : parseCmdline env argv with
  | ok result =>
    rw [hparse] at hjudged
    obtain ⟨haccepted, hno⟩ := hjudged
    refine iff_of_true ⟨nofun, ?_, fun h => absurd haccepted h⟩ hno
    exact iff_of_true ⟨result, rfl⟩ haccepted
  | error stop =>
    rw [hparse] at hjudged
    cases stop with
    | usage text mode =>
      obtain ⟨haccepted, hno⟩ := hjudged
      refine iff_of_true ⟨nofun, ?_, fun _ => ⟨text, mode, rfl⟩⟩ hno
      exact iff_of_false (fun ⟨_, hok⟩ => nomatch hok) haccepted
    | overrun i => exact iff_of_false (fun h => h.1 i rfl) (not_not.mpr hjudged)

/-- A system where every file is there. -/
def plainEnv : Env where
  isDir := fun _ => true
  isRegular := fun _ => true
  canonicalizeUuid := some
  prgname := "parcelkeeper".toList

theorem optionLoop_error {env : Env} {argv : List (List Char)} {ctx : ParseCtx} {stop : Stop}
    (h : pkGetopt ctx argv = .error stop) (p : Parsed) :
    optionLoop env argv ctx p = .error stop := by
  rw [optionLoop]
  split
  next stop' hstop => rw [h] at hstop; cases hstop; rfl
  next ctx' hnone => rw [h] at hnone; cases hnone
  next opt ctx' hsome => rw [h] at hsome; cases hsome

/-- `parcelkeeper run --parcel` reads `argv[2]`, where `argc` is 2. -/
theorem run_parcel_overrun :
    parseCmdline plainEnv ["run".toList, "--parcel".toList] = .error (.overrun 2) := by
  change (optionLoop plainEnv _ _ _).map _ = _
  rw [optionLoop_error (by rfl : pkGetopt _ _ = .error (.overrun 2))]
  rfl

end OpenIsr.Cmdline
