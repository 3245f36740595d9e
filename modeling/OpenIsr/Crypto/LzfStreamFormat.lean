import Mathlib.Data.List.Induction
import Mathlib.Logic.Relation
import OpenIsr.Crypto.LzfStream

/-!
# Streams as blocks

What a stream is, without regard to buffers: a sequence of blocks, each with its header, and
what it means to read them (`Block.read`).

`Parse` is the decoder with all of its input at hand and room for all of its output: one step
(`Parse.next`) reads a part of a header or the data of a block. `steps_of_reads` says that it
reads blocks as `Block.read` does, and `Parsed.of_steps` that all it has read is blocks, and
the part of a header that its state stands for.
-/

namespace OpenIsr.Crypto

open List

/-- A block of a stream. -/
inductive Block
  | stored (data : List UInt8)
  | compressed (data : List UInt8) (size : Nat)
  | crc (value : UInt32)
  deriving DecidableEq, Repr

/-- A block as it is in the stream. -/
def Block.bytes : Block → List UInt8
  | .stored data => [0x5A, 0x56, 0] ++ store16h data.length ++ data
  | .compressed data size => [0x5A, 0x56, 1] ++ store16h data.length ++ store16h size ++ data
  | .crc value => [0x5A, 0x56, 0x30] ++ store32h value

/-- What has been read of a stream: the CRC and the plaintext of each data block. -/
structure Plain where
  crc : UInt32
  outs : List (List UInt8)

/-- Read one more block. -/
def Block.read (env : StreamEnv) (p : Plain) : Block → Option Plain
  | .stored data =>
    if data.length ≤ maxBlock then some ⟨env.crc32 p.crc data, p.outs ++ [data]⟩ else none
  | .compressed data size =>
    if data.length ≤ maxBlock ∧ size ≤ maxBlock then
      (blockDecompress env data size).map fun out => ⟨env.crc32 p.crc out, p.outs ++ [out]⟩
    else none
  | .crc value => if p.crc = value then some p else none

/-- Read blocks from the start of a stream. -/
def readBlocks (env : StreamEnv) (bs : List Block) : Option Plain :=
  bs.foldlM (Block.read env) ⟨env.crc32Init, []⟩

variable {p : Plain} {env : StreamEnv} {bs : List Block} {s : List UInt8} {b : Block} {α : Type}
  {l : List α}

theorem readBlocks_append (h : readBlocks env bs = some p) (b : Block) :
    readBlocks env (bs ++ [b]) = b.read env p := by
  unfold readBlocks at *
  rw [foldlM_append, h]
  simp

theorem readBlocks_append_eq_some (h : readBlocks env (bs ++ [b]) = some p) :
    ∃ p₀, readBlocks env bs = some p₀ ∧ b.read env p₀ = some p := by
  cases hp : readBlocks env bs with
  | none =>
    unfold readBlocks at h hp
    rw [foldlM_append, hp] at h
    cases h
  | some p₀ => exact ⟨p₀, rfl, readBlocks_append hp b ▸ h⟩

/-! ## The decoder on the whole input -/

/-- The decoder, the input from where it is, and the plaintext of each data block. -/
structure Parse where
  dec : Decoder
  data : List UInt8
  outs : List (List UInt8)

/-- The start of a stream. -/
def Parse.start (env : StreamEnv) (s : List UInt8) : Parse :=
  ⟨(lzfStreamAlloc env).toDecoder, s, []⟩

/-- One step, unless the decoder has stopped or needs more input. -/
def Parse.next (env : StreamEnv) (p : Parse) : Option Parse :=
  if p.data.length < p.dec.inCount then none
  else
    let buf := p.data.take p.dec.inCount
    let rest := p.data.drop p.dec.inCount
    match p.dec.decodeState with
    | .wantHeader1 => some ⟨headerDecode1 p.dec buf, rest, p.outs⟩
    | .wantHeader2 => some ⟨headerDecode2 p.dec buf, rest, p.outs⟩
    | .wantHeader3 => some ⟨headerDecode3 p.dec buf, rest, p.outs⟩
    | .wantData =>
      some ⟨dataDecode env p.dec buf, rest, p.outs ++ (blockData env p.dec buf).toList⟩
    | .atEof | .dataError => none

/-- Any number of steps. -/
def Parse.Steps (env : StreamEnv) : Parse → Parse → Prop :=
  Relation.ReflTransGen fun p q => p.next env = some q

theorem Parse.Steps.trans {p q r : Parse} (h : Parse.Steps env p q) (h' : Parse.Steps env q r) :
    Parse.Steps env p r :=
  Relation.ReflTransGen.trans h h'

/-- The decoder is between two blocks. -/
structure Decoder.Between (d : Decoder) (crc : UInt32) : Prop where
  state : d.decodeState = .wantHeader1
  count : d.inCount = 1
  crc : d.crc = crc

theorem between_start (env : StreamEnv) (s : List UInt8) :
    (Parse.start env s).dec.Between env.crc32Init := ⟨rfl, rfl, rfl⟩

theorem steps_header {d : Decoder} {crc : UInt32} (h : d.Between crc) (t : UInt8)
    (tail : List UInt8) (outs : List (List UInt8)) :
    Parse.Steps env ⟨d, 0x5A :: 0x56 :: t :: tail, outs⟩
      ⟨headerDecode2 (setState d .wantHeader2 0) [0x56, t], tail, outs⟩ := by
  have h₁ : Parse.next env ⟨d, 0x5A :: 0x56 :: t :: tail, outs⟩
      = some ⟨setState d .wantHeader2 0, 0x56 :: t :: tail, outs⟩ := by
    simp [Parse.next, h.count, h.state, headerDecode1]
  have h₂ : Parse.next env ⟨setState d .wantHeader2 0, 0x56 :: t :: tail, outs⟩
      = some ⟨headerDecode2 (setState d .wantHeader2 0) [0x56, t], tail, outs⟩ := by
    simp [Parse.next, setState]
  exact .tail (.single h₁) h₂

theorem steps_of_read {d : Decoder} {p' : Plain} (hd : d.Between p.crc)
    (h : b.read env p = some p') (tail : List UInt8) :
    ∃ d' : Decoder, d'.Between p'.crc ∧
      Parse.Steps env ⟨d, b.bytes ++ tail, p.outs⟩ ⟨d', tail, p'.outs⟩ := by
  cases b with
  | stored data =>
    simp only [Block.read] at h
    split at h
    next hlen =>
      cases h
      have h₃ : Parse.next env ⟨headerDecode2 (setState d .wantHeader2 0) [0x56, 0],
          store16h data.length ++ (data ++ tail), p.outs⟩
          = some ⟨⟨d.crc, .wantData, .stored, data.length, data.length⟩, data ++ tail, p.outs⟩ := by
        have hl := load16h_store16h hlen []
        simp only [store16h, append_nil] at hl
        simp [Parse.next, headerDecode2, setState, store16h, headerDecode3, hl]
      have h₄ : Parse.next env
          ⟨⟨d.crc, .wantData, .stored, data.length, data.length⟩, data ++ tail, p.outs⟩
          = some ⟨⟨env.crc32 d.crc data, .wantHeader1, .stored, data.length, 1⟩, tail,
            p.outs ++ [data]⟩ := by
        simp [Parse.next, dataDecode, blockData, setState]
      refine ⟨_, ⟨rfl, rfl, ?_⟩, (((steps_header hd 0 _ _).tail ?_).tail h₄)⟩
      · rw [hd.crc]
      · simpa [Block.bytes] using h₃
    next => cases h
  | compressed data size =>
    simp only [Block.read] at h
    split at h
    next hlen =>
      obtain ⟨out, hout, rfl⟩ := Option.map_eq_some_iff.mp h
      have h₃ : Parse.next env ⟨headerDecode2 (setState d .wantHeader2 0) [0x56, 1],
          store16h data.length ++ (store16h size ++ (data ++ tail)), p.outs⟩
          = some ⟨⟨d.crc, .wantData, .compressed, size, data.length⟩, data ++ tail, p.outs⟩ := by
        have hl := load16h_store16h hlen.1 (store16h size)
        have hs := load16h_store16h hlen.2 []
        simp only [store16h, append_nil, cons_append, nil_append] at hl hs
        simp [Parse.next, headerDecode2, setState, store16h, headerDecode3, hl, hs]
      have h₄ : Parse.next env
          ⟨⟨d.crc, .wantData, .compressed, size, data.length⟩, data ++ tail, p.outs⟩
          = some ⟨⟨env.crc32 d.crc out, .wantHeader1, .compressed, size, 1⟩, tail,
            p.outs ++ [out]⟩ := by
        simp [Parse.next, dataDecode, blockData, setState, hout]
      refine ⟨_, ⟨rfl, rfl, ?_⟩, (((steps_header hd 1 _ _).tail ?_).tail h₄)⟩
      · rw [hd.crc]
      · simpa [Block.bytes] using h₃
    next => cases h
  | crc value =>
    simp only [Block.read] at h
    split at h
    next hcrc =>
      cases h
      have h₃ : Parse.next env ⟨headerDecode2 (setState d .wantHeader2 0) [0x56, 0x30],
          store32h value ++ tail, p.outs⟩
          = some ⟨⟨d.crc, .wantHeader1, .crc, d.outputSize, 1⟩, tail, p.outs⟩ := by
        have hl := load32h_store32h value []
        simp only [store32h, append_nil] at hl
        simp [Parse.next, headerDecode2, setState, store32h, headerDecode3, hl, hd.crc, hcrc]
      refine ⟨⟨d.crc, .wantHeader1, .crc, d.outputSize, 1⟩, ⟨rfl, rfl, hd.crc⟩,
        (steps_header hd 0x30 _ _).tail ?_⟩
      simpa [Block.bytes] using h₃
    next => cases h

theorem steps_of_reads (h : readBlocks env bs = some p) (tail : List UInt8) :
    ∃ d : Decoder, d.Between p.crc ∧
      Parse.Steps env (Parse.start env (bs.flatMap Block.bytes ++ tail)) ⟨d, tail, p.outs⟩ := by
  induction bs using List.reverseRecOn generalizing p tail with
  | nil =>
    cases h
    exact ⟨_, between_start env tail, .refl⟩
  | append_singleton bs b ih =>
    obtain ⟨p₀, hp, h⟩ := readBlocks_append_eq_some h
    obtain ⟨d, hd, hsteps⟩ := ih hp (b.bytes ++ tail)
    obtain ⟨d', hd', hsteps'⟩ := steps_of_read hd h tail
    refine ⟨d', hd', Parse.Steps.trans ?_ hsteps'⟩
    simpa [flatMap_append] using hsteps

/-! ## What the decoder has read -/

/-- The bytes of the current block that the decoder has read, and what it has from them. -/
def Decoder.Header (d : Decoder) (h : List UInt8) : Prop :=
  match d.decodeState, d.blockType with
  | .wantHeader1, _ => h = [] ∧ d.inCount = 1
  | .wantHeader2, _ => h = [0x5A] ∧ d.inCount = 2
  | .wantHeader3, .stored => h = [0x5A, 0x56, 0] ∧ d.inCount = 2
  | .wantHeader3, .compressed => h = [0x5A, 0x56, 1] ∧ d.inCount = 4
  | .wantHeader3, .crc => h = [0x5A, 0x56, 0x30] ∧ d.inCount = 4
  | .wantData, .stored =>
    h = [0x5A, 0x56, 0] ++ store16h d.inCount ∧ d.inCount ≤ maxBlock ∧ d.outputSize = d.inCount
  | .wantData, .compressed =>
    h = [0x5A, 0x56, 1] ++ store16h d.inCount ++ store16h d.outputSize ∧
      d.inCount ≤ maxBlock ∧ d.outputSize ≤ maxBlock
  | .wantData, .crc => False
  | .atEof, _ => h = [0] ∧ d.inCount = 0
  | .dataError, _ => d.inCount = 0

/-- The input up to where the decoder is consists of blocks and of a part of a header. -/
def Parsed (env : StreamEnv) (s : List UInt8) (p : Parse) : Prop :=
  ∃ bs h, readBlocks env bs = some ⟨p.dec.crc, p.outs⟩ ∧
    s = bs.flatMap Block.bytes ++ h ++ p.data ∧ p.dec.Header h

theorem exists_two (h : 2 ≤ l.length) : ∃ a b rest, l = a :: b :: rest := by
  match l, h with
  | a :: b :: rest, _ => exact ⟨a, b, rest, rfl⟩

theorem exists_four (h : 4 ≤ l.length) : ∃ a b c d rest, l = a :: b :: c :: d :: rest := by
  match l, h with
  | a :: b :: c :: d :: rest, _ => exact ⟨a, b, c, d, rest, rfl⟩

section step

variable {rest : List UInt8} {d : Decoder} {data h : List UInt8} {outs : List (List UInt8)}

theorem Parsed.more {d' : Decoder} {h' : List UInt8} (buf : List UInt8)
    (hbs : readBlocks env bs = some ⟨d.crc, outs⟩)
    (hs : s = bs.flatMap Block.bytes ++ h ++ (buf ++ rest)) (hcrc : d'.crc = d.crc)
    (hh : h' = h ++ buf) (hd : d'.Header h') : Parsed env s ⟨d', rest, outs⟩ := by
  refine ⟨bs, h', ?_, ?_, hd⟩
  · rw [hbs, hcrc]
  · rw [hs, hh]
    simp

theorem Parsed.block {d' : Decoder} {outs' : List (List UInt8)} (b : Block) (buf : List UInt8)
    (hbs : readBlocks env bs = some ⟨d.crc, outs⟩)
    (hs : s = bs.flatMap Block.bytes ++ h ++ (buf ++ rest)) (hb : b.bytes = h ++ buf)
    (hread : b.read env ⟨d.crc, outs⟩ = some ⟨d'.crc, outs'⟩) (hd : d'.Header []) :
    Parsed env s ⟨d', rest, outs'⟩ := by
  refine ⟨bs ++ [b], [], ?_, ?_, hd⟩
  · rw [readBlocks_append hbs, hread]
  · rw [hs]
    simp [hb]

theorem header_error (d : Decoder) (h : List UInt8) : (setState d .dataError 0).Header h := by
  simp [Decoder.Header, setState]

theorem header_between (d : Decoder) : (setState d .wantHeader1 0).Header [] := by
  simp [Decoder.Header, setState]

theorem Parsed.header1 (hst : d.decodeState = .wantHeader1) (hd : d.Header h)
    (hbs : readBlocks env bs = some ⟨d.crc, outs⟩)
    (hs : s = bs.flatMap Block.bytes ++ h ++ data) (hlen : d.inCount ≤ data.length) :
    Parsed env s ⟨headerDecode1 d (data.take d.inCount), data.drop d.inCount, outs⟩ := by
  simp only [Decoder.Header, hst] at hd
  obtain ⟨rfl, hcount⟩ := hd
  rw [hcount] at hlen ⊢
  obtain ⟨a, rest, rfl⟩ := exists_cons_of_length_pos hlen
  simp only [take_succ_cons, take_zero, drop_succ_cons, drop_zero]
  unfold headerDecode1
  simp only [getD_cons_zero]
  split
  next ha => exact .more [a] hbs hs rfl rfl (by simp [Decoder.Header, setState, ha])
  split
  next ha => exact .more [a] hbs hs rfl rfl (by simp [Decoder.Header, setState, ha])
  next => exact .more [a] hbs hs rfl rfl (header_error d _)

theorem Parsed.header2 (hst : d.decodeState = .wantHeader2) (hd : d.Header h)
    (hbs : readBlocks env bs = some ⟨d.crc, outs⟩)
    (hs : s = bs.flatMap Block.bytes ++ h ++ data) (hlen : d.inCount ≤ data.length) :
    Parsed env s ⟨headerDecode2 d (data.take d.inCount), data.drop d.inCount, outs⟩ := by
  simp only [Decoder.Header, hst] at hd
  obtain ⟨rfl, hcount⟩ := hd
  rw [hcount] at hlen ⊢
  obtain ⟨a, b, rest, rfl⟩ := exists_two hlen
  simp only [take_succ_cons, take_zero, drop_succ_cons, drop_zero]
  unfold headerDecode2
  simp only [getD_cons_zero, getD_cons_succ]
  split
  next => exact .more [a, b] hbs hs rfl rfl (header_error d _)
  next ha =>
    rw [ne_eq, not_not] at ha
    split
    next hb => exact .more [a, b] hbs hs rfl rfl (by simp [Decoder.Header, setState, ha, hb])
    split
    next hb => exact .more [a, b] hbs hs rfl rfl (by simp [Decoder.Header, setState, ha, hb])
    split
    next hb => exact .more [a, b] hbs hs rfl rfl (by simp [Decoder.Header, setState, ha, hb])
    next => exact .more [a, b] hbs hs rfl rfl (header_error d _)

theorem Parsed.header3 (hst : d.decodeState = .wantHeader3) (hd : d.Header h)
    (hbs : readBlocks env bs = some ⟨d.crc, outs⟩)
    (hs : s = bs.flatMap Block.bytes ++ h ++ data) (hlen : d.inCount ≤ data.length) :
    Parsed env s ⟨headerDecode3 d (data.take d.inCount), data.drop d.inCount, outs⟩ := by
  cases ht : d.blockType with
  | stored =>
    simp only [Decoder.Header, hst, ht] at hd
    obtain ⟨rfl, hcount⟩ := hd
    rw [hcount] at hlen ⊢
    obtain ⟨a, b, rest, rfl⟩ := exists_two hlen
    simp only [headerDecode3, ht]
    refine .more [a, b] hbs hs rfl rfl ?_
    simp [Decoder.Header, setState, ht, store16h_load16h, load16h_le]
  | compressed =>
    simp only [Decoder.Header, hst, ht] at hd
    obtain ⟨rfl, hcount⟩ := hd
    rw [hcount] at hlen ⊢
    obtain ⟨a, b, c, e, rest, rfl⟩ := exists_four hlen
    simp only [headerDecode3, ht]
    refine .more [a, b, c, e] hbs hs rfl rfl ?_
    simp [Decoder.Header, setState, ht, store16h_load16h, load16h_le]
  | crc =>
    simp only [Decoder.Header, hst, ht] at hd
    obtain ⟨rfl, hcount⟩ := hd
    rw [hcount] at hlen ⊢
    obtain ⟨a, b, c, e, rest, rfl⟩ := exists_four hlen
    simp only [take_succ_cons, take_zero, drop_succ_cons, drop_zero]
    simp only [headerDecode3, ht]
    by_cases hcrc : d.crc = load32h [a, b, c, e]
    · rw [if_neg (not_not.mpr hcrc)]
      refine .block (.crc d.crc) [a, b, c, e] hbs hs ?_ ?_ (header_between d)
      · rw [Block.bytes, hcrc, store32h_load32h]
      · simp [Block.read, setState]
    · rw [if_pos hcrc]
      exact .more [a, b, c, e] hbs hs rfl rfl (header_error d _)

theorem Parsed.body (hst : d.decodeState = .wantData) (hd : d.Header h)
    (hbs : readBlocks env bs = some ⟨d.crc, outs⟩)
    (hs : s = bs.flatMap Block.bytes ++ h ++ data) (hlen : d.inCount ≤ data.length) :
    Parsed env s ⟨dataDecode env d (data.take d.inCount), data.drop d.inCount,
      outs ++ (blockData env d (data.take d.inCount)).toList⟩ := by
  rw [← take_append_drop d.inCount data] at hs
  have hbuf : (data.take d.inCount).length = d.inCount := length_take_of_le hlen
  generalize data.take d.inCount = buf at hs hbuf ⊢
  generalize data.drop d.inCount = rest at hs ⊢
  unfold dataDecode
  cases hout : blockData env d buf with
  | none =>
    rw [Option.toList_none, append_nil]
    exact .more buf hbs hs rfl rfl (header_error d _)
  | some out =>
    cases ht : d.blockType with
    | stored =>
      simp only [Decoder.Header, hst, ht] at hd
      obtain ⟨rfl, hle, -⟩ := hd
      simp only [blockData, ht, Option.some.injEq] at hout
      subst hout
      refine .block (.stored buf) buf hbs hs ?_ ?_ (header_between _)
      · rw [Block.bytes, hbuf]
      · simp [Block.read, setState, hbuf, hle]
    | compressed =>
      simp only [Decoder.Header, hst, ht] at hd
      obtain ⟨rfl, hle, hle'⟩ := hd
      simp only [blockData, ht] at hout
      refine .block (.compressed buf d.outputSize) buf hbs hs ?_ ?_ (header_between _)
      · rw [Block.bytes, hbuf]
      · simp [Block.read, setState, hbuf, hle, hle', hout]
    | crc =>
      simp only [Decoder.Header, hst, ht] at hd

end step

theorem Parsed.next {p q : Parse} (h : Parsed env s p) (hq : p.next env = some q) :
    Parsed env s q := by
  obtain ⟨bs, hd, hbs, hs, hhead⟩ := h
  unfold Parse.next at hq
  split at hq
  next => cases hq
  next hlen =>
    rw [not_lt] at hlen
    split at hq
    next hst => exact Option.some.inj hq ▸ .header1 hst hhead hbs hs hlen
    next hst => exact Option.some.inj hq ▸ .header2 hst hhead hbs hs hlen
    next hst => exact Option.some.inj hq ▸ .header3 hst hhead hbs hs hlen
    next hst => exact Option.some.inj hq ▸ .body hst hhead hbs hs hlen
    next => cases hq
    next => cases hq

theorem Parsed.of_steps {p : Parse} (h : Parse.Steps env (Parse.start env s) p) :
    Parsed env s p := by
  induction h with
  | refl => exact ⟨[], [], rfl, rfl, header_between _⟩
  | tail _ hq ih => exact ih.next hq

end OpenIsr.Crypto
