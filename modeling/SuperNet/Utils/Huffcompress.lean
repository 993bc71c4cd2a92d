import SuperNet.Utils.HuffCodes
import SuperNet.Utils.HuffPatterns
import SuperNet.Utils.HuffRoundTrip

/-! huffcompress and huffexpand: a raw copy, a repeated pattern, or items with huffman codes behind a header. -/
namespace SuperNet.Utils.Huffcompress
open SuperNet.Lib.Words SuperNet.Lib.BitCodec SuperNet.Lib.Runs
open SuperNet.Utils.Huffstream SuperNet.Utils.HuffPatterns SuperNet.Utils.HuffCodes
open SuperNet.Utils.HuffRoundTrip (huffDecodeitem)

/-- The bits of `hemit_smallbits`, whose argument is a `uint16_t`. -/
def hemitSmallbits (x : Int) : List Bool :=
  let val := u16 x
  if val < 4 then leBits 3 val
  else if val < 2 ^ 5 then leBits 3 4 ++ leBits 5 val
  else if val < 2 ^ 8 then leBits 3 5 ++ leBits 8 val
  else if val < 2 ^ 12 then leBits 3 6 ++ leBits 12 val
  else leBits 3 7 ++ leBits 16 val

def hemitVarbits (val : Nat) : List Bool :=
  if val < 10 then leBits 4 val
  else if val < 2 ^ 8 then leBits 4 10 ++ leBits 8 val
  else if val < 2 ^ 10 then leBits 4 11 ++ leBits 10 val
  else if val < 2 ^ 13 then leBits 4 12 ++ leBits 13 val
  else if val < 2 ^ 16 then leBits 4 13 ++ leBits 16 val
  else if val < 2 ^ 20 then leBits 4 14 ++ leBits 20 val
  else leBits 4 15 ++ leBits 32 val

def hemitSvarbits (val : Nat) : List Bool :=
  if val < 2 ^ 16 then false :: hemitSmallbits val else true :: hemitVarbits val

def huffitemsEmit (items : List Huffitem) : List Bool :=
  false :: items.flatMap fun item =>
    hemitSmallbits item.numbits ++ leBits item.numbits item.bits ++ hemitSmallbits item.patlen ++
      (item.pattern.take item.patlen).flatMap fun b => hemitSmallbits b.toNat

/-- `hemit_header`, in which the other forms of the tree and of the items are switched off. -/
def hemitHeader (huff : Huffcode) (items : List Huffitem) : List Bool :=
  hemitSvarbits huff.numitems ++ hemitSvarbits huff.depth ++ [false] ++ hemitSmallbits 0 ++ [false] ++
    (huff.tree.take (2 * huff.depth)).flatMap hemitSmallbits ++ huffitemsEmit items

/-- `hgetbit`, with -1 at the end. -/
def hget : StateT Huff Option Int := do
  match ← getbit with
  | some bit => pure bit.toNat
  | none => pure (-1)

/-- Bit `i` of a value is joined to it; -1 sets it and all above. -/
def joinBit (val : Int) (i : Nat) (bit : Int) : Int :=
  if bit < 0 then if val < 0 then val else val - 2 ^ i else val + bit * 2 ^ i

/-- Some bits joined by `|`, the first one lowest. -/
def joinBits (n : Nat) : StateT Huff Option Int := do
  let bits ← times hget n
  pure ((bits.zipIdx).foldl (fun val bit => joinBit val bit.2 bit.1) 0)

/-- `hdecode_bits`, which takes the end for a one. -/
def hdecodeBits (n : Nat) : StateT Huff Option Nat := do
  let bits ← times hget n
  pure (leNat (bits.map fun bit => bit ≠ 0))

def hdecodeSmallbits : StateT Huff Option Nat := do
  let val ← joinBits 3
  if val < 4 then pure (u16 val)
  else if val = 4 then hdecodeBits 5
  else if val = 5 then hdecodeBits 8
  else if val = 6 then hdecodeBits 12
  else hdecodeBits 16

def hdecodeVarbits : StateT Huff Option Nat := do
  let val ← joinBits 4
  if val < 10 then pure (u32 val)
  else if val = 10 then hdecodeBits 8
  else if val = 11 then hdecodeBits 10
  else if val = 12 then hdecodeBits 13
  else if val = 13 then hdecodeBits 16
  else if val = 14 then hdecodeBits 20
  else hdecodeBits 32

def hdecodeSvarbits : StateT Huff Option Nat := do
  if (← hget) = 0 then hdecodeSmallbits else hdecodeVarbits

/-- Each entry of the tree is added to the one before. -/
def undiff : Int → List Int → List Int
  | _, [] => []
  | last, x :: xs => (last + x) :: undiff (last + x) xs

/-- `hdecode_numbers`; a tree that is written with a code of its own, as `hemit_header` never does, is not
followed. -/
def hdecodeNumbers (depth : Nat) : StateT Huff Option (List Int) := do
  let diff ← hget
  let minval ← hdecodeSmallbits
  if (← hget) = 0 then
    let vals ← times hdecodeSmallbits (2 * depth)
    let tree := vals.map fun val => signed 16 val + signed 16 minval
    pure (if diff ≠ 0 then undiff 0 tree else tree)
  else fun _ => none

def hdecodeItem : StateT Huff Option Huffitem := do
  let numbits ← hdecodeSmallbits
  let bits ← hdecodeBits numbits
  let patlen ← hdecodeSmallbits
  let pattern ← times hdecodeSmallbits (patlen % 2 ^ 5)
  pure ⟨numbits % 2 ^ 5, bits % 2 ^ 22, patlen % 2 ^ 5, 0, pattern.map fun b => b.toUInt8⟩

/-- `hdecode_items`; items in the other form are left empty. -/
def hdecodeItems (numitems : Nat) : StateT Huff Option (List Huffitem) := do
  if (← hget) = 0 then times hdecodeItem numitems else pure (List.replicate numitems ⟨0, 0, 0, 0, []⟩)

/-- `hdecode_header`; without a tree the caller follows a null pointer, and too many items are not read at all. -/
def hdecodeHeader : StateT Huff Option (Huffcode × Option (List Huffitem)) := do
  let numitems ← hdecodeSvarbits
  let depth ← hdecodeSvarbits
  if 2 ^ 16 ≤ depth then fun _ => none
  else if 2 ^ 16 ≤ numitems then pure (⟨numitems, depth, []⟩, none)
  else
    let tree ← hdecodeNumbers depth
    let items ← hdecodeItems numitems
    pure (⟨numitems, depth, tree⟩, some items)

/-- The loop of `_huffexpand` over the items; with an empty tree `huff_decodeitem` never ends. -/
def expandItems (huff : Huffcode) (items : List Huffitem) : Nat → StateT Huff Option (List UInt8)
  | 0 => fun _ => none
  | n + 1 => do
    if huff.depth = 0 then fun _ => none
    else
      match ← huffDecodeitem huff.tree huff.depth huff.numitems (some items) (n + 1) with
      | none => pure []
      | some ind =>
        let rest ← expandItems huff items n
        let item := items.getD ind ⟨0, 0, 0, 0, []⟩
        pure (item.pattern.take item.patlen ++ rest)

/-- A `uint16_t` as it lies in memory. -/
def le16 (x : Nat) : List UInt8 := [x.toUInt8, (x >>> 8).toUInt8]

/-- `_huffexpand` without a source to compare with: what it returns, and the bytes it writes. The bytes behind the
data are read when `slen` or the pattern is too long. -/
def huffexpand' (hp : Huff) (behind : List UInt8) : Option (Nat × List UInt8) :=
  let slen := (byteAt hp.buf 1).toNat + 256 * (byteAt hp.buf 2).toNat
  if byteAt hp.buf 0 = 72 then
    (hdecodeHeader hp).bind fun (header, hp') =>
      match header.2 with
      | none => some (hconvBitlen hp.endpos, [])
      | some items => (expandItems header.1 items (hp.endpos + 1) hp').map fun s => (hconvBitlen hp.endpos, s.1)
  else if byteAt hp.buf 0 = 82 then
    let patlen := (byteAt hp.buf 3).toNat
    if patlen < maxPatternlen then
      some (4 + patlen, (List.replicate slen (patAt (hp.buf ++ behind) 4 patlen)).flatten)
    else some (hconvBitlen hp.endpos, [])
  else if byteAt hp.buf 0 = 80 then some (slen, patAt (hp.buf ++ behind) 3 slen)
  else some (hconvBitlen hp.endpos, [])

def dataStream (data : List UInt8) (h : 8 * data.length < 2 ^ 32) : Huff :=
  .over data (data.length <<< 3) h

/-- `huffexpand`: what it returns, and the bytes it writes to its destination. -/
def huffexpand (data behind : List UInt8) : Option (Int × List UInt8) :=
  if h : 8 * data.length < 2 ^ 32 then
    let hp := hputs (hseek (dataStream data h) 8 .set).1 (leBits 16 data.length)
    let hp := (hseek (hrewind hp) 24 .cur).1
    (huffexpand' hp behind).map fun r => (0, r.2)
  else none

/-- The code of the pattern that starts at a mark. -/
def markBits (hstats : Huffstats) (items : List Huffitem) (mark : Nat) : List Bool :=
  if mark = 0 ∨ mark >>> 1 &&& 0x7f ≠ 0 then []
  else
    match hstats.used.findIdx? fun u => u.1 = mark >>> 8 &&& 0xff ∧ u.2.1 = mark >>> 16 &&& 0xffff with
    | none => []
    | some ind =>
      let item := items.getD ind ⟨0, 0, 0, 0, []⟩
      leBits item.numbits item.bits

def hclear (hp : Huff) : Huff :=
  let hp := (hupdateInternals { hp with bitoffset := 0 }).1
  { hp with endpos := 0 }

/-- `huffencode`, whose check of the result only prints. -/
def huffencode (hp : Huff) (hstats : Huffstats) (huff : Huffcode) (items : List Huffitem) : Nat × List UInt8 :=
  let hp := (hseek (hputs (hclear hp) (leBits 8 72)) 16 .cur).1
  let hp := hputs hp (hemitHeader huff items)
  let hp := hputs hp (hstats.marked.flatMap (markBits hstats items))
  let newlen := hconvBitlen hp.bitoffset
  if 0 < huff.depth then
    let hp := (hseek { hp with endpos := hp.bitoffset } 8 .set).1
    (newlen, (hputs hp (leBits 16 newlen)).buf)
  else (newlen, hp.buf)

def itemOf (src : List UInt8) (hstats : Huffstats) (u : Nat × Nat × Nat) : Huffitem :=
  ⟨0, 0, u.1, u.2.2 * u.1, patAt src ((hstats.ptrs.getD u.1 []).getD u.2.1 0) u.1⟩

/-- What `huffsetitems` writes for the first pattern: it is repeated `freq` times. -/
def repeated (freq : Nat) (item : Huffitem) : List UInt8 := 82 :: le16 freq ++ item.patlen.toUInt8 :: item.pattern

def passthrough (src : List UInt8) : List UInt8 := 80 :: le16 src.length ++ src

/-- The tables of `huffcompress` have room for sources and patterns of these lengths. -/
def InTables (src : List UInt8) (maxpatlen : Nat) : Prop := src.length ≤ 65536 ∧ maxpatlen ≤ maxPatternlen

instance (src : List UInt8) (maxpatlen : Nat) : Decidable (InTables src maxpatlen) := inferInstanceAs (Decidable (_ ∧ _))

/-- `huffcompress` into the bytes `dest`: what it returns and leaves there. -/
def huffcompress (dest src : List UInt8) (maxpatlen : Int) : Option (Int × List UInt8) :=
  let maxpatlen := (max 1 maxpatlen).toNat
  if 262144 < src.length then some (-1, dest)
  else if h : InTables src maxpatlen ∧ 8 * dest.length < 2 ^ 32 then
    let hstats := huffSetmarked src maxpatlen (huffFindpatterns src maxpatlen)
    match hstats.used with
    | [] => some (-1, List.replicate dest.length 0)
    | u :: us =>
      let items := (u :: us).map (itemOf src hstats)
      let start := repeated u.2.2 (itemOf src hstats u)
      if hstart : start.length ≤ dest.length then
        let hp : Huff :=
          { buf := start ++ List.replicate (dest.length - start.length) 0
            allocsize := dest.length
            ptr := start.length
            maski := 0
            bitoffset := 8 * start.length
            endpos := 8 * start.length
            buf_length := by rw [List.length_append, List.length_replicate]; omega
            addressable := h.2 }
        let coded := huffCreate items
        let r := if us = [] then (start.length, hp.buf) else huffencode hp hstats coded.1 coded.2
        if src.length ≤ r.1 then
          if (passthrough src).length ≤ dest.length then
            some ((passthrough src).length, passthrough src ++ r.2.drop (passthrough src).length)
          else none
        else some (r.1, r.2)
      else none
  else none

private theorem leBits_getD (n x k : Nat) (hk : k < n) : (leBits n x).getD k false = x.testBit k := by
  induction n generalizing x k with
  | zero => exact absurd hk (Nat.not_lt_zero k)
  | succ n ih =>
    cases k with
    | zero => rw [leBits, List.getD_cons_zero, Nat.testBit_zero]
    | succ k => rw [leBits, List.getD_cons_succ, ih _ _ (Nat.lt_of_succ_lt_succ hk), Nat.testBit_succ]

/-- The second and the third byte of some data. -/
def putLength (data : List UInt8) (n : Nat) : List UInt8 := data.take 1 ++ le16 n ++ data.drop 3

private theorem dataStream_seek (data : List UInt8) (h : 8 * data.length < 2 ^ 32) (hlength : 4 ≤ data.length) :
    (hseek (dataStream data h) 8 .set).1.Synced ∧ (hseek (dataStream data h) 8 .set).1.bitoffset = 8 ∧
      (hseek (dataStream data h) 8 .set).1.allocsize = data.length ∧
      (hseek (dataStream data h) 8 .set).1.buf = data := by
  have hu : u32 8 = 8 := by decide
  have hpast : ¬ 1 > data.length := by omega
  refine ⟨⟨?_, ?_, ?_⟩, ?_, rfl, rfl⟩
  all_goals simp [hseek, hupdateInternals, dataStream, Huff.over, hu, hpast]
  omega

/-- `huffexpand` overwrites the length that the compressor stored. -/
theorem hputs_dataStream (data : List UInt8) (h : 8 * data.length < 2 ^ 32) (hlength : 4 ≤ data.length) (n : Nat) :
    (hputs (hseek (dataStream data h) 8 .set).1 (leBits 16 n)).buf = putLength data n := by
  obtain ⟨hs, hoff, halloc, hbuf⟩ := dataStream_seek data h hlength
  obtain ⟨-, -, halloc', -, hbits⟩ := hputs_spec hs (leBits 16 n) (by rw [hoff, halloc, leBits_length]; omega)
  have hput : (putLength data n).length = data.length := by
    simp [putLength, le16]
    omega
  change _ = (dataStream (putLength data n) (hput ▸ h)).buf
  refine Huff.buf_eq (halloc'.trans (halloc.trans hput.symm)) fun i => ?_
  rw [hbits, hoff, leBits_length, Huff.bitAt, Huff.bitAt, hbuf]
  change _ = ((putLength data n).getD (i / 8) 0).toNat.testBit (i % 8)
  obtain ⟨b0, b1, b2, rest, rfl⟩ : ∃ b0 b1 b2 rest, data = b0 :: b1 :: b2 :: rest := by
    rcases data with _ | ⟨b0, _ | ⟨b1, _ | ⟨b2, rest⟩⟩⟩
    · exact absurd hlength (by simp)
    · exact absurd hlength (by simp)
    · exact absurd hlength (by simp)
    · exact ⟨b0, b1, b2, rest, rfl⟩
  rcases Nat.lt_or_ge i 8 with hi | hi
  · have hdiv : i / 8 = 0 := by omega
    rw [if_neg (by omega), hdiv]
    rfl
  rcases Nat.lt_or_ge i 16 with hi' | hi'
  · have hdiv : i / 8 = 1 := by omega
    have hmod : i - 8 = i % 8 := by omega
    rw [if_pos (by omega), leBits_getD _ _ _ (by omega), hdiv, hmod]
    change _ = (n.toUInt8).toNat.testBit (i % 8)
    rw [UInt8.toNat_ofNat', Nat.testBit_mod_two_pow, decide_eq_true (by omega), Bool.true_and]
  rcases Nat.lt_or_ge i 24 with hi'' | hi''
  · have hdiv : i / 8 = 2 := by omega
    have hmod : i - 8 = 8 + i % 8 := by omega
    rw [if_pos (by omega), leBits_getD _ _ _ (by omega), hdiv, hmod]
    change _ = ((n >>> 8).toUInt8).toNat.testBit (i % 8)
    rw [UInt8.toNat_ofNat', Nat.testBit_mod_two_pow, decide_eq_true (by omega), Bool.true_and, Nat.testBit_shiftRight]
  · obtain ⟨k, hk⟩ : ∃ k, i / 8 = k + 3 := ⟨i / 8 - 3, by omega⟩
    rw [if_neg (by omega), hk]
    rfl

private theorem le16_value (n : Nat) : n.toUInt8.toNat + 256 * (n >>> 8).toUInt8.toNat = n % 65536 := by
  rw [UInt8.toNat_ofNat', UInt8.toNat_ofNat', Nat.shiftRight_eq_div_pow]
  omega

private theorem expand_raw {hp : Huff} {behind rest : List UInt8} {b1 b2 : UInt8} (hbuf : hp.buf = 80 :: b1 :: b2 :: rest) :
    huffexpand' hp behind = some (b1.toNat + 256 * b2.toNat, (rest ++ behind).take (b1.toNat + 256 * b2.toNat)) := by
  have h72 : (80 : UInt8) ≠ 72 := by decide
  have h82 : (80 : UInt8) ≠ 82 := by decide
  simp only [huffexpand', hbuf, byteAt, List.getD_cons_zero, List.getD_cons_succ, if_neg h72, if_neg h82, if_true,
    patAt, List.cons_append, List.drop_succ_cons, List.drop_zero]

private theorem expand_run (behind : List UInt8) {hp : Huff} {rest : List UInt8} {b1 b2 b3 : UInt8}
    (hbuf : hp.buf = 82 :: b1 :: b2 :: b3 :: rest) : (huffexpand' hp behind).map Prod.snd = some
      (if b3.toNat < maxPatternlen then
        (List.replicate (b1.toNat + 256 * b2.toNat) ((rest ++ behind).take b3.toNat)).flatten
      else []) := by
  have h72 : (82 : UInt8) ≠ 72 := by decide
  simp only [huffexpand', hbuf, byteAt, List.getD_cons_zero, List.getD_cons_succ, if_neg h72, if_true,
    patAt, List.cons_append, List.drop_succ_cons, List.drop_zero]
  split
  · rfl
  · rfl

private theorem hseek_buf (hp : Huff) (offset : Int) (mode : SeekMode) : (hseek hp offset mode).1.buf = hp.buf := rfl

private theorem huffexpand_eq (data behind : List UInt8) (h : 8 * data.length < 2 ^ 32) (hlength : 4 ≤ data.length) :
    ∃ hp : Huff, hp.buf = putLength data data.length ∧
      huffexpand data behind = (huffexpand' hp behind).map fun r => (0, r.2) := by
  refine ⟨(hseek (hrewind (hputs (hseek (dataStream data h) 8 .set).1 (leBits 16 data.length))) 24 .cur).1, ?_, ?_⟩
  · rw [hseek_buf, (hrewind_synced _).2.2.2, hputs_dataStream data h hlength]
  · rw [huffexpand, dif_pos h]

theorem passthrough_length (src : List UInt8) : (passthrough src).length = src.length + 3 := by
  simp [passthrough, le16]

theorem repeated_length (freq : Nat) (item : Huffitem) : (repeated freq item).length = item.pattern.length + 4 := by
  simp [repeated, le16]

/-- A raw copy comes back with as many bytes as the copy and its header have, modulo 2^16. -/
theorem huffexpand_passthrough {src behind : List UInt8} (hsrc : 0 < src.length) (h : 8 * (src.length + 3) < 2 ^ 32) :
    huffexpand (passthrough src) behind = some (0, (src ++ behind).take ((src.length + 3) % 65536)) := by
  have hlength := passthrough_length src
  obtain ⟨hp, hbuf, heq⟩ := huffexpand_eq (passthrough src) behind (by omega) (by omega)
  have hput (n : Nat) : putLength (passthrough src) n = 80 :: n.toUInt8 :: (n >>> 8).toUInt8 :: src := rfl
  rw [heq, expand_raw (hbuf.trans (hput _)), le16_value, hlength, Option.map_some]

/-- A repeated pattern comes back as often as the data are long, and not at all if it has the greatest length. -/
theorem huffexpand_repeated {freq : Nat} {item : Huffitem} {behind : List UInt8}
    (hpat : item.pattern.length = item.patlen) (hle : item.patlen ≤ maxPatternlen) :
    huffexpand (repeated freq item) behind = some (0, if item.patlen < maxPatternlen then
      (List.replicate (repeated freq item).length item.pattern).flatten else []) := by
  have hlength := repeated_length freq item
  have hmax : item.patlen ≤ 30 := hle
  have hpatlen : item.patlen.toUInt8.toNat = item.patlen := by
    rw [UInt8.toNat_ofNat', Nat.mod_eq_of_lt (by omega)]
  obtain ⟨hp, hbuf, heq⟩ := huffexpand_eq (repeated freq item) behind (by omega) (by omega)
  have hpattern : (item.pattern ++ behind).take item.patlen = item.pattern := by
    rw [← hpat, List.take_left]
  have hput (n : Nat) : putLength (repeated freq item) n =
      82 :: n.toUInt8 :: (n >>> 8).toUInt8 :: item.patlen.toUInt8 :: item.pattern := rfl
  have hrun := expand_run behind (hbuf.trans (hput _))
  rw [le16_value, hpatlen, hpattern, Nat.mod_eq_of_lt (by omega)] at hrun
  obtain ⟨r, hr, hr'⟩ := Option.map_eq_some_iff.mp hrun
  rw [heq, hr, Option.map_some, hr']

private theorem itemOf_length {src : List UInt8} {hstats : Huffstats} {u : Nat × Nat × Nat}
    (h : (hstats.ptrs.getD u.1 []).getD u.2.1 0 + u.1 ≤ src.length) :
    (itemOf src hstats u).pattern.length = (itemOf src hstats u).patlen := by
  change (patAt src _ u.1).length = u.1
  rw [patAt, List.length_take, List.length_drop]
  omega

/-- The forms of what `huffcompress` leaves when it reports success. -/
theorem huffcompress_cases {dest src out : List UInt8} {maxpatlen newlen : Int}
    (h : huffcompress dest src maxpatlen = some (newlen, out)) (hok : 0 ≤ newlen) :
    out.take newlen.toNat = passthrough src ∨
    (∃ freq item, item.pattern.length = item.patlen ∧ item.patlen ≤ maxPatternlen ∧ newlen < src.length ∧
      newlen.toNat = (repeated freq item).length ∧ out.take newlen.toNat = repeated freq item) ∨
    (∃ hp hstats items, 1 < items.length ∧ newlen < src.length ∧
      huffencode hp hstats (huffCreate items).1 (huffCreate items).2 = (newlen.toNat, out)) := by
  rw [huffcompress] at h
  dsimp only at h
  split at h
  case isTrue =>
    cases h
    exact absurd hok (by decide)
  case isFalse =>
    split at h
    case isFalse => cases h
    case isTrue htables =>
      split at h
      case h_1 =>
        cases h
        exact absurd hok (by decide)
      case h_2 u us hused =>
        split at h
        case isFalse => cases h
        case isTrue hstart =>
          generalize hr : (if us = [] then _ else _ : Nat × List UInt8) = r at h
          split at h
          case isTrue =>
            split at h
            case isFalse => cases h
            case isTrue =>
              cases h
              exact .inl (List.take_left' rfl)
          case isFalse hshort =>
            cases h
            have hlt : (r.1 : Int) < src.length := by omega
            split at hr
            case isTrue =>
              obtain ⟨hle, hfits⟩ := used_inSource (hused ▸ List.mem_cons_self (a := u) (l := us))
              subst hr
              exact .inr (.inl ⟨u.2.2, itemOf src _ u, itemOf_length hfits, hle.trans htables.1.2, hlt, rfl,
                List.take_left' rfl⟩)
            case isFalse hus =>
              refine .inr (.inr ⟨_, _, _, ?_, hlt, hr⟩)
              rw [List.length_map, List.length_cons]
              have := List.length_pos_iff.mpr hus
              omega

/-- The source comes back at the start of what `huffexpand` writes. -/
def ComesBack (src out behind : List UInt8) : Prop := ∃ r, huffexpand out behind = some r ∧ r.2.take src.length = src

/-- `huffexpand` returns the length of the source and writes the source. -/
def RoundTrips (src out behind : List UInt8) : Prop :=
  ∃ bytes, huffexpand out behind = some ((src.length : Int), bytes) ∧ bytes.take src.length = src

theorem huffexpand_returns {data behind bytes : List UInt8} {n : Int} (h : huffexpand data behind = some (n, bytes)) :
    n = 0 := by
  rw [huffexpand] at h
  split at h
  case isTrue =>
    obtain ⟨r, -, hr⟩ := Option.map_eq_some_iff.mp h
    cases hr
    rfl
  case isFalse => exact nomatch h

theorem passthrough_comesBack_iff {src behind : List UInt8} (hsrc : 1 ≤ src.length ∧ src.length ≤ 65535) :
    ComesBack src (passthrough src) behind ↔ src.length < 65533 := by
  have hexpand : huffexpand (passthrough src) behind = _ := huffexpand_passthrough hsrc.1 (by omega)
  constructor
  · rintro ⟨r, hr, htake⟩
    rw [hexpand, Option.some.injEq] at hr
    subst hr
    have hlength := congrArg List.length htake
    rw [List.length_take, List.length_take] at hlength
    omega
  · intro hlt
    refine ⟨_, hexpand, ?_⟩
    rw [List.take_take, min_eq_left (by omega), List.take_left]

/-- No source makes the round trip, whatever the compressor chooses: the length is lost. The bytes of a raw copy come
back if it is not too long, and a repeated pattern comes back a wrong number of times. -/
theorem never_round_trips {dest src out : List UInt8} {maxpatlen newlen : Int}
    (hsrc : 1 ≤ src.length ∧ src.length ≤ 65535) (h : huffcompress dest src maxpatlen = some (newlen, out))
    (hok : 0 ≤ newlen) (behind : List UInt8) :
    ¬ RoundTrips src (out.take newlen.toNat) behind ∧
      ((out.take newlen.toNat = passthrough src ∧
          (ComesBack src (out.take newlen.toNat) behind ↔ src.length < 65533)) ∨
        (∃ freq item, out.take newlen.toNat = repeated freq item ∧ newlen < src.length ∧
          huffexpand (out.take newlen.toNat) behind = some (0, if item.patlen < maxPatternlen then
            (List.replicate newlen.toNat item.pattern).flatten else [])) ∨
        (∃ hp hstats items, 1 < items.length ∧ newlen < src.length ∧
          huffencode hp hstats (huffCreate items).1 (huffCreate items).2 = (newlen.toNat, out))) := by
  refine ⟨fun ⟨bytes, hbytes, _⟩ => ?_, ?_⟩
  · have hzero := huffexpand_returns hbytes
    omega
  · rcases huffcompress_cases h hok with hraw | ⟨freq, item, hpat, hle, hlt, hlength, hrep⟩ | hcoded
    · exact .inl ⟨hraw, hraw ▸ passthrough_comesBack_iff hsrc⟩
    · refine .inr (.inl ⟨freq, item, hrep, hlt, ?_⟩)
      rw [hrep, huffexpand_repeated hpat hle, hlength]
    · exact .inr (.inr hcoded)

/-- One byte, twelve times. -/
def twelve : List UInt8 := List.replicate 12 97

private theorem huffcompress_twelve : huffcompress (List.replicate 16 0) twelve 1 =
    some (5, [82, 12, 0, 1, 97, 0, 0, 0, 0, 0, 0, 0, 0, 0, 0, 0]) := by decide +kernel

theorem twelve_compressed : huffcompress (List.replicate 16 0) twelve 1 =
      some (5, [82, 12, 0, 1, 97, 0, 0, 0, 0, 0, 0, 0, 0, 0, 0, 0]) ∧
    ¬ RoundTrips twelve [82, 12, 0, 1, 97] [] :=
  ⟨huffcompress_twelve, (never_round_trips (by decide) huffcompress_twelve (by decide) []).1⟩

theorem twelve_become_five : huffcompress (List.replicate 16 0) twelve 1 =
      some (5, [82, 12, 0, 1, 97, 0, 0, 0, 0, 0, 0, 0, 0, 0, 0, 0]) ∧
    huffexpand [82, 12, 0, 1, 97] [] = some (0, List.replicate 5 97) ∧
    ¬ RoundTrips twelve [82, 12, 0, 1, 97] [] := by
  have hexpand : huffexpand [82, 12, 0, 1, 97] [] = some (0, List.replicate 5 97) := by decide +kernel
  refine ⟨huffcompress_twelve, hexpand, fun ⟨bytes, hbytes, _⟩ => ?_⟩
  have hzero := huffexpand_returns hbytes
  exact absurd hzero (by decide)

end SuperNet.Utils.Huffcompress
