import SuperNet.Utils.Huffcompress

/-! The integer codes of huffstream.c with the numbers of bits that they report. -/
namespace SuperNet.Utils.HuffstreamValues
open SuperNet.Lib.Words SuperNet.Lib.BitCodec SuperNet.Lib.Runs
open SuperNet.Utils.Huffstream
open SuperNet.Utils.Huffcompress (hget joinBit joinBits)

def hemitBits (hp : Huff) (val numbits : Nat) : Huff × Nat :=
  (rounds (fun hp i => (hputbit hp (val.testBit i)).1) hp numbits, numbits)

/-- A class and then the value in the width of the class. -/
def hemitClass (hp : Huff) (cls clsbits val numbits : Nat) : Huff × Nat :=
  let head := hemitBits hp cls clsbits
  let body := hemitBits head.1 val numbits
  (body.1, head.2 + body.2)

def hemitSmallbits (hp : Huff) (val : UInt16) : Huff × Nat :=
  let val := val.toNat
  if val ≥ 4 then
    if val < 1 <<< 5 then hemitClass hp 4 3 val 5
    else if val < 1 <<< 8 then hemitClass hp 5 3 val 8
    else if val < 1 <<< 12 then hemitClass hp 6 3 val 12
    else hemitClass hp 7 3 val 16
  else hemitBits hp val 3

def hemitVarbits (hp : Huff) (val : UInt32) : Huff × Nat :=
  let val := val.toNat
  if val ≥ 10 then
    if val < 1 <<< 8 then hemitClass hp 10 4 val 8
    else if val < 1 <<< 10 then hemitClass hp 11 4 val 10
    else if val < 1 <<< 13 then hemitClass hp 12 4 val 13
    else if val < 1 <<< 16 then hemitClass hp 13 4 val 16
    else if val < 1 <<< 20 then hemitClass hp 14 4 val 20
    else hemitClass hp 15 4 val 32
  else hemitBits hp val 4

/-- `hemit_svarbits`; the bit in front is not counted. -/
def hemitSvarbits (hp : Huff) (val : UInt32) : Huff × Nat :=
  if val.toNat < 1 <<< 16 then hemitSmallbits (hputbit hp false).1 val.toUInt16
  else hemitVarbits (hputbit hp true).1 val

def hemitValuebits (hp : Huff) (value : UInt64) : Huff × Nat :=
  let low := hemitVarbits hp (value &&& 0xffffffff).toUInt32
  let high := hemitVarbits low.1 (value >>> 32 &&& 0xffffffff).toUInt32
  (high.1, low.2 + high.2)

abbrev Rd := StateT Huff Option

def hdecodeBits (numbits : Nat) : Rd (Nat × Nat) := do
  let val ← Huffcompress.hdecodeBits numbits
  pure (val, numbits)

def hdecodeSmallbits : Rd (UInt16 × Nat) := do
  let val ← joinBits 3
  if val < 4 then pure (UInt16.ofNat (u16 val), 3)
  else
    let s ← if val = 4 then hdecodeBits 5
      else if val = 5 then hdecodeBits 8
      else if val = 6 then hdecodeBits 12
      else hdecodeBits 16
    pure (UInt16.ofNat s.1, 3 + s.2)

def hdecodeVarbits : Rd (UInt32 × Nat) := do
  let val ← joinBits 4
  if val < 10 then pure (UInt32.ofNat (u32 val), 4)
  else
    let s ← if val = 10 then hdecodeBits 8
      else if val = 11 then hdecodeBits 10
      else if val = 12 then hdecodeBits 13
      else if val = 13 then hdecodeBits 16
      else if val = 14 then hdecodeBits 20
      else hdecodeBits 32
    pure (UInt32.ofNat s.1, 4 + s.2)

def hdecodeSvarbits : Rd (UInt32 × Nat) := do
  if (← hget) = 0 then
    let s ← hdecodeSmallbits
    pure (s.1.toUInt32, s.2)
  else hdecodeVarbits

def hdecodeValuebits : Rd (UInt64 × Nat) := do
  let low ← hdecodeVarbits
  let high ← hdecodeVarbits
  pure (low.1.toUInt64 ||| high.1.toUInt64 <<< 32, low.2 + high.2)

/-- A value for one of the four codes. -/
inductive Value where
  | smallbits (val : UInt16)
  | varbits (val : UInt32)
  | svarbits (val : UInt32)
  | valuebits (val : UInt64)

inductive Code where
  | smallbits
  | varbits
  | svarbits
  | valuebits

def Value.code : Value → Code
  | .smallbits _ => .smallbits
  | .varbits _ => .varbits
  | .svarbits _ => .svarbits
  | .valuebits _ => .valuebits

def Value.hemit (hp : Huff) : Value → Huff × Nat
  | .smallbits val => hemitSmallbits hp val
  | .varbits val => hemitVarbits hp val
  | .svarbits val => hemitSvarbits hp val
  | .valuebits val => hemitValuebits hp val

def Code.hdecode : Code → Rd (Value × Nat)
  | .smallbits => do
    let r ← hdecodeSmallbits
    pure (.smallbits r.1, r.2)
  | .varbits => do
    let r ← hdecodeVarbits
    pure (.varbits r.1, r.2)
  | .svarbits => do
    let r ← hdecodeSvarbits
    pure (.svarbits r.1, r.2)
  | .valuebits => do
    let r ← hdecodeValuebits
    pure (.valuebits r.1, r.2)

/-- Values written one after another, each with the count returned and the bits that the cursor has moved. -/
def hemits (hp : Huff) : List Value → Huff × List ((Value × Nat) × Nat)
  | [] => (hp, [])
  | v :: vs =>
    let r := v.hemit hp
    let rest := hemits r.1 vs
    (rest.1, ((v, r.2), r.1.bitoffset - hp.bitoffset) :: rest.2)

def hdecodes (codes : List Code) : Rd (List ((Value × Nat) × Nat)) := inTurn (codes.map fun c => measured c.hdecode)

def Value.bits : Value → List Bool
  | .smallbits val => Huffcompress.hemitSmallbits val.toNat
  | .varbits val => Huffcompress.hemitVarbits val.toNat
  | .svarbits val => Huffcompress.hemitSvarbits val.toNat
  | .valuebits val =>
    Huffcompress.hemitVarbits (val.toNat % 2^32) ++ Huffcompress.hemitVarbits (val.toNat / 2^32)

def Value.count : Value → Nat
  | .svarbits val => (Value.svarbits val).bits.length - 1
  | .smallbits val => (Value.smallbits val).bits.length
  | .varbits val => (Value.varbits val).bits.length
  | .valuebits val => (Value.valuebits val).bits.length

section Emit
variable (hp : Huff)

theorem hemitBits_eq (val numbits : Nat) : hemitBits hp val numbits = (hputs hp (leBits numbits val), numbits) := by
  rw [hemitBits, hputs, leBits_eq_map, List.foldl_map]
  rfl

theorem hemitClass_eq (cls clsbits val numbits : Nat) : hemitClass hp cls clsbits val numbits =
    (hputs hp (leBits clsbits cls ++ leBits numbits val), (leBits clsbits cls ++ leBits numbits val).length) := by
  rw [hemitClass, hemitBits_eq, hemitBits_eq, List.length_append, leBits_length, leBits_length, hputs, hputs, hputs,
    List.foldl_append]

theorem hemitSmallbits_eq (val : UInt16) : hemitSmallbits hp val =
    (hputs hp (Huffcompress.hemitSmallbits val.toNat), (Huffcompress.hemitSmallbits val.toNat).length) := by
  have hval : u16 (val.toNat : Int) = val.toNat := unsigned_of_lt (w := 16) val.toNat_lt
  simp only [hemitSmallbits, Huffcompress.hemitSmallbits, hval, hemitClass_eq, hemitBits_eq, Nat.one_shiftLeft]
  by_cases h4 : val.toNat < 4
  · rw [if_neg (by omega), if_pos h4, leBits_length]
  · rw [if_pos (by omega), if_neg h4]
    split
    · rfl
    · split
      · rfl
      · split <;> rfl

theorem hemitVarbits_eq (val : UInt32) : hemitVarbits hp val =
    (hputs hp (Huffcompress.hemitVarbits val.toNat), (Huffcompress.hemitVarbits val.toNat).length) := by
  simp only [hemitVarbits, Huffcompress.hemitVarbits, hemitClass_eq, hemitBits_eq, Nat.one_shiftLeft]
  by_cases h10 : val.toNat < 10
  · rw [if_neg (by omega), if_pos h10, leBits_length]
  · rw [if_pos (by omega), if_neg h10]
    repeat' split
    all_goals rfl

theorem Value.hemit_eq (v : Value) : v.hemit hp = (hputs hp v.bits, v.count) := by
  cases v with
  | smallbits val => exact hemitSmallbits_eq hp val
  | varbits val => exact hemitVarbits_eq hp val
  | svarbits val =>
    rw [Value.hemit, hemitSvarbits, Value.count, Value.bits, Huffcompress.hemitSvarbits, Nat.one_shiftLeft]
    split
    case isTrue h =>
      have hval : val.toUInt16.toNat = val.toNat := by
        rw [UInt32.toNat_toUInt16, Nat.mod_eq_of_lt h]
      rw [hemitSmallbits_eq, hval]
      rfl
    case isFalse =>
      rw [hemitVarbits_eq]
      rfl
  | valuebits val =>
    have hmask : (0xffffffff : UInt64).toNat = 2^32 - 1 := rfl
    have hlow : (val &&& 0xffffffff).toUInt32.toNat = val.toNat % 2^32 := by
      rw [UInt64.toNat_toUInt32, UInt64.toNat_and, hmask, Nat.and_two_pow_sub_one_eq_mod, Nat.mod_mod]
    have hhigh : (val >>> 32 &&& 0xffffffff).toUInt32.toNat = val.toNat / 2^32 := by
      have hdiv : val.toNat / 2^32 < 2^32 := Nat.div_lt_of_lt_mul val.toNat_lt
      have hshift : (val >>> 32).toNat = val.toNat / 2^32 := by
        rw [UInt64.toNat_shiftRight, Nat.shiftRight_eq_div_pow]
        rfl
      rw [UInt64.toNat_toUInt32, UInt64.toNat_and, hmask, hshift, Nat.and_two_pow_sub_one_eq_mod, Nat.mod_mod,
        Nat.mod_eq_of_lt hdiv]
    rw [Value.hemit, hemitValuebits, hemitVarbits_eq, hemitVarbits_eq, hlow, hhigh, Value.count, Value.bits,
      List.length_append, hputs, hputs, hputs, List.foldl_append]

end Emit

section Decode

theorem hget_parses (b : Bool) : Parses Huff.Ahead hget [b] (b.toNat : Int) :=
  (getbit_parses b).bind (Parses.pure _)

theorem hgets_parses (bs : List Bool) :
    Parses Huff.Ahead (times hget bs.length) bs (bs.map fun b => (b.toNat : Int)) := by
  induction bs with
  | nil => exact Parses.pure []
  | cons b bs ih => exact (hget_parses b).times_succ ih

theorem foldl_joinBit (bs : List Bool) (i : Nat) (val : Int) :
    ((bs.map fun b => (b.toNat : Int)).zipIdx i).foldl (fun val bit => joinBit val bit.2 bit.1) val =
      val + 2^i * leNat bs := by
  induction bs generalizing i val with
  | nil => simp [leNat]
  | cons b bs ih =>
    have hbit : joinBit val i (b.toNat : Int) = val + b.toNat * 2^i := if_neg (by omega)
    rw [List.map_cons, List.zipIdx_cons, List.foldl_cons, ih, hbit, leNat]
    push_cast
    ring

theorem joinBits_parses {n x : Nat} (hx : x < 2^n) : Parses Huff.Ahead (joinBits n) (leBits n x) (x : Int) := by
  have hbits := hgets_parses (leBits n x)
  rw [leBits_length] at hbits
  have hmap := hbits.map fun bits => bits.zipIdx.foldl (fun val bit => joinBit val bit.2 bit.1) 0
  rw [foldl_joinBit, leNat_leBits_of_lt hx, pow_zero, one_mul, zero_add] at hmap
  exact hmap

theorem hdecodeBits_parses {n x : Nat} (hx : x < 2^n) : Parses Huff.Ahead (hdecodeBits n) (leBits n x) (x, n) := by
  have hbits := hgets_parses (leBits n x)
  rw [leBits_length] at hbits
  have hmap := hbits.map fun bits => leNat (bits.map fun bit => bit ≠ 0)
  have hone : (fun b : Bool => decide ((b.toNat : Int) ≠ 0)) = id := by
    funext b
    cases b <;> rfl
  rw [List.map_map, Function.comp_def, hone, List.map_id, leNat_leBits_of_lt hx] at hmap
  exact hmap.map fun val => (val, n)

/-- A class that is the value. -/
theorem small_parses {α : Type} {q : Int → Rd α} {r : α} {val numbits : Nat} (hval : val < 2^numbits)
    (hq : q val = pure r) : Parses Huff.Ahead (joinBits numbits >>= q) (leBits numbits val) r := by
  have hbind := (joinBits_parses hval).bind (q := q) (hq ▸ Parses.pure r)
  rw [List.append_nil] at hbind
  exact hbind

/-- A class and a value in its width. -/
theorem class_parses {α : Type} {q : Int → Rd (α × Nat)} {f : Nat → α} {cls clsbits val numbits : Nat} {v : α}
    (hcls : cls < 2^clsbits) (hval : val < 2^numbits) (hv : f val = v)
    (hq : q cls = hdecodeBits numbits >>= fun s => pure (f s.1, clsbits + s.2)) :
    Parses Huff.Ahead (joinBits clsbits >>= q) (leBits clsbits cls ++ leBits numbits val)
      (v, (leBits clsbits cls ++ leBits numbits val).length) := by
  rw [List.length_append, leBits_length, leBits_length, ← hv]
  apply (joinBits_parses hcls).bind
  rw [hq]
  exact (hdecodeBits_parses hval).map fun s => (f s.1, clsbits + s.2)

theorem hdecodeSmallbits_parses (val : UInt16) : Parses Huff.Ahead hdecodeSmallbits
    (Huffcompress.hemitSmallbits val.toNat) (val, (Huffcompress.hemitSmallbits val.toNat).length) := by
  have hlt := val.toNat_lt
  have hval : u16 (val.toNat : Int) = val.toNat := unsigned_of_lt (w := 16) hlt
  have hback : UInt16.ofNat val.toNat = val := UInt16.ofNat_toNat
  rw [Huffcompress.hemitSmallbits, hval, hdecodeSmallbits]
  split
  case isTrue h4 =>
    have hsmall : (val.toNat : Int) < 4 := by exact_mod_cast h4
    rw [leBits_length]
    exact small_parses (by omega) (by rw [if_pos hsmall, hval, hback])
  case isFalse =>
    split
    case isTrue h5 => exact class_parses (f := UInt16.ofNat) (by decide) h5 hback rfl
    case isFalse =>
      split
      case isTrue h8 => exact class_parses (f := UInt16.ofNat) (by decide) h8 hback rfl
      case isFalse =>
        split
        case isTrue h12 => exact class_parses (f := UInt16.ofNat) (by decide) h12 hback rfl
        case isFalse => exact class_parses (f := UInt16.ofNat) (by decide) hlt hback rfl

theorem hdecodeVarbits_parses (val : UInt32) : Parses Huff.Ahead hdecodeVarbits
    (Huffcompress.hemitVarbits val.toNat) (val, (Huffcompress.hemitVarbits val.toNat).length) := by
  have hlt := val.toNat_lt
  have hval : u32 (val.toNat : Int) = val.toNat := unsigned_of_lt (w := 32) hlt
  have hback : UInt32.ofNat val.toNat = val := UInt32.ofNat_toNat
  rw [Huffcompress.hemitVarbits, hdecodeVarbits]
  split
  case isTrue h10 =>
    have hsmall : (val.toNat : Int) < 10 := by exact_mod_cast h10
    rw [leBits_length]
    exact small_parses (by omega) (by rw [if_pos hsmall, hval, hback])
  case isFalse =>
    split
    case isTrue h => exact class_parses (f := UInt32.ofNat) (by decide) h hback rfl
    case isFalse =>
      split
      case isTrue h => exact class_parses (f := UInt32.ofNat) (by decide) h hback rfl
      case isFalse =>
        split
        case isTrue h => exact class_parses (f := UInt32.ofNat) (by decide) h hback rfl
        case isFalse =>
          split
          case isTrue h => exact class_parses (f := UInt32.ofNat) (by decide) h hback rfl
          case isFalse =>
            split
            case isTrue h => exact class_parses (f := UInt32.ofNat) (by decide) h hback rfl
            case isFalse => exact class_parses (f := UInt32.ofNat) (by decide) hlt hback rfl

theorem hdecodeSvarbits_parses (val : UInt32) : Parses Huff.Ahead hdecodeSvarbits
    (Huffcompress.hemitSvarbits val.toNat) (val, (Huffcompress.hemitSvarbits val.toNat).length - 1) := by
  rw [Huffcompress.hemitSvarbits]
  split
  case isTrue h =>
    have hval : val.toUInt16.toNat = val.toNat := by rw [UInt32.toNat_toUInt16, Nat.mod_eq_of_lt h]
    have hback : val.toUInt16.toUInt32 = val := by
      apply UInt32.toNat_inj.mp
      rw [UInt16.toNat_toUInt32, hval]
    have hsmall := (hdecodeSmallbits_parses val.toUInt16).map fun s => (s.1.toUInt32, s.2)
    rw [hval, hback] at hsmall
    exact (hget_parses false).bind hsmall
  case isFalse => exact (hget_parses true).bind (hdecodeVarbits_parses val)

theorem hdecodeValuebits_parses (val : UInt64) : Parses Huff.Ahead hdecodeValuebits
    (Value.valuebits val).bits (val, (Value.valuebits val).bits.length) := by
  have hlow : (UInt32.ofNat (val.toNat % 2^32)).toNat = val.toNat % 2^32 := UInt32.toNat_ofNat_of_lt' (Nat.mod_lt _ (by decide))
  have hhigh : (UInt32.ofNat (val.toNat / 2^32)).toNat = val.toNat / 2^32 :=
    UInt32.toNat_ofNat_of_lt' (Nat.div_lt_of_lt_mul val.toNat_lt)
  have hback : (UInt32.ofNat (val.toNat % 2^32)).toUInt64 ||| (UInt32.ofNat (val.toNat / 2^32)).toUInt64 <<< 32 = val := by
    have hdiv : val.toNat / 2^32 * 2^32 < 2^64 := (Nat.div_mul_le_self _ _).trans_lt val.toNat_lt
    have hshift : ((UInt32.ofNat (val.toNat / 2^32)).toUInt64 <<< 32).toNat = val.toNat / 2^32 * 2^32 := by
      rw [UInt64.toNat_shiftLeft, UInt32.toNat_toUInt64, hhigh]
      exact (congrArg (· % 2^64) (Nat.shiftLeft_eq _ _)).trans (Nat.mod_eq_of_lt hdiv)
    apply UInt64.toNat_inj.mp
    rw [UInt64.toNat_or, UInt32.toNat_toUInt64, hlow, hshift, Nat.or_comm, Nat.mul_comm,
      ← Nat.two_pow_add_eq_or_of_lt (Nat.mod_lt _ (by decide)), Nat.div_add_mod]
  have h0 := hdecodeVarbits_parses (UInt32.ofNat (val.toNat % 2^32))
  have h1 := (hdecodeVarbits_parses (UInt32.ofNat (val.toNat / 2^32))).map fun high =>
    ((UInt32.ofNat (val.toNat % 2^32)).toUInt64 ||| high.1.toUInt64 <<< 32,
      (Huffcompress.hemitVarbits (val.toNat % 2^32)).length + high.2)
  rw [hback] at h1
  rw [hlow] at h0
  rw [hhigh] at h1
  rw [Value.bits, List.length_append]
  exact h0.bind h1

/-- Every code reads back what was written, with the same count. -/
theorem Value.hdecode_parses (v : Value) : Parses Huff.Ahead v.code.hdecode v.bits (v, v.count) := by
  cases v with
  | smallbits val => exact (hdecodeSmallbits_parses val).map fun r => (Value.smallbits r.1, r.2)
  | varbits val => exact (hdecodeVarbits_parses val).map fun r => (Value.varbits r.1, r.2)
  | svarbits val => exact (hdecodeSvarbits_parses val).map fun r => (Value.svarbits r.1, r.2)
  | valuebits val => exact (hdecodeValuebits_parses val).map fun r => (Value.valuebits r.1, r.2)

end Decode

section Keeps

theorem hget_keeps : Keeps Huff.endpos hget :=
  getbit_keeps.bind fun b => by cases b <;> exact Keeps.pure _

theorem joinBits_keeps (n : Nat) : Keeps Huff.endpos (joinBits n) := (hget_keeps.times n).bind fun _ => Keeps.pure _

theorem hdecodeBits_keeps (n : Nat) : Keeps Huff.endpos (hdecodeBits n) :=
  ((hget_keeps.times n).bind fun _ => Keeps.pure _).bind fun _ => Keeps.pure _

theorem hdecodeSmallbits_keeps : Keeps Huff.endpos hdecodeSmallbits := by
  apply (joinBits_keeps 3).bind
  intro val
  split
  · exact Keeps.pure _
  · dsimp only
    repeat' split
    all_goals exact (hdecodeBits_keeps _).bind fun _ => Keeps.pure _

theorem hdecodeVarbits_keeps : Keeps Huff.endpos hdecodeVarbits := by
  apply (joinBits_keeps 4).bind
  intro val
  split
  · exact Keeps.pure _
  · dsimp only
    repeat' split
    all_goals exact (hdecodeBits_keeps _).bind fun _ => Keeps.pure _

theorem Code.hdecode_keeps (c : Code) : Keeps Huff.endpos c.hdecode := by
  cases c with
  | smallbits => exact hdecodeSmallbits_keeps.bind fun _ => Keeps.pure _
  | varbits => exact hdecodeVarbits_keeps.bind fun _ => Keeps.pure _
  | svarbits =>
    apply Keeps.bind
    · apply hget_keeps.bind
      intro bit
      split
      · exact hdecodeSmallbits_keeps.bind fun _ => Keeps.pure _
      · exact hdecodeVarbits_keeps
    · exact fun _ => Keeps.pure _
  | valuebits =>
    exact (hdecodeVarbits_keeps.bind fun _ => hdecodeVarbits_keeps.bind fun _ => Keeps.pure _).bind fun _ => Keeps.pure _

end Keeps

/-- What `hemits` does to the stream, and what it reports. -/
theorem hemits_eq {hp : Huff} (hs : hp.Synced) (vs : List Value)
    (hroom : hp.bitoffset + (vs.flatMap Value.bits).length < 8 * hp.allocsize) :
    hemits hp vs = (hputs hp (vs.flatMap Value.bits), vs.map fun v => ((v, v.count), v.bits.length)) := by
  induction vs generalizing hp with
  | nil => rfl
  | cons v vs ih =>
    rw [List.flatMap_cons, List.length_append] at hroom
    have hv : v.hemit hp = (hputs hp v.bits, v.count) := v.hemit_eq hp
    obtain ⟨hs', hoff, halloc, -⟩ := hputs_spec hs v.bits (by omega)
    have hrest := ih hs' (by rw [hoff, halloc]; omega)
    rw [hemits, hv]
    dsimp only
    rw [hrest, hoff, Nat.add_sub_cancel_left, List.flatMap_cons, hputs_append, List.map_cons]

/-- Values written where there is room for them, and read from where the first was written, come back each with
the count and the bits that its write has reported. -/
theorem hdecodes_hemits {hp : Huff} (hs : hp.Synced) (hend : hp.endpos < 2^32) (vs : List Value)
    (hroom : hp.bitoffset + (vs.flatMap Value.bits).length < 8 * hp.allocsize) :
    ∃ hp', hdecodes (vs.map Value.code) (hseek (hemits hp vs).1 hp.bitoffset .set).1 = some ((hemits hp vs).2, hp') := by
  obtain ⟨rest, hahead⟩ := hputs_ahead hs hend (vs.flatMap Value.bits) hroom
  rw [hemits_eq hs vs hroom]
  have hparses : Parses Huff.Ahead (hdecodes (vs.map Value.code)) (vs.flatMap Value.bits)
      (vs.map fun v => ((v, v.count), v.bits.length)) := by
    rw [hdecodes, List.map_map]
    exact Parses.inTurn fun v _ => parses_measured v.hdecode_parses v.code.hdecode_keeps
  obtain ⟨hp', hrun, -⟩ := hparses _ rest hahead
  exact ⟨hp', hrun⟩

/-- One value of each code, in a new buffer of twenty bytes. -/
theorem hdecodes_hemits_four : ∃ hp', hdecodes [.smallbits, .varbits, .svarbits, .valuebits]
    (hseek (hemits (.over (List.replicate 20 0) 0 (by decide))
      [.smallbits 300, .varbits 9, .svarbits 70000, .valuebits 5000000000]).1 0 .set).1 =
    some ((hemits (.over (List.replicate 20 0) 0 (by decide))
      [.smallbits 300, .varbits 9, .svarbits 70000, .valuebits 5000000000]).2, hp') :=
  hdecodes_hemits ⟨rfl, rfl, by decide⟩ (by decide) [.smallbits 300, .varbits 9, .svarbits 70000, .valuebits 5000000000]
    (by decide)

end SuperNet.Utils.HuffstreamValues
