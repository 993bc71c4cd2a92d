import Mathlib.Data.Nat.Bitwise
import Mathlib.Tactic
import SuperNet.Lib.Words

/-! The bit stream `HUFF` of huffstream.c: a byte buffer with a bit cursor. -/
namespace SuperNet.Utils.Huffstream
open Lib.Words

def huffmasks (maski : Nat) : UInt8 := 1 <<< UInt8.ofNat maski
def huffoppomasks (maski : Nat) : UInt8 := ~~~huffmasks maski

/-- `struct huffstream`. `ptr` is the index of `*ptr` in `buf`. The cursor
`bitoffset` is a `uint32_t`, so only buffers below 2^29 bytes can be addressed
bit by bit; every `_init_HUFF` in the sources is far below that. -/
structure Huff where
  buf : List UInt8
  allocsize : Nat
  ptr : Nat
  maski : Nat
  bitoffset : Nat
  endpos : Nat
  buf_length : buf.length = allocsize
  addressable : 8 * allocsize < 2^32
  deriving DecidableEq

/-- A stream at the start of some bytes. -/
def Huff.over (buf : List UInt8) (endpos : Nat) (h : 8 * buf.length < 2^32) : Huff :=
  ⟨buf, buf.length, 0, 0, 0, endpos, rfl, h⟩

def hupdateInternals (hp : Huff) : Huff × Int :=
  let past : Bool := hp.bitoffset / 8 > hp.allocsize
  let bitoffset := if past then u32 (hp.allocsize * 8 - 1) else hp.bitoffset
  ({ hp with
      bitoffset := bitoffset
      endpos := max bitoffset hp.endpos
      ptr := bitoffset / 8
      maski := bitoffset % 8 }, if past then -1 else 0)

inductive SeekMode where
  | set | cur | fromEnd
  deriving DecidableEq, Repr

def hseek (hp : Huff) (offset : Int) (mode : SeekMode) : Huff × Int :=
  let bitoffset := match mode with
    | .fromEnd => u32 (offset + hp.endpos)
    | .set => u32 offset
    | .cur => u32 (hp.bitoffset + offset)
  hupdateInternals { hp with bitoffset := bitoffset }

def hrewind (hp : Huff) : Huff := (hseek hp 0 .set).1

/-- `hgetbit`; `none` is the return value -1 past `endpos`. -/
def hgetbit (hp : Huff) : Huff × Option Bool :=
  if hp.bitoffset < hp.endpos then
    let bit : Bool := hp.buf.getD hp.ptr 0 &&& huffmasks hp.maski ≠ 0
    let wrap : Bool := hp.maski + 1 = 8
    ({ hp with
        bitoffset := u32 (hp.bitoffset + 1)
        maski := if wrap then 0 else hp.maski + 1
        ptr := if wrap then hp.ptr + 1 else hp.ptr }, some bit)
  else (hp, none)

def storeBit (buf : List UInt8) (ptr maski : Nat) (bit : Bool) : List UInt8 :=
  let byte := buf.getD ptr 0
  buf.set ptr (if bit then byte ||| huffmasks maski else byte &&& huffoppomasks maski)

def hputbit (hp : Huff) (bit : Bool) : Huff × Int :=
  let wrap : Bool := 8 ≤ hp.maski + 1
  let bitoffset := u32 (hp.bitoffset + 1)
  let next : Huff := { hp with
    buf := storeBit hp.buf hp.ptr hp.maski bit
    maski := if wrap then 0 else hp.maski + 1
    ptr := if wrap then hp.ptr + 1 else hp.ptr
    bitoffset := bitoffset
    endpos := max bitoffset hp.endpos
    buf_length := by simp [storeBit, hp.buf_length] }
  if bitoffset / 8 ≥ hp.allocsize then
    ((hupdateInternals { next with bitoffset := u32 (bitoffset - 1) }).1, -1)
  else (next, 0)

def hconvBitlen (bitlen : Nat) : Nat := if bitlen % 8 ≠ 0 then bitlen / 8 + 1 else bitlen / 8

/-- Bit `i` of the buffer, least significant bit of each byte first. -/
def Huff.bitAt (hp : Huff) (i : Nat) : Bool := (hp.buf.getD (i/8) 0).toNat.testBit (i%8)

/-- The cursor fields agree with `bitoffset`, which lies in the buffer. -/
structure Huff.Synced (hp : Huff) : Prop where
  ptr : hp.ptr = hp.bitoffset / 8
  maski : hp.maski = hp.bitoffset % 8
  inside : hp.bitoffset ≤ 8 * hp.allocsize

theorem huffmasks_toNat (m : Nat) (hm : m < 8) : (huffmasks m).toNat = 2^m := by
  interval_cases m <;> rfl

private theorem huffoppomasks_testBit (m j : Nat) (hm : m < 8) (hj : j < 8) :
    (huffoppomasks m).toNat.testBit j = decide (j ≠ m) := by
  interval_cases m <;> interval_cases j <;> rfl

theorem huffmasks_and (b : UInt8) (m : Nat) (hm : m < 8) :
    (b &&& huffmasks m ≠ 0) ↔ b.toNat.testBit m = true := by
  rw [Ne, ← UInt8.toNat_inj, UInt8.toNat_and, huffmasks_toNat m hm, Nat.and_two_pow]
  cases b.toNat.testBit m <;> simp

private theorem stored_testBit (b : UInt8) (m j : Nat) (bit : Bool) (hm : m < 8) (hj : j < 8) :
    (if bit then b ||| huffmasks m else b &&& huffoppomasks m).toNat.testBit j =
      if j = m then bit else b.toNat.testBit j := by
  cases bit
  · simp [UInt8.toNat_and, Nat.testBit_and, huffoppomasks_testBit m j hm hj]
    by_cases h : j = m <;> simp [h]
  · simp [UInt8.toNat_or, Nat.testBit_or, huffmasks_toNat m hm, Nat.testBit_two_pow]
    by_cases h : j = m
    · simp [h]
    · simp [h, Ne.symm h]

/-- Storing a bit inside the buffer changes that bit and no other. -/
theorem storeBit_bitAt (buf : List UInt8) (p i : Nat) (bit : Bool) (hp : p / 8 < buf.length) :
    ((storeBit buf (p/8) (p%8) bit).getD (i/8) 0).toNat.testBit (i%8) =
      if i = p then bit else (buf.getD (i/8) 0).toNat.testBit (i%8) := by
  by_cases hb : i / 8 = p / 8
  · have hg : (storeBit buf (p/8) (p%8) bit).getD (i/8) 0 =
        if bit then buf.getD (p/8) 0 ||| huffmasks (p%8) else buf.getD (p/8) 0 &&& huffoppomasks (p%8) := by
      simp [storeBit, hb, hp]
    rw [hg, stored_testBit _ _ _ _ (by omega) (by omega), hb]
    have hiff : i % 8 = p % 8 ↔ i = p := by omega
    simp only [hiff]
  · have hg : (storeBit buf (p/8) (p%8) bit).getD (i/8) 0 = buf.getD (i/8) 0 := by
      simp [storeBit, List.getElem?_set_ne (Ne.symm hb)]
    rw [hg, if_neg (by omega)]

theorem hrewind_synced (hp : Huff) : (hrewind hp).Synced ∧ (hrewind hp).bitoffset = 0 ∧
    (hrewind hp).endpos = hp.endpos ∧ (hrewind hp).buf = hp.buf := by
  have h0 : u32 0 = 0 := by decide
  refine ⟨⟨?_, ?_, ?_⟩, ?_, ?_, ?_⟩ <;> simp [hrewind, hseek, hupdateInternals, h0]

theorem hrewind_bitAt (hp : Huff) (i : Nat) : (hrewind hp).bitAt i = hp.bitAt i := by
  rw [Huff.bitAt, (hrewind_synced hp).2.2.2, Huff.bitAt]

/-- A successful `hputbit` appends its bit at the cursor. -/
theorem hputbit_spec {hp : Huff} {bit : Bool} (hs : hp.Synced) (h : (hputbit hp bit).2 = 0) :
    (hputbit hp bit).1.Synced ∧ (hputbit hp bit).1.bitoffset = hp.bitoffset + 1 ∧
    (hputbit hp bit).1.endpos = max (hp.bitoffset + 1) hp.endpos ∧
    (hputbit hp bit).1.allocsize = hp.allocsize ∧
    ∀ i, (hputbit hp bit).1.bitAt i = if i = hp.bitoffset then bit else hp.bitAt i := by
  have hsmall : hp.bitoffset + 1 < 2^32 := by
    have := hs.inside
    have := hp.addressable
    omega
  have hu : u32 ((hp.bitoffset : Int) + 1) = hp.bitoffset + 1 := by
    exact_mod_cast unsigned_of_lt hsmall
  have hroom : (hp.bitoffset + 1) / 8 < hp.allocsize := by
    by_contra hc
    have : (hputbit hp bit).2 = -1 := by
      simp only [hputbit, hu, ge_iff_le, if_pos (not_lt.mp hc)]
    omega
  have hput : hputbit hp bit = ({ hp with
      buf := storeBit hp.buf hp.ptr hp.maski bit
      maski := if (decide (8 ≤ hp.maski + 1)) = true then 0 else hp.maski + 1
      ptr := if (decide (8 ≤ hp.maski + 1)) = true then hp.ptr + 1 else hp.ptr
      bitoffset := hp.bitoffset + 1
      endpos := max (hp.bitoffset + 1) hp.endpos
      buf_length := by simp [storeBit, hp.buf_length] }, 0) := by
    simp only [hputbit, hu, ge_iff_le, if_neg (not_le.mpr hroom)]
  rw [hput]
  have hp8 := hs.ptr
  have hm8 := hs.maski
  refine ⟨⟨?_, ?_, ?_⟩, rfl, rfl, rfl, ?_⟩
  · simp only [decide_eq_true_eq]
    split <;> omega
  · simp only [decide_eq_true_eq]
    split <;> omega
  · change hp.bitoffset + 1 ≤ 8 * hp.allocsize
    omega
  · intro i
    rw [Huff.bitAt, Huff.bitAt]
    change ((storeBit hp.buf hp.ptr hp.maski bit).getD (i/8) 0).toNat.testBit (i%8) = _
    rw [hp8, hm8]
    exact storeBit_bitAt hp.buf hp.bitoffset i bit (by rw [hp.buf_length]; omega)

/-- `hgetbit` below `endpos` returns the bit at the cursor and moves past it. -/
theorem hgetbit_spec {hp : Huff} (hptr : hp.ptr = hp.bitoffset / 8) (hmask : hp.maski = hp.bitoffset % 8)
    (hend : hp.bitoffset < hp.endpos) (hsmall : hp.bitoffset + 1 < 2^32) :
    (hgetbit hp).2 = some (hp.bitAt hp.bitoffset) ∧
    (hgetbit hp).1.bitoffset = hp.bitoffset + 1 ∧
    (hgetbit hp).1.ptr = (hp.bitoffset + 1) / 8 ∧ (hgetbit hp).1.maski = (hp.bitoffset + 1) % 8 ∧
    (hgetbit hp).1.endpos = hp.endpos ∧ (hgetbit hp).1.buf = hp.buf := by
  have hu : u32 ((hp.bitoffset : Int) + 1) = hp.bitoffset + 1 := by
    exact_mod_cast unsigned_of_lt hsmall
  simp only [hgetbit, if_pos hend, hu, decide_eq_true_eq, true_and]
  refine ⟨?_, ?_, ?_, trivial⟩
  · rw [Huff.bitAt, ← hptr, ← hmask]
    have := huffmasks_and (hp.buf.getD hp.ptr 0) hp.maski (by omega)
    congr 1
    rw [Bool.eq_iff_iff, ← this, decide_eq_true_iff]
  · split <;> omega
  · split <;> omega

end SuperNet.Utils.Huffstream
