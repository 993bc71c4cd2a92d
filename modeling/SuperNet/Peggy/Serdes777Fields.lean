import Mathlib.Data.Nat.Size
import SuperNet.Peggy.Serdes777

/-! Every numeric field comes back from the bits it was written as. -/
namespace SuperNet.Peggy.Serdes777
open Lib.Words Lib.BitCodec Utils.Huffstream

def bits (cs : List Call) : List Bool := cs.map Call.bit

@[simp] theorem bits_append (cs ds : List Call) : bits (cs ++ ds) = bits cs ++ bits ds := List.map_append

@[simp] theorem bits_length (cs : List Call) : (bits cs).length = cs.length := List.length_map ..

@[simp] theorem bits_rwbits (n x : Nat) : bits (Put.rwbits n x) = leBits n x := by
  simp [bits, Put.rwbits, Function.comp_def]

@[simp] theorem bits_untested (bs : List Bool) : bits (Put.untested bs) = bs := by
  simp [bits, Put.untested, Function.comp_def]

@[simp] theorem rwbits_length (n x : Nat) : (Put.rwbits n x).length = n := by
  simp [Put.rwbits]

theorem bit_parses (b : Bool) : Parses Huff.Ahead Get.bit [b] b :=
  (getbit_parses b).bind (Parses.pure b)

theorem rwbits_parses (bs : List Bool) : Parses Huff.Ahead (Get.rwbits bs.length) bs (leNat bs) := by
  induction bs with
  | nil => exact Parses.pure 0
  | cons b bs ih => exact (bit_parses b).bind (ih.map fun x => b.toNat + 2 * x)

theorem rwbits_parses_leBits {n x : Nat} (h : x < 2^n) : Parses Huff.Ahead (Get.rwbits n) (leBits n x) x := by
  have hp := rwbits_parses (leBits n x)
  rwa [leBits_length, leNat_leBits_of_lt h] at hp

/-- The one-bit, three-bit and eleven-bit forms of a byte. -/
theorem put_char {x : Nat} {cs : List Call} (h : Put.rwsizebits 3 x = some cs) :
    (x = 0 ∧ bits cs = [false]) ∨ (x = 1 ∧ bits cs = [true, true, false]) ∨ (x = 2 ∧ bits cs = [true, false, true]) ∨
      3 ≤ x ∧ bits cs = [true, true, true] ++ leBits 8 x := by
  rw [Put.rwsizebits, if_pos rfl] at h
  by_cases h0 : x = 0
  · rw [if_pos h0] at h
    obtain rfl := Option.some.inj h
    exact Or.inl ⟨h0, rfl⟩
  · rw [if_neg h0] at h
    by_cases h3 : x < 3
    · rw [if_pos h3] at h
      obtain rfl := Option.some.inj h
      have hbits : x = 1 ∨ x = 2 := by omega
      rcases hbits with rfl | rfl
      · exact Or.inr (Or.inl ⟨rfl, rfl⟩)
      · exact Or.inr (Or.inr (Or.inl ⟨rfl, rfl⟩))
    · rw [if_neg h3] at h
      obtain rfl := Option.some.inj h
      exact Or.inr (Or.inr (Or.inr ⟨not_lt.mp h3, by rw [bits_append, bits_untested, bits_rwbits]⟩))

theorem rwchar_parses {x : Nat} {cs : List Call} (hx : x < 2^8) (h : Put.rwsizebits 3 x = some cs) :
    Parses Huff.Ahead Get.rwchar (bits cs) (x, cs.length) := by
  rw [← bits_length]
  rcases put_char h with ⟨rfl, hb⟩ | ⟨rfl, hb⟩ | ⟨rfl, hb⟩ | ⟨-, hb⟩ <;> rw [hb]
  · exact (getbit_parses false).bind (Parses.pure _)
  · exact (getbit_parses true).bind ((getbit_parses true).bind ((getbit_parses false).bind (Parses.pure _)))
  · exact (getbit_parses true).bind ((getbit_parses false).bind ((getbit_parses true).bind (Parses.pure _)))
  · have htail := (rwbits_parses_leBits hx).map fun y => (y, 11)
    rw [List.length_append, leBits_length]
    exact (getbit_parses true).bind ((getbit_parses true).bind ((getbit_parses true).bind htail))

theorem hcalcBitsize_pos (x : Nat) : 0 < hcalcBitsize x := by
  rw [hcalcBitsize]
  split
  · decide
  · exact Nat.size_pos.mpr (by omega)

theorem lt_two_pow_hcalcBitsize (x : Nat) : x < 2^hcalcBitsize x := by
  rw [hcalcBitsize]
  split
  · omega
  · exact Nat.lt_size_self x

/-- A longer number is written as its size and then itself. -/
theorem put_sizebits {sizebits x : Nat} {cs : List Call} (hs : sizebits ≠ 3) (h : Put.rwsizebits sizebits x = some cs) :
    hcalcBitsize x - 1 < 2^sizebits ∧ bits cs = leBits sizebits (hcalcBitsize x - 1) ++ leBits (hcalcBitsize x) x := by
  have hpos := hcalcBitsize_pos x
  rw [Put.rwsizebits, if_neg hs] at h
  split at h
  case isTrue => cases h
  case isFalse hbig =>
    obtain rfl := Option.some.inj h
    refine ⟨not_le.mp hbig, ?_⟩
    rw [bits_append, bits_rwbits, bits_rwbits, Nat.sub_add_cancel hpos]

theorem rwsizebits_parses {sizebits x : Nat} {cs : List Call} (hs : sizebits ≠ 3) (h : Put.rwsizebits sizebits x = some cs) :
    Parses Huff.Ahead (Get.rwsizebits sizebits) (bits cs) (x, cs.length) := by
  have hpos := hcalcBitsize_pos x
  obtain ⟨hsize, hbits⟩ := put_sizebits hs h
  have hval : Parses Huff.Ahead (Get.rwbits (hcalcBitsize x - 1 + 1)) (leBits (hcalcBitsize x) x) x := by
    rw [Nat.sub_add_cancel hpos]
    exact rwbits_parses_leBits (lt_two_pow_hcalcBitsize x)
  have hlen : cs.length = hcalcBitsize x - 1 + 1 + sizebits := by
    rw [← bits_length, hbits, List.length_append, leBits_length, leBits_length, Nat.sub_add_cancel hpos, Nat.add_comm]
  rw [hlen, hbits]
  exact (rwbits_parses_leBits hsize).bind (hval.map fun y => (y, hcalcBitsize x - 1 + 1 + sizebits))

/-- A number that fits its token is read back with the bits it took. -/
theorem rw_parses {size : Size} {x : Nat} {cs : List Call} (hx : x < 2^size.bits) (h : Put.rw size x = some cs) :
    Parses Huff.Ahead (Get.rw size) (bits cs) (x, cs.length) := by
  cases size with
  | raw n =>
    obtain rfl := Option.some.inj h
    rw [bits_rwbits, rwbits_length]
    exact (rwbits_parses_leBits hx).map fun y => (y, 8 * n)
  | char => exact rwchar_parses hx h
  | short => exact rwsizebits_parses (by decide) h
  | int => exact rwsizebits_parses (by decide) h
  | long => exact rwsizebits_parses (by decide) h

/-- Every value of a token table fits its token. -/
def Fits (tokens : List (Size × Nat)) : Prop := ∀ t ∈ tokens, t.2 < 2^t.1.bits

theorem codec_cons {t : Size × Nat} {tokens : List (Size × Nat)} {cs : List Call}
    (h : Put.codec (t :: tokens) = some cs) :
    ∃ ds es, Put.rw t.1 t.2 = some ds ∧ Put.codec tokens = some es ∧ cs = ds ++ es := by
  simp only [Put.codec, Option.bind_eq_bind, Option.bind_eq_some_iff, Option.some.injEq] at h
  obtain ⟨ds, hds, es, hes, rfl⟩ := h
  exact ⟨ds, es, hds, hes, rfl⟩

theorem codec_parses {tokens : List (Size × Nat)} {cs : List Call} (hfit : Fits tokens) (h : Put.codec tokens = some cs) :
    Parses Huff.Ahead (Get.codec (tokens.map Prod.fst)) (bits cs) (tokens.map Prod.snd, cs.length) := by
  induction tokens generalizing cs with
  | nil =>
    obtain rfl := Option.some.inj h
    exact Parses.pure _
  | cons t tokens ih =>
    obtain ⟨ds, es, hds, hes, rfl⟩ := codec_cons h
    have htail := ih (fun u hu => hfit u (List.mem_cons_of_mem _ hu)) hes
    have hhead := rw_parses (hfit t List.mem_cons_self) hds
    rw [bits_append, List.length_append]
    exact hhead.bind (htail.map fun r => (t.2 :: r.1, ds.length + r.2))

/-- The table of a record whose fields all fit can be written. -/
theorem rw_isSome {size : Size} {x : Nat} (hx : x < 2^size.bits) : (Put.rw size x).isSome := by
  have hsize (s : Nat) (hs : s ≠ 3) (hx : x < 2^2^s) : (Put.rwsizebits s x).isSome := by
    have hsz : hcalcBitsize x ≤ 2^s := by
      rw [hcalcBitsize]
      split
      · exact Nat.one_le_two_pow
      · exact Nat.size_le.mpr hx
    have hpos := hcalcBitsize_pos x
    rw [Put.rwsizebits, if_neg hs, if_neg (by omega)]
    rfl
  cases size with
  | raw n => rfl
  | char =>
    simp only [Put.rw, Put.rwsizebits, if_true]
    split
    · rfl
    · split <;> rfl
  | short => exact hsize 4 (by decide) hx
  | int => exact hsize 5 (by decide) hx
  | long => exact hsize 6 (by decide) hx

end SuperNet.Peggy.Serdes777
