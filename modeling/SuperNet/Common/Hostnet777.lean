import SuperNet.Lib.Memory
import SuperNet.Lib.Runs
import SuperNet.Utils.Huffstream

/-! The bit copy of hostnet777.c, by which records and message headers are written and read. -/
namespace SuperNet.Common.Hostnet777
open SuperNet.Lib.Memory SuperNet.Lib.Runs SuperNet.Utils.Huffstream

def GETBIT (bits : Nat → UInt8) (bitoffset : Nat) : Bool :=
  bits (bitoffset >>> 3) &&& (1 <<< UInt8.ofNat (bitoffset &&& 7)) ≠ 0

def SETBIT (bits : Nat → UInt8) (bitoffset : Nat) : Nat → UInt8 :=
  Function.update bits (bitoffset >>> 3) (bits (bitoffset >>> 3) ||| (1 <<< UInt8.ofNat (bitoffset &&& 7)))

/-- The memory at `dest` after `hostnet777_copybits` of `len` bytes of `src`; a nonzero `reverse` has
the two change places. -/
def hostnet777Copybits (dest src : Nat → UInt8) (len : Nat) : Nat → UInt8 :=
  rounds (fun dest i => if GETBIT src i then SETBIT dest i else dest) (fun k => if k < len then 0 else dest k) (len <<< 3)

private theorem GETBIT_eq (bits : Nat → UInt8) (i : Nat) : GETBIT bits i = (bits (i / 8)).toNat.testBit (i % 8) := by
  have hmask : i &&& 7 = i % 8 := Nat.and_two_pow_sub_one_eq_mod i 3
  rw [GETBIT, Nat.shiftRight_eq_div_pow, hmask, Bool.eq_iff_iff, decide_eq_true_iff]
  exact huffmasks_and _ _ (Nat.mod_lt i (by decide))

private theorem SETBIT_testBit (bits : Nat → UInt8) (i k b : Nat) :
    (SETBIT bits i k).toNat.testBit b = ((bits k).toNat.testBit b || decide (k = i / 8 ∧ b = i % 8)) := by
  have hmask : i &&& 7 = i % 8 := Nat.and_two_pow_sub_one_eq_mod i 3
  rw [SETBIT, Nat.shiftRight_eq_div_pow, hmask]
  by_cases hk : k = i / 8
  · subst hk
    have hbit : ((1 : UInt8) <<< UInt8.ofNat (i % 8)).toNat = 2^(i % 8) :=
      huffmasks_toNat (i % 8) (Nat.mod_lt i (by decide))
    rw [Function.update_self, UInt8.toNat_or, Nat.testBit_or, hbit, Nat.testBit_two_pow]
    simp [eq_comm]
  · rw [Function.update_of_ne hk]
    simp [hk]

private theorem testBit_u8_ge (b : UInt8) {j : Nat} (hj : 8 ≤ j) : b.toNat.testBit j = false :=
  Nat.testBit_lt_two_pow (lt_of_lt_of_le (UInt8.toNat_lt b) (Nat.pow_le_pow_right (by decide) hj))

/-- Bit by bit, the copy is a copy of `len` bytes. -/
theorem hostnet777Copybits_eq (dest src : Nat → UInt8) (len : Nat) :
    hostnet777Copybits dest src len = fun k => if k < len then src k else dest k := by
  -- after `i` rounds the copied bytes hold the first `i` bits of the source
  have hbits := rounds_induct (f := fun dest i => if GETBIT src i then SETBIT dest i else dest)
    (s := fun k => if k < len then (0 : UInt8) else dest k)
    (motive := fun i d => ∀ k b, b < 8 → (d k).toNat.testBit b =
      if k < len then decide (8 * k + b < i) && (src k).toNat.testBit b else (dest k).toNat.testBit b)
    (len <<< 3) (by
      intro k b _
      by_cases hk : k < len <;> simp [hk]) (by
      intro i hi ih k b hb
      rw [Nat.shiftLeft_eq] at hi
      have hset : (k = i / 8 ∧ b = i % 8) ↔ 8 * k + b = i := by omega
      have hsucc : (8 * k + b < i + 1) ↔ (8 * k + b < i ∨ 8 * k + b = i) := by omega
      split
      case isTrue hget =>
        rw [GETBIT_eq] at hget
        rw [SETBIT_testBit, ih k b hb]
        by_cases heq : 8 * k + b = i
        · obtain ⟨rfl, rfl⟩ := hset.mpr heq
          rw [if_pos (by omega), if_pos (by omega)]
          simp [hget, heq]
        · simp [hset, hsucc, heq]
      case isFalse hget =>
        rw [GETBIT_eq] at hget
        rw [ih k b hb]
        by_cases heq : 8 * k + b = i
        · obtain ⟨rfl, rfl⟩ := hset.mpr heq
          rw [if_pos (by omega), if_pos (by omega)]
          simp [hget]
        · simp [hsucc, heq])
  funext k
  apply UInt8.toNat_inj.mp
  apply Nat.eq_of_testBit_eq
  intro b
  by_cases hb : b < 8
  · have hk := hbits k b hb
    rw [Nat.shiftLeft_eq] at hk
    rw [hostnet777Copybits, Nat.shiftLeft_eq, hk]
    split
    · rw [decide_eq_true (by omega), Bool.true_and]
    · rfl
  · rw [testBit_u8_ge _ (not_lt.mp hb), testBit_u8_ge _ (not_lt.mp hb)]

/-- Copying the bytes of `bs` to address `i` writes them there. -/
theorem blit_of_copybits (mem : Nat → UInt8) (i : Nat) (bs : List UInt8) :
    atPtr mem i (fun dest => hostnet777Copybits dest (fun d => bs.getD d 0) bs.length) = blit mem i bs := by
  funext k
  rw [atPtr, hostnet777Copybits_eq, blit]
  by_cases hk : k < i
  · rw [if_pos hk, if_neg (by omega)]
  · rw [if_neg hk]
    beta_reduce
    by_cases hin : k - i < bs.length
    · rw [if_pos hin, if_pos (by omega)]
    · rw [if_neg hin, if_neg (by omega), Nat.add_sub_cancel' (not_lt.mp hk)]

end SuperNet.Common.Hostnet777
