import Mathlib.Data.UInt
import Mathlib.Tactic

/-! The running hash of curve25519.c: the bytes that a sha256_vstate was fed are counted by its length and the
bytes in its buffer, whatever the compression does. -/
namespace SuperNet.Utils.Vsha256

structure Vstate where
  length : UInt64
  state : List UInt32
  curlen : Nat
  buf : List UInt8
  deriving DecidableEq, Repr

def vinit : Vstate where
  length := 0
  state := [0x6A09E667, 0xBB67AE85, 0x3C6EF372, 0xA54FF53A, 0x510E527F, 0x9B05688C, 0x1F83D9AB, 0x5BE0CD19]
  curlen := 0
  buf := List.replicate 64 0

variable (vcompress : List UInt32 → List UInt8 → List UInt32)

/-- The loop of `sha256_vprocess`, with as many rounds as bytes. -/
def vprocessLoop : Nat → Vstate → List UInt8 → Vstate
  | 0, md, _ => md
  | n + 1, md, bytes =>
    if bytes = [] then md
    else if md.curlen = 0 ∧ bytes.length ≥ 64 then
      vprocessLoop n { md with state := vcompress md.state (bytes.take 64), length := md.length + 64 * 8 } (bytes.drop 64)
    else
      let k := min bytes.length (64 - md.curlen)
      let buf := md.buf.take md.curlen ++ bytes.take k ++ md.buf.drop (md.curlen + k)
      if md.curlen + k = 64 then
        vprocessLoop n ⟨md.length + 8 * 64, vcompress md.state buf, 0, buf⟩ (bytes.drop k)
      else vprocessLoop n { md with curlen := md.curlen + k, buf := buf } (bytes.drop k)

def vprocess (md : Vstate) (bytes : List UInt8) : Vstate :=
  if md.curlen > 64 then md else vprocessLoop vcompress bytes.length md bytes

/-- The running hash of a table that was fed some bytes. -/
def vhash (bytes : List UInt8) : Vstate := vprocess vcompress vinit bytes

/-- The bits that a state has taken in. -/
def Vstate.bits (md : Vstate) : UInt64 := md.length + UInt64.ofNat (8 * md.curlen)

private theorem zero_bits : UInt64.ofNat 0 = 0 := rfl

private theorem block_bits : (64 * 8 : UInt64) = UInt64.ofNat (8 * 64) := by decide

private theorem bits_buffered (length : UInt64) (m k : Nat) :
    length + UInt64.ofNat (8 * (m + k)) = length + UInt64.ofNat (8 * m) + UInt64.ofNat (8 * k) := by
  rw [Nat.mul_add, UInt64.ofNat_add, UInt64.add_assoc]

theorem vprocessLoop_bits {n : Nat} {md : Vstate} {bytes : List UInt8} (hcur : md.curlen < 64) (hn : bytes.length ≤ n) :
    (vprocessLoop vcompress n md bytes).bits = md.bits + UInt64.ofNat (8 * bytes.length) := by
  induction n generalizing md bytes with
  | zero =>
    rw [List.length_eq_zero_iff.mp (Nat.le_zero.mp hn), List.length_nil, Nat.mul_zero, zero_bits, UInt64.add_zero,
      vprocessLoop]
  | succ n ih =>
    rw [vprocessLoop]
    by_cases hnil : bytes = []
    · rw [if_pos hnil, hnil, List.length_nil, Nat.mul_zero, zero_bits, UInt64.add_zero]
    rw [if_neg hnil]
    have hpos : 0 < bytes.length := List.length_pos_of_ne_nil hnil
    by_cases hblock : md.curlen = 0 ∧ bytes.length ≥ 64
    · have hdrop : (bytes.drop 64).length = bytes.length - 64 := List.length_drop
      have hle : (bytes.drop 64).length ≤ n := by omega
      generalize vcompress md.state (bytes.take 64) = state
      have hrec := @ih { md with state := state, length := md.length + 64 * 8 } (bytes.drop 64) hcur hle
      have hsplit : 8 * bytes.length = 8 * 64 + 8 * (bytes.length - 64) := by omega
      have hbits : ({ md with state := state, length := md.length + 64 * 8 } : Vstate).bits =
          md.bits + UInt64.ofNat (8 * 64) := by
        rw [Vstate.bits, Vstate.bits, add_right_comm, block_bits]
      rw [if_pos hblock, hrec, hdrop, hsplit, UInt64.ofNat_add, ← UInt64.add_assoc, hbits]
    · rw [if_neg hblock]
      dsimp only
      generalize hk : min bytes.length (64 - md.curlen) = k
      generalize md.buf.take md.curlen ++ bytes.take k ++ md.buf.drop (md.curlen + k) = buf
      have hsplit : 8 * bytes.length = 8 * k + 8 * (bytes.length - k) := by omega
      have hdrop : (bytes.drop k).length = bytes.length - k := List.length_drop
      have hbuffered := bits_buffered md.length md.curlen k
      by_cases hfull : md.curlen + k = 64
      · have hrec := @ih ⟨md.length + 8 * 64, vcompress md.state buf, 0, buf⟩ (bytes.drop k) (Nat.zero_lt_succ 63)
          (by omega)
        have hblock : (⟨md.length + 8 * 64, vcompress md.state buf, 0, buf⟩ : Vstate).bits =
            md.length + UInt64.ofNat (8 * 64) := by
          rw [Vstate.bits, Nat.mul_zero, zero_bits, UInt64.add_zero, (UInt64.mul_comm 8 64), block_bits]
        rw [if_pos hfull, hrec, hdrop, hsplit, UInt64.ofNat_add, ← UInt64.add_assoc, hblock, ← hfull, hbuffered,
          Vstate.bits]
      · have hrec := @ih { md with curlen := md.curlen + k, buf := buf } (bytes.drop k) (by dsimp only; omega) (by omega)
        rw [if_neg hfull, hrec, hdrop, hsplit, UInt64.ofNat_add, ← UInt64.add_assoc]
        exact congrArg (· + _) hbuffered

theorem vhash_bits (bytes : List UInt8) : (vhash vcompress bytes).bits = UInt64.ofNat (8 * bytes.length) := by
  have hbits : (vprocessLoop vcompress bytes.length vinit bytes).bits = vinit.bits + UInt64.ofNat (8 * bytes.length) :=
    vprocessLoop_bits vcompress (Nat.zero_lt_succ 63) (Nat.le_refl _)
  rw [vhash, vprocess, if_neg (by decide), hbits]
  exact UInt64.zero_add _

/-- Streams of different lengths have different running hashes. -/
theorem vhash_ne {bytes bytes' : List UInt8} (h : bytes.length ≠ bytes'.length) (hlt : bytes.length < 2^61)
    (hlt' : bytes'.length < 2^61) : vhash vcompress bytes ≠ vhash vcompress bytes' := by
  intro heq
  have hbits := congrArg Vstate.bits heq
  rw [vhash_bits, vhash_bits] at hbits
  have hnat := congrArg UInt64.toNat hbits
  have hsize : UInt64.size = 8 * 2^61 := rfl
  rw [UInt64.toNat_ofNat_of_lt' (by omega), UInt64.toNat_ofNat_of_lt' (by omega)] at hnat
  omega

end SuperNet.Utils.Vsha256
