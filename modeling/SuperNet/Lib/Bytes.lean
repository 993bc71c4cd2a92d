import Mathlib.Data.Nat.Digits.Lemmas
import Mathlib.Tactic

/-! Little-endian byte strings of fixed length. -/
namespace SuperNet.Lib.Bytes

/-- The low `w` bytes of `x`, least significant first. -/
def leBytes : Nat → Nat → List UInt8
  | 0, _ => []
  | w+1, x => UInt8.ofNat x :: leBytes w (x / 256)

def leValue (bs : List UInt8) : Nat := Nat.ofDigits 256 (bs.map UInt8.toNat)

theorem leBytes_length (w x : Nat) : (leBytes w x).length = w := by
  induction w generalizing x with
  | zero => rfl
  | succ w ih => rw [leBytes, List.length_cons, ih]

theorem leValue_cons (b : UInt8) (bs : List UInt8) : leValue (b :: bs) = b.toNat + 256 * leValue bs := by
  rw [leValue, List.map_cons, Nat.ofDigits_cons]
  rfl

theorem leValue_leBytes (w x : Nat) : leValue (leBytes w x) = x % 256^w := by
  induction w generalizing x with
  | zero => simp [leBytes, leValue, Nat.mod_one]
  | succ w ih =>
    rw [leBytes, leValue_cons, ih, UInt8.toNat_ofNat', pow_succ' 256 w, Nat.mod_mul]

theorem leValue_leBytes_of_lt {w x : Nat} (h : x < 256^w) : leValue (leBytes w x) = x := by
  rw [leValue_leBytes, Nat.mod_eq_of_lt h]

private theorem toNat_mem_lt (bs : List UInt8) : ∀ d ∈ bs.map UInt8.toNat, d < 256 := by
  intro d hd
  obtain ⟨b, -, rfl⟩ := List.mem_map.mp hd
  exact UInt8.toNat_lt b

theorem leValue_lt (bs : List UInt8) : leValue bs < 256^bs.length := by
  have h := Nat.ofDigits_lt_base_pow_length (by decide : 1 < 256) (toNat_mem_lt bs)
  rwa [List.length_map] at h

theorem leValue_append (bs cs : List UInt8) : leValue (bs ++ cs) = leValue bs + 256^bs.length * leValue cs := by
  rw [leValue, leValue, leValue, List.map_append, Nat.ofDigits_append, List.length_map]

theorem leValue_take_drop (bs : List UInt8) (k : Nat) :
    leValue (bs.take k) = leValue bs % 256^k ∧ leValue (bs.drop k) = leValue bs / 256^k := by
  have hlt : leValue (bs.take k) < 256^k :=
    (leValue_lt _).trans_le (Nat.pow_le_pow_right (by decide) (List.length_take_le k bs))
  have hsplit : leValue bs = leValue (bs.take k) + 256^k * leValue (bs.drop k) := by
    by_cases hk : k ≤ bs.length
    · conv_lhs => rw [← List.take_append_drop k bs, leValue_append, List.length_take_of_le hk]
    · rw [List.take_of_length_le (by omega), List.drop_of_length_le (by omega)]
      rfl
  rw [hsplit, Nat.add_mul_mod_self_left, Nat.mod_eq_of_lt hlt, Nat.add_mul_div_left _ _ (by positivity), Nat.div_eq_of_lt hlt,
    zero_add]
  exact ⟨rfl, rfl⟩

/-- Byte strings of one length with the same value are the same. -/
theorem leValue_inj {bs cs : List UInt8} (hlen : bs.length = cs.length) : leValue bs = leValue cs ↔ bs = cs := by
  refine ⟨fun h => ?_, congrArg leValue⟩
  have hmap := Nat.ofDigits_inj_of_len_eq (by decide) (by rw [List.length_map, List.length_map, hlen]) (toNat_mem_lt bs) (toNat_mem_lt cs) h
  exact List.map_injective_iff.mpr (fun b c => UInt8.toNat_inj.mp) hmap

theorem toNat_shiftByte (r : UInt64) (b : UInt8) : (r <<< 8 ||| b.toUInt64).toNat = (r.toNat * 256 + b.toNat) % 2^64 := by
  have hb := UInt8.toNat_lt b
  have hlow : r.toNat * 2^8 % 2^64 = 2^8 * (r.toNat % 2^56) := by omega
  rw [UInt64.toNat_or, UInt64.toNat_shiftLeft, UInt8.toNat_toUInt64, show (8 : UInt64).toNat % 64 = 8 from rfl,
    Nat.shiftLeft_eq, hlow, ← Nat.two_pow_add_eq_or_of_lt hb]
  omega

/-- Bytes shifted in from the last one on make the little-endian value. -/
theorem toNat_shiftBytes (bs : List UInt8) :
    (bs.reverse.foldl (fun (r : UInt64) (b : UInt8) => r <<< 8 ||| b.toUInt64) 0).toNat = leValue bs % 2^64 := by
  induction bs with
  | nil => rfl
  | cons b bs ih =>
    rw [List.reverse_cons, List.foldl_append, List.foldl_cons, List.foldl_nil, toNat_shiftByte, ih, leValue_cons]
    omega

end SuperNet.Lib.Bytes
