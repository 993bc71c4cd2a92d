import SuperNet.Utils.Curve25519Ladder

/-! Scalar multiplication of curve25519.c, and the exchange of keys by it. -/
namespace SuperNet.Curve25519
open SuperNet.Lib.Words SuperNet.Lib.Bytes SuperNet.Lib.MontgomeryCurve

def fmonty (q : Bits320) (s : Multiples Bits320) : Multiples Bits320 :=
  let x := fsum s.nqx s.nqz
  let z := fdifferenceBackwards s.nqz s.nqx
  let xprime := fsum s.nqpqx s.nqpqz
  let zprime := fdifferenceBackwards s.nqpqz s.nqpqx
  let xxprime := fmul xprime z
  let zzprime := fmul x zprime
  let xx := fsquareTimes x 1
  let zz := fsquareTimes z 1
  let diff := fdifferenceBackwards zz xx
  { nqx := fmul xx zz
    nqz := fmul diff (fsum (fscalarProduct diff 121665) xx)
    nqpqx := fsquareTimes (fsum xxprime zzprime) 1
    nqpqz := fmul (fsquareTimes (fdifferenceBackwards zzprime xxprime) 1) q }

/-- One limb of two arrays, swapped where `swap` has ones. -/
def swapLimb (swap a b : Nat) : Nat × Nat :=
  let x := swap &&& (a ^^^ b)
  (a ^^^ x, b ^^^ x)

def swapConditional (a b : Bits320) (iswap : Nat) : Bits320 × Bits320 :=
  let swap := u64 (-iswap)
  let s0 := swapLimb swap a.l0 b.l0
  let s1 := swapLimb swap a.l1 b.l1
  let s2 := swapLimb swap a.l2 b.l2
  let s3 := swapLimb swap a.l3 b.l3
  let s4 := swapLimb swap a.l4 b.l4
  (⟨s0.1, s1.1, s2.1, s3.1, s4.1⟩, ⟨s0.2, s1.2, s2.2, s3.2, s4.2⟩)

def zero320 : Bits320 := ⟨0, 0, 0, 0, 0⟩

def one320 : Bits320 := ⟨1, 0, 0, 0, 0⟩

def cmult (secret : Bits256) (q : Bits320) : Bits320 × Bits320 :=
  cmultLoop swapConditional (fmonty q) zero320 one320 secret q

def crecip (z : Bits320) : Bits320 :=
  let a := fsquareTimes z 1
  let t0 := fsquareTimes a 2
  let b := fmul t0 z
  let a := fmul b a
  let t0 := fsquareTimes a 1
  let b := fmul t0 b
  let t0 := fsquareTimes b 5
  let b := fmul t0 b
  let t0 := fsquareTimes b 10
  let c := fmul t0 b
  let t0 := fsquareTimes c 20
  let t0 := fmul t0 c
  let t0 := fsquareTimes t0 10
  let b := fmul t0 b
  let t0 := fsquareTimes b 50
  let c := fmul t0 b
  let t0 := fsquareTimes c 100
  let t0 := fmul t0 c
  let t0 := fsquareTimes t0 50
  let t0 := fmul t0 b
  let t0 := fsquareTimes t0 5
  fmul t0 a

def curve25519 (mysecret basepoint : Bits256) : Bits256 :=
  let (x, z) := cmult mysecret (fexpand basepoint)
  fcontract (fmul x (crecip z))

/-- Limbs as `fmul` leaves them, for an element. -/
structure Bits320.Holds (a : Bits320) (x : ZMod prime25519) : Prop where
  elt : a.elt = x
  tight : a.AtMost tightLimb

theorem holds_fmul {a b : Bits320} {x y : ZMod prime25519} (ha : a.Holds x) (hb : b.Holds y) : (fmul a b).Holds (x * y) := by
  obtain ⟨helt, htight⟩ := fmul_spec ha.tight.loose hb.tight.loose
  rw [ha.elt, hb.elt] at helt
  exact ⟨helt, htight⟩

theorem holds_fsquareTimes {a : Bits320} {x : ZMod prime25519} (ha : a.Holds x) {count : Nat} (hcount : 0 < count) :
    (fsquareTimes a count).Holds (x^2^count) := by
  obtain ⟨helt, htight⟩ := fsquareTimes_spec ha.tight.loose hcount
  rw [ha.elt] at helt
  exact ⟨helt, htight⟩

/-- The square of a power of `z`, times another one. -/
theorem holds_chain {a b : Bits320} {z : ZMod prime25519} {m n count k : Nat} (ha : a.Holds (z^m)) (hb : b.Holds (z^n))
    (hcount : 0 < count) (hk : m * 2^count + n = k) : (fmul (fsquareTimes a count) b).Holds (z^k) := by
  have h := holds_fmul (holds_fsquareTimes ha hcount) hb
  rwa [← pow_mul, ← pow_add, hk] at h

/-- The power with which fractions are formed; the inverse of 0 is 0. -/
theorem pow_eq_inv (z : ZMod prime25519) : z^(2^255 - 21) = z⁻¹ := by
  by_cases hz : z = 0
  · rw [hz, inv_zero]
    exact zero_pow (by norm_num)
  · apply eq_inv_of_mul_eq_one_left
    rw [← pow_succ]
    exact ZMod.pow_card_sub_one_eq_one hz

theorem holds_crecip {a : Bits320} {z : ZMod prime25519} (ha : a.Holds z) : (crecip a).Holds z⁻¹ := by
  have h1 : a.Holds (z^1) := by rwa [pow_one]
  have h2 : (fsquareTimes a 1).Holds (z^2) := holds_fsquareTimes ha one_pos
  have h9 := holds_chain h2 h1 (k := 9) two_pos (by norm_num)
  have h11 := holds_fmul h9 h2
  rw [← pow_add] at h11
  have h31 := holds_chain h11 h9 (k := 2^5 - 1) one_pos (by norm_num)
  have h10 := holds_chain h31 h31 (k := 2^10 - 1) (by decide : 0 < 5) (by norm_num)
  have h20 := holds_chain h10 h10 (k := 2^20 - 1) (by decide : 0 < 10) (by norm_num)
  have h40 := holds_chain h20 h20 (k := 2^40 - 1) (by decide : 0 < 20) (by norm_num)
  have h50 := holds_chain h40 h10 (k := 2^50 - 1) (by decide : 0 < 10) (by norm_num)
  have h100 := holds_chain h50 h50 (k := 2^100 - 1) (by decide : 0 < 50) (by norm_num)
  have h200 := holds_chain h100 h100 (k := 2^200 - 1) (by decide : 0 < 100) (by norm_num)
  have h250 := holds_chain h200 h50 (k := 2^250 - 1) (by decide : 0 < 50) (by norm_num)
  have hend := holds_chain h250 h11 (k := 2^255 - 21) (by decide : 0 < 5) (by norm_num)
  rw [pow_eq_inv] at hend
  exact hend

section Ladder
variable {q : Bits320} {x : ZMod prime25519}

theorem holds_fmonty (hq : q.Holds x) {s : Multiples Bits320} {l : Ladder (ZMod prime25519)} (h : s.Holds Bits320.Holds l) :
    (fmonty q s).Holds Bits320.Holds ⟨doubleX l.X l.Z, doubleZ 121665 l.X l.Z, sumX l.X l.Z l.X' l.Z', sumZ x l.X l.Z l.X' l.Z'⟩ := by
  have hsum {a b : Bits320} {u v : ZMod prime25519} (ha : a.Holds u) (hb : b.Holds v) :
      (fsum a b).elt = u + v ∧ (fsum a b).AtMost looseLimb := by
    rw [← ha.elt, ← hb.elt]
    exact fsum_spec (ha.tight.mono (by decide)) (hb.tight.mono (by decide))
  have hdiff {a b : Bits320} {u v : ZMod prime25519} (ha : a.Holds u) (hb : b.Holds v) :
      (fdifferenceBackwards a b).elt = v - u ∧ (fdifferenceBackwards a b).AtMost looseLimb := by
    rw [← ha.elt, ← hb.elt]
    exact fdifferenceBackwards_spec ha.tight hb.tight
  have hmul {a b : Bits320} {u v : ZMod prime25519} (ha : a.elt = u ∧ a.AtMost looseLimb) (hb : b.elt = v ∧ b.AtMost looseLimb) :
      (fmul a b).Holds (u * v) := by
    rw [← ha.1, ← hb.1]
    exact ⟨(fmul_spec ha.2 hb.2).1, (fmul_spec ha.2 hb.2).2⟩
  have hsq {a : Bits320} {u : ZMod prime25519} (ha : a.elt = u ∧ a.AtMost looseLimb) : (fsquareTimes a 1).Holds (u^2) := by
    rw [← ha.1]
    exact ⟨(fsquareTimes_spec ha.2 one_pos).1, (fsquareTimes_spec ha.2 one_pos).2⟩
  have hx := hsum h.nqx h.nqz
  have hz := hdiff h.nqz h.nqx
  have hxprime := hsum h.nqpqx h.nqpqz
  have hzprime := hdiff h.nqpqz h.nqpqx
  have hxxprime := hmul hxprime hz
  have hzzprime := hmul hx hzprime
  have hxx := hsq hx
  have hzz := hsq hz
  have hd := hdiff hzz hxx
  have hzzz := fscalarProduct_spec hd.2 (by decide : 121665 ≤ 2^17)
  rw [hd.1] at hzzz
  have hlong := fsum_spec hzzz.2 (hxx.tight.mono (by decide))
  rw [hzzz.1, hxx.elt] at hlong
  refine ⟨holds_fmul hxx hzz, ?_, hsq (hsum hxxprime hzzprime), holds_fmul (hsq (hdiff hzzprime hxxprime)) hq⟩
  rw [doubleZ, mul_comm (121665 : ZMod prime25519)]
  exact hmul hd hlong

theorem swapLimb_all {a b : Nat} (ha : a < 2^64) (hb : b < 2^64) : swapLimb (2^64 - 1) a b = (b, a) := by
  have hx : (2^64 - 1) &&& (a ^^^ b) = a ^^^ b := by
    rw [Nat.and_comm]
    exact Nat.and_two_pow_sub_one_of_lt_two_pow (Nat.xor_lt_two_pow ha hb)
  rw [swapLimb, hx, ← Nat.xor_assoc, Nat.xor_self, Nat.zero_xor, Nat.xor_comm a b, ← Nat.xor_assoc, Nat.xor_self, Nat.zero_xor]

theorem swapConditional_eq {a b : Bits320} (ha : a.AtMost tightLimb) (hb : b.AtMost tightLimb) (bit : Bool) :
    swapConditional a b bit.toNat = if bit then (b, a) else (a, b) := by
  cases bit with
  | false =>
    have hswap : u64 (-(false.toNat : Int)) = 0 := by decide
    have hkeep (a b : Nat) : swapLimb 0 a b = (a, b) := by simp [swapLimb]
    simp only [swapConditional, hswap, hkeep, Bool.false_eq_true, if_false]
  | true =>
    have hswap : u64 (-(true.toNat : Int)) = 2^64 - 1 := by decide
    obtain ⟨ha0, ha1, ha2, ha3, ha4⟩ := ha
    obtain ⟨hb0, hb1, hb2, hb3, hb4⟩ := hb
    simp only [tightLimb] at ha0 ha1 ha2 ha3 ha4 hb0 hb1 hb2 hb3 hb4
    simp (disch := omega) only [swapConditional, hswap, swapLimb_all, if_true]

theorem simulates (hq : q.Holds x) : Simulates Bits320.Holds swapConditional (fmonty q) 121665 x where
  swap ha hb bit := by
    rw [swapConditional_eq ha.tight hb.tight bit]
    cases bit with
    | false => exact ⟨ha, hb⟩
    | true => exact ⟨hb, ha⟩
  monty h := holds_fmonty hq h

theorem holds_cmult (hq : q.Holds x) (secret : Bits256) :
    (cmult secret q).1.Holds (ladder 121665 x (secretBits secret)).X ∧
      (cmult secret q).2.Holds (ladder 121665 x (secretBits secret)).Z := by
  have hzero : zero320.Holds 0 := ⟨by simp [zero320, Bits320.elt, Bits320.val], by constructor <;> decide⟩
  have hone : one320.Holds 1 := ⟨by simp [one320, Bits320.elt, Bits320.val], by constructor <;> decide⟩
  exact holds_cmultLoop (simulates hq) hzero hone hq secret

end Ladder

/-- The x-coordinate that a string is for the arithmetic. -/
def Bits256.elt (b : Bits256) : ZMod prime25519 := (leValue b.bytes % 2^255 : Nat)

/-- The string that `curve25519` returns is the end of the ladder, as the residue that stands for it. -/
theorem leValue_curve25519 (mysecret basepoint : Bits256) :
    leValue (curve25519 mysecret basepoint).bytes = (ladderX 121665 basepoint.elt (secretBits mysecret)).val := by
  obtain ⟨hval, htight⟩ := fexpand_spec basepoint
  have hbp : (fexpand basepoint).Holds basepoint.elt := ⟨by rw [Bits320.elt, hval, Bits256.elt], htight⟩
  obtain ⟨hx, hz⟩ := holds_cmult hbp mysecret
  have hout := holds_fmul hx (holds_crecip hz)
  rw [curve25519, fcontract_spec hout.tight, ← ZMod.val_natCast, ← Bits320.elt, hout.elt, ladderX, div_eq_mul_inv]

theorem leValue_curve25519_lt (mysecret basepoint : Bits256) : leValue (curve25519 mysecret basepoint).bytes < prime25519 := by
  rw [leValue_curve25519]
  exact ZMod.val_lt _

theorem elt_curve25519 (mysecret basepoint : Bits256) :
    (curve25519 mysecret basepoint).elt = ladderX 121665 basepoint.elt (secretBits mysecret) := by
  have hlt := leValue_curve25519_lt mysecret basepoint
  have hlow : leValue (curve25519 mysecret basepoint).bytes < 2^255 := hlt.trans (by decide)
  rw [Bits256.elt, Nat.mod_eq_of_lt hlow, leValue_curve25519, ZMod.natCast_zmod_val]

/-- The constants of the curve in a field of this characteristic. -/
theorem constants {K : Type*} [Field K] [CharP K prime25519] :
    (2 : K) ≠ 0 ∧ (486662 : K)^2 ≠ 4 ∧ 4 * (121665 : K) = 486662 - 2 := by
  refine ⟨?_, ?_, by norm_num⟩
  · have h : ((2 : Nat) : K) ≠ 0 := by
      rw [ne_eq, CharP.cast_eq_zero_iff K prime25519]
      decide +kernel
    exact_mod_cast h
  · have h : ((236839902240 : Nat) : K) ≠ 0 := by
      rw [ne_eq, CharP.cast_eq_zero_iff K prime25519]
      decide +kernel
    intro heq
    apply h
    push_cast
    linear_combination heq

/-- `curve25519` multiplies points by the little-endian number of the secret, whatever the field that they lie in. -/
theorem curve25519_smul {K : Type*} [Field K] [DecidableEq K] [CharP K prime25519] (mysecret basepoint : Bits256)
    (P : (curve (486662 : K)).Point) (hP : x0 P = (leValue basepoint.bytes % 2^255 : Nat)) :
    (leValue (curve25519 mysecret basepoint).bytes : K) = x0 (leValue mysecret.bytes • P) := by
  obtain ⟨h2, hA, ha⟩ := constants (K := K)
  let f := ZMod.castHom (dvd_refl prime25519) K
  have hf (n : Nat) : (n : K) = f n := (map_natCast f n).symm
  have hbase : x0 P = f basepoint.elt := by rw [hP, hf, Bits256.elt]
  have ha24 : f 121665 = 121665 := map_ofNat f 121665
  rw [hf, leValue_curve25519, ZMod.natCast_zmod_val, map_ladderX, ha24, ← hbase, ladderX_x0 h2 hA ha, ofBits_secretBits]

def basepoint9 : Bits256 where
  bytes := 9 :: List.replicate 31 0
  size := rfl

theorem basepoint9_on_curve : (14781619447589544791020593568409986887264606134616475288964881837755586237401 : ZMod prime25519)^2 =
    9^3 + 486662 * 9^2 + 9 := by
  have h : ((14781619447589544791020593568409986887264606134616475288964881837755586237401^2 : Nat) : ZMod prime25519) =
      (9^3 + 486662 * 9^2 + 9 : Nat) := by
    rw [ZMod.natCast_eq_natCast_iff']
    decide +kernel
  exact_mod_cast h

theorem curve25519_smul_two : ∃ P : (curve (486662 : ZMod prime25519)).Point, x0 P = 9 ∧
    (leValue (curve25519 ⟨2 :: List.replicate 31 0, rfl⟩ basepoint9).bytes : ZMod prime25519) =
      x0 (leValue (2 :: List.replicate 31 0) • P) :=
  ⟨.some 9 _ (nonsingular (constants (K := ZMod prime25519)).1 constants.2.1 basepoint9_on_curve), rfl,
    curve25519_smul ⟨2 :: List.replicate 31 0, rfl⟩ basepoint9 _ (by decide +kernel)⟩

/-- An exchange over basepoints that stand for one element. -/
theorem curve25519_exchange (mysecret othersecret : Bits256) {p q : Bits256} (h : p.elt = q.elt) :
    curve25519 mysecret (curve25519 othersecret p) = curve25519 othersecret (curve25519 mysecret q) := by
  obtain ⟨h2, hA, ha⟩ := constants (K := ZMod prime25519)
  ext1
  rw [← leValue_inj (by rw [Bits256.size, Bits256.size]), leValue_curve25519, leValue_curve25519, elt_curve25519, elt_curve25519,
    h, ladderX_comm h2 hA ha]

/-- Both sides of an exchange come to the same string. -/
theorem curve25519_comm (mysecret othersecret basepoint : Bits256) :
    curve25519 mysecret (curve25519 othersecret basepoint) = curve25519 othersecret (curve25519 mysecret basepoint) :=
  curve25519_exchange mysecret othersecret rfl

end SuperNet.Curve25519
