import SuperNet.Lib.Bytes
import SuperNet.Lib.Words
import SuperNet.Utils.Curve25519Prime

/-! Numbers modulo `2^255 - 19` in curve25519.c, on a platform with integers of 128 bits. -/
namespace SuperNet.Curve25519
open SuperNet.Lib.Words SuperNet.Lib.Bytes

/-- The five `ulongs` of a bits320. -/
@[ext] structure Bits320 where
  l0 : Nat
  l1 : Nat
  l2 : Nat
  l3 : Nat
  l4 : Nat

/-- A string of 32 bytes. -/
@[ext] structure Bits256 where
  bytes : List UInt8
  size : bytes.length = 32

def fsum (output inp : Bits320) : Bits320 where
  l0 := (output.l0 + inp.l0) % 2^64
  l1 := (output.l1 + inp.l1) % 2^64
  l2 := (output.l2 + inp.l2) % 2^64
  l3 := (output.l3 + inp.l3) % 2^64
  l4 := (output.l4 + inp.l4) % 2^64

def two54m152 : Nat := 2^54 - 152

def two54m8 : Nat := 2^54 - 8

def fdifferenceBackwards (out inp : Bits320) : Bits320 where
  l0 := u64 (inp.l0 + two54m152 - out.l0)
  l1 := u64 (inp.l1 + two54m8 - out.l1)
  l2 := u64 (inp.l2 + two54m8 - out.l2)
  l3 := u64 (inp.l3 + two54m8 - out.l3)
  l4 := u64 (inp.l4 + two54m8 - out.l4)

/-- `0x7ffffffffffff` -/
def mask51 : Nat := 2^51 - 1

def loadLimb (inp : List UInt8) : Nat :=
  (inp.getD 0 0).toNat ||| (inp.getD 1 0).toNat <<< 8 ||| (inp.getD 2 0).toNat <<< 16 ||| (inp.getD 3 0).toNat <<< 24 |||
    (inp.getD 4 0).toNat <<< 32 ||| (inp.getD 5 0).toNat <<< 40 ||| (inp.getD 6 0).toNat <<< 48 ||| (inp.getD 7 0).toNat <<< 56

def fexpand (basepoint : Bits256) : Bits320 where
  l0 := loadLimb basepoint.bytes &&& mask51
  l1 := loadLimb (basepoint.bytes.drop 6) >>> 3 &&& mask51
  l2 := loadLimb (basepoint.bytes.drop 12) >>> 6 &&& mask51
  l3 := loadLimb (basepoint.bytes.drop 19) >>> 1 &&& mask51
  l4 := loadLimb (basepoint.bytes.drop 24) >>> 12 &&& mask51

def fscalarProduct (inp : Bits320) (scalar : Nat) : Bits320 :=
  let a0 := inp.l0 * scalar % 2^128
  let a1 := (inp.l1 * scalar + a0 >>> 51 % 2^64) % 2^128
  let a2 := (inp.l2 * scalar + a1 >>> 51 % 2^64) % 2^128
  let a3 := (inp.l3 * scalar + a2 >>> 51 % 2^64) % 2^128
  let a4 := (inp.l4 * scalar + a3 >>> 51 % 2^64) % 2^128
  { l0 := ((a0 % 2^64 &&& mask51) + a4 >>> 51 * 19) % 2^64, l1 := a1 % 2^64 &&& mask51, l2 := a2 % 2^64 &&& mask51,
    l3 := a3 % 2^64 &&& mask51, l4 := a4 % 2^64 &&& mask51 }

/-- The carries with which `fmul` and each turn of `fsquare_times` end. -/
def carry (t0 t1 t2 t3 t4 : Nat) : Bits320 :=
  let r0 := t0 % 2^64 &&& mask51
  let t1 := (t1 + t0 >>> 51 % 2^64) % 2^128
  let r1 := t1 % 2^64 &&& mask51
  let t2 := (t2 + t1 >>> 51 % 2^64) % 2^128
  let r2 := t2 % 2^64 &&& mask51
  let t3 := (t3 + t2 >>> 51 % 2^64) % 2^128
  let r3 := t3 % 2^64 &&& mask51
  let t4 := (t4 + t3 >>> 51 % 2^64) % 2^128
  let r4 := t4 % 2^64 &&& mask51
  let r0 := (r0 + t4 >>> 51 % 2^64 * 19) % 2^64
  let r1 := (r1 + r0 >>> 51) % 2^64
  { l0 := r0 &&& mask51, l1 := r1 &&& mask51, l2 := (r2 + r1 >>> 51) % 2^64, l3 := r3, l4 := r4 }

def fmul (in2 inp : Bits320) : Bits320 :=
  let t0 := inp.l0 * in2.l0
  let t1 := inp.l0 * in2.l1 + inp.l1 * in2.l0
  let t2 := inp.l0 * in2.l2 + inp.l2 * in2.l0 + inp.l1 * in2.l1
  let t3 := inp.l0 * in2.l3 + inp.l3 * in2.l0 + inp.l1 * in2.l2 + inp.l2 * in2.l1
  let t4 := inp.l0 * in2.l4 + inp.l4 * in2.l0 + inp.l3 * in2.l1 + inp.l1 * in2.l3 + inp.l2 * in2.l2
  let r4 := inp.l4 * 19 % 2^64
  let r1 := inp.l1 * 19 % 2^64
  let r2 := inp.l2 * 19 % 2^64
  let r3 := inp.l3 * 19 % 2^64
  let t0 := t0 + (r4 * in2.l1 + r1 * in2.l4 + r2 * in2.l3 + r3 * in2.l2)
  let t1 := t1 + (r4 * in2.l2 + r2 * in2.l4 + r3 * in2.l3)
  let t2 := t2 + (r4 * in2.l3 + r3 * in2.l4)
  let t3 := t3 + r4 * in2.l4
  carry (t0 % 2^128) (t1 % 2^128) (t2 % 2^128) (t3 % 2^128) (t4 % 2^128)

/-- One turn of `fsquare_times`. -/
def fsquare (r : Bits320) : Bits320 :=
  let d0 := r.l0 * 2 % 2^64
  let d1 := r.l1 * 2 % 2^64
  let d2 := r.l2 * 2 * 19 % 2^64
  let d419 := r.l4 * 19 % 2^64
  let d4 := d419 * 2 % 2^64
  let t0 := r.l0 * r.l0 + d4 * r.l1 + d2 * r.l3
  let t1 := d0 * r.l1 + d4 * r.l2 + r.l3 * (r.l3 * 19 % 2^64)
  let t2 := d0 * r.l2 + r.l1 * r.l1 + d4 * r.l3
  let t3 := d0 * r.l3 + d1 * r.l2 + r.l4 * d419
  let t4 := d0 * r.l4 + d1 * r.l3 + r.l2 * r.l2
  carry (t0 % 2^128) (t1 % 2^128) (t2 % 2^128) (t3 % 2^128) (t4 % 2^128)

/-- A count of 0 is counted down through the whole word. -/
def fsquareTimes (inp : Bits320) (count : Nat) : Bits320 := fsquare^[if count = 0 then 2^64 else count] inp

def fcontractIter (t : Bits320) (flag : Bool) : Bits320 :=
  let t1 := (t.l1 + t.l0 >>> 51) % 2^128
  let t2 := (t.l2 + t1 >>> 51) % 2^128
  let t3 := (t.l3 + t2 >>> 51) % 2^128
  let t4 := (t.l4 + t3 >>> 51) % 2^128
  let t0 := t.l0 &&& mask51
  { l0 := if flag then (t0 + 19 * t4 >>> 51) % 2^128 else t0, l1 := t1 &&& mask51, l2 := t2 &&& mask51, l3 := t3 &&& mask51,
    l4 := t4 &&& mask51 }

def storeLimb (inp : Nat) : List UInt8 := leBytes 8 (inp % 2^64)

def fcontract (input : Bits320) : Bits256 :=
  let t := fcontractIter (fcontractIter input true) true
  let t := fcontractIter { t with l0 := (t.l0 + 19) % 2^128 } true
  let t := fcontractIter ⟨(t.l0 + (2^51 - 19)) % 2^128, (t.l1 + (2^51 - 1)) % 2^128, (t.l2 + (2^51 - 1)) % 2^128,
    (t.l3 + (2^51 - 1)) % 2^128, (t.l4 + (2^51 - 1)) % 2^128⟩ false
  { bytes := storeLimb (t.l0 ||| t.l1 <<< 51) ++ storeLimb (t.l1 >>> 13 ||| t.l2 <<< 38) ++
      storeLimb (t.l2 >>> 26 ||| t.l3 <<< 25) ++ storeLimb (t.l3 >>> 39 ||| t.l4 <<< 12)
    size := by simp [storeLimb, leBytes_length] }

def Bits320.val (a : Bits320) : Nat := a.l0 + 2^51 * a.l1 + 2^102 * a.l2 + 2^153 * a.l3 + 2^204 * a.l4

/-- The element of the field that the limbs stand for. -/
def Bits320.elt (a : Bits320) : ZMod prime25519 := a.val

/-- Every limb is at most `b`. -/
structure Bits320.AtMost (a : Bits320) (b : Nat) : Prop where
  h0 : a.l0 ≤ b
  h1 : a.l1 ≤ b
  h2 : a.l2 ≤ b
  h3 : a.l3 ≤ b
  h4 : a.l4 ≤ b

/-- What the multiplication returns, and what it takes. -/
abbrev tightLimb : Nat := 2^51
abbrev looseLimb : Nat := 2^54 + 2^51

theorem and_mask51 (x : Nat) : x &&& mask51 = x % 2^51 := Nat.and_two_pow_sub_one_eq_mod x 51

/-- A multiple of the modulus changes no element. -/
theorem cast_eq_of_add {m n q : Nat} (h : n = m + prime25519 * q) : (m : ZMod prime25519) = n := by
  rw [h, Nat.cast_add, Nat.cast_mul, ZMod.natCast_self, zero_mul, add_zero]

theorem carry_spec {t0 t1 t2 t3 t4 : Nat} (h0 : t0 ≤ 6237 * 2^102) (h1 : t1 ≤ 6237 * 2^102) (h2 : t2 ≤ 6237 * 2^102) (h3 : t3 ≤ 6237 * 2^102)
    (h4 : t4 ≤ 405 * 2^102) :
    (carry t0 t1 t2 t3 t4).elt = (t0 + 2^51 * t1 + 2^102 * t2 + 2^153 * t3 + 2^204 * t4 : Nat) ∧
      (carry t0 t1 t2 t3 t4).AtMost tightLimb := by
  simp only [carry, and_mask51, Nat.shiftRight_eq_div_pow]
  simp (disch := omega) only [Nat.mod_mod_of_dvd, Nat.mod_eq_of_lt]
  constructor
  · apply cast_eq_of_add (q := (t4 + (t3 + (t2 + (t1 + t0 / 2^51) / 2^51) / 2^51) / 2^51) / 2^51)
    simp only [Bits320.val, prime25519]
    omega
  · constructor <;> simp only [tightLimb] <;> omega


theorem Bits320.AtMost.mono {a : Bits320} {b b' : Nat} (h : a.AtMost b) (hb : b ≤ b') : a.AtMost b' :=
  ⟨h.h0.trans hb, h.h1.trans hb, h.h2.trans hb, h.h3.trans hb, h.h4.trans hb⟩

theorem Bits320.AtMost.loose {a : Bits320} (h : a.AtMost tightLimb) : a.AtMost looseLimb := h.mono (by decide)

def Bits320.limbs (a : Bits320) : List Nat := [a.l0, a.l1, a.l2, a.l3, a.l4]

theorem Bits320.AtMost.mem {a : Bits320} {b : Nat} (h : a.AtMost b) : ∀ x ∈ a.limbs, x ≤ b := by
  simp only [Bits320.limbs, List.forall_mem_cons, List.not_mem_nil, false_implies, implies_true, and_true]
  exact ⟨h.h0, h.h1, h.h2, h.h3, h.h4⟩

theorem Bits320.AtMost.mul {a c : Bits320} (ha : a.AtMost looseLimb) (hc : c.AtMost looseLimb) :
    ∀ x ∈ a.limbs, ∀ y ∈ c.limbs, x * y ≤ 81 * 2^102 :=
  fun x hx y hy => (Nat.mul_le_mul (ha.mem x hx) (hc.mem y hy)).trans_eq (by norm_num [looseLimb])

theorem fmul_spec {a b : Bits320} (ha : a.AtMost looseLimb) (hb : b.AtMost looseLimb) :
    (fmul a b).elt = a.elt * b.elt ∧ (fmul a b).AtMost tightLimb := by
  have hmul := hb.mul ha
  obtain ⟨a0, a1, a2, a3, a4⟩ := a
  obtain ⟨b0, b1, b2, b3, b4⟩ := b
  obtain ⟨hb0, hb1, hb2, hb3, hb4⟩ := hb
  simp only [looseLimb] at hb0 hb1 hb2 hb3 hb4
  simp only [Bits320.limbs, List.forall_mem_cons, List.not_mem_nil, false_implies, implies_true, and_true] at hmul
  simp (disch := omega) only [fmul, Nat.mod_eq_of_lt (b := 2^64), mul_right_comm _ 19]
  simp (disch := omega) only [Nat.mod_eq_of_lt]
  set t0 := b0 * a0 + (b4 * a1 * 19 + b1 * a4 * 19 + b2 * a3 * 19 + b3 * a2 * 19) with ht0
  set t1 := b0 * a1 + b1 * a0 + (b4 * a2 * 19 + b2 * a4 * 19 + b3 * a3 * 19) with ht1
  set t2 := b0 * a2 + b2 * a0 + b1 * a1 + (b4 * a3 * 19 + b3 * a4 * 19) with ht2
  set t3 := b0 * a3 + b3 * a0 + b1 * a2 + b2 * a1 + b4 * a4 * 19 with ht3
  set t4 := b0 * a4 + b4 * a0 + b3 * a1 + b1 * a3 + b2 * a2 with ht4
  have h0 : t0 ≤ 6237 * 2^102 := by omega
  have h1 : t1 ≤ 6237 * 2^102 := by omega
  have h2 : t2 ≤ 6237 * 2^102 := by omega
  have h3 : t3 ≤ 6237 * 2^102 := by omega
  have h4 : t4 ≤ 405 * 2^102 := by omega
  obtain ⟨helt, htight⟩ := carry_spec h0 h1 h2 h3 h4
  refine ⟨?_, htight⟩
  rw [helt, Bits320.elt, Bits320.elt, ← Nat.cast_mul]
  -- the products of weight 2^255 and more, of which 19 times each has come down
  apply cast_eq_of_add (q := b4 * a1 + b1 * a4 + b2 * a3 + b3 * a2 + 2^51 * (b4 * a2 + b2 * a4 + b3 * a3) +
    2^102 * (b4 * a3 + b3 * a4) + 2^153 * (b4 * a4))
  simp only [Bits320.val, prime25519, ht0, ht1, ht2, ht3, ht4]
  norm_num
  ring

/-- Squaring shares products, but comes to the same limbs. -/
theorem fsquare_eq {a : Bits320} (ha : a.AtMost looseLimb) : fsquare a = fmul a a := by
  obtain ⟨a0, a1, a2, a3, a4⟩ := a
  obtain ⟨ha0, ha1, ha2, ha3, ha4⟩ := ha
  simp only [looseLimb] at ha0 ha1 ha2 ha3 ha4
  simp (disch := omega) only [fsquare, fmul, Nat.mod_eq_of_lt (b := 2^64)]
  congr 2 <;> ring

theorem fsquareTimes_spec {a : Bits320} (ha : a.AtMost looseLimb) {count : Nat} (hcount : 0 < count) :
    (fsquareTimes a count).elt = a.elt^2^count ∧ (fsquareTimes a count).AtMost tightLimb := by
  rw [fsquareTimes, if_neg hcount.ne']
  induction count, hcount using Nat.le_induction with
  | base =>
    rw [Function.iterate_one, fsquare_eq ha, pow_one, sq]
    exact fmul_spec ha ha
  | succ count hcount ih =>
    obtain ⟨helt, htight⟩ := ih
    obtain ⟨hmul, hout⟩ := fmul_spec htight.loose htight.loose
    rw [Function.iterate_succ_apply', fsquare_eq htight.loose, hmul, helt, ← pow_add, ← two_mul, ← pow_succ']
    exact ⟨rfl, hout⟩

theorem fsum_spec {a b : Bits320} (ha : a.AtMost (2^52)) (hb : b.AtMost (2^52)) :
    (fsum a b).elt = a.elt + b.elt ∧ (fsum a b).AtMost looseLimb := by
  obtain ⟨ha0, ha1, ha2, ha3, ha4⟩ := ha
  obtain ⟨hb0, hb1, hb2, hb3, hb4⟩ := hb
  simp (disch := omega) only [fsum, Nat.mod_eq_of_lt]
  constructor
  · rw [Bits320.elt, Bits320.elt, Bits320.elt, ← Nat.cast_add]
    congr 1
    simp only [Bits320.val]
    ring
  · constructor <;> simp only [looseLimb] <;> omega

/-- The difference has 8 times the modulus added. -/
theorem fdifferenceBackwards_spec {out inp : Bits320} (hout : out.AtMost tightLimb) (hin : inp.AtMost tightLimb) :
    (fdifferenceBackwards out inp).elt = inp.elt - out.elt ∧ (fdifferenceBackwards out inp).AtMost looseLimb := by
  obtain ⟨ha0, ha1, ha2, ha3, ha4⟩ := hout
  obtain ⟨hb0, hb1, hb2, hb3, hb4⟩ := hin
  simp only [tightLimb] at ha0 ha1 ha2 ha3 ha4 hb0 hb1 hb2 hb3 hb4
  have hword (x y c : Nat) (hx : x ≤ 2^51) (hy : y ≤ 2^51) (hc : 2^51 ≤ c) (hc' : c ≤ 2^54) :
      u64 (x + c - y) = x + c - y := by
    have hle : y ≤ x + c := by omega
    rw [← Nat.cast_add, ← Nat.cast_sub hle]
    exact unsigned_of_lt (by omega)
  have hc : 2^51 ≤ two54m152 ∧ two54m152 ≤ 2^54 ∧ 2^51 ≤ two54m8 ∧ two54m8 ≤ 2^54 := by decide
  obtain ⟨hc0, hc0', hc8, hc8'⟩ := hc
  simp only [fdifferenceBackwards, hword _ _ _ hb0 ha0 hc0 hc0', hword _ _ _ hb1 ha1 hc8 hc8', hword _ _ _ hb2 ha2 hc8 hc8',
    hword _ _ _ hb3 ha3 hc8 hc8', hword _ _ _ hb4 ha4 hc8 hc8']
  constructor
  · rw [eq_sub_iff_add_eq, Bits320.elt, Bits320.elt, Bits320.elt, ← Nat.cast_add]
    symm
    apply cast_eq_of_add (q := 8)
    simp only [Bits320.val, prime25519, two54m152, two54m8] at hc0 hc8 ⊢
    omega
  · constructor <;> simp only [looseLimb, two54m152, two54m8] at hc0' hc8' ⊢ <;> omega

theorem fscalarProduct_spec {inp : Bits320} (h : inp.AtMost looseLimb) {scalar : Nat} (hscalar : scalar ≤ 2^17) :
    (fscalarProduct inp scalar).elt = inp.elt * scalar ∧ (fscalarProduct inp scalar).AtMost (2^52) := by
  obtain ⟨a0, a1, a2, a3, a4⟩ := inp
  obtain ⟨h0, h1, h2, h3, h4⟩ := h
  simp only [looseLimb] at h0 h1 h2 h3 h4
  have hmul (a : Nat) (ha : a ≤ 2^54 + 2^51) : a * scalar ≤ (2^54 + 2^51) * 2^17 := Nat.mul_le_mul ha hscalar
  have hm0 := hmul a0 h0
  have hm1 := hmul a1 h1
  have hm2 := hmul a2 h2
  have hm3 := hmul a3 h3
  have hm4 := hmul a4 h4
  simp only [fscalarProduct, and_mask51, Nat.shiftRight_eq_div_pow]
  simp (disch := omega) only [Nat.mod_mod_of_dvd, Nat.mod_eq_of_lt]
  constructor
  · rw [Bits320.elt, Bits320.elt, ← Nat.cast_mul]
    apply cast_eq_of_add (q := (a4 * scalar + (a3 * scalar + (a2 * scalar + (a1 * scalar + a0 * scalar / 2^51) / 2^51) / 2^51) / 2^51) / 2^51)
    simp only [Bits320.val, prime25519, Nat.add_mul, Nat.mul_assoc]
    omega
  · constructor <;> dsimp only <;> omega

theorem or_shiftLeft {x y k : Nat} (h : x < 2^k) : x ||| y <<< k = x + 2^k * y := by
  rw [Nat.or_comm, Nat.shiftLeft_eq, mul_comm, ← Nat.two_pow_add_eq_or_of_lt h, add_comm]

theorem loadLimb_eq {inp : List UInt8} (h : 8 ≤ inp.length) : loadLimb inp = leValue inp % 2^64 := by
  match inp, h with
  | b0 :: b1 :: b2 :: b3 :: b4 :: b5 :: b6 :: b7 :: rest, _ =>
    have hb0 := b0.toNat_lt
    have hb1 := b1.toNat_lt
    have hb2 := b2.toNat_lt
    have hb3 := b3.toNat_lt
    have hb4 := b4.toNat_lt
    have hb5 := b5.toNat_lt
    have hb6 := b6.toNat_lt
    have hb7 := b7.toNat_lt
    simp only [loadLimb, List.getD_cons_zero, List.getD_cons_succ, leValue_cons]
    simp (disch := omega) only [or_shiftLeft]
    omega

theorem loadLimb_drop (basepoint : Bits256) {k : Nat} (hk : k ≤ 24) :
    loadLimb (basepoint.bytes.drop k) = leValue basepoint.bytes / 256^k % 2^64 := by
  rw [loadLimb_eq, (leValue_take_drop _ k).2]
  rw [List.length_drop, basepoint.size]
  omega

/-- The highest bit is left out. -/
theorem fexpand_spec (basepoint : Bits256) :
    (fexpand basepoint).val = leValue basepoint.bytes % 2^255 ∧ (fexpand basepoint).AtMost tightLimb := by
  have h0 := loadLimb_drop basepoint (Nat.zero_le 24)
  have h1 := loadLimb_drop basepoint (by decide : 6 ≤ 24)
  have h2 := loadLimb_drop basepoint (by decide : 12 ≤ 24)
  have h3 := loadLimb_drop basepoint (by decide : 19 ≤ 24)
  have h4 := loadLimb_drop basepoint (by decide : 24 ≤ 24)
  rw [List.drop_zero] at h0
  simp only [fexpand, and_mask51, Nat.shiftRight_eq_div_pow, h0, h1, h2, h3, h4]
  generalize leValue basepoint.bytes = v
  constructor
  · simp only [Bits320.val]
    omega
  · constructor <;> simp only [tightLimb] <;> omega

/-- The high part of a number comes down in one turn, times 19 or not at all. -/
theorem fcontractIter_spec {t : Bits320} (h : t.AtMost (2^64)) (flag : Bool) :
    (fcontractIter t flag).val = t.val % 2^255 + (if flag then 19 else 0) * (t.val / 2^255) ∧
      (fcontractIter t flag).AtMost (2^52) := by
  obtain ⟨t0, t1, t2, t3, t4⟩ := t
  obtain ⟨h0, h1, h2, h3, h4⟩ := h
  simp only at h0 h1 h2 h3 h4
  simp only [fcontractIter, and_mask51, Nat.shiftRight_eq_div_pow]
  simp (disch := omega) only [Nat.mod_eq_of_lt (b := 2^128)]
  have hquot : (Bits320.mk t0 t1 t2 t3 t4).val / 2^255 = (t4 + (t3 + (t2 + (t1 + t0 / 2^51) / 2^51) / 2^51) / 2^51) / 2^51 := by
    simp only [Bits320.val]
    omega
  have hval : (Bits320.mk (t0 % 2^51) ((t1 + t0 / 2^51) % 2^51) ((t2 + (t1 + t0 / 2^51) / 2^51) % 2^51)
      ((t3 + (t2 + (t1 + t0 / 2^51) / 2^51) / 2^51) % 2^51)
      ((t4 + (t3 + (t2 + (t1 + t0 / 2^51) / 2^51) / 2^51) / 2^51) % 2^51)).val = (Bits320.mk t0 t1 t2 t3 t4).val % 2^255 := by
    simp only [Bits320.val]
    omega
  rw [hquot, ← hval]
  cases flag with
  | false =>
    refine ⟨?_, ?_⟩
    · simp
    · constructor <;> simp <;> omega
  | true =>
    refine ⟨?_, ?_⟩
    · simp only [Bits320.val, if_true]
      omega
    · constructor <;> simp only [if_true] <;> omega

/-- The limbs have 51 bits when nothing comes down. -/
theorem fcontractIter_false (t : Bits320) : (fcontractIter t false).AtMost (2^51 - 1) := by
  simp only [fcontractIter, and_mask51, Bool.false_eq_true, if_false]
  constructor <;> dsimp only <;> omega

theorem leValue_storeLimb (x : Nat) : leValue (storeLimb x) = x % 2^64 := by
  rw [storeLimb, leValue_leBytes]
  exact Nat.mod_mod x (2^64)

/-- The four words hold the bits of the limbs. -/
theorem storeLimbs_val {t : Bits320} (h : t.AtMost (2^51 - 1)) :
    leValue (storeLimb (t.l0 ||| t.l1 <<< 51) ++ storeLimb (t.l1 >>> 13 ||| t.l2 <<< 38) ++
      storeLimb (t.l2 >>> 26 ||| t.l3 <<< 25) ++ storeLimb (t.l3 >>> 39 ||| t.l4 <<< 12)) = t.val := by
  obtain ⟨h0, h1, h2, h3, h4⟩ := h
  have hlen (x : Nat) : (storeLimb x).length = 8 := leBytes_length 8 _
  simp only [leValue_append, List.length_append, hlen, leValue_storeLimb, Nat.shiftRight_eq_div_pow]
  simp (disch := omega) only [or_shiftLeft]
  simp only [Bits320.val]
  omega

/-- Two turns bring a number below `2^255`, and with the third one, which starts 19 higher, its residue. -/
theorem residue_of_turns {v v1 v2 v3 : Nat} (hv : v < 2^256) (h1 : v1 = v % 2^255 + 19 * (v / 2^255))
    (h2 : v2 = v1 % 2^255 + 19 * (v1 / 2^255)) (h3 : v3 = (v2 + 19) % 2^255 + 19 * ((v2 + 19) / 2^255)) :
    (v3 + (2^255 - 19)) % 2^255 = v % prime25519 := by
  have hlt : v2 < 2^255 := by
    have hq : v / 2^255 ≤ 1 := by omega
    have hq1 : v1 / 2^255 ≤ 1 := by omega
    omega
  have hres : v = v2 + prime25519 * (v / 2^255 + v1 / 2^255) := by
    simp only [prime25519]
    omega
  rw [hres, Nat.add_mul_mod_self_left]
  simp only [prime25519]
  obtain hlow | hhigh := Nat.lt_or_ge v2 (2^255 - 19)
  · rw [Nat.mod_eq_of_lt hlow]
    clear hres h1 h2
    omega
  · have hmod : v2 % (2^255 - 19) = v2 - (2^255 - 19) := by
      rw [Nat.mod_eq_sub_mod hhigh]
      exact Nat.mod_eq_of_lt (by omega)
    have hq : (v2 + 19) / 2^255 = 1 := by omega
    rw [hmod, h3, hq]
    clear hres h1 h2 hmod
    omega

/-- The string of a number is that of its residue. -/
theorem fcontract_spec {input : Bits320} (h : input.AtMost tightLimb) :
    leValue (fcontract input).bytes = input.val % prime25519 := by
  have hval : input.val < 2^256 := by
    obtain ⟨h0, h1, h2, h3, h4⟩ := h
    simp only [Bits320.val, tightLimb] at h0 h1 h2 h3 h4 ⊢
    omega
  obtain ⟨hval1, h1⟩ := fcontractIter_spec (h.mono (by decide)) true
  obtain ⟨hval2, h2⟩ := fcontractIter_spec (h1.mono (by decide)) true
  generalize ht1 : fcontractIter input true = t1 at hval1 h1 hval2 h2
  generalize ht2 : fcontractIter t1 true = t2 at hval2 h2
  have hoff : ({ t2 with l0 := (t2.l0 + 19) % 2^128 } : Bits320).val = t2.val + 19 := by
    obtain ⟨h0, -, -, -, -⟩ := h2
    simp only [Bits320.val]
    omega
  have hoff' : ({ t2 with l0 := (t2.l0 + 19) % 2^128 } : Bits320).AtMost (2^64) := by
    obtain ⟨h0, h1, h2, h3, h4⟩ := h2
    constructor <;> dsimp only <;> omega
  obtain ⟨hval3, h3⟩ := fcontractIter_spec hoff' true
  rw [hoff] at hval3
  generalize ht3 : fcontractIter { t2 with l0 := (t2.l0 + 19) % 2^128 } true = t3 at hval3 h3
  let t4 : Bits320 := ⟨(t3.l0 + (2^51 - 19)) % 2^128, (t3.l1 + (2^51 - 1)) % 2^128, (t3.l2 + (2^51 - 1)) % 2^128,
    (t3.l3 + (2^51 - 1)) % 2^128, (t3.l4 + (2^51 - 1)) % 2^128⟩
  have hval4 : t4.val = t3.val + (2^255 - 19) := by
    obtain ⟨h0, h1, h2, h3, h4⟩ := h3
    simp only [Bits320.val, t4]
    omega
  have h4 : t4.AtMost (2^64) := by
    obtain ⟨h0, h1, h2, h3, h4⟩ := h3
    constructor <;> dsimp only [t4] <;> omega
  obtain ⟨hval5, -⟩ := fcontractIter_spec h4 false
  have hbytes : leValue (fcontract input).bytes = (fcontractIter t4 false).val := by
    rw [← storeLimbs_val (fcontractIter_false t4)]
    subst ht3 ht2 ht1
    rfl
  simp only [if_true, Bool.false_eq_true, if_false] at hval1 hval2 hval3 hval5
  rw [hbytes, hval5, hval4, Nat.zero_mul, Nat.add_zero]
  exact residue_of_turns hval hval1 hval2 hval3

end SuperNet.Curve25519
