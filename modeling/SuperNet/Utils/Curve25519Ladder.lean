import SuperNet.Lib.MontgomeryLadder
import SuperNet.Utils.Curve25519Limbs

/-! The loop of `cmult` over the bits of a secret. -/
namespace SuperNet.Curve25519
open SuperNet.Lib.Bytes SuperNet.Lib.MontgomeryCurve

/-- A multiple of the point and the next one, in arrays of limbs. -/
structure Multiples (L : Type) where
  nqx : L
  nqz : L
  nqpqx : L
  nqpqz : L

section Loop
variable {L S : Type} (swapConditional : L → L → Nat → L × L) (fmonty : Multiples L → Multiples L)

def cmultBit (s : Multiples L) (bit : Nat) : Multiples L :=
  let (nqx, nqpqx) := swapConditional s.nqx s.nqpqx bit
  let (nqz, nqpqz) := swapConditional s.nqz s.nqpqz bit
  let t := fmonty ⟨nqx, nqz, nqpqx, nqpqz⟩
  let (nqx2, nqpqx2) := swapConditional t.nqx t.nqpqx bit
  let (nqz2, nqpqz2) := swapConditional t.nqz t.nqpqz bit
  ⟨nqx2, nqz2, nqpqx2, nqpqz2⟩

/-- The inner loop over what is left of a byte, from its highest bit on. -/
def cmultByte (turn : S → Nat → S) : Nat → UInt8 → S → S
  | 0, _, s => s
  | j+1, byte, s => cmultByte turn j (byte <<< 1) (turn s (byte >>> 7).toNat)

def cmultBytes (turn : S → Nat → S) (secret : Bits256) (s : S) : S :=
  secret.bytes.reverse.foldl (fun s byte => cmultByte turn 8 byte s) s

/-- `resultx` and `resultz`. -/
def cmultLoop (zero one : L) (secret : Bits256) (q : L) : L × L :=
  let s := cmultBytes (cmultBit swapConditional fmonty) secret ⟨one, zero, q, one⟩
  (s.nqx, s.nqz)

end Loop

/-- The bits of a byte in the order in which `cmult` takes them. -/
def byteBits : Nat → UInt8 → List Bool
  | 0, _ => []
  | j+1, byte => byte.toNat.testBit 7 :: byteBits j (byte <<< 1)

def secretBits (secret : Bits256) : List Bool := secret.bytes.reverse.flatMap (byteBits 8)

theorem highBit_eq (byte : UInt8) : (byte >>> 7).toNat = (byte.toNat.testBit 7).toNat := by
  have hb := byte.toNat_lt
  have hshift : (byte >>> 7).toNat = byte.toNat / 2^7 := by
    rw [UInt8.toNat_shiftRight, Nat.shiftRight_eq_div_pow]
    rfl
  rw [Nat.toNat_testBit, hshift]
  omega

section Bits
variable {S : Type} (turn : S → Nat → S)

theorem cmultByte_eq (j : Nat) (byte : UInt8) (s : S) :
    cmultByte turn j byte s = (byteBits j byte).foldl (fun s bit => turn s bit.toNat) s := by
  induction j generalizing byte s with
  | zero => rfl
  | succ j ih => rw [cmultByte, byteBits, List.foldl_cons, highBit_eq, ih]

/-- Both loops go through the bits of the secret. -/
theorem cmultBytes_eq (secret : Bits256) (s : S) :
    cmultBytes turn secret s = (secretBits secret).foldl (fun s bit => turn s bit.toNat) s := by
  rw [cmultBytes, secretBits, List.foldl_flatMap]
  simp only [cmultByte_eq]

end Bits

/-- The bits taken stand for the little-endian number of the bytes. -/
theorem ofBits_append (bits bits' : List Bool) : ofBits (bits ++ bits') = 2^bits'.length * ofBits bits + ofBits bits' := by
  induction bits' using List.reverseRecOn with
  | nil => simp [ofBits]
  | append_singleton bits' bit ih =>
    rw [← List.append_assoc, ofBits_concat, ofBits_concat, ih, List.length_append, List.length_singleton]
    ring

theorem length_byteBits (j : Nat) (byte : UInt8) : (byteBits j byte).length = j := by
  induction j generalizing byte with
  | zero => rfl
  | succ j ih => rw [byteBits, List.length_cons, ih]

theorem ofBits_byteBits (byte : UInt8) : ofBits (byteBits 8 byte) = byte.toNat := by
  have hall : ∀ n < 256, ofBits (byteBits 8 (UInt8.ofNat n)) = n := by decide +kernel
  have h := hall byte.toNat byte.toNat_lt
  rwa [UInt8.ofNat_toNat] at h

theorem ofBits_secretBits (secret : Bits256) : ofBits (secretBits secret) = leValue secret.bytes := by
  have hall (bytes : List UInt8) : ofBits (bytes.reverse.flatMap (byteBits 8)) = leValue bytes := by
    induction bytes with
    | nil => rfl
    | cons byte bytes ih =>
      rw [List.reverse_cons, List.flatMap_append, List.flatMap_singleton, ofBits_append, ih, ofBits_byteBits, length_byteBits,
        leValue_cons, add_comm]
      norm_num
  exact hall secret.bytes

/-- The four arrays hold a state of the ladder, each in the sense of `R`. -/
structure Multiples.Holds {L K : Type} (R : L → K → Prop) (s : Multiples L) (l : Ladder K) : Prop where
  nqx : R s.nqx l.X
  nqz : R s.nqz l.Z
  nqpqx : R s.nqpqx l.X'
  nqpqz : R s.nqpqz l.Z'

section Run
variable {L K : Type} [Field K] {R : L → K → Prop} {swapConditional : L → L → Nat → L × L} {fmonty : Multiples L → Multiples L}
  {a24 x : K}

/-- What the two functions of the turn have to do: swap for the bit 1, and double and add. -/
structure Simulates (R : L → K → Prop) (swapConditional : L → L → Nat → L × L) (fmonty : Multiples L → Multiples L) (a24 x : K) :
    Prop where
  swap : ∀ {a b : L} {u v : K}, R a u → R b v → ∀ bit : Bool,
    R (swapConditional a b bit.toNat).1 (if bit then v else u) ∧ R (swapConditional a b bit.toNat).2 (if bit then u else v)
  monty : ∀ {s : Multiples L} {l : Ladder K}, s.Holds R l →
    (fmonty s).Holds R ⟨doubleX l.X l.Z, doubleZ a24 l.X l.Z, sumX l.X l.Z l.X' l.Z', sumZ x l.X l.Z l.X' l.Z'⟩

theorem holds_cmultBit (hsim : Simulates R swapConditional fmonty a24 x) {s : Multiples L} {l : Ladder K} (h : s.Holds R l)
    (bit : Bool) : (cmultBit swapConditional fmonty s bit.toNat).Holds R (l.step a24 x bit) := by
  have hx := hsim.swap h.nqx h.nqpqx bit
  have hz := hsim.swap h.nqz h.nqpqz bit
  have hs : (Multiples.mk _ _ _ _).Holds R
      ⟨if bit then l.X' else l.X, if bit then l.Z' else l.Z, if bit then l.X else l.X', if bit then l.Z else l.Z'⟩ :=
    ⟨hx.1, hz.1, hx.2, hz.2⟩
  have ht := hsim.monty hs
  have hx' := hsim.swap ht.nqx ht.nqpqx bit
  have hz' := hsim.swap ht.nqz ht.nqpqz bit
  cases bit with
  | false => exact ⟨hx'.1, hz'.1, hx'.2, hz'.2⟩
  | true => exact ⟨hx'.1, hz'.1, hx'.2, hz'.2⟩

/-- The turns for some bits. -/
theorem holds_cmultBits (hsim : Simulates R swapConditional fmonty a24 x) {zero one q : L} (hzero : R zero 0) (hone : R one 1)
    (hq : R q x) (bits : List Bool) :
    (bits.foldl (fun s bit => cmultBit swapConditional fmonty s bit.toNat) ⟨one, zero, q, one⟩).Holds R (ladder a24 x bits) := by
  induction bits using List.reverseRecOn with
  | nil => exact ⟨hone, hzero, hq, hone⟩
  | append_singleton bits bit ih =>
    rw [List.foldl_append, ladder_concat]
    exact holds_cmultBit hsim ih bit

/-- The loop ends with the arrays for the end of the ladder. -/
theorem holds_cmultLoop (hsim : Simulates R swapConditional fmonty a24 x) {zero one q : L} (hzero : R zero 0) (hone : R one 1)
    (hq : R q x) (secret : Bits256) :
    R (cmultLoop swapConditional fmonty zero one secret q).1 (ladder a24 x (secretBits secret)).X ∧
      R (cmultLoop swapConditional fmonty zero one secret q).2 (ladder a24 x (secretBits secret)).Z := by
  have h := holds_cmultBits hsim hzero hone hq (secretBits secret)
  rw [← cmultBytes_eq] at h
  exact ⟨h.nqx, h.nqz⟩

end Run

end SuperNet.Curve25519
