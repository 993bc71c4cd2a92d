import Mathlib.Data.List.GetD
import SuperNet.Lib.LogField
import SuperNet.Lib.Radix
import SuperNet.Lib.ReedSolomon
import SuperNet.Lib.Runs
import SuperNet.Lib.Words

/-! The Reed-Solomon form of an NXT account id: RS_encode and RS_decode of NXT777.c. -/
namespace SuperNet.Utils.NXT777
open SuperNet.Lib.LogField SuperNet.Lib.Radix SuperNet.Lib.ReedSolomon SuperNet.Lib.Runs SuperNet.Lib.Words

def gexp : List Nat :=
  [1, 2, 4, 8, 16, 5, 10, 20, 13, 26, 17, 7, 14, 28, 29, 31, 27, 19, 3, 6, 12, 24, 21, 15, 30, 25, 23, 11, 22, 9, 18, 1]

def glog : List Nat :=
  [0, 0, 1, 18, 2, 5, 19, 11, 3, 29, 6, 27, 20, 8, 12, 23, 4, 10, 30, 17, 7, 22, 28, 26, 21, 25, 9, 16, 13, 14, 24, 15]

def cwmap : List Nat := [3, 2, 1, 0, 7, 6, 5, 4, 13, 14, 15, 16, 12, 8, 9, 10, 11]

def alphabet : List Char :=
  ['2', '3', '4', '5', '6', '7', '8', '9', 'A', 'B', 'C', 'D', 'E', 'F', 'G', 'H', 'J', 'K', 'L', 'M', 'N', 'P', 'Q',
   'R', 'S', 'T', 'U', 'V', 'W', 'X', 'Y', 'Z']

/-- The end of a C string. -/
def NUL : Char := Char.ofNat 0

def NXT_ASSETID : Nat := 5527630

def gmult (a b : Nat) : Nat :=
  if a = 0 ∨ b = 0 then 0 else gexp.getD ((glog.getD a 0 + glog.getD b 0) % 31) 0

def letterval (letter : Char) : Int :=
  if letter.toNat < '9'.toNat then (letter.toNat : Int) - '2'.toNat
  else
    let ret := (letter.toNat : Int) - 'A'.toNat + 8
    let ret := if letter.toNat > 'I'.toNat then ret - 1 else ret
    if letter.toNat > 'O'.toNat then ret - 1 else ret

/-- One symbol of the address: its place in the code and the position behind it and a dash. -/
def decodeSymbol (rs : List Char) (s : (Nat → Int) × Nat) (i : Nat) : (Nat → Int) × Nat :=
  let code := Function.update s.1 (cwmap.getD i 0) (letterval (rs.getD s.2 NUL))
  let p := s.2 + 1
  (code, if rs.getD p NUL = '-' then p + 1 else p)

/-- The `code` of `RS_decode`. -/
def decodedCode (rs : List Char) : Nat → Int :=
  (rounds (decodeSymbol rs) (fun i => if i = 0 then 1 else 0, 4) 17).1

def rsDecode (rs : List Char) : Nat :=
  if rs.take 4 ≠ ['N', 'X', 'T', '-'] then 0
  else (List.range 13).reverse.foldl (fun out i => u64 (out * 32 + decodedCode rs i)) 0

/-- One digit of the conversion from base 10 to base 32. -/
def divideInp (acc : Nat × List Nat) (inp : Nat) : Nat × List Nat :=
  let divide := acc.1 * 10 + inp
  if divide ≥ 32 then (divide &&& 31, acc.2 ++ [divide >>> 5])
  else if acc.2.length > 0 then (divide, acc.2 ++ [0])
  else (divide, acc.2)

/-- The conversion, with a bound on its rounds. -/
def convertInp : Nat → List Nat → List Nat
  | 0, _ => []
  | n + 1, inp =>
    let (divide, newinp) := inp.foldl divideInp (0, [])
    divide :: if newinp.length = 0 then [] else convertInp n newinp

/-- The parity symbols of 13 code symbols. -/
def parity (code : Nat → Nat) : Nat × Nat × Nat × Nat :=
  (List.range 13).reverse.foldl (fun (p0, p1, p2, p3) i =>
    let fb := code i ^^^ p3
    (gmult 17 fb, p0 ^^^ gmult 9 fb, p1 ^^^ gmult 6 fb, p2 ^^^ gmult 30 fb)) (0, 0, 0, 0)

/-- The `code` of `RS_encode` for the digits `out`. -/
def encodedCode (out : List Nat) (i : Nat) : Nat :=
  let code := fun i => if i < out.length then out.getD i 0 else 0
  let (p0, p1, p2, p3) := parity code
  if i < 13 then code i else [p0, p1, p2, p3].getD (i - 13) 0

def emitSymbol (code : Nat → Nat) (rsaddr : List Char) (i : Nat) : List Char :=
  let rsaddr := rsaddr ++ [alphabet.getD (code (cwmap.getD i 0)) NUL]
  if rsaddr.length % 5 = 3 ∧ rsaddr.length < 20 then rsaddr ++ ['-'] else rsaddr

/-- The value of a decimal digit. -/
def decimal (ch : Char) : Nat := ch.toNat - '0'.toNat

/-- The return value and the text at `rsaddr`. `out` has room for 32 digits. -/
def rsEncode (id : Nat) : Int × List Char :=
  let acc := Nat.toDigits 10 id
  if acc.length = 20 ∧ acc.head? ≠ some '1' then (-1, "error (".toList ++ acc ++ ") doesnt start with 1".toList)
  else
    let out := convertInp 32 (acc.map decimal)
    (0, rounds (emitSymbol (encodedCode out)) ['N', 'X', 'T', '-'] 17)

private theorem divideInp_eq : divideInp = divideDigit 10 32 := by
  funext acc inp
  have hand (n : Nat) : n &&& 31 = n % 32 := Nat.and_two_pow_sub_one_eq_mod n 5
  have hshift (n : Nat) : n >>> 5 = n / 32 := Nat.shiftRight_eq_div_pow n 5
  simp only [divideInp, divideDigit, hand, hshift, ge_iff_le]

private theorem convertInp_eq (n : Nat) (inp : List Nat) : convertInp n inp = toBase 10 32 n inp := by
  induction n generalizing inp with
  | zero => rfl
  | succ n ih =>
    rw [convertInp, toBase, longDivide, divideInp_eq]
    simp only [ih]

private theorem decimal_digitChar {d : Nat} (h : d < 10) : decimal (Nat.digitChar d) = d := by
  interval_cases d <;> rfl

private theorem toDigits_decimal (n : Nat) : (∀ d ∈ (Nat.toDigits 10 n).map decimal, d < 10) ∧
    value 10 ((Nat.toDigits 10 n).map decimal) = n ∧
    (0 < n → ∃ ch, (Nat.toDigits 10 n).head? = some (Nat.digitChar ch) ∧ 0 < ch ∧ ch < 10) := by
  induction n using Nat.strongRecOn with
  | ind n ih =>
    rw [Nat.toDigits_eq_if (by decide)]
    split
    case isTrue hlt =>
      rw [List.map_singleton, decimal_digitChar hlt]
      exact ⟨by simpa using hlt, by simp [value], fun hpos => ⟨n, rfl, hpos, hlt⟩⟩
    case isFalse hge =>
      obtain ⟨hdigits, hvalue, hhead⟩ := ih (n / 10) (by omega)
      have hmod : n % 10 < 10 := Nat.mod_lt n (by decide)
      rw [List.map_append, List.map_singleton, decimal_digitChar hmod]
      refine ⟨?_, ?_, fun _ => ?_⟩
      · simp only [List.mem_append, List.mem_singleton]
        rintro d (hd | rfl)
        · exact hdigits d hd
        · exact hmod
      · rw [value_concat, hvalue]
        omega
      · obtain ⟨ch, hch, hbound⟩ := hhead (by omega)
        exact ⟨ch, by rw [List.head?_append, hch]; rfl, hbound⟩

private theorem toDigits_head {n : Nat} (h : n < 2^64) :
    ¬ ((Nat.toDigits 10 n).length = 20 ∧ (Nat.toDigits 10 n).head? ≠ some '1') := by
  rintro ⟨hlen, hhead⟩
  obtain ⟨-, hvalue, hfirst⟩ := toDigits_decimal n
  have hpos : 0 < n := by
    by_contra hzero
    have hn : n = 0 := by omega
    subst hn
    simp [Nat.toDigits_zero] at hlen
  obtain ⟨ch, hch, hch0, hch10⟩ := hfirst hpos
  obtain ⟨rest, hrest⟩ : ∃ rest, Nat.toDigits 10 n = Nat.digitChar ch :: rest := List.head?_eq_some_iff.mp hch
  rw [hrest, List.map_cons, decimal_digitChar hch10, value_cons, List.length_map] at hvalue
  have hrestlen : rest.length = 19 := by simpa [hrest] using hlen
  rw [hrestlen] at hvalue
  have hone : ch = 1 := by omega
  rw [hch, hone] at hhead
  exact hhead rfl

/-- The symbols that `RS_encode` writes, in the order of the code. -/
private def symbol (code : Nat → Nat) (i : Nat) : Char := alphabet.getD (code i) NUL

private theorem symbol_ne_dash (code : Nat → Nat) (i : Nat) : symbol code i ≠ '-' := by
  rw [symbol]
  by_cases h : code i < 32
  · have hall : ∀ c < 32, alphabet.getD c NUL ≠ '-' := by decide
    exact hall _ h
  · rw [List.getD_eq_getElem?_getD, List.getElem?_eq_none (by simpa [alphabet] using h)]
    decide

private theorem emitSymbol_all (code : Nat → Nat) : rounds (emitSymbol code) ['N', 'X', 'T', '-'] 17 =
    let s := symbol code
    ['N', 'X', 'T', '-', s 3, s 2, s 1, s 0, '-', s 7, s 6, s 5, s 4, '-', s 13, s 14, s 15, s 16, '-',
     s 12, s 8, s 9, s 10, s 11] := by
  simp [rounds, List.range_succ, emitSymbol, cwmap, symbol]

private theorem decodedCode_emitted (code : Nat → Nat) :
    decodedCode (rounds (emitSymbol code) ['N', 'X', 'T', '-'] 17) = rounds (fun placed i =>
      Function.update placed (cwmap.getD i 0) (letterval (symbol code (cwmap.getD i 0))))
      (fun i => if i = 0 then 1 else 0) 17 := by
  rw [emitSymbol_all]
  generalize hs : symbol code = s
  have hdash (k : Nat) : s k ≠ '-' := hs ▸ symbol_ne_dash code k
  simp [decodedCode, rounds, List.range_succ, decodeSymbol, cwmap, hdash]

private theorem decodedCode_symbol (code : Nat → Nat) {i : Nat} (hi : i < 17) :
    decodedCode (rounds (emitSymbol code) ['N', 'X', 'T', '-'] 17) i = letterval (symbol code i) := by
  rw [decodedCode_emitted]
  interval_cases i <;> rfl

private theorem letterval_alphabet {c : Nat} (h : c < 32) :
    letterval (alphabet.getD c NUL) = if c = 7 then 0 else c := by
  interval_cases c <;> rfl

private theorem foldl_u64 (code : Nat → Int) (digits : List Nat) (hcode : ∀ i ∈ digits, 0 ≤ code i) :
    digits.foldl (fun (out : Nat) i => u64 (out * 32 + code i)) 0 =
      value 32 (digits.map fun i => (code i).toNat) % 2^64 := by
  induction digits using List.reverseRecOn with
  | nil => rfl
  | append_singleton digits d ih =>
    have hd : code d = ((code d).toNat : Int) := (Int.toNat_of_nonneg (hcode d (by simp))).symm
    rw [List.foldl_append, ih fun i hi => hcode i (List.mem_append_left _ hi), List.map_append, List.map_singleton,
      value_concat]
    generalize value 32 (digits.map fun i => (code i).toNat) = v
    have hcast : ((v % 2^64 : Nat) : Int) * 32 + code d = ((v % 2^64 * 32 + (code d).toNat : Nat) : Int) := by
      rw [hd]
      push_cast
      simp
    rw [List.foldl_cons, List.foldl_nil, hcast, u64, unsigned_natCast, Nat.add_mod, Nat.mul_mod, Nat.mod_mod,
      ← Nat.mul_mod, ← Nat.add_mod]

/-- The digits of an id in base 32, the lowest first. -/
def digit (id : UInt64) (i : Nat) : Nat := id.toNat / 32^i % 32

/-- A digit as it comes back from the decoder. -/
def readBack (d : Nat) : Nat := if d = 7 then 0 else d

private theorem encodedCode_digit (id : UInt64) {i : Nat} (hi : i < 13) :
    encodedCode (convertInp 32 ((Nat.toDigits 10 id.toNat).map decimal)) i = digit id i := by
  obtain ⟨hdigits, hvalue, -⟩ := toDigits_decimal id.toNat
  have hlt : value 10 ((Nat.toDigits 10 id.toNat).map decimal) < 32^32 := by
    rw [hvalue]
    exact id.toNat_lt.trans (by norm_num)
  have hget := toBase_getD (by decide) 32 _ hdigits hlt i
  have hcode (out : List Nat) : encodedCode out i = out.getD i 0 := by
    simp only [encodedCode, hi, if_true]
    split
    · rfl
    · rw [List.getD_eq_getElem?_getD, List.getElem?_eq_none (by omega)]
      rfl
  rw [hcode, convertInp_eq, hget, hvalue, digit]

private theorem rsEncode_eq (id : UInt64) : rsEncode id.toNat = (0, rounds (emitSymbol
    (encodedCode (convertInp 32 ((Nat.toDigits 10 id.toNat).map decimal)))) ['N', 'X', 'T', '-'] 17) := by
  rw [rsEncode, if_neg (toDigits_head id.toNat_lt)]

private theorem decodedCode_rsEncode (id : UInt64) {i : Nat} (hi : i < 13) :
    decodedCode (rsEncode id.toNat).2 i = readBack (digit id i) := by
  have hlt : digit id i < 32 := Nat.mod_lt _ (by decide)
  rw [rsEncode_eq, decodedCode_symbol _ (by omega), symbol, encodedCode_digit id hi, letterval_alphabet hlt, readBack]

private theorem readBack_le (d : Nat) : readBack d ≤ d := by
  rw [readBack]
  split <;> omega

/-- The id that the digits stand for after the decoder has read them. -/
def idReadBack (id : UInt64) : Nat := value 32 (((List.range 13).map (digit id)).reverse.map readBack)

private theorem value_digits (id : UInt64) : value 32 ((List.range 13).map (digit id)).reverse = id.toNat :=
  value_range_map (id.toNat_lt.trans (by norm_num))

theorem idReadBack_le (id : UInt64) : idReadBack id ≤ id.toNat := by
  conv_rhs => rw [← value_digits id]
  exact (value_map_eq_iff (by decide) readBack_le _).1

theorem idReadBack_eq_iff (id : UInt64) : idReadBack id = id.toNat ↔ ∀ i < 13, digit id i ≠ 7 := by
  conv_lhs => rw [← value_digits id]
  rw [idReadBack, (value_map_eq_iff (by decide) readBack_le _).2]
  have hfix (d : Nat) : readBack d = d ↔ d ≠ 7 := by
    rw [readBack]
    split <;> omega
  simp [hfix]

theorem rsEncode_form (id : UInt64) : (rsEncode id.toNat).1 = 0 ∧ (rsEncode id.toNat).2.length = 24 ∧
    (rsEncode id.toNat).2.take 4 = ['N', 'X', 'T', '-'] := by
  rw [rsEncode_eq, emitSymbol_all]
  exact ⟨rfl, rfl, rfl⟩

theorem rsDecode_rsEncode (id : UInt64) : rsDecode (rsEncode id.toNat).2 = idReadBack id := by
  have hdigits : ((List.range 13).reverse.map fun i => (decodedCode (rsEncode id.toNat).2 i).toNat) =
      ((List.range 13).map (digit id)).reverse.map readBack := by
    rw [← List.map_reverse, List.map_map]
    apply List.map_congr_left
    intro i hi
    rw [decodedCode_rsEncode id (by simpa using hi)]
    rfl
  have hcode : ∀ i ∈ (List.range 13).reverse, 0 ≤ decodedCode (rsEncode id.toNat).2 i := by
    intro i hi
    rw [decodedCode_rsEncode id (by simpa using hi)]
    exact Int.natCast_nonneg _
  rw [rsDecode, if_neg (not_not_intro (rsEncode_form id).2.2), foldl_u64 _ _ hcode, hdigits]
  exact Nat.mod_eq_of_lt ((idReadBack_le id).trans_lt id.toNat_lt)

/-- The id is encoded as an address of 24 characters, which decodes to the id. -/
def RoundTrips (id : UInt64) : Prop :=
  (rsEncode id.toNat).1 = 0 ∧ (rsEncode id.toNat).2.length = 24 ∧
    (rsEncode id.toNat).2.take 4 = ['N', 'X', 'T', '-'] ∧ rsDecode (rsEncode id.toNat).2 = id.toNat

/-- Only the digit 7, whose symbol is 9, does not come back. -/
theorem roundTrips_iff_no_seven (id : UInt64) : RoundTrips id ↔ ∀ i < 13, digit id i ≠ 7 := by
  obtain ⟨hret, hlen, hprefix⟩ := rsEncode_form id
  rw [RoundTrips, rsDecode_rsEncode, idReadBack_eq_iff]
  exact ⟨fun h => h.2.2.2, fun h => ⟨hret, hlen, hprefix, h⟩⟩

theorem seven_comes_back_zero : ¬ RoundTrips 7 := by
  rintro ⟨-, -, -, h⟩
  rw [rsDecode_rsEncode] at h
  exact absurd h (by decide)

/-- A symbol as an element of the field behind `gexp` and `glog`. -/
structure Gf where
  bits : BitVec 5
  deriving DecidableEq

namespace Gf

instance : Zero Gf := ⟨⟨0⟩⟩
instance : Add Gf := ⟨fun a b => ⟨a.bits ^^^ b.bits⟩⟩
instance : Neg Gf := ⟨fun a => a⟩

theorem ext_bits {a b : Gf} (h : a.bits = b.bits) : a = b := by
  cases a
  cases b
  exact congrArg Gf.mk h

instance : AddCommGroup Gf where
  add_assoc a b c := ext_bits (BitVec.xor_assoc a.bits b.bits c.bits)
  add_comm a b := ext_bits (BitVec.xor_comm a.bits b.bits)
  zero_add a := ext_bits BitVec.zero_xor
  add_zero a := ext_bits BitVec.xor_zero
  neg_add_cancel a := ext_bits BitVec.xor_self
  nsmul := nsmulRec
  zsmul := zsmulRec

/-- Twice a symbol, reduced by the polynomial of the tables. -/
def double (a : BitVec 5) : BitVec 5 := (a <<< 1) ^^^ (if a.msb then 5 else 0)

theorem double_xor : ∀ a b : BitVec 5, double (a ^^^ b) = double a ^^^ double b := by decide +kernel

def gen : Gf →+ Gf where
  toFun a := ⟨double a.bits⟩
  map_zero' := rfl
  map_add' a b := ext_bits (double_xor a.bits b.bits)

/-- `gexp` and `glog` as tables of the doubles of 1. -/
def tables : LogTables Gf where
  order := 31
  order_pos := by decide
  exp k := ⟨double^[k] 1⟩
  log a := glog.getD a.bits.toNat 0
  gen := gen
  exp_succ k := ext_bits (Function.iterate_succ_apply' double k 1)
  exp_order := by decide +kernel
  exp_ne_zero := by decide +kernel
  exp_log a := by
    have h : ∀ b : BitVec 5, b ≠ 0 → double^[glog.getD b.toNat 0] 1 = b := by decide +kernel
    intro ha
    exact ext_bits (h a.bits fun hb => ha (ext_bits hb))
  log_exp := by decide +kernel

instance : Field Gf := tables.field

theorem mul_eq (a b : Gf) : a * b = tables.times a b := rfl

/-- The element of a number below 32. -/
def ofNat (n : Nat) : Gf := ⟨BitVec.ofNat 5 n⟩

theorem ofNat_xor (a b : Nat) : ofNat (a ^^^ b) = ofNat a + ofNat b := ext_bits BitVec.ofNat_xor

theorem ofNat_inj {a b : Nat} (ha : a < 32) (hb : b < 32) : ofNat a = ofNat b ↔ a = b := by
  refine ⟨fun h => ?_, congrArg ofNat⟩
  have hbits := congrArg (fun g : Gf => g.bits.toNat) h
  rwa [ofNat, ofNat, BitVec.toNat_ofNat, BitVec.toNat_ofNat, Nat.mod_eq_of_lt ha, Nat.mod_eq_of_lt hb] at hbits

theorem gexp_eq : ∀ k < 31, ofNat (gexp.getD k 0) = tables.exp k ∧ gexp.getD k 0 < 32 := by decide +kernel

theorem ofNat_gmult {a b : Nat} (ha : a < 32) (hb : b < 32) : ofNat (gmult a b) = ofNat a * ofNat b ∧ gmult a b < 32 := by
  have hzero : ∀ {n}, n < 32 → (ofNat n = 0 ↔ n = 0) := fun hn => ofNat_inj hn (by decide)
  have hlog : ∀ {n}, n < 32 → tables.log (ofNat n) = glog.getD n 0 := by
    intro n hn
    change glog.getD (BitVec.ofNat 5 n).toNat 0 = _
    rw [BitVec.toNat_ofNat, Nat.mod_eq_of_lt hn]
  simp only [gmult, mul_eq, LogTables.times, hzero ha, hzero hb, hlog ha, hlog hb]
  split
  · exact ⟨rfl, by decide⟩
  · obtain ⟨hexp, hlt⟩ := gexp_eq _ (Nat.mod_lt (glog.getD a 0 + glog.getD b 0) (by decide))
    exact ⟨hexp.trans (tables.exp_mod _), hlt⟩

/-- The powers of the element 2. -/
def alpha : Gf := ofNat 2

theorem alpha_pow (k : Nat) : alpha^k = tables.exp k := by
  induction k with
  | zero => rfl
  | succ k ih =>
    have hexp : tables.exp k * tables.exp 1 = tables.exp (k + 1) := tables.exp_times_exp k 1
    rw [pow_succ, ih, ← hexp]
    rfl

theorem alpha_pow_inj {j k : Nat} (hj : j < 31) (hk : k < 31) (h : alpha^j = alpha^k) : j = k := by
  rw [alpha_pow, alpha_pow] at h
  rw [← tables.log_exp j hj, ← tables.log_exp k hk, h]

theorem add_self (a : Gf) : a + a = 0 := ext_bits BitVec.xor_self

/-- A root of the polynomial by which `RS_encode` divides. -/
def Root (r : Gf) : Prop := r^4 = ofNat 17 + ofNat 9 * r + ofNat 6 * r^2 + ofNat 30 * r^3

theorem root_alpha : ∀ k < 4, Root (alpha^(1 + k)) := by
  have h : ∀ k < 4, (alpha^(1 + k))^4 =
      ofNat 17 + ofNat 9 * alpha^(1 + k) + ofNat 6 * (alpha^(1 + k))^2 + ofNat 30 * (alpha^(1 + k))^3 := by decide +kernel
  exact h

end Gf

section Parity
open Gf

/-- One round of the parity loop. -/
private def parityStep (code : Nat → Nat) (p : Nat × Nat × Nat × Nat) (i : Nat) : Nat × Nat × Nat × Nat :=
  let fb := code i ^^^ p.2.2.2
  (gmult 17 fb, p.1 ^^^ gmult 9 fb, p.2.1 ^^^ gmult 6 fb, p.2.2.1 ^^^ gmult 30 fb)

private def Small (p : Nat × Nat × Nat × Nat) : Prop := p.1 < 32 ∧ p.2.1 < 32 ∧ p.2.2.1 < 32 ∧ p.2.2.2 < 32

/-- The parity symbols as a polynomial. -/
private def evalParity (p : Nat × Nat × Nat × Nat) (r : Gf) : Gf :=
  ofNat p.1 + ofNat p.2.1 * r + ofNat p.2.2.1 * r^2 + ofNat p.2.2.2 * r^3

private theorem parityStep_spec {code : Nat → Nat} {p : Nat × Nat × Nat × Nat} {i : Nat} (hp : Small p) (hi : code i < 32)
    {r : Gf} (hr : Root r) :
    Small (parityStep code p i) ∧ evalParity (parityStep code p i) r = r * evalParity p r + ofNat (code i) * r^4 := by
  obtain ⟨p0, p1, p2, p3⟩ := p
  obtain ⟨h0, h1, h2, h3⟩ := hp
  have hfb : code i ^^^ p3 < 32 := Nat.xor_lt_two_pow (n := 5) hi h3
  obtain ⟨e17, l17⟩ := ofNat_gmult (by decide : 17 < 32) hfb
  obtain ⟨e9, l9⟩ := ofNat_gmult (by decide : 9 < 32) hfb
  obtain ⟨e6, l6⟩ := ofNat_gmult (by decide : 6 < 32) hfb
  obtain ⟨e30, l30⟩ := ofNat_gmult (by decide : 30 < 32) hfb
  refine ⟨⟨l17, Nat.xor_lt_two_pow (n := 5) h0 l9, Nat.xor_lt_two_pow (n := 5) h1 l6, Nat.xor_lt_two_pow (n := 5) h2 l30⟩, ?_⟩
  simp only [evalParity, parityStep, ofNat_xor, e17, e9, e6, e30]
  rw [Root] at hr
  linear_combination (-(ofNat (code i) + ofNat p3)) * hr

private theorem parityStep_run {code : Nat → Nat} {r : Gf} (hr : Root r) (n : Nat) (hcode : ∀ i < n, code i < 32)
    {p : Nat × Nat × Nat × Nat} (hp : Small p) :
    Small ((List.range n).reverse.foldl (parityStep code) p) ∧
      evalParity ((List.range n).reverse.foldl (parityStep code) p) r =
        r^n * evalParity p r + ∑ i ∈ Finset.range n, ofNat (code i) * r^(i + 4) := by
  induction n generalizing p with
  | zero => exact ⟨hp, by simp⟩
  | succ n ih =>
    obtain ⟨hsmall, heval⟩ := parityStep_spec hp (hcode n n.lt_succ_self) hr
    obtain ⟨hsmall', heval'⟩ := ih (fun i hi => hcode i (Nat.lt_succ_of_lt hi)) hsmall
    rw [List.range_succ, List.reverse_append, List.reverse_singleton, List.singleton_append, List.foldl_cons]
    refine ⟨hsmall', ?_⟩
    rw [heval', heval, Finset.sum_range_succ]
    ring

/-- The exponent at which symbol `i` of the code stands: the parity symbols come first. -/
def place (i : Nat) : Nat := if i < 13 then i + 4 else i - 13

/-- The symbols of a code with those of its parity behind them. -/
private def word (code : Nat → Nat) (p : Nat × Nat × Nat × Nat) (i : Nat) : Nat :=
  if i < 13 then code i else [p.1, p.2.1, p.2.2.1, p.2.2.2].getD (i - 13) 0

private theorem word_parity_spec {code : Nat → Nat} (hcode : ∀ i < 13, code i < 32) {r : Gf} (hr : Root r) :
    (∀ i < 17, word code (parity code) i < 32) ∧ ∑ i : Fin 17, ofNat (word code (parity code) i) * r^(place i) = 0 := by
  have hparity : parity code = (List.range 13).reverse.foldl (parityStep code) (0, 0, 0, 0) := rfl
  have hstart : Small (0, 0, 0, 0) := ⟨by decide, by decide, by decide, by decide⟩
  have hzero : evalParity (0, 0, 0, 0) r = 0 := by
    have h : ofNat 0 = 0 := rfl
    simp [evalParity, h]
  obtain ⟨hsmall, heval⟩ := parityStep_run hr 13 hcode hstart
  rw [← hparity] at hsmall heval
  rw [hzero, mul_zero, zero_add] at heval
  generalize parity code = p at hsmall heval ⊢
  obtain ⟨p0, p1, p2, p3⟩ := p
  obtain ⟨h0, h1, h2, h3⟩ := hsmall
  refine ⟨fun i hi => ?_, ?_⟩
  · rw [word]
    split
    · next h13 => exact hcode i h13
    · interval_cases i <;> assumption
  · have hlow : ∑ i ∈ Finset.range 13, ofNat (word code (p0, p1, p2, p3) i) * r^(place i) =
        ∑ i ∈ Finset.range 13, ofNat (code i) * r^(i + 4) := by
      refine Finset.sum_congr rfl fun i hi => ?_
      rw [word, place, if_pos (Finset.mem_range.mp hi), if_pos (Finset.mem_range.mp hi)]
    rw [Fin.sum_univ_eq_sum_range (fun i => ofNat (word code (p0, p1, p2, p3) i) * r^(place i)) 17, Finset.sum_range_succ,
      Finset.sum_range_succ, Finset.sum_range_succ, Finset.sum_range_succ, hlow, ← heval]
    -- each parity symbol stands twice in the sum
    have hchar := add_self (evalParity (p0, p1, p2, p3) r)
    simp [word, place, evalParity] at hchar ⊢
    linear_combination hchar

variable {out : List Nat} (hout : ∀ i, out.getD i 0 < 32)
include hout

private theorem encodedCode_spec {r : Gf} (hr : Root r) :
    (∀ i < 17, encodedCode out i < 32) ∧ ∑ i : Fin 17, ofNat (encodedCode out i) * r^(place i) = 0 := by
  have hcode : ∀ i < 13, (if i < out.length then out.getD i 0 else 0) < 32 := by
    intro i _
    split
    · exact hout i
    · decide
  exact word_parity_spec hcode hr

omit hout in
theorem place_inj {i j : Nat} (hi : i < 17) (hj : j < 17) (h : place i = place j) : i = j := by
  rw [place, place] at h
  split at h <;> split at h <;> omega

private theorem encodedCode_distance {out' : List Nat} (hout' : ∀ i, out'.getD i 0 < 32) {i : Nat} (hi : i < 13)
    (hne : encodedCode out i ≠ encodedCode out' i) :
    4 < hammingDist (fun i : Fin 17 => encodedCode out i) (fun i : Fin 17 => encodedCode out' i) := by
  have hsmall := (encodedCode_spec hout (root_alpha 0 (by decide))).1
  have hsmall' := (encodedCode_spec hout' (root_alpha 0 (by decide))).1
  have hsum : ∀ {out : List Nat}, (∀ i, out.getD i 0 < 32) → ∀ k < 4,
      ∑ i : Fin 17, ofNat (encodedCode out i) * (alpha^place i)^(1 + k) = 0 := by
    intro out hout k hk
    rw [← (encodedCode_spec hout (root_alpha k hk)).2]
    refine Finset.sum_congr rfl fun i _ => ?_
    rw [← pow_mul, ← pow_mul, Nat.mul_comm]
  have hplace : Function.Injective fun i : Fin 17 => alpha^place i := by
    intro i j h
    have hlt : ∀ i : Fin 17, place i < 31 := by decide
    exact Fin.ext (place_inj i.2 j.2 (alpha_pow_inj (hlt i) (hlt j) h))
  have hne0 : ∀ i : Fin 17, alpha^place i ≠ 0 := by
    intro i
    rw [alpha_pow]
    exact tables.exp_ne _
  have hdist := lt_hammingDist hplace hne0 (hsum hout) (hsum hout') (by
    intro h
    have heq := congrFun h ⟨i, by omega⟩
    exact hne ((ofNat_inj (hsmall i (by omega)) (hsmall' i (by omega))).mp heq))
  refine hdist.trans_le (Finset.card_le_card fun i hi => ?_)
  rw [Finset.mem_filter] at hi ⊢
  exact ⟨hi.1, fun h => hi.2 (congrArg ofNat h)⟩

end Parity

section Distance

/-- The digits of an id in base 32, as `RS_encode` finds them. -/
private def outDigits (id : UInt64) : List Nat := convertInp 32 ((Nat.toDigits 10 id.toNat).map decimal)

private theorem outDigits_getD (id : UInt64) (i : Nat) : (outDigits id).getD i 0 < 32 := by
  obtain ⟨hdigits, hvalue, -⟩ := toDigits_decimal id.toNat
  have hlt : value 10 ((Nat.toDigits 10 id.toNat).map decimal) < 32^32 := by
    rw [hvalue]
    exact id.toNat_lt.trans (by norm_num)
  rw [outDigits, convertInp_eq, toBase_getD (by decide) 32 _ hdigits hlt i]
  exact Nat.mod_lt _ (by decide)

/-- Where the text of an address has the symbols of the code. -/
def addressPlace (i : Fin 17) : Fin 24 := [7, 6, 5, 4, 12, 11, 10, 9, 20, 21, 22, 23, 19, 14, 15, 16, 17].get i

private theorem addressPlace_injective : Function.Injective addressPlace := by decide

private theorem rsEncode_getD (id : UInt64) (i : Fin 17) :
    (rsEncode id.toNat).2.getD (addressPlace i) NUL = symbol (encodedCode (outDigits id)) i := by
  rw [rsEncode_eq, emitSymbol_all, ← outDigits]
  generalize symbol (encodedCode (outDigits id)) = s
  fin_cases i <;> rfl

private theorem alphabet_injOn {a b : Nat} (ha : a < 32) (hb : b < 32) (h : alphabet.getD a NUL = alphabet.getD b NUL) : a = b := by
  have hnodup : alphabet.Nodup := by decide
  rw [List.getD_eq_getElem alphabet NUL ha, List.getD_eq_getElem alphabet NUL hb] at h
  exact (hnodup.getElem_inj_iff).mp h

/-- The addresses of two accounts differ in at least five characters: up to four wrong ones never give another's. -/
theorem rsEncode_distance {id id' : UInt64} (h : id ≠ id') :
    5 ≤ hammingDist (fun i : Fin 24 => (rsEncode id.toNat).2.getD i NUL) fun i => (rsEncode id'.toNat).2.getD i NUL := by
  have hdigit : ∃ i < 13, digit id i ≠ digit id' i := by
    by_contra hall
    push Not at hall
    apply h
    apply UInt64.toNat_inj.mp
    rw [← value_digits id, ← value_digits id', List.map_congr_left fun i hi => hall i (List.mem_range.mp hi)]
  obtain ⟨i, hi, hne⟩ := hdigit
  rw [← encodedCode_digit id hi, ← encodedCode_digit id' hi] at hne
  have hdist := encodedCode_distance (outDigits_getD id) (outDigits_getD id') hi hne
  have hsmall := fun id => (encodedCode_spec (outDigits_getD id) (Gf.root_alpha 0 (by decide))).1
  refine Nat.le_trans (Nat.succ_le_of_lt hdist) (Finset.card_le_card_of_injOn addressPlace ?_ addressPlace_injective.injOn)
  intro j hj
  rw [Finset.mem_coe, Finset.mem_filter] at hj ⊢
  refine ⟨Finset.mem_univ _, ?_⟩
  dsimp only
  rw [rsEncode_getD, rsEncode_getD]
  exact fun hsymbol => hj.2 (alphabet_injOn (hsmall id j j.2) (hsmall id' j j.2) hsymbol)

/-- Accounts 0 and 1. -/
theorem rsEncode_distance_one :
    5 ≤ hammingDist (fun i : Fin 24 => (rsEncode (0 : UInt64).toNat).2.getD i NUL) fun i =>
      (rsEncode (1 : UInt64).toNat).2.getD i NUL :=
  rsEncode_distance (by decide)

end Distance

end SuperNet.Utils.NXT777
