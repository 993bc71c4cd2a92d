import Mathlib.Data.List.GetD
import Mathlib.Data.List.Iterate
import SuperNet.Lib.LogField
import SuperNet.Lib.Sharing
import SuperNet.Utils.Libgfshare

/-! The field of the sharing tables: bytes under exclusive or, multiplied through `ctx_logs` and
`ctx_exps`. A share is a value of a polynomial, the extraction its interpolation at zero. -/
namespace SuperNet.Utils.Libgfshare
open SuperNet.Lib.LogField SuperNet.Lib.Sharing SuperNet.Lib.Memory SuperNet.Lib.Runs

/-- A byte as an element of the field. -/
structure Gf where
  byte : UInt8
  deriving DecidableEq

private theorem logTable_length : logTable.length = 256 := by decide +kernel
private theorem expTable_length : expTable.length = 510 := by decide +kernel

theorem ctxLogs_lt (b : UInt8) : ctxLogs b < 255 := by
  have h : ∀ l ∈ logTable, l < 255 := by decide +kernel
  have hlen : b.toNat < logTable.length := logTable_length.symm ▸ UInt8.toNat_lt b
  rw [ctxLogs, List.getD_eq_getElem _ _ hlen]
  exact h _ (List.getElem_mem hlen)

namespace Gf

instance : Zero Gf := ⟨⟨0⟩⟩
instance : Add Gf := ⟨fun a b => ⟨a.byte ^^^ b.byte⟩⟩
instance : Neg Gf := ⟨fun a => a⟩

@[simp] theorem byte_zero : (0 : Gf).byte = 0 := rfl
@[simp] theorem byte_add (a b : Gf) : (a + b).byte = a.byte ^^^ b.byte := rfl
@[simp] theorem byte_neg (a : Gf) : (-a).byte = a.byte := rfl

theorem ext_byte {a b : Gf} (h : a.byte = b.byte) : a = b := by
  cases a
  cases b
  exact congrArg Gf.mk h

@[simp] theorem mk_eq_zero (b : UInt8) : (⟨b⟩ : Gf) = 0 ↔ b = 0 := ⟨congrArg Gf.byte, fun h => ext_byte h⟩

instance : AddCommGroup Gf where
  add_assoc a b c := ext_byte (UInt8.xor_assoc a.byte b.byte c.byte)
  add_comm a b := ext_byte (UInt8.xor_comm a.byte b.byte)
  zero_add a := ext_byte UInt8.zero_xor
  add_zero a := ext_byte UInt8.xor_zero
  neg_add_cancel a := ext_byte UInt8.xor_self
  nsmul := nsmulRec
  zsmul := zsmulRec

/-- Twice a byte, reduced by the polynomial of the tables. -/
def double (b : UInt8) : UInt8 := (b <<< 1) ^^^ (if b.toBitVec.msb then 0x1d else 0)

private theorem double_xor (a b : UInt8) : double (a ^^^ b) = double a ^^^ double b := by
  have hshift : (a ^^^ b) <<< 1 = (a <<< 1) ^^^ (b <<< 1) := UInt8.shiftLeft_xor
  have hmsb : (a ^^^ b).toBitVec.msb = (a.toBitVec.msb ^^ b.toBitVec.msb) := by
    rw [UInt8.toBitVec_xor, BitVec.msb_xor]
  have hred : ∀ x y : Bool, (if x ^^ y then 0x1d else 0 : UInt8) = (if x then 0x1d else 0) ^^^ (if y then 0x1d else 0) := by
    decide
  rw [double, hshift, hmsb, hred, double, double, UInt8.xor_assoc, UInt8.xor_assoc]
  congr 1
  rw [← UInt8.xor_assoc, ← UInt8.xor_assoc, UInt8.xor_comm (b <<< 1)]

private theorem map_getD {α : Type*} {f : Nat → α} {l : List Nat} {l' : List α} (h : l.map f = l') {n : Nat}
    (hn : n < l.length) (d : α) : f (l.getD n 0) = l'.getD n d := by
  subst h
  simp [hn]

private theorem ctxExps_iterate {i : Nat} (hi : i < 510) : ctxExps i = double^[i] 1 := by
  have h : expTable.map UInt8.ofNat = List.iterate double 1 510 := by decide +kernel
  rw [ctxExps, map_getD h (n := i) (expTable_length.symm ▸ hi) 0,
    List.getD_eq_getElem _ _ (by rwa [List.length_iterate]), List.getElem_iterate]

private theorem ctxExps_ctxLogs {b : UInt8} (hb : b ≠ 0) : ctxExps (ctxLogs b) = b := by
  have h : logTable.map (fun l => expTable.getD l 0) = 1 :: List.range' 1 255 := by decide +kernel
  have hpos : b.toNat ≠ 0 := fun hz => hb (UInt8.toNat_inj.mp hz)
  have hlt := UInt8.toNat_lt b
  have hentry := map_getD h (n := b.toNat) (logTable_length.symm ▸ hlt) 0
  obtain ⟨n, hn⟩ := Nat.exists_eq_succ_of_ne_zero hpos
  rw [ctxExps, ctxLogs, hentry, hn, List.getD_cons_succ, List.getD_eq_getElem _ _ (by simp; omega),
    List.getElem_range', one_mul, Nat.add_comm 1 n, ← Nat.succ_eq_add_one, ← hn, UInt8.ofNat_toNat]

private theorem ctxLogs_ctxExps {k : Nat} (hk : k < 255) : ctxLogs (ctxExps k) = k := by
  have h : (expTable.take 255).map (fun e => logTable.getD (UInt8.ofNat e).toNat 0) = List.range 255 := by
    decide +kernel
  have hentry := map_getD h (n := k) (by rw [List.length_take, expTable_length]; omega) 0
  have hrange : (List.range 255).getD k 0 = k := by
    rw [List.getD_eq_getElem _ _ (by rwa [List.length_range]), List.getElem_range]
  have htake : (expTable.take 255).getD k 0 = expTable.getD k 0 := by
    rw [List.getD_eq_getElem?_getD, List.getElem?_take_of_lt hk, ← List.getD_eq_getElem?_getD]
  rwa [hrange, htake] at hentry

private theorem double_ne_zero {b : UInt8} (hb : b ≠ 0) : double b ≠ 0 := by
  have h : ∀ n < 256, double (UInt8.ofNat n) = 0 → UInt8.ofNat n = 0 := by decide +kernel
  have hn := h b.toNat (UInt8.toNat_lt b)
  rw [UInt8.ofNat_toNat] at hn
  exact mt hn hb

private theorem double_cycle : double^[255] 1 = double^[0] 1 := by
  rw [← ctxExps_iterate (by decide)]
  decide +kernel

def tables : LogTables Gf where
  order := 255
  order_pos := by decide
  exp k := ⟨double^[k] 1⟩
  log a := ctxLogs a.byte
  gen := {
    toFun a := ⟨double a.byte⟩
    map_zero' := by decide
    map_add' a b := ext_byte (double_xor a.byte b.byte) }
  exp_succ k := ext_byte (Function.iterate_succ_apply' double k 1)
  exp_order := congrArg Gf.mk double_cycle
  exp_ne_zero k _ := by
    apply mt (mk_eq_zero _).mp
    induction k with
    | zero => decide
    | succ k ih =>
      rw [Function.iterate_succ_apply']
      exact double_ne_zero (ih (by omega))
  exp_log a ha := by
    have hb : a.byte ≠ 0 := fun h => ha (ext_byte h)
    have hlog : ctxLogs a.byte < 510 := lt_trans (ctxLogs_lt a.byte) (by decide)
    exact ext_byte ((ctxExps_iterate hlog).symm.trans (ctxExps_ctxLogs hb))
  log_exp k hk := by
    have hk' : k < 510 := lt_trans hk (by decide)
    exact (congrArg ctxLogs (ctxExps_iterate hk').symm).trans (ctxLogs_ctxExps hk)

instance : Field Gf := tables.field

theorem exp_mul_exp (k l : Nat) : tables.exp k * tables.exp l = tables.exp (k + l) := tables.exp_times_exp k l

end Gf

theorem exp_ctxLogs {b : UInt8} (hb : b ≠ 0) : Gf.tables.exp (ctxLogs b) = ⟨b⟩ :=
  Gf.tables.exp_log ⟨b⟩ (mt (Gf.mk_eq_zero b).mp hb)

theorem ctxExps_eq {i : Nat} (hi : i < 510) : (⟨ctxExps i⟩ : Gf) = Gf.tables.exp i :=
  Gf.ext_byte (Gf.ctxExps_iterate hi)

/-- Two logarithms index `ctx_exps` inside its bounds, and the entry is the product. -/
theorem ctxExps_add {li : Nat} {b : UInt8} (hli : li < 255) (hb : b ≠ 0) :
    (⟨ctxExps (li + ctxLogs b)⟩ : Gf) = Gf.tables.exp li * ⟨b⟩ := by
  have hlog := ctxLogs_lt b
  rw [ctxExps_eq (by omega), ← Gf.exp_mul_exp, exp_ctxLogs hb]

theorem shareStep_eq {x : UInt8} (hx : x ≠ 0) (y c : UInt8) :
    (⟨shareStep (ctxLogs x) y c⟩ : Gf) = ⟨x⟩ * ⟨y⟩ + ⟨c⟩ := by
  have hadd (u : UInt8) : (⟨u ^^^ c⟩ : Gf) = ⟨u⟩ + ⟨c⟩ := rfl
  rw [shareStep, hadd]
  congr 1
  split
  case isTrue hy => rw [ctxExps_add (ctxLogs_lt x) hy, exp_ctxLogs hx]
  case isFalse hy =>
    have hzero : (⟨y⟩ : Gf) = 0 := (Gf.mk_eq_zero y).mpr (not_not.mp hy)
    rw [hzero, mul_zero]

/-- A share byte is the value at the share number of the polynomial whose coefficients stand in the
buffer, the last one in the place of the secret. -/
theorem calcShare_eq (buffer share : Nat → UInt8) {size pos : Nat} (M : Nat) (hpos : pos < size) {x : UInt8}
    (hx : x ≠ 0) : (⟨calcShare buffer size M (ctxLogs x) share pos⟩ : Gf) =
      horner (fun c => ⟨buffer (c * size + pos)⟩) (M - 1) ⟨x⟩ := by
  rw [calcShare, horner]
  generalize M - 1 = d
  induction d with
  | zero => simp [hpos]
  | succ d ih => rw [rounds_succ, rounds_succ, if_pos hpos, shareStep_eq hx, ih]

theorem extractByte_eq {li : Nat} (hli : li < 255) (s y : UInt8) :
    (⟨extractByte li s y⟩ : Gf) = ⟨s⟩ + Gf.tables.exp li * ⟨y⟩ := by
  rw [extractByte]
  split
  case isTrue hy =>
    have hadd (u : UInt8) : (⟨s ^^^ u⟩ : Gf) = ⟨s⟩ + ⟨u⟩ := rfl
    rw [hadd, ctxExps_add hli hy]
  case isFalse hy =>
    have hzero : (⟨y⟩ : Gf) = 0 := (Gf.mk_eq_zero y).mpr (not_not.mp hy)
    rw [hzero, mul_zero, add_zero]

private theorem addLog_eq {li log : Nat} (hli : li < 255) (hlog : log < 255) :
    addLog li log < 255 ∧ Gf.tables.exp (addLog li log) = Gf.tables.exp li * Gf.tables.exp log := by
  rw [addLog, Gf.exp_mul_exp]
  split
  case isTrue hge =>
    refine ⟨by omega, ?_⟩
    have hsum := Gf.tables.exp_add_order (li + log - 0xff)
    have horder : Gf.tables.order = 0xff := rfl
    rw [← hsum, horder, Nat.sub_add_cancel hge]
  case isFalse hlt => exact ⟨by omega, rfl⟩

/-- The share numbers that are given: zero marks a missing share. -/
def given (sharenrs : Nat → UInt8) (N : Nat) : Finset Nat := (Finset.range N).filter fun i => sharenrs i ≠ 0

section Extract
variable {sharenrs : Nat → UInt8} {N : Nat}

private theorem given_succ (sharenrs : Nat → UInt8) (n : Nat) :
    given sharenrs (n + 1) = if sharenrs n = 0 then given sharenrs n else insert n (given sharenrs n) := by
  rw [given, Finset.range_add_one, Finset.filter_insert, given, ite_not]

private theorem not_mem_given (sharenrs : Nat → UInt8) (n : Nat) : n ∉ given sharenrs n := by
  simp [given]

private theorem extractLi_eq {i : Nat} (n : Nat) (hdistinct : ∀ j < n, j ≠ i → sharenrs j ≠ 0 → sharenrs i ≠ sharenrs j) :
    let li := rounds (extractLi sharenrs i) (0, 0) n
    li.1 < 255 ∧ li.2 < 255 ∧ Gf.tables.exp li.1 = ∏ j ∈ (given sharenrs n).erase i, (⟨sharenrs j⟩ : Gf) ∧
      Gf.tables.exp li.2 = ∏ j ∈ (given sharenrs n).erase i, ((⟨sharenrs i⟩ : Gf) + ⟨sharenrs j⟩) := by
  induction n with
  | zero =>
    have hone : Gf.tables.exp 0 = 1 := rfl
    simp [given, hone]
  | succ n ih =>
    obtain ⟨htop, hbottom, hprod, hdiff⟩ := ih fun j hj => hdistinct j (Nat.lt_succ_of_lt hj)
    rw [rounds_succ, given_succ, extractLi]
    by_cases hzero : sharenrs n = 0
    · rw [if_pos hzero, if_pos hzero, ite_self]
      exact ⟨htop, hbottom, hprod, hdiff⟩
    · rw [if_neg hzero, if_neg hzero]
      by_cases heq : i = n
      · subst heq
        rw [Finset.erase_eq_of_notMem (not_mem_given sharenrs i)] at hprod hdiff
        rw [if_pos rfl, Finset.erase_insert (not_mem_given sharenrs i)]
        exact ⟨htop, hbottom, hprod, hdiff⟩
      · have hx : sharenrs i ^^^ sharenrs n ≠ 0 :=
          fun h => hdistinct n (Nat.lt_succ_self n) (Ne.symm heq) hzero (UInt8.xor_eq_zero_iff.mp h)
        obtain ⟨htop', hprod'⟩ := addLog_eq htop (ctxLogs_lt (sharenrs n))
        obtain ⟨hbottom', hdiff'⟩ := addLog_eq hbottom (ctxLogs_lt (sharenrs i ^^^ sharenrs n))
        have hnot : n ∉ (given sharenrs n).erase i := fun h => not_mem_given sharenrs n (Finset.mem_of_mem_erase h)
        rw [if_neg heq, Finset.erase_insert_of_ne (Ne.symm heq), Finset.prod_insert hnot, Finset.prod_insert hnot]
        refine ⟨htop', hbottom', ?_, ?_⟩
        · rw [hprod', hprod, exp_ctxLogs hzero, mul_comm]
        · rw [hdiff', hdiff, exp_ctxLogs hx, mul_comm]
          rfl

theorem extractLog_eq {i : Nat} (hdistinct : ∀ j < N, j ≠ i → sharenrs j ≠ 0 → sharenrs i ≠ sharenrs j) :
    extractLog sharenrs N i < 255 ∧
      Gf.tables.exp (extractLog sharenrs N i) = weight (given sharenrs N) (fun j => ⟨sharenrs j⟩) i := by
  obtain ⟨htop, hbottom, hprod, hdiff⟩ := extractLi_eq N hdistinct
  have hneg (a : Gf) : -a = a := rfl
  have hsub (a b : Gf) : a - b = a + b := rfl
  simp only [weight, hneg, hsub]
  rw [← hprod, ← hdiff, extractLog]
  refine ⟨by dsimp only; split <;> omega, ?_⟩
  rw [eq_div_iff (Gf.tables.exp_ne _), Gf.exp_mul_exp]
  dsimp only
  split
  case isTrue hgt =>
    rw [Nat.sub_add_cancel (by omega)]
    exact Gf.tables.exp_add_order _
  case isFalse hle => rw [Nat.sub_add_cancel (by omega)]

/-- The extraction interpolates the given shares at zero. -/
theorem gfshareExtract_eq (secretbuf buffer : Nat → UInt8) {size k : Nat} (hk : k < size)
    (hdistinct : ∀ i < N, ∀ j < N, sharenrs j ≠ 0 → j ≠ i → sharenrs i ≠ sharenrs j) :
    (⟨gfshareExtract secretbuf sharenrs N buffer size size k⟩ : Gf) =
      ∑ i ∈ given sharenrs N, weight (given sharenrs N) (fun j => ⟨sharenrs j⟩) i * ⟨buffer (size * i + k)⟩ := by
  rw [gfshareExtract]
  suffices h : ∀ n ≤ N, (⟨rounds (fun secretbuf i =>
      if sharenrs i = 0 then secretbuf
      else fun k => if k < size then extractByte (extractLog sharenrs N i) (secretbuf k) (buffer (size * i + k))
        else secretbuf k) (fun k => if k < size then 0 else secretbuf k) n k⟩ : Gf) =
      ∑ i ∈ given sharenrs n, weight (given sharenrs N) (fun j => ⟨sharenrs j⟩) i * ⟨buffer (size * i + k)⟩ from
    h N le_rfl
  intro n hn
  induction n with
  | zero => simp [given, hk]
  | succ n ih =>
    rw [rounds_succ, given_succ]
    by_cases hzero : sharenrs n = 0
    · rw [if_pos hzero, if_pos hzero, ih (Nat.le_of_succ_le hn)]
    · obtain ⟨hlt, hweight⟩ := extractLog_eq (N := N) (i := n) fun j hj hne hsj => hdistinct n hn j hj hsj hne
      rw [if_neg hzero, if_neg hzero, Finset.sum_insert (not_mem_given sharenrs n)]
      rw [if_pos hk, extractByte_eq hlt, ih (Nat.le_of_succ_le hn), hweight, add_comm]

end Extract

end SuperNet.Utils.Libgfshare
