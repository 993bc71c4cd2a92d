import Mathlib.Data.Nat.Digits.Lemmas
import Mathlib.Tactic

/-! Numbers as digit strings, the leading digit first, and their conversion to another base by
repeated long division of the digits. -/
namespace SuperNet.Lib.Radix

/-- The number that a digit string stands for in base `b`. -/
def value (b : Nat) (digits : List Nat) : Nat := digits.foldl (fun v d => v * b + d) 0

variable {b c : Nat}

@[simp] theorem value_nil : value b [] = 0 := rfl

@[simp] theorem value_concat (digits : List Nat) (d : Nat) : value b (digits ++ [d]) = value b digits * b + d := by
  simp [value]

theorem value_eq_ofDigits (digits : List Nat) : value b digits = Nat.ofDigits b digits.reverse := by
  induction digits using List.reverseRecOn with
  | nil => simp
  | append_singleton digits d ih => simp [ih, Nat.ofDigits_cons]; ring

theorem value_cons (d : Nat) (digits : List Nat) : value b (d :: digits) = d * b^digits.length + value b digits := by
  rw [value_eq_ofDigits, value_eq_ofDigits, List.reverse_cons, Nat.ofDigits_append]
  simp [Nat.add_comm, Nat.mul_comm]

/-- One digit of a long division by `c`: the remainder so far and the quotient's digits so far. A
zero in front of the quotient is not written. -/
def divideDigit (b c : Nat) (acc : Nat × List Nat) (d : Nat) : Nat × List Nat :=
  let v := acc.1 * b + d
  if c ≤ v then (v % c, acc.2 ++ [v / c])
  else if acc.2.length > 0 then (v, acc.2 ++ [0])
  else (v, acc.2)

/-- Remainder and quotient of a digit string divided by `c`. -/
def longDivide (b c : Nat) (digits : List Nat) : Nat × List Nat := digits.foldl (divideDigit b c) (0, [])

/-- What a long division has found for the digits it has read. -/
structure Divided (b c : Nat) (digits : List Nat) (acc : Nat × List Nat) : Prop where
  split : value b digits = c * value b acc.2 + acc.1
  remainder_lt : acc.1 < c
  digits_lt : ∀ d ∈ acc.2, d < b
  leading : acc.2 ≠ [] → 0 < value b acc.2

theorem Divided.step (hc : 0 < c) {digits : List Nat} {acc : Nat × List Nat} (h : Divided b c digits acc) {d : Nat}
    (hd : d < b) : Divided b c (digits ++ [d]) (divideDigit b c acc d) := by
  obtain ⟨r, q⟩ := acc
  have hb : 0 < b := Nat.lt_of_le_of_lt (Nat.zero_le d) hd
  have hr : r < c := h.remainder_lt
  have hv : r * b + d < c * b := by
    calc r * b + d < r * b + b := by omega
      _ = (r + 1) * b := by ring
      _ ≤ c * b := Nat.mul_le_mul_right b hr
  have hsplit : value b digits = c * value b q + r := h.split
  rw [divideDigit]
  split
  case isTrue hge =>
    have hq : (r * b + d) / c < b := Nat.div_lt_of_lt_mul hv
    refine ⟨?_, Nat.mod_lt _ hc, ?_, fun _ => ?_⟩
    · have hdiv := Nat.div_add_mod (r * b + d) c
      calc value b (digits ++ [d]) = c * value b q * b + (r * b + d) := by rw [value_concat, hsplit]; ring
        _ = c * value b q * b + (c * ((r * b + d) / c) + (r * b + d) % c) := by rw [hdiv]
        _ = c * value b (q ++ [(r * b + d) / c]) + (r * b + d) % c := by rw [value_concat]; ring
    · simp only [List.mem_append, List.mem_singleton]
      rintro x (hx | rfl)
      · exact h.digits_lt x hx
      · exact hq
    · have hpos : 0 < (r * b + d) / c := Nat.div_pos hge hc
      rw [value_concat]
      exact Nat.lt_of_lt_of_le hpos (Nat.le_add_left _ _)
  case isFalse hlt =>
    split
    case isTrue hlen =>
      refine ⟨?_, Nat.lt_of_not_le hlt, ?_, fun _ => ?_⟩
      · rw [value_concat, value_concat, hsplit]
        ring
      · simp only [List.mem_append, List.mem_singleton]
        rintro x (hx | rfl)
        · exact h.digits_lt x hx
        · exact hb
      · rw [value_concat, Nat.add_zero]
        exact Nat.mul_pos (h.leading (List.ne_nil_of_length_pos hlen)) hb
    case isFalse hlen =>
      have hnil : q = [] := List.length_eq_zero_iff.mp (Nat.eq_zero_of_not_pos hlen)
      refine ⟨?_, Nat.lt_of_not_le hlt, h.digits_lt, h.leading⟩
      rw [value_concat, hsplit, hnil]
      simp

theorem longDivide_divided (hc : 0 < c) {digits : List Nat} (hdigits : ∀ d ∈ digits, d < b) :
    Divided b c digits (longDivide b c digits) := by
  induction digits using List.reverseRecOn with
  | nil => exact ⟨rfl, hc, fun _ h => absurd h List.not_mem_nil, fun h => absurd rfl h⟩
  | append_singleton digits d ih =>
    rw [longDivide, List.foldl_append]
    exact (ih fun x hx => hdigits x (List.mem_append_left _ hx)).step hc (hdigits d (by simp))

theorem Divided.remainder {digits : List Nat} {acc : Nat × List Nat} (h : Divided b c digits acc) :
    acc.1 = value b digits % c := by
  rw [h.split, Nat.mul_add_mod, Nat.mod_eq_of_lt h.remainder_lt]

theorem Divided.quotient {digits : List Nat} {acc : Nat × List Nat} (h : Divided b c digits acc) :
    value b acc.2 = value b digits / c := by
  have hc : 0 < c := Nat.lt_of_le_of_lt (Nat.zero_le _) h.remainder_lt
  rw [h.split, Nat.mul_add_div hc, Nat.div_eq_of_lt h.remainder_lt, Nat.add_zero]

/-- Divide until the quotient has no digits left; the remainders are the digits in base `c`. -/
def toBase (b c : Nat) : Nat → List Nat → List Nat
  | 0, _ => []
  | n + 1, digits =>
    let acc := longDivide b c digits
    acc.1 :: if acc.2.length = 0 then [] else toBase b c n acc.2

/-- Enough rounds give the digits of the number in base `c`; zero has the digit 0. -/
theorem toBase_getD (hc : 0 < c) (n : Nat) : ∀ digits : List Nat, (∀ d ∈ digits, d < b) → value b digits < c^n →
    ∀ i, (toBase b c n digits).getD i 0 = value b digits / c^i % c := by
  induction n with
  | zero =>
    intro digits _ hlt i
    have hzero : value b digits = 0 := by simpa using hlt
    simp [toBase, hzero]
  | succ n ih =>
    intro digits hdigits hlt i
    have h := longDivide_divided hc hdigits
    rw [toBase]
    cases i with
    | zero => simp [h.remainder]
    | succ i =>
      have hdiv : value b digits / c^(i + 1) = value b (longDivide b c digits).2 / c^i := by
        rw [h.quotient, Nat.div_div_eq_div_mul, ← Nat.pow_succ']
      rw [List.getD_cons_succ, hdiv]
      split
      case isTrue hnil =>
        rw [List.length_eq_zero_iff.mp hnil]
        simp
      case isFalse =>
        refine ih _ h.digits_lt ?_ i
        rw [h.quotient]
        exact Nat.div_lt_of_lt_mul (by rwa [← Nat.pow_succ'])

/-- A digit map that lowers digits leaves a number alone exactly when it leaves its digits alone. -/
theorem value_map_eq_iff {f : Nat → Nat} (hb : 0 < b) (hf : ∀ d, f d ≤ d) (digits : List Nat) :
    value b (digits.map f) ≤ value b digits ∧
      (value b (digits.map f) = value b digits ↔ ∀ d ∈ digits, f d = d) := by
  induction digits using List.reverseRecOn with
  | nil => simp
  | append_singleton digits d ih =>
    have hmul := Nat.mul_le_mul_right b ih.1
    have hd := hf d
    rw [List.map_append, List.map_singleton, value_concat, value_concat]
    refine ⟨by omega, fun heq x hx => ?_, fun hall => ?_⟩
    · have hfront : value b (digits.map f) * b = value b digits * b := by omega
      have hval := Nat.eq_of_mul_eq_mul_right hb hfront
      rcases List.mem_append.mp hx with hx | hx
      · exact ih.2.mp hval x hx
      · rw [List.mem_singleton.mp hx]
        omega
    · rw [ih.2.mpr fun x hx => hall x (List.mem_append_left _ hx), hall d (by simp)]

/-- The digits of a number in their places give it back. -/
theorem value_range_map {n v : Nat} (h : v < c^n) :
    value c ((List.range n).map fun i => v / c^i % c).reverse = v := by
  induction n generalizing v with
  | zero =>
    have hzero : v = 0 := by simpa using h
    simp [hzero]
  | succ n ih =>
    have hrest : v / c < c^n := Nat.div_lt_of_lt_mul (by rwa [← Nat.pow_succ'])
    have hshift : (fun i => v / c^(i + 1) % c) = fun i => v / c / c^i % c := by
      funext i
      rw [Nat.div_div_eq_div_mul, ← Nat.pow_succ']
    rw [List.range_succ_eq_map, List.map_cons, List.map_map, List.reverse_cons, value_concat]
    have hih := ih hrest
    simp only [Function.comp_def, Nat.succ_eq_add_one, hshift, hih]
    simpa [Nat.mul_comm] using Nat.div_add_mod v c

end SuperNet.Lib.Radix
