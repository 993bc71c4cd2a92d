import SuperNet.Lib.Primality

/-! The prime that the arithmetic of curve25519 is done modulo. -/
namespace SuperNet.Curve25519
open SuperNet.Lib.Primality

private theorem prime_2773320623 : Nat.Prime 2773320623 := by
  have h : certified 2773320623 5 [2, 2437, 569003] := by decide +kernel
  exact prime_of_certified h ⟨Nat.prime_two, by norm_num, by norm_num⟩

private theorem prime_72106336199 : Nat.Prime 72106336199 := by
  have h : certified 72106336199 7 [2, 13, 2773320623] := by decide +kernel
  exact prime_of_certified h ⟨Nat.prime_two, by norm_num, prime_2773320623⟩

private theorem prime_1919519569386763 : Nat.Prime 1919519569386763 := by
  have h : certified 1919519569386763 2 [2, 3, 7, 19, 47, 47, 127, 8574133] := by decide +kernel
  exact prime_of_certified h ⟨Nat.prime_two, Nat.prime_three, by norm_num, by norm_num, by norm_num, by norm_num,
    by norm_num, by norm_num⟩

private theorem prime_31757755568855353 : Nat.Prime 31757755568855353 := by
  have h : certified 31757755568855353 10 [2, 2, 2, 3, 31, 107, 223, 4153, 430751] := by decide +kernel
  exact prime_of_certified h ⟨Nat.prime_two, Nat.prime_two, Nat.prime_two, Nat.prime_three, by norm_num,
    by norm_num, by norm_num, by norm_num, by norm_num⟩

private theorem prime_of_116_bits : Nat.Prime 75445702479781427272750846543864801 := by
  have h : certified 75445702479781427272750846543864801 7
      [2, 2, 2, 2, 2, 3, 3, 5, 5, 75707, 72106336199, 1919519569386763] := by decide +kernel
  exact prime_of_certified h ⟨Nat.prime_two, Nat.prime_two, Nat.prime_two, Nat.prime_two, Nat.prime_two,
    Nat.prime_three, Nat.prime_three, by norm_num, by norm_num, by norm_num, prime_72106336199, prime_1919519569386763⟩

private theorem prime_of_236_bits : Nat.Prime 74058212732561358302231226437062788676166966415465897661863160754340907 := by
  have h : certified 74058212732561358302231226437062788676166966415465897661863160754340907 2
      [2, 3, 353, 57467, 132049, 1923133, 31757755568855353, 75445702479781427272750846543864801] := by decide +kernel
  exact prime_of_certified h ⟨Nat.prime_two, Nat.prime_three, by norm_num, by norm_num, by norm_num, by norm_num,
    prime_31757755568855353, prime_of_116_bits⟩

/-- The number that the limbs are reduced modulo. -/
def prime25519 : Nat := 2^255 - 19

instance : Fact prime25519.Prime := ⟨by
  have h : certified prime25519 2
      [2, 2, 3, 65147, 74058212732561358302231226437062788676166966415465897661863160754340907] := by decide +kernel
  exact prime_of_certified h ⟨Nat.prime_two, Nat.prime_two, Nat.prime_three, by norm_num, prime_of_236_bits⟩⟩

end SuperNet.Curve25519
