import SuperNet.Games.Cards777

/-! Fewer than M shares of a player's blinding factors fit all blinding factors alike. -/
namespace SuperNet.Games.Cards777
open SuperNet.Lib.Sharing SuperNet.Utils.Libgfshare

section Bytes
variable {size M : Nat}

private theorem sharesBuffer_at (rand secret : Nat → UInt8) {c pos : Nat} (hc : c ≤ M - 1) (hpos : pos < size) :
    sharesBuffer rand secret size M (c * size + pos) = if c < M - 1 then rand (c * size + pos) else secret pos := by
  have hsize : (c + 1) * size = c * size + size := Nat.succ_mul c size
  by_cases hlt : c < M - 1
  · have hle : (c + 1) * size ≤ (M - 1) * size := Nat.mul_le_mul_right size hlt
    rw [sharesBuffer, if_pos (by omega), if_pos hlt]
  · obtain rfl : c = M - 1 := by omega
    rw [sharesBuffer, if_neg (by omega), if_pos (by omega), if_neg hlt, Nat.add_sub_cancel_left]

/-- What the random bytes have to change by. -/
theorem exists_rand_mask (secret secret' sharenrs : Nat → UInt8) {S : Finset Nat} (hnr : ∀ i ∈ S, sharenrs i ≠ 0)
    (hcard : S.card < M) :
    ∃ mask : Nat → UInt8, ∀ rand : Nat → UInt8, ∀ i ∈ S, ∀ k < size,
      calcShare (sharesBuffer (fun n => rand n ^^^ mask n) secret' size M) size M (ctxLogs (sharenrs i)) (fun _ => 0) k =
        calcShare (sharesBuffer rand secret size M) size M (ctxLogs (sharenrs i)) (fun _ => 0) k := by
  have hv : ∀ i ∈ S, (⟨sharenrs i⟩ : Gf) ≠ 0 := fun i hi h => hnr i hi ((Gf.mk_eq_zero _).mp h)
  have hmask := fun pos => exists_mask hv (by omega : S.card ≤ M - 1) (⟨secret pos⟩ + ⟨secret' pos⟩ : Gf)
  choose mask hsecret hshare using hmask
  refine ⟨fun n => (mask (n % size) (n / size)).byte, fun rand i hi k hk => ?_⟩
  have hcoeff : ∀ c ≤ M - 1, (⟨sharesBuffer (fun n => rand n ^^^ (mask (n % size) (n / size)).byte) secret' size M (c * size + k)⟩ : Gf) =
      ⟨sharesBuffer rand secret size M (c * size + k)⟩ + mask k c := by
    intro c hc
    rw [sharesBuffer_at _ _ hc hk, sharesBuffer_at _ _ hc hk]
    split
    · rw [Nat.mul_comm, Nat.mul_add_mod, Nat.mod_eq_of_lt hk, Nat.mul_add_div (by omega), Nat.div_eq_of_lt hk, Nat.add_zero]
      rfl
    · next hge =>
      obtain rfl : c = M - 1 := by omega
      have htwice : (⟨secret k⟩ + ⟨secret k⟩ : Gf) = 0 := Gf.ext_byte UInt8.xor_self
      rw [hsecret, ← add_assoc, htwice, zero_add]
  have hsame : (⟨calcShare (sharesBuffer (fun n => rand n ^^^ (mask (n % size) (n / size)).byte) secret' size M) size M
      (ctxLogs (sharenrs i)) (fun _ => 0) k⟩ : Gf) =
        ⟨calcShare (sharesBuffer rand secret size M) size M (ctxLogs (sharenrs i)) (fun _ => 0) k⟩ := by
    rw [calcShare_eq _ _ _ hk (hnr i hi), calcShare_eq _ _ _ hk (hnr i hi), horner_congr hcoeff, horner_add, hshare k i hi,
      add_zero]
  exact congrArg Gf.byte hsame

end Bytes

/-- For any other blinding factors there is a change of the random bytes after which fewer than M players have the same
shares as before. -/
theorem calcmofn_secret {sharenrs xoverz xoverz' : Nat → UInt8} {numcards N M : Nat} {S : Finset Nat} (hS : ∀ i ∈ S, i < N)
    (hnr : ∀ i ∈ S, sharenrs i ≠ 0) (hcard : S.card < M) :
    ∃ mask : Nat → UInt8, ∀ rand allshares : Nat → UInt8, ∀ i ∈ S, ∀ k < xoverzSize numcards N,
      myshares (cards777Calcmofn (fun n => rand n ^^^ mask n) allshares sharenrs M xoverz' numcards N) numcards N i k =
        myshares (cards777Calcmofn rand allshares sharenrs M xoverz numcards N) numcards N i k := by
  obtain ⟨mask, hmask⟩ := exists_rand_mask xoverz xoverz' sharenrs hnr hcard
  refine ⟨mask, fun rand allshares i hi k hk => ?_⟩
  rw [myshares, myshares, cards777Calcmofn, cards777Calcmofn, calcShares_block _ _ _ _ _ (hS i hi) hk,
    calcShares_block _ _ _ _ _ (hS i hi) hk]
  exact hmask rand i hi k hk

/-- One share of two. -/
theorem calcmofn_secret_one : ∃ mask : Nat → UInt8, ∀ rand allshares : Nat → UInt8, ∀ i ∈ ({0} : Finset Nat), ∀ k < xoverzSize 1 2,
    myshares (cards777Calcmofn (fun n => rand n ^^^ mask n) allshares (fun i => UInt8.ofNat (i + 1)) 2 (fun _ => 5) 1 2) 1 2 i k =
      myshares (cards777Calcmofn rand allshares (fun i => UInt8.ofNat (i + 1)) 2 (fun _ => 7) 1 2) 1 2 i k :=
  calcmofn_secret (by decide) (by decide) (by decide)

end SuperNet.Games.Cards777
