import SuperNet.Common.Txnet777

/-! What the signature of a transaction covers: a window of 48 bytes that reaches one byte over its end. -/
namespace SuperNet.Common.Txnet777
open SuperNet.Utils.SaM

/-- `txnet777_signtx` of a body of `n` bytes with a key, as far as the signature goes. -/
def signtx (env : Env) (tx : Tx) (privkey : Bits384) : Tx :=
  { tx with sig := saMEncrypt env.stack tx.body tx.bodysize privkey tx.timestamp }

/-- The signature of `n` bytes depends on each of them and on no other, and is accepted with a stored
body exactly if that is the signed one. -/
structure CoversExactly (env : Env) (privkey : Bits384) (timestamp : UInt32) (n : Nat) : Prop where
  ignores_after : ∀ src src' : Nat → UInt8, (∀ p < n, src p = src' p) →
    saMEncrypt env.stack src n privkey timestamp = saMEncrypt env.stack src' n privkey timestamp
  sees_before : ∀ src src' : Nat → UInt8, (∃ p < n, src p ≠ src' p) →
    saMEncrypt env.stack src n privkey timestamp ≠ saMEncrypt env.stack src' n privkey timestamp
  accepts : ∀ (tx : Tx) (body : Nat → UInt8), tx.timestamp = timestamp → tx.bodysize = n →
    (checksig env { signtx env tx privkey with body := body } privkey ↔ ∀ p < n, body p = tx.body p)

private theorem saMEncrypt_reads_behind (stack src : Nat → UInt8) (n : Nat) (privkey : Bits384) (timestamp : UInt32)
    {b : UInt8} (hb : src n ≠ b) :
    saMEncrypt stack src n privkey timestamp ≠ saMEncrypt stack (Function.update src n b) n privkey timestamp := by
  intro heq
  have hlast := (saMEncrypt_eq_iff stack src _ n privkey timestamp).mp heq n le_rfl
    (Nat.lt_add_of_pos_right (by decide))
  rw [Function.update_self] at hlast
  exact hb hlast

private theorem not_ignores_after (env : Env) (privkey : Bits384) (timestamp : UInt32) (n : Nat) :
    ¬ CoversExactly env privkey timestamp n := by
  intro h
  refine saMEncrypt_reads_behind env.stack (fun _ => 0) n privkey timestamp (b := 1) (by decide) ?_
  refine h.ignores_after _ _ fun p hp => ?_
  rw [Function.update_of_ne hp.ne]

/-- The signature of `n` bytes depends on the bytes from `n - 47` to `n`, so on one too many, and for
more than 47 bytes on too few. -/
theorem signature_window (env : Env) (privkey : Bits384) (timestamp : UInt32) (n : Nat) :
    (∀ src src' : Nat → UInt8,
      saMEncrypt env.stack src n privkey timestamp = saMEncrypt env.stack src' n privkey timestamp ↔
        ∀ p ≤ n, n < p + BLOCK → src p = src' p) ∧
    ¬ CoversExactly env privkey timestamp n :=
  ⟨fun src src' => saMEncrypt_eq_iff env.stack src src' n privkey timestamp,
    not_ignores_after env privkey timestamp n⟩

def zeroEnv : Env where
  nonce := fun _ _ => 1
  validatetx := fun _ => true
  txExpiration := 0
  futuregap := 60
  pastgap := 60
  heap := fun _ _ => 0
  stack := fun _ => 0

/-- Two bodies of 248 bytes that differ in the first byte have one signature, and the byte behind the
body changes it. -/
theorem first_byte_not_signed : ¬ CoversExactly zeroEnv (List.replicate 48 0) 1440000000 248 ∧
    saMEncrypt zeroEnv.stack (fun _ => 0) 248 (List.replicate 48 0) 1440000000 =
      saMEncrypt zeroEnv.stack (Function.update (fun _ => 0) 0 1) 248 (List.replicate 48 0) 1440000000 ∧
    saMEncrypt zeroEnv.stack (fun _ => 0) 248 (List.replicate 48 0) 1440000000 ≠
      saMEncrypt zeroEnv.stack (Function.update (fun _ => 0) 248 1) 248 (List.replicate 48 0) 1440000000 := by
  refine ⟨not_ignores_after _ _ _ _, ?_, saMEncrypt_reads_behind _ _ _ _ _ (by decide)⟩
  rw [saMEncrypt_eq_iff]
  intro p _ hp
  rw [Function.update_of_ne]
  rintro rfl
  exact absurd hp (by decide)

end SuperNet.Common.Txnet777
