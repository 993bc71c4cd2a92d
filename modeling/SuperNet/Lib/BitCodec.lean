import Mathlib.Tactic

/-! Bit strings, and parsers that are judged by the bits ahead of their cursor. -/
namespace SuperNet.Lib.BitCodec

/-- The low `n` bits of `x`, least significant first. -/
def leBits : Nat → Nat → List Bool
  | 0, _ => []
  | n+1, x => decide (x % 2 = 1) :: leBits n (x / 2)

def leNat : List Bool → Nat
  | [] => 0
  | b :: bs => b.toNat + 2 * leNat bs

@[simp] theorem leBits_length (n x : Nat) : (leBits n x).length = n := by
  induction n generalizing x with
  | zero => rfl
  | succ n ih => rw [leBits, List.length_cons, ih]

theorem leNat_leBits (n x : Nat) : leNat (leBits n x) = x % 2^n := by
  induction n generalizing x with
  | zero => rw [leBits, leNat, pow_zero, Nat.mod_one]
  | succ n ih =>
    rw [leBits, leNat, ih, pow_succ' 2 n, Nat.mod_mul]
    rcases Nat.mod_two_eq_zero_or_one x with h | h <;> simp [h]

theorem leNat_leBits_of_lt {n x : Nat} (h : x < 2^n) : leNat (leBits n x) = x := by
  rw [leNat_leBits, Nat.mod_eq_of_lt h]

theorem leBits_eq_map (n x : Nat) : leBits n x = (List.range n).map x.testBit := by
  induction n generalizing x with
  | zero => rfl
  | succ n ih =>
    rw [leBits, ih, List.range_succ_eq_map, List.map_cons, List.map_map]
    congr 1
    · rw [Nat.testBit_zero]
    · apply List.map_congr_left
      intro i _
      rw [Function.comp_apply, Nat.testBit_succ]

section Parsers

variable {σ α β : Type} {R : σ → List Bool → Prop} {p : StateT σ Option α} {q : α → StateT σ Option β}
  {bs cs : List Bool} {a : α} {b : β}

/-- With `bs` ahead, `p` returns `a` and leaves what follows `bs`. `R s bs` says that
`s` is a proper cursor with exactly the bits `bs` ahead. -/
def Parses (R : σ → List Bool → Prop) (p : StateT σ Option α) (bs : List Bool) (a : α) : Prop :=
  ∀ s rest, R s (bs ++ rest) → ∃ s', p s = some (a, s') ∧ R s' rest

/-- With `bs` ahead, `p` fails. -/
def Rejects (R : σ → List Bool → Prop) (p : StateT σ Option α) (bs : List Bool) : Prop :=
  ∀ s rest, R s (bs ++ rest) → p s = none

theorem Parses.pure (a : α) : Parses R (pure a) [] a := by
  intro s rest h
  exact ⟨s, rfl, h⟩

theorem Parses.bind (hp : Parses R p bs a) (hq : Parses R (q a) cs b) : Parses R (p >>= q) (bs ++ cs) b := by
  intro s rest h
  rw [List.append_assoc] at h
  obtain ⟨s₁, hs₁, h₁⟩ := hp s (cs ++ rest) h
  obtain ⟨s₂, hs₂, h₂⟩ := hq s₁ rest h₁
  refine ⟨s₂, ?_, h₂⟩
  change (p s).bind (fun r => q r.1 r.2) = _
  rw [hs₁]
  exact hs₂

theorem Parses.map (hp : Parses R p bs a) (f : α → β) : Parses R (p >>= fun x => Pure.pure (f x)) bs (f a) := by
  have h := hp.bind (q := fun x => Pure.pure (f x)) (Parses.pure (f a))
  rwa [List.append_nil] at h

theorem Rejects.bind (hp : Rejects R p bs) : Rejects R (p >>= q) (bs ++ cs) := by
  intro s rest h
  rw [List.append_assoc] at h
  change (p s).bind (fun r => q r.1 r.2) = _
  rw [hp s (cs ++ rest) h]
  rfl

/-- A parser with no successful run rejects everything, whatever comes before it. -/
theorem Rejects.of_none (hp : ∀ s, p s = none) : Rejects R p bs := by
  intro s rest _
  exact hp s

theorem bind_none {p : StateT σ Option α} {q : α → StateT σ Option β} (hq : ∀ a s, q a s = none) (s : σ) :
    (p >>= q) s = none := by
  change (p s).bind (fun r => q r.1 r.2) = none
  cases p s with
  | none => rfl
  | some r => exact hq r.1 r.2

theorem none_bind {p : StateT σ Option α} {q : α → StateT σ Option β} {s : σ} (hp : p s = none) :
    (p >>= q) s = none := by
  change (p s).bind (fun r => q r.1 r.2) = none
  rw [hp]
  rfl

theorem Parses.bind_rejects (hp : Parses R p bs a) (hq : Rejects R (q a) cs) : Rejects R (p >>= q) (bs ++ cs) := by
  intro s rest h
  rw [List.append_assoc] at h
  obtain ⟨s₁, hs₁, h₁⟩ := hp s (cs ++ rest) h
  change (p s).bind (fun r => q r.1 r.2) = _
  rw [hs₁]
  exact hq s₁ rest h₁

/-- `n` runs of one parser. -/
def times (p : StateT σ Option α) : Nat → StateT σ Option (List α)
  | 0 => Pure.pure []
  | n+1 => do
    let a ← p
    let as ← times p n
    Pure.pure (a :: as)

theorem Parses.times_succ {n : Nat} {as : List α} (hp : Parses R p bs a) (ht : Parses R (times p n) cs as) :
    Parses R (times p (n + 1)) (bs ++ cs) (a :: as) :=
  hp.bind (ht.map fun as => a :: as)

theorem Rejects.times_succ {n : Nat} (hp : Rejects R p bs) : Rejects R (times p (n + 1)) (bs ++ cs) := hp.bind

theorem Parses.times_succ_rejects {n : Nat} (hp : Parses R p bs a) (ht : Rejects R (times p n) cs) :
    Rejects R (times p (n + 1)) (bs ++ cs) := by
  have hrest : Rejects R (times p n >>= fun as => Pure.pure (a :: as)) (cs ++ []) := ht.bind
  rw [List.append_nil] at hrest
  exact hp.bind_rejects hrest

/-- One parser after another. -/
def inTurn : List (StateT σ Option α) → StateT σ Option (List α)
  | [] => Pure.pure []
  | p :: ps => do
    let a ← p
    let as ← inTurn ps
    Pure.pure (a :: as)

theorem Parses.inTurn {ι : Type} {p : ι → StateT σ Option α} {bits : ι → List Bool} {a : ι → α} {is : List ι}
    (h : ∀ i ∈ is, Parses R (p i) (bits i) (a i)) : Parses R (inTurn (is.map p)) (is.flatMap bits) (is.map a) := by
  induction is with
  | nil => exact Parses.pure []
  | cons i is ih =>
    rw [List.flatMap_cons]
    exact (h i List.mem_cons_self).bind ((ih fun j hj => h j (List.mem_cons_of_mem i hj)).map fun as => a i :: as)

/-- A parser that leaves a part of its state as it was. -/
def Keeps {γ : Type} (f : σ → γ) (p : StateT σ Option α) : Prop := ∀ s a s', p s = some (a, s') → f s' = f s

section Keeps
variable {γ : Type} {f : σ → γ}

theorem Keeps.pure (a : α) : Keeps f (Pure.pure a : StateT σ Option α) := by
  rintro s b s' h
  obtain ⟨-, rfl⟩ := Prod.mk.inj (Option.some.inj h)
  rfl

theorem Keeps.bind (hp : Keeps f p) (hq : ∀ a, Keeps f (q a)) : Keeps f (p >>= q) := by
  intro s b s' h
  change (p s).bind (fun r => q r.1 r.2) = _ at h
  obtain ⟨r, hr, hq'⟩ := Option.bind_eq_some_iff.mp h
  exact (hq r.1 r.2 b s' hq').trans (hp s r.1 r.2 hr)

theorem Keeps.fail : Keeps f (fun _ => none : StateT σ Option α) := by
  rintro s b s' h
  cases h

theorem Keeps.times (hp : Keeps f p) (n : Nat) : Keeps f (times p n) := by
  induction n with
  | zero => exact Keeps.pure []
  | succ n ih => exact hp.bind fun a => ih.bind fun as => Keeps.pure (a :: as)

end Keeps

end Parsers

end SuperNet.Lib.BitCodec
