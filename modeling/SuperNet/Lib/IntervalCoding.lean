import Mathlib.Tactic

/-! Binary interval coding over a register of `k+2` bits: bit streams, the value
of a stream window, and what one renormalisation step does to that value. -/
namespace SuperNet.Lib.IntervalCoding

abbrev BitStream := Nat → Bool

/-- The first `n` bits of a stream, most significant first. -/
def window : Nat → BitStream → Nat
  | 0, _ => 0
  | n+1, s => 2 * window n s + (s n).toNat

def drop (n : Nat) (s : BitStream) : BitStream := fun i => s (n+i)

def StartsWith (s : BitStream) (bits : List Bool) : Prop :=
  ∀ i (h : i < bits.length), s i = bits[i]

theorem drop_drop (m n : Nat) (s : BitStream) : drop m (drop n s) = drop (n+m) s := by
  funext i
  simp [drop, Nat.add_assoc]

theorem drop_zero (s : BitStream) : drop 0 s = s := by
  funext i
  simp [drop]

theorem startsWith_nil (s : BitStream) : StartsWith s [] := fun i h => absurd h (Nat.not_lt_zero i)

theorem StartsWith.append {s : BitStream} {a b : List Bool} :
    StartsWith s (a ++ b) ↔ StartsWith s a ∧ StartsWith (drop a.length s) b := by
  constructor
  · intro h
    refine ⟨fun i hi => ?_, fun i hi => ?_⟩
    · have := h i (by simp; omega)
      rwa [List.getElem_append_left hi] at this
    · have := h (a.length+i) (by simp; omega)
      rw [List.getElem_append_right (by omega)] at this
      simpa [drop] using this
  · rintro ⟨ha, hb⟩ i hi
    by_cases hl : i < a.length
    · rw [List.getElem_append_left hl]
      exact ha i hl
    · rw [List.getElem_append_right (by omega)]
      have hlen : i - a.length < b.length := by simp at hi; omega
      have := hb (i - a.length) hlen
      rw [drop, show a.length + (i - a.length) = i by omega] at this
      exact this

theorem StartsWith.cons {s : BitStream} {b : Bool} {bits : List Bool} :
    StartsWith s (b :: bits) ↔ s 0 = b ∧ StartsWith (drop 1 s) bits := by
  rw [show b :: bits = [b] ++ bits from rfl, StartsWith.append]
  refine and_congr ⟨fun h => h 0 (by simp), ?_⟩ Iff.rfl
  intro h i hi
  obtain rfl : i = 0 := by simpa using hi
  simpa using h

theorem StartsWith.replicate {s : BitStream} {b : Bool} {n : Nat} :
    StartsWith s (List.replicate n b) ↔ ∀ i < n, s i = b := by
  constructor
  · intro h i hi
    have := h i (by simpa using hi)
    rwa [List.getElem_replicate] at this
  · intro h i hi
    rw [List.getElem_replicate]
    exact h i (by simpa using hi)

theorem window_lt (n : Nat) (s : BitStream) : window n s < 2^n := by
  induction n with
  | zero => simp [window]
  | succ n ih =>
    have := Bool.toNat_le (s n)
    rw [window, pow_succ]
    omega

theorem window_head (n : Nat) (s : BitStream) :
    window (n+1) s = (s 0).toNat * 2^n + window n (drop 1 s) := by
  induction n with
  | zero => simp [window]
  | succ n ih =>
    rw [window, ih, window, drop, pow_succ, Nat.add_comm 1 n]
    ring

/-- The register of a receiver that has skipped `u` pending opposite bits after
the head bit of the stream. -/
def register (k u : Nat) (s : BitStream) : Nat :=
  (s 0).toNat * 2^(k+1) + window (k+1) (drop (u+1) s)

/-- The `u` bits after the head are its opposites. -/
def Pending (u : Nat) (s : BitStream) : Prop := ∀ i < u, s (i+1) = !s 0

theorem register_zero (k : Nat) (s : BitStream) : register k 0 s = window (k+2) s := by
  rw [register, window_head (k+1) s]

theorem pending_startsWith {u : Nat} {s : BitStream} {b : Bool}
    (h : StartsWith s (b :: List.replicate u (!b))) : s 0 = b ∧ Pending u s := by
  obtain ⟨h0, hr⟩ := StartsWith.cons.mp h
  refine ⟨h0, fun i hi => ?_⟩
  have := StartsWith.replicate.mp hr i hi
  rw [drop, Nat.add_comm] at this
  rw [this, h0]

/-- Shipping a settled head bit with its pending opposites leaves a plain window;
the receiver shifts the head out and reads bit `u+k+2`. -/
theorem register_ship (k u : Nat) (s : BitStream) :
    register k 0 (drop (u+1) s) =
      2 * (register k u s - (s 0).toNat * (2 * 2^k)) + (s (u+k+2)).toNat := by
  rw [register_zero, register, window, drop, show u+1+(k+1) = u+k+2 by omega,
    pow_succ, Nat.mul_comm (2^k) 2, Nat.add_sub_cancel_left]

/-- A straddling step folds the second bit away: the old register is a quarter
plus half of the new one, and the receiver reads bit `u+k+2`. -/
theorem register_straddle (k u : Nat) (s : BitStream) (h : Pending (u+1) s) :
    register k (u+1) s + 2 * 2^k = 2 * register k u s + (s (u+k+2)).toNat := by
  have hu : s (u+1) = !s 0 := h u (Nat.lt_succ_self u)
  have hw : window (k+1) (drop (u+1+1) s) =
      2 * window k (drop 1 (drop (u+1) s)) + (s (u+k+2)).toNat := by
    rw [drop_drop, window, drop, show u+1+1+k = u+k+2 by omega]
  have hv := window_head k (drop (u+1) s)
  have hd : drop (u+1) s 0 = !s 0 := by simpa [drop] using hu
  rw [hd] at hv
  rw [register, register, hw, hv, pow_succ]
  cases s 0 <;> simp <;> omega

/-- An interval of register values together with the number of pending bits. -/
structure Frame where
  lo : Nat
  hi : Nat
  pending : Nat

structure Frame.Holds (k : Nat) (f : Frame) (s : BitStream) : Prop where
  pending : Pending f.pending s
  lo : f.lo ≤ register k f.pending s
  hi : register k f.pending s ≤ f.hi

/-- The ends differ in the head bit and do not straddle the middle closely. -/
structure Frame.Opened (k : Nat) (f : Frame) : Prop where
  lo : f.lo < 2 * 2^k
  hi : 2 * 2^k ≤ f.hi
  apart : f.lo < 2^k ∨ 3 * 2^k ≤ f.hi

def Frame.width (f : Frame) : Nat := f.hi + 1 - f.lo

theorem Frame.Opened.width {k : Nat} {f : Frame} (h : f.Opened k) : 2^k + 2 ≤ f.width := by
  have := h.lo
  have := h.hi
  rw [Frame.width]
  rcases h.apart with ha | ha <;> omega

/-- Renormalisation: the bits shipped and the number of doublings on the way to
an opened frame. -/
inductive Renorm (k : Nat) : Frame → List Bool → Nat → Frame → Prop
  | done {f : Frame} (h : f.Opened k) : Renorm k f [] 0 f
  | shipLow {f f' : Frame} {bits : List Bool} {n : Nat} (h : f.hi < 2 * 2^k)
      (next : Renorm k ⟨2*f.lo, 2*f.hi+1, 0⟩ bits n f') :
      Renorm k f ((false :: List.replicate f.pending true) ++ bits) (n+1) f'
  | shipHigh {f f' : Frame} {bits : List Bool} {n : Nat} (h : 2 * 2^k ≤ f.lo)
      (next : Renorm k ⟨2*f.lo - 4*2^k, 2*f.hi+1 - 4*2^k, 0⟩ bits n f') :
      Renorm k f ((true :: List.replicate f.pending false) ++ bits) (n+1) f'
  | straddle {f f' : Frame} {bits : List Bool} {n : Nat} (h0 : 2^k ≤ f.lo) (h1 : f.lo < 2 * 2^k)
      (h2 : 2 * 2^k ≤ f.hi) (h3 : f.hi < 3 * 2^k)
      (next : Renorm k ⟨2*f.lo - 2*2^k, 2*f.hi+1 - 2*2^k, f.pending+1⟩ bits n f') :
      Renorm k f bits (n+1) f'

namespace Renorm
variable {k n : Nat} {f f' : Frame} {bits : List Bool}

theorem opened (h : Renorm k f bits n f') : f'.Opened k := by
  induction h with
  | done h => exact h
  | shipLow _ _ ih => exact ih
  | shipHigh _ _ ih => exact ih
  | straddle _ _ _ _ _ ih => exact ih

/-- Every doubling is paid by a shipped or a pending bit. -/
theorem count (h : Renorm k f bits n f') : bits.length + f'.pending = f.pending + n := by
  induction h with
  | done h => simp
  | shipLow _ _ ih => simp at ih ⊢; omega
  | shipHigh _ _ ih => simp at ih ⊢; omega
  | straddle _ _ _ _ _ ih => simp at ih ⊢; omega

theorem width (h : Renorm k f bits n f') (hle : f.lo ≤ f.hi) : f'.width = 2^n * f.width := by
  induction h with
  | done h => simp
  | shipLow _ _ ih =>
    rw [ih (by simp; omega), pow_succ, Nat.mul_assoc]
    congr 1
    simp only [Frame.width]
    omega
  | shipHigh _ _ ih =>
    rw [ih (by simp; omega), pow_succ, Nat.mul_assoc]
    congr 1
    simp only [Frame.width]
    omega
  | straddle _ _ _ _ _ ih =>
    rw [ih (by simp; omega), pow_succ, Nat.mul_assoc]
    congr 1
    simp only [Frame.width]
    omega

theorem hi_lt (h : Renorm k f bits n f') (hlt : f.hi < 4 * 2^k) : f'.hi < 4 * 2^k := by
  induction h with
  | done h => exact hlt
  | shipLow _ _ ih => exact ih (by simp; omega)
  | shipHigh _ _ ih => exact ih (by simp; omega)
  | straddle _ _ _ _ _ ih => exact ih (by simp; omega)

/-- Any nonempty interval of register values can be renormalised. -/
theorem total (k : Nat) (f : Frame) (hle : f.lo ≤ f.hi) (hlt : f.hi < 4 * 2^k) :
    ∃ bits n f', Renorm k f bits n f' := by
  by_cases hlow : f.hi < 2 * 2^k
  · obtain ⟨bits, n, f', h⟩ := total k ⟨2*f.lo, 2*f.hi+1, 0⟩ (by simp; omega) (by simp; omega)
    exact ⟨_, _, f', .shipLow hlow h⟩
  by_cases hhigh : 2 * 2^k ≤ f.lo
  · obtain ⟨bits, n, f', h⟩ := total k ⟨2*f.lo - 4*2^k, 2*f.hi+1 - 4*2^k, 0⟩ (by simp; omega) (by simp; omega)
    exact ⟨_, _, f', .shipHigh hhigh h⟩
  by_cases hmid : 2^k ≤ f.lo ∧ f.hi < 3 * 2^k
  · obtain ⟨bits, n, f', h⟩ := total k ⟨2*f.lo - 2*2^k, 2*f.hi+1 - 2*2^k, f.pending+1⟩
      (by simp; omega) (by simp; omega)
    exact ⟨_, _, f', .straddle hmid.1 (by omega) (by omega) hmid.2 h⟩
  · exact ⟨[], 0, f, .done ⟨by omega, by omega, by omega⟩⟩
termination_by 4 * 2^k - (f.hi - f.lo)
decreasing_by all_goals omega

/-- A stream that carries the shipped bits and then lies in the final frame lies
in the initial one. -/
theorem holds (h : Renorm k f bits n f') (hle : f.lo ≤ f.hi) {s : BitStream} (hs : StartsWith s bits)
    (hf : f'.Holds k (drop bits.length s)) : f.Holds k s := by
  induction h generalizing s with
  | done h => simpa [drop_zero] using hf
  | @shipLow f f' bits n hlow next ih =>
    obtain ⟨ha, hb⟩ := StartsWith.append.mp hs
    obtain ⟨h0, hp⟩ := pending_startsWith (b := false) (by simpa using ha)
    have hn := ih (by simp; omega) hb (by rw [drop_drop, ← List.length_append]; exact hf)
    simp only [List.length_cons, List.length_replicate] at hn
    have hr := register_ship k f.pending s
    rw [h0] at hr
    refine ⟨hp, ?_, ?_⟩
    · have := hn.lo
      simp at this hr
      have := Bool.toNat_le (s (f.pending+k+2))
      omega
    · have := hn.hi
      simp at this hr
      omega
  | @shipHigh f f' bits n hhigh next ih =>
    obtain ⟨ha, hb⟩ := StartsWith.append.mp hs
    obtain ⟨h0, hp⟩ := pending_startsWith (b := true) (by simpa using ha)
    have hn := ih (by simp; omega) hb (by rw [drop_drop, ← List.length_append]; exact hf)
    simp only [List.length_cons, List.length_replicate] at hn
    have hr := register_ship k f.pending s
    rw [h0] at hr
    have hge : 2 * 2^k ≤ register k f.pending s := by
      rw [register, h0, pow_succ]
      simp
      omega
    refine ⟨hp, ?_, ?_⟩
    · have := hn.lo
      simp at this hr
      have := Bool.toNat_le (s (f.pending+k+2))
      omega
    · have := hn.hi
      simp at this hr
      omega
  | @straddle f f' bits n h0 h1 h2 h3 next ih =>
    have hn := ih (by simp; omega) hs hf
    have hr := register_straddle k f.pending s hn.pending
    have hlo := hn.lo
    have hhi := hn.hi
    have := Bool.toNat_le (s (f.pending+k+2))
    simp only at hlo hhi
    exact ⟨fun i hi => hn.pending i (Nat.lt_succ_of_lt hi), by omega, by omega⟩

end Renorm

/-- The two bits that close a stream put every continuation inside an opened frame. -/
theorem Frame.Opened.flush {k : Nat} {f : Frame} (h : f.Opened k) {s : BitStream}
    (hs : StartsWith s (decide (2^k ≤ f.lo) :: List.replicate (f.pending+1) (!decide (2^k ≤ f.lo)))) :
    f.Holds k s := by
  obtain ⟨h0, hp⟩ := pending_startsWith hs
  have hu : s (f.pending+1) = !s 0 := hp f.pending (Nat.lt_succ_self _)
  have hw := window_head k (drop (f.pending+1) s)
  have hlt := window_lt k (drop 1 (drop (f.pending+1) s))
  have hd : drop (f.pending+1) s 0 = !s 0 := by simpa [drop] using hu
  have hr : register k f.pending s = (s 0).toNat * (2 * 2^k) + ((!s 0).toNat * 2^k
      + window k (drop 1 (drop (f.pending+1) s))) := by
    rw [register, hw, hd, pow_succ, Nat.mul_comm (2^k) 2]
  have := h.lo
  have := h.hi
  refine ⟨fun i hi => hp i (Nat.lt_succ_of_lt hi), ?_, ?_⟩
  · rw [hr, h0]
    by_cases hq : 2^k ≤ f.lo <;> simp [hq] <;> omega
  · rw [hr, h0]
    rcases h.apart with ha | ha
    · simp [not_le.mpr ha]
      omega
    · by_cases hq : 2^k ≤ f.lo <;> simp [hq] <;> omega

/-- Dividing an interval of length `r` in the ratio of cumulative weights: an
offset lies in the part of weights `[lo, hi)` exactly when its rescaled weight does. -/
theorem part_iff (lo hi c : Nat) {r total : Nat} (hr : 0 < r) (ht : 0 < total) :
    lo * r / total ≤ c ∧ c < hi * r / total ↔
      lo ≤ ((c+1)*total-1)/r ∧ ((c+1)*total-1)/r < hi := by
  have hpos : 0 < (c+1)*total := Nat.mul_pos (Nat.succ_pos c) ht
  rw [Nat.le_div_iff_mul_le hr, Nat.div_lt_iff_lt_mul hr]
  rw [← Nat.lt_succ_iff, Nat.div_lt_iff_lt_mul ht, ← Nat.succ_le_iff (m := c),
    Nat.le_div_iff_mul_le ht, Nat.succ_eq_add_one]
  omega

/-- A positive weight gets a nonempty part as soon as the interval has at least
as many points as there is weight. -/
theorem part_nonempty {lo hi r total : Nat} (hlt : lo < hi) (hr : total ≤ r) (ht : 0 < total) :
    lo * r / total < hi * r / total := by
  rw [← Nat.succ_le_iff, Nat.le_div_iff_mul_le ht]
  have h := Nat.div_mul_le_self (lo*r) total
  calc (lo*r/total).succ * total = lo*r/total*total + total := Nat.succ_mul _ _
    _ ≤ lo*r + r := by omega
    _ = (lo+1)*r := by ring
    _ ≤ hi*r := Nat.mul_le_mul_right r hlt

end SuperNet.Lib.IntervalCoding
