import SuperNet.Utils.Ramcoder

/-! The cumulative table of the coder stays a strictly increasing table whose last
entry is the total weight, through initialisation, adaptation and rescaling. -/
namespace SuperNet.Utils.Ramcoder
open Lib.Words

structure Coder.TableOk (c : Coder) : Prop where
  lastsymbol : c.lastsymbol = 256
  upperLastsymbol : c.upperLastsymbol = 257
  zero : c.ranges 0 = 0
  step : ∀ i < 257, c.ranges i < c.ranges (i+1)
  total : c.ranges 257 = c.cumulativeProb
  bound : c.cumulativeProb ≤ 16641

def Coder.endWeight (c : Coder) : Nat := c.ranges 257 - c.ranges 256

theorem Coder.TableOk.mono {c : Coder} (h : c.TableOk) {i j : Nat} (hij : i ≤ j) (hj : j ≤ 257) :
    c.ranges i + (j - i) ≤ c.ranges j := by
  induction j, hij using Nat.le_induction with
  | base => simp
  | succ j hij ih =>
    have := ih (by omega)
    have := h.step j (by omega)
    omega

theorem Coder.TableOk.total_ge {c : Coder} (h : c.TableOk) : 257 ≤ c.cumulativeProb := by
  have := h.mono (i := 0) (j := 257) (by omega) le_rfl
  have := h.zero
  have := h.total
  omega

theorem Coder.TableOk.le_total {c : Coder} (h : c.TableOk) {i : Nat} (hi : i ≤ 257) :
    c.ranges i ≤ c.cumulativeProb := by
  have := h.mono hi le_rfl
  have := h.total
  omega

private theorem u16_small {n : Nat} (h : n < 65536) : u16 (n : Int) = n := unsigned_of_lt h

private theorem sumRanges_eq {r : Nat → Nat} {n : Nat} (hstep : ∀ i < n, r i ≤ r (i+1))
    (hsmall : ∀ i ≤ n, r i < 2^32) (h0 : r 0 = 0) : sumRanges r n = r n := by
  induction n with
  | zero => simp [sumRanges, h0]
  | succ n ih =>
    have hn := ih (fun i hi => hstep i (by omega)) (fun i hi => hsmall i (by omega))
    have hs := hsmall (n+1) le_rfl
    rw [sumRanges, hn]
    have he : (r n : Int) + ((r (n+1) : Int) - r n) = r (n+1) := by ring
    rw [he]
    exact unsigned_of_lt hs

private theorem initRanges_bound (seed : BitVec 256) (i : Nat) (hi : i ≤ 257) :
    initRanges seed i ≤ i + 256 * min i 64 := by
  induction i with
  | zero => simp [initRanges]
  | succ i ih =>
    have hb := ih (by omega)
    have ht := Bool.toNat_le (seed.getLsbD i)
    rw [initRanges]
    have hsmall : initRanges seed i + 1 + 256 * (if i + 1 ≤ 64 then (seed.getLsbD i).toNat else 0) < 65536 := by
      split <;> omega
    rw [show ((initRanges seed i : Int) + 1 + 256 * ((if i + 1 ≤ 64 then (seed.getLsbD i).toNat else 0 : Nat) : Int)) =
      ((initRanges seed i + 1 + 256 * (if i + 1 ≤ 64 then (seed.getLsbD i).toNat else 0) : Nat) : Int) by push_cast; rfl]
    rw [u16_small hsmall]
    split <;> omega

private theorem initRanges_succ (seed : BitVec 256) (i : Nat) (hi : i < 257) :
    initRanges seed (i+1) =
      initRanges seed i + 1 + 256 * (if i + 1 ≤ 64 then (seed.getLsbD i).toNat else 0) := by
  have hb := initRanges_bound seed i (by omega)
  have ht := Bool.toNat_le (seed.getLsbD i)
  rw [initRanges]
  exact_mod_cast u16_small (n := initRanges seed i + 1 +
    256 * (if i + 1 ≤ 64 then (seed.getLsbD i).toNat else 0)) (by split <;> omega)

theorem initRamcoder_table (seed : BitVec 256) :
    (initRamcoder seed).TableOk ∧ (initRamcoder seed).endWeight = 1 := by
  have hlt : ∀ i ≤ 257, initRanges seed i ≤ 16641 := by
    intro i hi
    have := initRanges_bound seed i hi
    omega
  have hsum : sumRanges (initRanges seed) 257 = initRanges seed 257 := by
    apply sumRanges_eq
    · intro i hi
      rw [initRanges_succ seed i hi]
      omega
    · intro i hi
      have := hlt i hi
      omega
    · rfl
  have hcum : (initRamcoder seed).cumulativeProb = initRanges seed 257 := by
    rw [← hsum, initRamcoder, show ramcoderMaxsymbols + 1 = 257 from rfl]
  refine ⟨⟨rfl, rfl, rfl, ?_, ?_, ?_⟩, ?_⟩
  · intro i hi
    change initRanges seed i < initRanges seed (i+1)
    rw [initRanges_succ seed i hi]
    omega
  · rw [hcum, initRamcoder]
  · rw [hcum]
    exact hlt 257 le_rfl
  · change initRanges seed (256+1) - initRanges seed 256 = 1
    rw [initRanges_succ seed 256 (by omega)]
    simp

private theorem halfWeight_pos (d : Nat) : 1 ≤ halfWeight d := by
  rw [halfWeight]
  split <;> omega

private theorem halfWeight_le (d : Nat) (hd : 1 ≤ d) : 2 * halfWeight d ≤ d + 1 := by
  rw [halfWeight]
  split <;> omega

private theorem rescale_spec {r : Nat → Nat} (h0 : r 0 = 0) (hstep : ∀ i < 257, r i < r (i+1))
    (hle : ∀ i ≤ 257, r i ≤ 16642) (i : Nat) (hi : i ≤ 257) :
    2 * rescaleRanges r i ≤ r i + i ∧
      (i < 257 → rescaleRanges r (i+1) = rescaleRanges r i + halfWeight (r (i+1) - r i)) := by
  have hnext : ∀ i < 257, 2 * rescaleRanges r i ≤ r i + i →
      rescaleRanges r (i+1) = rescaleRanges r i + halfWeight (r (i+1) - r i) := by
    intro i hi hb
    have hs := hstep i hi
    have hl := hle (i+1) (by omega)
    have horig : (if i = 0 then 0 else r i) = r i := by
      split
      · simp_all
      · rfl
    have hdelta : u16 ((r (i+1) : Int) - (r i : Nat)) = r (i+1) - r i := by
      rw [← Nat.cast_sub hs.le]
      exact u16_small (by omega)
    have hhalf := halfWeight_le (r (i+1) - r i) (by omega)
    rw [rescaleRanges, horig, hdelta]
    exact_mod_cast u16_small (n := rescaleRanges r i + halfWeight (r (i+1) - r i)) (by omega)
  induction i with
  | zero => exact ⟨by simp [rescaleRanges, h0], fun h => hnext 0 h (by simp [rescaleRanges, h0])⟩
  | succ i ih =>
    obtain ⟨hb, hn⟩ := ih (by omega)
    have hs := hstep i (by omega)
    have hhalf := halfWeight_le (r (i+1) - r i) (by omega)
    have hb' : 2 * rescaleRanges r (i+1) ≤ r (i+1) + (i+1) := by
      rw [hn (by omega)]
      omega
    exact ⟨hb', fun h => hnext (i+1) h hb'⟩

/-- The table after the increment of `ramcoder_update`. -/
private def bumped (symbol : Nat) (c : Coder) (i : Nat) : Nat :=
  if symbol + 1 ≤ i ∧ i ≤ 257 then c.ranges i + 1 else c.ranges i

private theorem bumped_eq {symbol : Nat} {c : Coder} (h : c.TableOk) :
    (fun i => if symbol + 1 ≤ i ∧ i ≤ c.upperLastsymbol then u16 ((c.ranges i : Int) + 1) else c.ranges i) =
      bumped symbol c := by
  funext i
  rw [bumped, h.upperLastsymbol]
  split
  · rename_i hi
    have := h.le_total hi.2
    have := h.bound
    exact_mod_cast u16_small (n := c.ranges i + 1) (by omega)
  · rfl

private theorem bumped_step {symbol : Nat} {c : Coder} (h : c.TableOk) (i : Nat) (hi : i < 257) :
    bumped symbol c i < bumped symbol c (i+1) := by
  have := h.step i hi
  simp only [bumped]
  split_ifs <;> omega

private theorem bumped_le (symbol : Nat) {c : Coder} (h : c.TableOk) (i : Nat) (hi : i ≤ 257) :
    bumped symbol c i ≤ 16642 := by
  have := h.le_total hi
  have := h.bound
  simp only [bumped]
  split_ifs <;> omega

/-- The weight the end symbol gets from an update: it grows only when it is coded,
and rescaling brings a weight of at most two back to one. -/
structure Adapted (symbol : Nat) (c c' : Coder) : Prop where
  table : c'.TableOk
  small : c'.cumulativeProb < 16384
  keep : symbol < 256 → c.endWeight = 1 → c'.endWeight = 1
  last : c.endWeight = 1 → c'.endWeight = 1 ∨ c'.endWeight = 2 ∧ 258 ≤ c'.cumulativeProb

theorem ramcoderAdapt_spec {symbol : Nat} {c : Coder} (h : c.TableOk) (hs : symbol ≤ 256) :
    Adapted symbol c (ramcoderAdapt symbol c) := by
  have hcum : u32 ((c.cumulativeProb : Int) + 1) = c.cumulativeProb + 1 := by
    have := h.bound
    exact_mod_cast unsigned_of_lt (w := 32) (n := c.cumulativeProb + 1) (by omega)
  have h0 : bumped symbol c 0 = 0 := by simp [bumped, h.zero]
  have hend : bumped symbol c 257 = c.cumulativeProb + 1 := by
    rw [bumped, if_pos ⟨by omega, le_rfl⟩, h.total]
  have hbefore : bumped symbol c 256 = if symbol < 256 then c.ranges 256 + 1 else c.ranges 256 := by
    simp only [bumped]
    split_ifs <;> omega
  have htotal := h.total
  have hge := h.total_ge
  have hpos : c.ranges 256 < c.ranges 257 := h.step 256 (by omega)
  have hw : c.endWeight = c.ranges 257 - c.ranges 256 := rfl
  rw [ramcoderAdapt, bumped_eq h, hcum]
  dsimp only
  split
  · set scaled : Nat → Nat := fun i => if i ≤ c.upperLastsymbol then rescaleRanges (bumped symbol c) i
      else bumped symbol c i with hscaled
    have hsc : ∀ i ≤ 257, scaled i = rescaleRanges (bumped symbol c) i := by
      intro i hi
      rw [hscaled]
      simp only [h.upperLastsymbol, if_pos hi]
    have spec := rescale_spec h0 (bumped_step h) (bumped_le symbol h)
    have hstep : ∀ i < 257, scaled i < scaled (i+1) := by
      intro i hi
      rw [hsc i (by omega), hsc (i+1) (by omega), (spec i (by omega)).2 hi]
      have := halfWeight_pos (bumped symbol c (i+1) - bumped symbol c i)
      omega
    have hle : ∀ i ≤ 257, scaled i ≤ 8449 := by
      intro i hi
      have := (spec i hi).1
      have := bumped_le symbol h i hi
      rw [hsc i hi]
      omega
    have hz : scaled 0 = 0 := by
      rw [hsc 0 (by omega)]
      simp [rescaleRanges, h0]
    have hsum : sumRanges scaled c.upperLastsymbol = scaled 257 := by
      rw [h.upperLastsymbol]
      refine sumRanges_eq (fun i hi => (hstep i hi).le) ?_ hz
      intro i hi
      have := hle i hi
      omega
    have hweight : scaled 257 - scaled 256 = halfWeight (bumped symbol c 257 - bumped symbol c 256) := by
      have hlast : rescaleRanges (bumped symbol c) 257 = rescaleRanges (bumped symbol c) 256 +
          halfWeight (bumped symbol c 257 - bumped symbol c 256) := (spec 256 (by omega)).2 (by omega)
      rw [hsc 257 le_rfl, hsc 256 (by omega), hlast]
      omega
    have hone : c.endWeight = 1 → scaled 257 - scaled 256 = 1 := by
      intro h1
      rw [hweight, halfWeight, if_pos]
      rw [hend, hbefore]
      split_ifs <;> omega
    refine ⟨⟨h.lastsymbol, h.upperLastsymbol, hz, hstep, hsum.symm, ?_⟩, ?_, fun _ h1 => hone h1, fun h1 => .inl (hone h1)⟩
    · change sumRanges scaled c.upperLastsymbol ≤ 16641
      have := hle 257 le_rfl
      omega
    · change sumRanges scaled c.upperLastsymbol < 16384
      have := hle 257 le_rfl
      omega
  · rename_i hc
    have hsmall : c.cumulativeProb + 1 < 16384 := by
      have : (1 <<< (8 * 2 - 2) : Nat) = 16384 := by decide
      omega
    refine ⟨⟨h.lastsymbol, h.upperLastsymbol, h0, bumped_step h, hend, ?_⟩, hsmall, ?_, ?_⟩
    · change c.cumulativeProb + 1 ≤ 16641
      omega
    · intro hlt h1
      change bumped symbol c 257 - bumped symbol c 256 = 1
      rw [hend, hbefore, if_pos hlt]
      omega
    · intro h1
      change (bumped symbol c 257 - bumped symbol c 256 = 1) ∨
        (bumped symbol c 257 - bumped symbol c 256 = 2 ∧ 258 ≤ c.cumulativeProb + 1)
      rw [hend, hbefore]
      split_ifs <;> omega

/-- The rescaling loop in plain arithmetic. -/
def exactRescale (ranges : Nat → Nat) : Nat → Nat
  | 0 => ranges 0
  | i+1 => exactRescale ranges i + halfWeight (ranges (i+1) - ranges i)

/-- The adaptive part of `ramcoder_update` in plain arithmetic. -/
def exactAdapt (symbol : Nat) (c : Coder) : Coder :=
  let ranges := fun i => if symbol + 1 ≤ i ∧ i ≤ c.upperLastsymbol then c.ranges i + 1 else c.ranges i
  let counter := u16 (c.counter + 1)
  if c.cumulativeProb + 1 ≥ 1 <<< (8 * 2 - 2) then
    let scaled := fun i => if i ≤ c.upperLastsymbol then exactRescale ranges i else ranges i
    { c with cumulativeProb := scaled c.upperLastsymbol, ranges := scaled, counter := counter }
  else { c with cumulativeProb := c.cumulativeProb + 1, ranges := ranges, counter := counter }

private theorem rescale_exact {r : Nat → Nat} (h0 : r 0 = 0) (hstep : ∀ i < 257, r i < r (i+1))
    (hle : ∀ i ≤ 257, r i ≤ 16642) (i : Nat) (hi : i ≤ 257) : rescaleRanges r i = exactRescale r i := by
  induction i with
  | zero => rfl
  | succ i ih => rw [(rescale_spec h0 hstep hle i (by omega)).2 hi, exactRescale, ih (by omega)]

/-- No 16-bit store and no sum of the adaptation wraps. -/
theorem ramcoderAdapt_exact {symbol : Nat} {c : Coder} (h : c.TableOk) (hs : symbol ≤ 256) :
    ramcoderAdapt symbol c = exactAdapt symbol c := by
  have hcum : u32 ((c.cumulativeProb : Int) + 1) = c.cumulativeProb + 1 := by
    have := h.bound
    exact_mod_cast unsigned_of_lt (w := 32) (n := c.cumulativeProb + 1) (by omega)
  have hbumped : (fun i => if symbol + 1 ≤ i ∧ i ≤ c.upperLastsymbol then c.ranges i + 1 else c.ranges i) =
      bumped symbol c := by
    funext i
    rw [bumped, h.upperLastsymbol]
  have h0 : bumped symbol c 0 = 0 := by simp [bumped, h.zero]
  have hscaled : (fun i => if i ≤ c.upperLastsymbol then rescaleRanges (bumped symbol c) i else bumped symbol c i) =
      fun i => if i ≤ c.upperLastsymbol then exactRescale (bumped symbol c) i else bumped symbol c i := by
    funext i
    split
    case isTrue hi => exact rescale_exact h0 (bumped_step h) (bumped_le symbol h) i (h.upperLastsymbol ▸ hi)
    case isFalse => rfl
  have htable := (ramcoderAdapt_spec h hs).table.total
  rw [ramcoderAdapt, bumped_eq h, hcum] at htable ⊢
  rw [exactAdapt, hbumped]
  dsimp only at htable ⊢
  rw [hscaled] at htable ⊢
  split
  case isTrue hbig =>
    rw [if_pos hbig] at htable
    congr 1
    rw [h.upperLastsymbol] at htable ⊢
    exact htable.symm
  case isFalse => rfl

end SuperNet.Utils.Ramcoder
