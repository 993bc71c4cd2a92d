import SuperNet.Utils.RamcoderTable
import SuperNet.Utils.RamcoderRenorm

/-! The course of coder records that encoder and decoder share: one slice of the
interval and one renormalisation for every symbol. -/
namespace SuperNet.Utils.Ramcoder
open Lib.Words Lib.IntervalCoding

structure Coder.Between (c : Coder) : Prop where
  table : c.TableOk
  hi : c.upper < 65536
  opened : (⟨c.lower, c.upper, 0⟩ : Frame).Opened 14
  fits : c.cumulativeProb ≤ c.upper + 1 - c.lower

def Coder.frame (c : Coder) (u : Nat) : Frame := ⟨c.lower, c.upper, u⟩

/-- The point where the part of symbol `s` starts. -/
def Coder.cut (c : Coder) (s : Nat) : Nat := c.lower + c.ranges s * (c.upper + 1 - c.lower) / c.cumulativeProb

def Coder.slice (c : Coder) (s u : Nat) : Frame := ⟨c.cut s, c.cut (s+1) - 1, u⟩

/-- The coder after symbol `s` was coded and the interval renormalised to `f`. -/
def Coder.follow (c : Coder) (s : Nat) (f : Frame) : Coder :=
  { ramcoderAdapt s c with lower := f.lo, upper := f.hi }

namespace Coder.Between
variable {c : Coder} {s : Nat}

theorem lower_lt (h : c.Between) : c.lower < 32768 := h.opened.lo

theorem le_upper (h : c.Between) : 32768 ≤ c.upper := h.opened.hi

theorem cut_lt (h : c.Between) (hs : s ≤ 256) : c.cut s < c.cut (s+1) :=
  Nat.add_lt_add_left (part_nonempty (h.table.step s (by omega)) h.fits
    (by have := h.table.total_ge; omega)) _

theorem cut_le (h : c.Between) (hs : s ≤ 257) : c.cut s ≤ c.upper + 1 := by
  have hge := h.table.total_ge
  have hlow := h.lower_lt
  have hup := h.le_upper
  have hdiv : c.ranges s * (c.upper + 1 - c.lower) / c.cumulativeProb ≤ c.upper + 1 - c.lower := by
    apply Nat.div_le_of_le_mul
    exact Nat.mul_le_mul_right _ (h.table.le_total hs)
  rw [cut]
  omega

theorem slice_le (h : c.Between) (hs : s ≤ 256) (u : Nat) : (c.slice s u).lo ≤ (c.slice s u).hi := by
  have := h.cut_lt hs
  change c.cut s ≤ c.cut (s+1) - 1
  omega

theorem slice_lt (h : c.Between) (hs : s ≤ 256) (u : Nat) : (c.slice s u).hi < 65536 := by
  have := h.cut_le (s := s+1) (by omega)
  have := h.hi
  change c.cut (s+1) - 1 < 65536
  omega

/-- Narrowing selects the slice of the symbol; the 16-bit stores lose nothing. -/
theorem narrow (h : c.Between) (hs : s ≤ 256) :
    ramcoderNarrow s c = { c with lower := c.cut s, upper := c.cut (s+1) - 1 } := by
  have hlow := h.lower_lt
  have hup := h.le_upper
  have hhi := h.hi
  have hlt := h.cut_lt hs
  have hle := h.cut_le (s := s+1) (by omega)
  have hrange : u32 (u32 ((c.upper : Int) - c.lower) + 1) = c.upper + 1 - c.lower := by
    rw [u32, unsigned, unsigned]
    omega
  have hprod : ∀ i ≤ 257, u32 ((c.ranges i : Int) * ((c.upper + 1 - c.lower : Nat) : Int)) =
      c.ranges i * (c.upper + 1 - c.lower) := by
    intro i hi
    have hr := h.table.le_total hi
    have hb := h.table.bound
    have hm : c.ranges i * (c.upper + 1 - c.lower) ≤ 16641 * 65536 :=
      Nat.mul_le_mul (by omega) (by omega)
    exact_mod_cast unsigned_of_lt (w := 32) (n := c.ranges i * (c.upper + 1 - c.lower)) (by omega)
  rw [ramcoderNarrow, hrange, hprod (s+1) (by omega), hprod s (by omega)]
  rw [cut] at hlt hle
  rw [cut] at hlt
  rw [cut, cut]
  generalize c.ranges s * (c.upper + 1 - c.lower) / c.cumulativeProb = a at *
  generalize c.ranges (s+1) * (c.upper + 1 - c.lower) / c.cumulativeProb = b at *
  congr 1
  · rw [u16, unsigned, unsigned]
    omega
  · rw [u16, unsigned, unsigned]
    omega

theorem follow (h : c.Between) (hs : s ≤ 256) {u n : Nat} {bits : List Bool} {f : Frame}
    (hr : Renorm 14 (c.slice s u) bits n f) : (c.follow s f).Between := by
  have ha := ramcoderAdapt_spec h.table hs
  have ho := hr.opened
  have hw := ho.width
  refine ⟨?_, hr.hi_lt (h.slice_lt hs u), ⟨ho.lo, ho.hi, ho.apart⟩, ?_⟩
  · obtain ⟨h1, h2, h3, h4, h5, h6⟩ := ha.table
    exact ⟨h1, h2, h3, h4, h5, h6⟩
  · have := ha.small
    change (ramcoderAdapt s c).cumulativeProb ≤ f.hi + 1 - f.lo
    rw [Frame.width] at hw
    omega

end Coder.Between

theorem initRamcoder_between (seed : BitVec 256) : (initRamcoder seed).Between := by
  have hb := (initRamcoder_table seed).1.bound
  have hlo : (initRamcoder seed).lower = 0 := rfl
  have hhi : (initRamcoder seed).upper = 65535 := rfl
  refine ⟨(initRamcoder_table seed).1, ?_, ⟨?_, ?_, .inl ?_⟩, ?_⟩
  · rw [hhi]
    decide
  · exact Nat.zero_lt_succ _
  · change 2 * 2^14 ≤ (initRamcoder seed).upper
    rw [hhi]
    decide
  · exact Nat.zero_lt_succ _
  · rw [hlo, hhi]
    omega

/-- The course shared by both sides: symbols, shipped bits and doublings from one
coder to another. -/
inductive Walk : Coder → Nat → List Nat → List Bool → Nat → Coder → Nat → Prop
  | nil {c : Coder} {u : Nat} : Walk c u [] [] 0 c u
  | cons {c c' : Coder} {u u' s n m : Nat} {ss : List Nat} {bits E : List Bool} {f : Frame} (hs : s ≤ 256)
      (hr : Renorm 14 (c.slice s u) bits n f) (next : Walk (c.follow s f) f.pending ss E m c' u') :
      Walk c u (s :: ss) (bits ++ E) (n+m) c' u'

namespace Walk
variable {c c' : Coder} {u u' n : Nat} {ss : List Nat} {E : List Bool}

theorem total (hc : c.Between) (u : Nat) (hss : ∀ s ∈ ss, s ≤ 256) : ∃ E n c' u', Walk c u ss E n c' u' := by
  induction ss generalizing c u with
  | nil => exact ⟨[], 0, c, u, .nil⟩
  | cons s ss ih =>
    have hs : s ≤ 256 := hss s (List.mem_cons_self ..)
    obtain ⟨bits, n, f, hr⟩ := Renorm.total 14 (c.slice s u) (hc.slice_le hs u) (hc.slice_lt hs u)
    obtain ⟨E, m, c', u', hw⟩ := ih (hc.follow hs hr) f.pending (fun t ht => hss t (List.mem_cons_of_mem s ht))
    exact ⟨_, _, c', u', .cons hs hr hw⟩

theorem between (h : Walk c u ss E n c' u') (hc : c.Between) : c'.Between := by
  induction h with
  | nil => exact hc
  | cons hs hr _ ih => exact ih (hc.follow hs hr)

theorem count (h : Walk c u ss E n c' u') : E.length + u' = u + n := by
  induction h with
  | nil => simp
  | @cons c c' u u' s n m ss bits E f hs hr _ ih =>
    have h1 := hr.count
    change bits.length + f.pending = u + n at h1
    rw [List.length_append]
    omega

theorem holds_slice {s : Nat} (hc : c.Between) (hs : s ≤ 256) {F : BitStream} (h : (c.slice s u).Holds 14 F) :
    (c.frame u).Holds 14 F := by
  have hlo := h.lo
  have hhi := h.hi
  have hcut := hc.cut_le (s := s+1) (by omega)
  have hlt := hc.cut_lt hs
  refine ⟨h.pending, le_trans ?_ hlo, le_trans hhi ?_⟩
  · exact Nat.le_add_right _ _
  · change c.cut (s+1) - 1 ≤ c.upper
    omega

theorem holds (h : Walk c u ss E n c' u') (hc : c.Between) {F : BitStream} (hF : StartsWith F E)
    (hf : (c'.frame u').Holds 14 (drop E.length F)) : (c.frame u).Holds 14 F := by
  induction h generalizing F with
  | nil => simpa [drop_zero] using hf
  | @cons c c' u u' s n m ss bits E f hs hr _ ih =>
    obtain ⟨ha, hb⟩ := StartsWith.append.mp hF
    rw [List.length_append, ← drop_drop] at hf
    have hnext := ih (hc.follow hs hr) hb hf
    exact holds_slice hc hs (hr.holds (hc.slice_le hs u) ha hnext)

end Walk

theorem ramcoderUpdate_eq {c : Coder} (hc : c.Between) {s : Nat} (hs : s ≤ 256) {updateprobs : Int}
    (hu : updateprobs ≠ 0) (k v : Nat) :
    ramcoderUpdate s updateprobs { c with code := k, underflowBits := v } =
      { ramcoderAdapt s c with lower := c.cut s, upper := c.cut (s+1) - 1, code := k, underflowBits := v } := by
  have hn := hc.narrow hs
  have hnarrow : ramcoderNarrow s { c with code := k, underflowBits := v } =
      { ramcoderNarrow s c with code := k, underflowBits := v } := rfl
  rw [ramcoderUpdate, if_pos hu, hnarrow, hn, ramcoderAdapt, ramcoderAdapt]
  dsimp only
  split <;> rfl

theorem Renorm.count_le {f f' : Frame} {bits : List Bool} {n : Nat} (h : Renorm 14 f bits n f')
    (hle : f.lo ≤ f.hi) (hlt : f.hi < 65536) : n ≤ 16 := by
  have hw := h.width hle
  have hhi := h.hi_lt hlt
  have hone : 1 ≤ f.width := by
    rw [Frame.width]
    omega
  have hpow : 2^n ≤ 2^16 := by
    calc 2^n ≤ 2^n * f.width := Nat.le_mul_of_pos_right _ hone
      _ = f'.width := hw.symm
      _ ≤ 2^16 := by
        rw [Frame.width]
        norm_num at hhi ⊢
        omega
  exact (Nat.pow_le_pow_iff_right (by decide)).mp hpow

private theorem slice_width_end {c : Coder} (hc : c.Between) (u : Nat) :
    ((c.slice 256 u).width - 1) * c.cumulativeProb < c.endWeight * (c.upper + 1 - c.lower) := by
  have hge := hc.table.total_ge
  have hup := hc.le_upper
  have hlow := hc.lower_lt
  have hpos : c.ranges 256 < c.ranges 257 := hc.table.step 256 (by omega)
  have htotal := hc.table.total
  set r := c.upper + 1 - c.lower with hr
  have hlt : c.cut 256 < c.cut 257 := hc.cut_lt le_rfl
  have hlast : c.cut 257 = c.lower + r := by
    rw [Coder.cut, htotal, Nat.mul_div_cancel_left _ (by omega)]
  have hcut : c.cut 256 = c.lower + c.ranges 256 * r / c.cumulativeProb := rfl
  have hw : (c.slice 256 u).width = r - c.ranges 256 * r / c.cumulativeProb := by
    change c.cut 257 - 1 + 1 - c.cut 256 = _
    omega
  have hdiv := Nat.lt_mul_div_succ (c.ranges 256 * r) (by omega : 0 < c.cumulativeProb)
  have hsplit : c.cumulativeProb * r = c.ranges 256 * r + c.endWeight * r := by
    rw [← Nat.add_mul, Coder.endWeight]
    congr 1
    omega
  rw [hw, Nat.sub_sub, Nat.sub_mul]
  rw [Nat.mul_comm r, Nat.mul_comm (c.ranges 256 * r / c.cumulativeProb + 1)]
  have hrpos : 0 < c.endWeight * r := Nat.mul_pos (by rw [Coder.endWeight]; omega) (by omega)
  omega

private theorem end_rounds {w₁ w₂ n₁ n₂ : Nat} (h1 : w₁ ≤ 256) (hr1 : 16386 ≤ 2^n₁ * w₁) (hr1' : 2^n₁ * w₁ ≤ 65536)
    (h2 : (w₂ - 1) * 129 < 2^n₁ * w₁) (hr2 : 16386 ≤ 2^n₂ * w₂) : 14 ≤ n₁ + n₂ := by
  by_contra hc
  have hn1 : 7 ≤ n₁ := by
    by_contra h
    have hp : 2^n₁ ≤ 2^6 := Nat.pow_le_pow_right (by decide) (by omega)
    have := Nat.mul_le_mul hp h1
    omega
  rcases Nat.lt_or_ge 7 n₁ with h | h
  · have hp : 2^n₂ ≤ 2^5 := Nat.pow_le_pow_right (by decide) (by omega)
    have := Nat.mul_le_mul hp (by omega : w₂ ≤ 509)
    omega
  · obtain rfl : n₁ = 7 := by omega
    have hp : 2^n₂ ≤ 2^6 := Nat.pow_le_pow_right (by decide) (by omega)
    have := Nat.mul_le_mul hp (by omega : w₂ ≤ 255)
    omega

/-- The two end symbols double the interval at least fourteen times. -/
theorem Walk.ends {c c' : Coder} {u u' n : Nat} {msg : List UInt8} {E : List Bool}
    (h : Walk c u (msg.map UInt8.toNat ++ [256, 256]) E n c' u') (hc : c.Between) (he : c.endWeight = 1) :
    14 ≤ n := by
  induction msg generalizing c u E n with
  | nil =>
    cases h with
    | @cons _ _ _ _ _ n₁ _ _ bits₁ E₁ f₁ hs₁ hr₁ next₁ =>
      cases next₁ with
      | @cons _ _ _ _ _ n₂ m _ bits₂ E₂ f₂ hs₂ hr₂ next₂ =>
        have hc₂ := hc.follow hs₁ hr₁
        have hw₁ := hr₁.width (hc.slice_le hs₁ u)
        have hw₂ := hr₂.width (hc₂.slice_le hs₂ f₁.pending)
        have ho₁ := hr₁.opened.width
        have ho₂ := hr₂.opened.width
        have hf₁ : f₁.width ≤ 65536 := by
          have := hr₁.hi_lt (hc.slice_lt hs₁ u)
          rw [Frame.width]
          omega
        have hwidth : (c.follow 256 f₁).upper + 1 - (c.follow 256 f₁).lower = f₁.width := rfl
        have hs₁' := slice_width_end hc u
        have hs₂' := slice_width_end hc₂ f₁.pending
        rw [he, Nat.one_mul] at hs₁'
        rw [hwidth, hw₁] at hs₂'
        have ht := hc.table.total_ge
        have ht₂ := hc₂.table.total_ge
        have hup := hc.hi
        rw [hw₁] at ho₁ hf₁
        rw [hw₂] at ho₂
        have hfirst : (c.slice 256 u).width ≤ 256 := by
          have := Nat.mul_le_mul_left ((c.slice 256 u).width - 1) ht
          omega
        have hadapt := (ramcoderAdapt_spec hc.table hs₁).last he
        have hsecond : ((Coder.slice (c.follow 256 f₁) 256 f₁.pending).width - 1) * 129 <
            2^n₁ * (c.slice 256 u).width := by
          rcases hadapt with h1 | ⟨h1, h2⟩
          · change (c.follow 256 f₁).endWeight = 1 at h1
            rw [h1, Nat.one_mul] at hs₂'
            have := Nat.mul_le_mul_left ((Coder.slice (c.follow 256 f₁) 256 f₁.pending).width - 1) ht₂
            omega
          · change (c.follow 256 f₁).endWeight = 2 at h1
            change 258 ≤ (c.follow 256 f₁).cumulativeProb at h2
            rw [h1] at hs₂'
            have := Nat.mul_le_mul_left ((Coder.slice (c.follow 256 f₁) 256 f₁.pending).width - 1) h2
            omega
        have := end_rounds hfirst (by omega) hf₁ hsecond (by omega)
        omega
  | cons b msg ih =>
    cases h with
    | @cons _ _ _ _ _ n m _ bits E f hs hr next =>
      have hb : b.toNat < 256 := UInt8.toNat_lt b
      have := ih next (hc.follow hs hr) ((ramcoderAdapt_spec hc.table hs).keep hb he)
      omega

end SuperNet.Utils.Ramcoder
