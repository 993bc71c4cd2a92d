import SuperNet.Lib.IntervalCoding
import SuperNet.Utils.Ramcoder

/-! The bit loops of the coder carry out the renormalisation of a 16-bit interval:
`ramcoder_putbits` writes the shipped bits, `ramcoder_getbits` keeps the code
register equal to the register of the stream. -/
namespace SuperNet.Utils.Ramcoder
open Lib.Words Lib.IntervalCoding Huffstream

private theorem and_msb {x : Nat} (h : x < 65536) : x &&& rammaskBit 0 = if 32768 ≤ x then 32768 else 0 := by
  rw [show rammaskBit 0 = 2^15 from rfl, Nat.and_two_pow, Nat.testBit_eq_decide_div_mod_eq]
  split
  · rw [decide_eq_true (by omega)]; rfl
  · rw [decide_eq_false (by omega)]; rfl

theorem and_second {x : Nat} : x &&& rammaskBit 1 = if x / 16384 % 2 = 1 then 16384 else 0 := by
  rw [show rammaskBit 1 = 2^14 from rfl, Nat.and_two_pow, Nat.testBit_eq_decide_div_mod_eq]
  split
  · rw [decide_eq_true (by omega)]; rfl
  · rw [decide_eq_false (by omega)]; rfl

private theorem or_second {x : Nat} (h : x / 16384 = 2) : x ||| rammaskBit 1 = x + 16384 := by
  have hd := Nat.or_div_two_pow (a := x) (b := 2^14) (n := 14)
  have hm := Nat.or_mod_two_pow (a := x) (b := 2^14) (n := 14)
  rw [show x / 2^14 = 2 from h, show (2 ||| 2^14/2^14 : Nat) = 3 from rfl] at hd
  rw [Nat.mod_self, Nat.or_zero] at hm
  rw [show rammaskBit 1 = 2^14 from rfl]
  omega

private theorem xor_second {x : Nat} (h0 : 16384 ≤ x) (h1 : x < 49152) :
    x ^^^ rammaskBit 1 = if x < 32768 then x - 16384 else x + 16384 := by
  have hd := Nat.xor_div_two_pow (a := x) (b := 2^14) (n := 14)
  have hm := Nat.xor_mod_two_pow (a := x) (b := 2^14) (n := 14)
  rw [Nat.mod_self, Nat.xor_zero] at hm
  rw [show rammaskBit 1 = 2^14 from rfl]
  rcases (by omega : x / 2^14 = 1 ∨ x / 2^14 = 2) with hx | hx
  · rw [hx, show (1 ^^^ 2^14/2^14 : Nat) = 0 from rfl] at hd
    split <;> omega
  · rw [hx, show (2 ^^^ 2^14/2^14 : Nat) = 3 from rfl] at hd
    split <;> omega

private theorem u16_double (x : Nat) : u16 ((x : Int) * 2) = 2 * (x % 32768) := by
  rw [show ((x : Int) * 2) = ((x * 2 : Nat) : Int) by push_cast; rfl, u16, unsigned_natCast]
  omega

private theorem or_bit (a : Nat) (b : Bool) : 2 * a ||| b.toNat = 2 * a + b.toNat :=
  (Nat.two_pow_add_eq_or_of_lt (i := 1) (b := b.toNat) (by cases b <;> decide) a).symm

theorem ramcoderShiftbits_eq (c : Coder) : ramcoderShiftbits c =
    { c with lower := 2 * (c.lower % 32768), upper := 2 * (c.upper % 32768) + 1 } := by
  have := or_bit (c.upper % 32768) true
  rw [ramcoderShiftbits, u16_double, u16_double]
  rw [Bool.toNat_true] at this
  rw [this]

/-- What `ramcoder_normalize` does to an interval that straddles the middle. -/
theorem ramcoderNormalize_eq {c : Coder} (h0 : 16384 ≤ c.lower) (h1 : c.lower < 32768) (h2 : 32768 ≤ c.upper)
    (h3 : c.upper < 49152) :
    ramcoderNormalize c = { c with lower := c.lower - 16384, upper := c.upper + 16384 } := by
  have hmask : (0xffff ^^^ (rammaskBit 0 ||| rammaskBit 1) : Nat) = 2^14 - 1 := by decide
  have hlower : c.lower &&& (0xffff ^^^ (rammaskBit 0 ||| rammaskBit 1)) = c.lower - 16384 := by
    rw [hmask, Nat.and_two_pow_sub_one_eq_mod]
    omega
  have hupper : c.upper ||| rammaskBit 1 = c.upper + 16384 := or_second (by omega)
  rw [ramcoderNormalize, hlower, hupper]

/-- What `ramcoder_state` says about an interval of 16-bit values. -/
theorem ramcoderState_eq {c : Coder} (hle : c.lower ≤ c.upper) (hlt : c.upper < 65536) :
    ramcoderState c =
      if c.upper < 32768 ∨ 32768 ≤ c.lower then .msbsMatch
      else if 16384 ≤ c.lower ∧ c.upper < 49152 then .underflow
      else .done := by
  rw [ramcoderState, and_msb hlt, and_msb (by omega : c.lower < 65536), and_second, and_second]
  by_cases h : c.upper < 32768 ∨ 32768 ≤ c.lower
  · rw [if_pos h, if_pos]
    split_ifs <;> omega
  · rw [if_neg h, if_neg]
    · congr 1
      simp only [ne_eq, ite_eq_right_iff, eq_iff_iff]
      constructor
      · rintro ⟨h1, h2⟩
        constructor
        · by_contra hc
          exact h1 (fun he => by omega)
        · by_contra hc
          have := h2 (by omega)
          omega
      · rintro ⟨h1, h2⟩
        exact ⟨fun he => by have := he (by omega); omega, fun he => by omega⟩
    · rw [if_pos (by omega), if_neg (by omega)]
      decide

/-- Bits written to a `HUFF`, with the record of a full buffer. -/
def record (o : Huff × Bool) (bits : List Bool) : Huff × Bool :=
  bits.foldl (fun o b => ((hputbit o.1 b).1, o.2 || decide ((hputbit o.1 b).2 ≠ 0))) o

def Sink.out (st : Sink) : Huff × Bool := (st.hp, st.full)

theorem record_append (o : Huff × Bool) (a b : List Bool) : record o (a ++ b) = record (record o a) b :=
  List.foldl_append

theorem Sink.drain_spec (bit : Bool) (n : Nat) (st : Sink) :
    (st.drain bit n).out = record st.out (List.replicate n bit) ∧
    (st.drain bit n).wrapped = st.wrapped ∧
    (st.drain bit n).coder = { st.coder with underflowBits := st.coder.underflowBits - n } := by
  induction n generalizing st with
  | zero => exact ⟨rfl, rfl, rfl⟩
  | succ n ih =>
    obtain ⟨ho, hw, hc⟩ := ih { st.put bit with
      coder := { (st.put bit).coder with underflowBits := (st.put bit).coder.underflowBits - 1 } }
    refine ⟨?_, hw, ?_⟩
    · rw [Sink.drain, ho]
      rfl
    · rw [Sink.drain, hc]
      change ({ st.coder with underflowBits := st.coder.underflowBits - 1 - n } : Coder) = _
      rw [Nat.sub_sub, Nat.add_comm 1 n]

/-- Two writes in a row: `p` bits are pending before them, `p₁` between them and `p'` at the end. -/
theorem recorded_trans {st st₁ st' : Sink} {p p₁ p' : Nat} {a b : List Bool}
    (h : st₁.wrapped = false → st.wrapped = false ∧
      (st.coder.underflowBits = p → st₁.coder.underflowBits = p₁ ∧ st₁.out = record st.out a))
    (h' : st'.wrapped = false → st₁.wrapped = false ∧
      (st₁.coder.underflowBits = p₁ → st'.coder.underflowBits = p' ∧ st'.out = record st₁.out b))
    (hw : st'.wrapped = false) : st.wrapped = false ∧
      (st.coder.underflowBits = p → st'.coder.underflowBits = p' ∧ st'.out = record st.out (a ++ b)) := by
  obtain ⟨hw₁, he'⟩ := h' hw
  obtain ⟨hw₀, he⟩ := h hw₁
  refine ⟨hw₀, fun hp => ?_⟩
  obtain ⟨hp₁, ho⟩ := he hp
  obtain ⟨hp', ho'⟩ := he' hp₁
  exact ⟨hp', by rw [ho', ho, record_append]⟩

/-- The sink after a renormalisation of `f` to `f'` that ships `bits`. -/
structure Shipped (st : Sink) (f : Frame) (bits : List Bool) (f' : Frame) (st' : Sink) : Prop where
  coder : ∃ u, st'.coder = { st.coder with lower := f'.lo, upper := f'.hi, underflowBits := u }
  exact : st'.wrapped = false → st.wrapped = false ∧
    (st.coder.underflowBits = f.pending → st'.coder.underflowBits = f'.pending ∧ st'.out = record st.out bits)

theorem Shipped.refl {st : Sink} {f : Frame} (hlo : st.coder.lower = f.lo) (hhi : st.coder.upper = f.hi) :
    Shipped st f [] f st := by
  refine ⟨⟨st.coder.underflowBits, ?_⟩, fun hw => ⟨hw, fun hu => ⟨hu, rfl⟩⟩⟩
  rw [← hlo, ← hhi]

theorem Shipped.trans {st st₁ st' : Sink} {f g f' : Frame} {a b : List Bool}
    (h : Shipped st f a g st₁) (h' : Shipped st₁ g b f' st') : Shipped st f (a ++ b) f' st' := by
  obtain ⟨u, hu⟩ := h.coder
  obtain ⟨v, hv⟩ := h'.coder
  exact ⟨⟨v, by rw [hv, hu]⟩, recorded_trans h.exact h'.exact⟩

private theorem shipped_bit (st : Sink) (f : Frame) (b : Bool) (lo hi : Nat) (hlow : f.lo = st.coder.lower)
    (hhigh : f.hi = st.coder.upper)
    (hlo : lo = 2 * (f.lo % 32768)) (hhi : hi = 2 * (f.hi % 32768) + 1) :
    Shipped st f (b :: List.replicate f.pending (!b)) ⟨lo, hi, 0⟩
      { (st.put b).drain (!b) (st.put b).coder.underflowBits with
        coder := ramcoderShiftbits ((st.put b).drain (!b) (st.put b).coder.underflowBits).coder } := by
  obtain ⟨ho, hw, hc⟩ := Sink.drain_spec (!b) (st.put b).coder.underflowBits (st.put b)
  have hcoder : ((st.put b).drain (!b) (st.put b).coder.underflowBits).coder =
      { st.coder with underflowBits := 0 } := by
    rw [hc, Nat.sub_self]
    rfl
  refine ⟨⟨0, ?_⟩, fun hwr => ⟨?_, fun hu => ⟨?_, ?_⟩⟩⟩
  · change ramcoderShiftbits _ = _
    rw [hcoder, ramcoderShiftbits_eq, hlo, hhi, hlow, hhigh]
  · exact hw.symm.trans hwr
  · change (ramcoderShiftbits _).underflowBits = 0
    rw [hcoder, ramcoderShiftbits_eq]
  · change ((st.put b).drain (!b) (st.put b).coder.underflowBits).out = _
    rw [ho, show (st.put b).coder.underflowBits = f.pending from hu]
    rfl

private theorem shipped_underflow (st : Sink) (f : Frame) (lo hi : Nat) (hlow : f.lo = st.coder.lower)
    (hhigh : f.hi = st.coder.upper)
    (h0 : 16384 ≤ f.lo) (h1 : f.lo < 32768) (h2 : 32768 ≤ f.hi) (h3 : f.hi < 49152)
    (hlo : lo = 2 * f.lo - 32768) (hhi : hi = 2 * f.hi + 1 - 32768) :
    Shipped st f [] ⟨lo, hi, f.pending + 1⟩
      { st.addUnderflow with coder := ramcoderShiftbits (ramcoderNormalize st.addUnderflow.coder) } := by
  have hnormal : ramcoderNormalize st.addUnderflow.coder = { st.addUnderflow.coder with
      lower := st.coder.lower - 16384, upper := st.coder.upper + 16384 } :=
    ramcoderNormalize_eq (hlow ▸ h0) (hlow ▸ h1) (hhigh ▸ h2) (hhigh ▸ h3)
  refine ⟨⟨u16 ((st.coder.underflowBits : Int) + 1), ?_⟩, fun hwr => ?_⟩
  · change ramcoderShiftbits (ramcoderNormalize st.addUnderflow.coder) = _
    rw [hnormal, ramcoderShiftbits_eq, hlo, hhi, hlow, hhigh]
    change ({ st.coder with
      lower := 2 * ((st.coder.lower - 16384) % 32768)
      upper := 2 * ((st.coder.upper + 16384) % 32768) + 1
      underflowBits := u16 ((st.coder.underflowBits : Int) + 1) } : Coder) = _
    rw [show 2 * ((st.coder.lower - 16384) % 32768) = 2 * st.coder.lower - 32768 by omega,
      show 2 * ((st.coder.upper + 16384) % 32768) + 1 = 2 * st.coder.upper + 1 - 32768 by omega]
  · have hor : (st.wrapped || decide (2^16 ≤ st.coder.underflowBits + 1)) = false := hwr
    obtain ⟨hw, hsmall⟩ := Bool.or_eq_false_iff.mp hor
    refine ⟨hw, fun hu => ⟨?_, rfl⟩⟩
    change u16 ((st.coder.underflowBits : Int) + 1) = f.pending + 1
    rw [← hu]
    have hlt : st.coder.underflowBits + 1 < 2^16 := not_le.mp (of_decide_eq_false hsmall)
    exact_mod_cast unsigned_of_lt hlt

theorem ramcoderPutbits_renorm {f f' : Frame} {bits : List Bool} {n : Nat} (h : Renorm 14 f bits n f')
    (flushflag : Bool) {fuel : Nat} (hfuel : n < fuel) (st : Sink) (hlo : st.coder.lower = f.lo)
    (hhi : st.coder.upper = f.hi) (hle : f.lo ≤ f.hi) (hlt : f.hi < 65536) :
    ∃ st', ramcoderPutbits flushflag fuel st = some (if flushflag then st'.flush else st') ∧
      Shipped st f bits f' st' := by
  induction h generalizing fuel st with
  | @done f ho =>
    obtain ⟨fuel, rfl⟩ := Nat.exists_eq_succ_of_ne_zero (by omega : fuel ≠ 0)
    have h1 := ho.lo
    have h2 := ho.hi
    have h3 := ho.apart
    norm_num at h1 h2 h3
    refine ⟨st, ?_, Shipped.refl hlo hhi⟩
    rw [ramcoderPutbits, ramcoderState_eq (by omega) (by omega), if_neg (by omega), if_neg (by omega)]
  | @shipLow f f' bits n hl _ ih =>
    obtain ⟨fuel, rfl⟩ := Nat.exists_eq_succ_of_ne_zero (by omega : fuel ≠ 0)
    norm_num at hl
    have hmsb : decide (st.coder.upper &&& rammaskBit 0 ≠ 0) = false := by
      rw [and_msb (by omega), if_neg (by omega)]
      rfl
    have hship := shipped_bit st f false (2*f.lo) (2*f.hi+1)
      hlo.symm hhi.symm (by omega) (by omega)
    obtain ⟨u, hu⟩ := hship.coder
    obtain ⟨st', he, hs⟩ := ih (by omega : n < fuel) _ (by rw [hu]) (by rw [hu]) (by simp; omega) (by simp; omega)
    refine ⟨st', ?_, hship.trans hs⟩
    rw [ramcoderPutbits, ramcoderState_eq (by omega) (by omega), if_pos (by omega)]
    dsimp only
    rw [hmsb]
    exact he
  | @shipHigh f f' bits n hh _ ih =>
    obtain ⟨fuel, rfl⟩ := Nat.exists_eq_succ_of_ne_zero (by omega : fuel ≠ 0)
    norm_num at hh
    have hmsb : decide (st.coder.upper &&& rammaskBit 0 ≠ 0) = true := by
      rw [and_msb (by omega), if_pos (by omega)]
      rfl
    have hship := shipped_bit st f true (2*f.lo - 4*2^14) (2*f.hi+1 - 4*2^14)
      hlo.symm hhi.symm (by omega) (by omega)
    obtain ⟨u, hu⟩ := hship.coder
    obtain ⟨st', he, hs⟩ := ih (by omega : n < fuel) _ (by rw [hu]) (by rw [hu]) (by simp; omega) (by simp; omega)
    refine ⟨st', ?_, hship.trans hs⟩
    rw [ramcoderPutbits, ramcoderState_eq (by omega) (by omega), if_pos (by omega)]
    dsimp only
    rw [hmsb]
    exact he
  | @straddle f f' bits n h0 h1 h2 h3 _ ih =>
    obtain ⟨fuel, rfl⟩ := Nat.exists_eq_succ_of_ne_zero (by omega : fuel ≠ 0)
    norm_num at h0 h1 h2 h3
    have hship := shipped_underflow st f (2*f.lo - 2*2^14) (2*f.hi+1 - 2*2^14)
      hlo.symm hhi.symm h0 h1 h2 h3 (by omega) (by omega)
    obtain ⟨u, hu⟩ := hship.coder
    obtain ⟨st', he, hs⟩ := ih (by omega : n < fuel) _ (by rw [hu]) (by rw [hu]) (by simp; omega) (by simp; omega)
    refine ⟨st', ?_, hship.trans hs⟩
    rw [ramcoderPutbits, ramcoderState_eq (by omega) (by omega), if_neg (by omega), if_pos (by omega)]
    exact he

/-- A `HUFF` whose cursor stands at bit `pos` of the stream `F`, of which at least
the first `limit` bits can be read. -/
structure Reading (F : BitStream) (limit pos : Nat) (hp : Huff) : Prop where
  ptr : hp.ptr = hp.bitoffset / 8
  maski : hp.maski = hp.bitoffset % 8
  pos : hp.bitoffset = pos
  bits : ∀ i < limit, hp.bitAt i = F i
  inside : limit ≤ hp.endpos
  small : limit < 2^32

theorem Reading.next {F : BitStream} {limit pos : Nat} {hp : Huff} (h : Reading F limit pos hp)
    (hpos : pos < limit) :
    (hgetbit hp).2 = some (F pos) ∧ Reading F limit (pos+1) (hgetbit hp).1 := by
  have hin := h.inside
  have hsm := h.small
  have hp' := h.pos
  obtain ⟨hb, ho, hptr, hmask, hend, hbuf⟩ := hgetbit_spec h.ptr h.maski (by omega) (by omega)
  rw [hp'] at hb ho hptr hmask
  refine ⟨by rw [hb, h.bits pos hpos], ⟨by rw [hptr, ho], by rw [hmask, ho], ho, ?_, ?_, hsm⟩⟩
  · intro i hi
    rw [Huff.bitAt, hbuf]
    exact h.bits i hi
  · rw [hend]
    exact hin

theorem shifted_code {code bit : Nat} (hb : bit ≤ 1) :
    u16 ((code : Int) * 2) ||| bit = 2 * (code % 32768) + bit := by
  rw [u16_double]
  obtain ⟨b, rfl⟩ : ∃ b : Bool, bit = b.toNat := by
    rcases (by omega : bit = 0 ∨ bit = 1) with rfl | rfl
    · exact ⟨false, rfl⟩
    · exact ⟨true, rfl⟩
  exact or_bit _ _

structure InStep (F : BitStream) (limit e : Nat) (f : Frame) (st : Source) : Prop where
  lower : st.coder.lower = f.lo
  upper : st.coder.upper = f.hi
  code : st.coder.code = register 14 f.pending (drop e F)
  reading : Reading F limit (e + f.pending + 16) st.hp

private theorem getbitsShift_eq {loop : Source → Option Source} (st : Source) {F : BitStream} {limit pos : Nat}
    (hr : Reading F limit pos st.hp) (hpos : pos < limit) :
    getbitsShift loop st = loop ⟨{ ramcoderShiftbits st.coder with
      code := 2 * (st.coder.code % 32768) + (F pos).toNat }, (hgetbit st.hp).1, st.eof⟩ := by
  have hpair : hgetbit st.hp = ((hgetbit st.hp).1, some (F pos)) := by
    rw [← (hr.next hpos).1]
  rw [getbitsShift, hpair]
  dsimp only
  rw [show (ramcoderShiftbits st.coder).code = st.coder.code from rfl, shifted_code (Bool.toNat_le _)]

private theorem InStep.ship {F : BitStream} {limit e : Nat} {f : Frame} {st : Source}
    (hst : InStep F limit e f st) (lo hi : Nat) (hpos : e + f.pending + 16 < limit)
    (hlo : lo = 2 * (f.lo % 32768)) (hhi : hi = 2 * (f.hi % 32768) + 1) :
    InStep F limit (e + f.pending + 1) ⟨lo, hi, 0⟩
      ⟨{ ramcoderShiftbits st.coder with
        code := 2 * (st.coder.code % 32768) + (F (e + f.pending + 16)).toNat }, (hgetbit st.hp).1, st.eof⟩ := by
  have hreg := register_ship 14 f.pending (drop e F)
  rw [drop_drop, show drop e F (f.pending + 14 + 2) = F (e + f.pending + 16) from rfl] at hreg
  have hmod : register 14 f.pending (drop e F) - (drop e F 0).toNat * (2 * 2^14) =
      register 14 f.pending (drop e F) % 32768 := by
    have hw := window_lt 15 (drop (f.pending+1) (drop e F))
    rw [register]
    norm_num at hw ⊢
    omega
  rw [hmod] at hreg
  refine ⟨?_, ?_, ?_, (hst.reading.next hpos).2⟩
  · rw [ramcoderShiftbits_eq, hlo, ← hst.lower]
  · rw [ramcoderShiftbits_eq, hhi, ← hst.upper]
  · change 2 * (st.coder.code % 32768) + _ = register 14 0 _
    rw [hst.code, Nat.add_assoc e f.pending 1, hreg]

private theorem InStep.fold {F : BitStream} {limit e : Nat} {f : Frame} {st : Source}
    (hst : InStep F limit e f st) (lo hi : Nat) (hpos : e + f.pending + 16 < limit) (hh : f.Holds 14 (drop e F))
    (hp : Pending (f.pending+1) (drop e F))
    (h0 : 16384 ≤ f.lo) (h1 : f.lo < 32768) (h2 : 32768 ≤ f.hi) (h3 : f.hi < 49152)
    (hlo : lo = 2 * f.lo - 32768) (hhi : hi = 2 * f.hi + 1 - 32768) :
    InStep F limit e ⟨lo, hi, f.pending + 1⟩
      ⟨{ ramcoderShiftbits (ramcoderNormalize st.coder) with
        code := 2 * ((st.coder.code ^^^ rammaskBit 1) % 32768) + (F (e + f.pending + 16)).toNat },
        (hgetbit st.hp).1, st.eof⟩ := by
  have hl := hst.lower
  have hu := hst.upper
  have hlow := hh.lo
  have hhigh := hh.hi
  have hnormal := ramcoderNormalize_eq (c := st.coder) (by omega) (by omega) (by omega) (by omega)
  have hreg := register_straddle 14 f.pending (drop e F) hp
  rw [show drop e F (f.pending + 14 + 2) = F (e + f.pending + 16) from rfl] at hreg
  refine ⟨?_, ?_, ?_, ?_⟩
  · rw [ramcoderShiftbits_eq, hnormal]
    change 2 * ((st.coder.lower - 16384) % 32768) = lo
    omega
  · rw [ramcoderShiftbits_eq, hnormal]
    change 2 * ((st.coder.upper + 16384) % 32768) + 1 = hi
    omega
  · change 2 * ((st.coder.code ^^^ rammaskBit 1) % 32768) + _ = register 14 (f.pending + 1) _
    rw [hst.code, xor_second (by omega) (by omega)]
    norm_num at hreg
    split <;> omega
  · exact (hst.reading.next hpos).2

/-- `ramcoder_getbits` follows a renormalisation whose shipped bits are the next
bits of the stream, as long as the stream has a bit for every doubling. -/
theorem ramcoderGetbits_renorm {f f' : Frame} {bits : List Bool} {n : Nat} (h : Renorm 14 f bits n f')
    {F : BitStream} {limit e fuel : Nat} (hfuel : n < fuel) {st : Source} (hst : InStep F limit e f st)
    (hlimit : e + f.pending + 16 + n ≤ limit) (hle : f.lo ≤ f.hi) (hlt : f.hi < 65536)
    (hs : StartsWith (drop e F) bits) (hf : f'.Holds 14 (drop (e + bits.length) F)) :
    ∃ st', ramcoderGetbits fuel st = some st' ∧ InStep F limit (e + bits.length) f' st' ∧ st'.eof = st.eof ∧
      st'.coder = { st.coder with lower := st'.coder.lower, upper := st'.coder.upper, code := st'.coder.code } := by
  induction h generalizing fuel st e with
  | @done f ho =>
    obtain ⟨fuel, rfl⟩ := Nat.exists_eq_succ_of_ne_zero (by omega : fuel ≠ 0)
    have h1 := ho.lo
    have h2 := ho.hi
    have h3 := ho.apart
    have hl := hst.lower
    have hu := hst.upper
    norm_num at h1 h2 h3
    refine ⟨st, ?_, hst, rfl, rfl⟩
    rw [ramcoderGetbits, ramcoderState_eq (by omega) (by omega), if_neg (by omega), if_neg (by omega)]
  | @shipLow f f' bits n hl next ih =>
    obtain ⟨fuel, rfl⟩ := Nat.exists_eq_succ_of_ne_zero (by omega : fuel ≠ 0)
    norm_num at hl
    have hlo := hst.lower
    have hup := hst.upper
    have hpos : e + f.pending + 16 < limit := by omega
    have hlen : e + ((false :: List.replicate f.pending true) ++ bits).length =
        e + f.pending + 1 + bits.length := by simp; omega
    obtain ⟨-, hb⟩ := StartsWith.append.mp hs
    rw [drop_drop, List.length_cons, List.length_replicate, ← Nat.add_assoc] at hb
    rw [hlen] at hf ⊢
    obtain ⟨st', he, hin, heof, hco⟩ := ih (by omega : n < fuel)
      (hst.ship (2*f.lo) (2*f.hi+1) hpos (by omega) (by omega))
      (by simp; omega) (by simp; omega) (by simp; omega) hb hf
    refine ⟨st', ?_, hin, heof, hco⟩
    rw [ramcoderGetbits, ramcoderState_eq (by omega) (by omega), if_pos (by omega)]
    exact (getbitsShift_eq st hst.reading hpos).trans he
  | @shipHigh f f' bits n hh next ih =>
    obtain ⟨fuel, rfl⟩ := Nat.exists_eq_succ_of_ne_zero (by omega : fuel ≠ 0)
    norm_num at hh
    have hlo := hst.lower
    have hup := hst.upper
    have hpos : e + f.pending + 16 < limit := by omega
    have hlen : e + ((true :: List.replicate f.pending false) ++ bits).length =
        e + f.pending + 1 + bits.length := by simp; omega
    obtain ⟨-, hb⟩ := StartsWith.append.mp hs
    rw [drop_drop, List.length_cons, List.length_replicate, ← Nat.add_assoc] at hb
    rw [hlen] at hf ⊢
    obtain ⟨st', he, hin, heof, hco⟩ := ih (by omega : n < fuel)
      (hst.ship (2*f.lo - 4*2^14) (2*f.hi+1 - 4*2^14) hpos (by omega) (by omega))
      (by simp; omega) (by simp; omega) (by simp; omega) hb hf
    refine ⟨st', ?_, hin, heof, hco⟩
    rw [ramcoderGetbits, ramcoderState_eq (by omega) (by omega), if_pos (by omega)]
    exact (getbitsShift_eq st hst.reading hpos).trans he
  | @straddle f f' bits n h0 h1 h2 h3 next ih =>
    obtain ⟨fuel, rfl⟩ := Nat.exists_eq_succ_of_ne_zero (by omega : fuel ≠ 0)
    have hnext := next.holds (by simp; omega) hs (by rw [drop_drop]; exact hf)
    have hhold := (Renorm.straddle h0 h1 h2 h3 next).holds hle hs (by rw [drop_drop]; exact hf)
    norm_num at h0 h1 h2 h3
    have hlo := hst.lower
    have hup := hst.upper
    have hpos : e + f.pending + 16 < limit := by omega
    obtain ⟨st', he, hin, heof, hco⟩ := ih (by omega : n < fuel)
      (hst.fold (2*f.lo - 2*2^14) (2*f.hi+1 - 2*2^14) hpos hhold hnext.pending h0 h1 h2 h3
        (by omega) (by omega))
      (by simp; omega) (by simp; omega) (by simp; omega) hs hf
    refine ⟨st', ?_, hin, heof, hco⟩
    rw [ramcoderGetbits, ramcoderState_eq (by omega) (by omega), if_neg (by omega), if_pos (by omega)]
    exact (getbitsShift_eq { st with coder := { ramcoderNormalize st.coder with
      code := (ramcoderNormalize st.coder).code ^^^ rammaskBit 1 } } hst.reading hpos).trans he

end SuperNet.Utils.Ramcoder
