import SuperNet.Utils.RamcoderEncoder

/-! The decoder undoes the encoder: it stays in step with the walk of the written
bits, and the two closing end symbols pay for the bits it reads ahead. -/
namespace SuperNet.Utils.Ramcoder
open Lib.Words Lib.IntervalCoding Huffstream

/-- The search finds the symbol whose range holds the probability. -/
theorem ramdecoderBsearch_eq {c : Coder} (ht : c.TableOk) {s p : Nat} (hs : s ≤ 256) (hlo : c.ranges s ≤ p)
    (hhi : p < c.ranges (s+1)) {fuel : Nat} {first last : Int} (h0 : 0 ≤ first) (hf : first ≤ s) (hl : s ≤ last)
    (hlast : last ≤ 257) (hfuel : last - first < fuel) : ramdecoderBsearch p c fuel first last = some s := by
  induction fuel generalizing first last with
  | zero => omega
  | succ fuel ih =>
    rw [ramdecoderBsearch, if_pos (by omega)]
    dsimp only
    obtain ⟨m, hm⟩ : ∃ m : Nat, first + (last - first) / 2 = m := ⟨(first + (last - first) / 2).toNat, by omega⟩
    have hm257 : m ≤ 256 := by omega
    rw [hm, Int.toNat_natCast, show ((m : Int) + 1).toNat = m + 1 by omega]
    by_cases hlt : p < c.ranges m
    · have hsm : s < m := by
        by_contra h
        have := ht.mono (i := m) (j := s) (by omega) (by omega)
        omega
      rw [if_pos hlt]
      exact ih h0 hf (by omega) (by omega) (by omega)
    · rw [if_neg hlt]
      by_cases hge : p ≥ c.ranges (m+1)
      · have hsm : m < s := by
          by_contra h
          have := ht.mono (i := s+1) (j := m+1) (by omega) (by omega)
          omega
        rw [if_pos hge]
        exact ih (by omega) (by omega) hl hlast (by omega)
      · rw [if_neg hge]
        have h1 : ¬ s < m := fun h => by
          have := ht.mono (i := s+1) (j := m) (by omega) (by omega)
          omega
        have h2 : ¬ m < s := fun h => by
          have := ht.mono (i := m+1) (j := s) (by omega) (by omega)
          omega
        rw [show m = s by omega]

theorem ramdecoderUnscaled_bounds {c : Coder} (hc : c.Between) {s k : Nat} (hs : s ≤ 256) (hlo : c.cut s ≤ k)
    (hhi : k < c.cut (s+1)) : c.ranges s ≤ ramdecoderUnscaled { c with code := k } ∧
      ramdecoderUnscaled { c with code := k } < c.ranges (s+1) := by
  have hlow := hc.lower_lt
  have hup := hc.le_upper
  have hupper := hc.hi
  have hge := hc.table.total_ge
  have hb := hc.table.bound
  have hle := hc.cut_le (s := s+1) (by omega)
  have hsum := hc.table.le_total (i := s+1) (by omega)
  have hcut : ∀ i, c.cut i = c.lower + c.ranges i * (c.upper + 1 - c.lower) / c.cumulativeProb := fun _ => rfl
  have hklo : c.lower ≤ k := le_trans (Nat.le_add_right _ _) hlo
  have hpart := (part_iff (c.ranges s) (c.ranges (s+1)) (k - c.lower)
    (by omega : 0 < c.upper + 1 - c.lower) (by omega : 0 < c.cumulativeProb)).mp
      ⟨by have := hcut s; omega, by have := hcut (s+1); have := hcut s; omega⟩
  have hrange : u32 (u32 ((c.upper : Int) - c.lower) + 1) = c.upper + 1 - c.lower := by
    rw [u32, unsigned, unsigned]
    omega
  have hcode : u32 (u32 ((k : Int) - c.lower) + 1) = k - c.lower + 1 := by
    rw [u32, unsigned, unsigned]
    omega
  have hprod : u32 (((k - c.lower + 1) * c.cumulativeProb : Nat) - 1) =
      (k - c.lower + 1) * c.cumulativeProb - 1 := by
    have h1 : (k - c.lower + 1) * c.cumulativeProb ≤ 65536 * 16641 := Nat.mul_le_mul (by omega) hb
    have h2 : 1 ≤ (k - c.lower + 1) * c.cumulativeProb := Nat.mul_pos (Nat.succ_pos _) (by omega)
    have hn := unsigned_of_lt (w := 32) (n := (k - c.lower + 1) * c.cumulativeProb - 1) (by omega)
    rw [Nat.cast_sub h2] at hn
    exact hn
  have hfinal : ramdecoderUnscaled { c with code := k } =
      ((k - c.lower + 1) * c.cumulativeProb - 1) / (c.upper + 1 - c.lower) := by
    rw [ramdecoderUnscaled, hrange, hcode, hprod]
    exact unsigned_of_lt (by omega)
  rw [hfinal]
  exact hpart

section Decoder
variable {updateprobs : Int} (hu : updateprobs ≠ 0) {fuel : Nat} (hfuel : 17 ≤ fuel)
variable {F : BitStream} {limit : Nat}

private theorem find_symbol {c : Coder} (hc : c.Between) {s u e : Nat} (hs : s ≤ 256) {st : Source} {k : Nat}
    (hst : st.coder = { c with code := k }) (hin : InStep F limit e (c.frame u) st)
    (hh : (c.slice s u).Holds 14 (drop e F)) :
    ramdecoderBsearch (ramdecoderUnscaled st.coder) st.coder (st.coder.upperLastsymbol + 2)
      0 st.coder.upperLastsymbol = some s := by
  have hcode := hin.code
  have hlo := hh.lo
  have hhi := hh.hi
  have hlt := hc.cut_lt hs
  change st.coder.code = register 14 u (drop e F) at hcode
  change c.cut s ≤ register 14 u (drop e F) at hlo
  change register 14 u (drop e F) ≤ c.cut (s+1) - 1 at hhi
  have hk : st.coder.code = k := by rw [hst]
  rw [← hcode, hk] at hlo hhi
  rw [hst]
  obtain ⟨h1, h2⟩ := ramdecoderUnscaled_bounds hc hs hlo (by omega : k < c.cut (s+1))
  have htable : ({ c with code := k } : Coder).TableOk := by
    obtain ⟨t1, t2, t3, t4, t5, t6⟩ := hc.table
    exact ⟨t1, t2, t3, t4, t5, t6⟩
  have hup := hc.table.upperLastsymbol
  exact ramdecoderBsearch_eq htable hs h1 h2 le_rfl (by omega) (by rw [hup]; omega) (by rw [hup]; omega)
    (by rw [hup]; omega)

include hu hfuel in
theorem ramcoderDecode_spec {c : Coder} (hc : c.Between) {s u n e : Nat} (hs : s < 256) {st : Source} {k : Nat}
    {bits : List Bool} {f : Frame} (hr : Renorm 14 (c.slice s u) bits n f)
    (hst : st.coder = { c with code := k }) (hin : InStep F limit e (c.frame u) st)
    (hlimit : e + u + 16 + n ≤ limit) (hF : StartsWith (drop e F) bits)
    (hf : f.Holds 14 (drop (e + bits.length) F)) :
    ∃ st' k', ramcoderDecode fuel updateprobs st = some (st', some s) ∧ st'.coder = { c.follow s f with code := k' } ∧
      InStep F limit (e + bits.length) ((c.follow s f).frame f.pending) st' ∧ st'.eof = st.eof := by
  have hle := hc.slice_le hs.le u
  have hlt := hc.slice_lt hs.le u
  have hn := Renorm.count_le hr hle hlt
  have hhold := hr.holds hle hF (by rw [drop_drop]; exact hf)
  have hfind := find_symbol hc hs.le hst hin hhold
  have hupd : ramcoderUpdate s updateprobs st.coder = { ramcoderAdapt s c with
      lower := c.cut s, upper := c.cut (s+1) - 1, code := k, underflowBits := c.underflowBits } := by
    rw [hst]
    exact ramcoderUpdate_eq hc hs.le hu k c.underflowBits
  have hunder : (ramcoderAdapt s c).underflowBits = c.underflowBits := by
    rw [ramcoderAdapt]
    dsimp only
    split <;> rfl
  have hslice : InStep F limit e (c.slice s u) { st with coder := ramcoderUpdate s updateprobs st.coder } := by
    refine ⟨by rw [hupd]; rfl, by rw [hupd]; rfl, ?_, hin.reading⟩
    have := hin.code
    rw [hst] at this
    rw [hupd]
    exact this
  obtain ⟨st', hget, hin', heof, hcoder⟩ := ramcoderGetbits_renorm hr (by omega : n < fuel) hslice hlimit hle hlt hF hf
  refine ⟨st', st'.coder.code, ?_, ?_, ⟨hin'.lower, hin'.upper, hin'.code, hin'.reading⟩, heof⟩
  · have hne : s ≠ st.coder.lastsymbol := by
      have hl : st.coder.lastsymbol = 256 := by rw [hst]; exact hc.table.lastsymbol
      omega
    rw [ramcoderDecode, hfind]
    dsimp only
    rw [if_neg hne, hget]
    rfl
  · rw [hcoder, hupd, hin'.lower, hin'.upper, Coder.follow, hunder]

private theorem ramcoderDecode_end {c : Coder} (hc : c.Between) {u e : Nat} {st : Source} {k : Nat}
    (hst : st.coder = { c with code := k }) (hin : InStep F limit e (c.frame u) st)
    (hh : (c.slice 256 u).Holds 14 (drop e F)) : ramcoderDecode fuel updateprobs st = some (st, none) := by
  have hl : st.coder.lastsymbol = 256 := by rw [hst]; exact hc.table.lastsymbol
  rw [ramcoderDecode, find_symbol hc le_rfl hst hin hh]
  dsimp only
  rw [if_pos hl.symm]

include hu hfuel in
theorem decodeLoop_spec {msg : List UInt8} (acc : List UInt8) {c c' : Coder} {u u' n e k room : Nat} {E : List Bool} {st : Source}
    (hw : Walk c u (msg.map UInt8.toNat ++ [256, 256]) E n c' u') (hc : c.Between) (he : c.endWeight = 1)
    (hst : st.coder = { c with code := k }) (hin : InStep F limit e (c.frame u) st)
    (hlimit : e + u + 2 + n ≤ limit) (hF : StartsWith (drop e F) E)
    (hf : (c'.frame u').Holds 14 (drop (e + E.length) F)) (hroom : msg.length ≤ room) :
    ∃ src, decodeLoop fuel updateprobs room st acc = some (src, acc ++ msg) ∧ src.eof = st.eof := by
  induction msg generalizing c u n e k room E st acc with
  | nil =>
    cases room with
    | zero => exact ⟨st, by rw [decodeLoop, List.append_nil], rfl⟩
    | succ room =>
      cases hw with
      | @cons _ _ _ _ _ n m _ bits E f hs hr next =>
        obtain ⟨ha, hb⟩ := StartsWith.append.mp hF
        rw [List.length_append, ← drop_drop, ← drop_drop] at hf
        have hrest := next.holds (hc.follow hs hr) hb hf
        have hhold := hr.holds (hc.slice_le hs u) ha hrest
        refine ⟨st, ?_, rfl⟩
        rw [decodeLoop, ramcoderDecode_end hc hst hin hhold, List.append_nil]
        rfl
  | cons b msg ih =>
    obtain ⟨room, rfl⟩ := Nat.exists_eq_succ_of_ne_zero (by rw [List.length_cons] at hroom; omega : room ≠ 0)
    cases hw with
    | @cons _ _ _ _ _ n m _ bits E f hs hr next =>
      have hb256 : b.toNat < 256 := UInt8.toNat_lt b
      have hc₁ := hc.follow hs hr
      have he₁ : (c.follow b.toNat f).endWeight = 1 := (ramcoderAdapt_spec hc.table hs).keep hb256 he
      have hends := next.ends hc₁ he₁
      have hcount := hr.count
      change bits.length + f.pending = u + n at hcount
      obtain ⟨ha, hb⟩ := StartsWith.append.mp hF
      rw [drop_drop] at hb
      rw [List.length_append, ← Nat.add_assoc] at hf
      have hrest := next.holds hc₁ hb (by rw [drop_drop]; exact hf)
      obtain ⟨st', k', hdec, hst', hin', heof⟩ := ramcoderDecode_spec hu hfuel hc hb256 hr hst hin (by omega) ha hrest
      obtain ⟨src, hloop, heof'⟩ := ih (acc ++ [b]) next hc₁ he₁ hst' hin' (by omega) hb hf
        (Nat.le_of_succ_le_succ hroom)
      refine ⟨src, ?_, heof'.trans heof⟩
      rw [decodeLoop, hdec]
      change decodeLoop fuel updateprobs room st' (acc ++ [UInt8.ofNat b.toNat]) = _
      rw [UInt8.ofNat_toNat, hloop, List.append_assoc]
      rfl

private theorem loadCode_spec {c : Coder} {j k n : Nat} (st : Source)
    (hst : st.coder = { c with code := k }) (hk : k = window j F) (hj : j + n ≤ 16) (hn : j + n ≤ limit)
    (hr : Reading F limit j st.hp) :
    ∃ k', (loadCode n st).coder = { c with code := k' } ∧ k' = window (j+n) F ∧
      Reading F limit (j+n) (loadCode n st).hp ∧ (loadCode n st).eof = st.eof := by
  induction n generalizing j k st with
  | zero => exact ⟨k, hst, hk, hr, rfl⟩
  | succ n ih =>
    obtain ⟨hbit, hr'⟩ := hr.next (by omega)
    have hpair : hgetbit st.hp = ((hgetbit st.hp).1, some (F j)) := by rw [← hbit]
    have hlt : window j F < 32768 := by
      have hp : 2^j ≤ 2^15 := Nat.pow_le_pow_right (by decide) (by omega)
      exact lt_of_lt_of_le (window_lt j F) hp
    have hcode : u16 ((st.coder.code : Int) * 2) ||| (F j).toNat = window (j+1) F := by
      have hs : st.coder.code = window j F := by rw [hst]; exact hk
      rw [shifted_code (Bool.toNat_le _), hs, Nat.mod_eq_of_lt hlt, window]
    obtain ⟨k', h1, h2, h3, h4⟩ := ih (j := j+1) (k := window (j+1) F)
      ⟨{ st.coder with code := window (j+1) F }, (hgetbit st.hp).1, st.eof⟩ (by rw [hst]) rfl
      (by omega) (by omega) hr'
    rw [Nat.add_assoc, Nat.add_comm 1 n] at h2 h3
    rw [loadCode, hpair]
    dsimp only
    rw [hcode]
    exact ⟨k', h1, h2, h3, h4⟩

end Decoder

/-- Whatever `ramcoder_encoder` wrote without filling the buffer and without
wrapping the counter of pending bits, `ramcoder_decoder` reads back, from any
`HUFF` that holds the written bits, and it does so before the bits run out. -/
theorem ramcoder_round_trip (updateprobs : Int) (hu : updateprobs ≠ 0) (fuel : Nat) (hfuel : 17 ≤ fuel)
    (msg : List UInt8) (seed : BitVec 256) (maxlen : Nat) (hmax : msg.length ≤ maxlen) (hp : Huff) :
    ∃ enc, ramcoderEncoder fuel updateprobs msg hp seed = some enc ∧
      (enc.full = false → enc.wrapped = false → enc.hp.bitoffset ≤ enc.hp.endpos ∧
        ∀ hd : Huff, enc.hp.bitoffset ≤ hd.endpos → (∀ i < enc.hp.bitoffset, hd.bitAt i = enc.hp.bitAt i) →
          ∃ src, ramcoderDecoder fuel updateprobs maxlen hd seed = some (src, msg) ∧ src.eof = false) := by
  obtain ⟨enc, E, n, c', u', henc, hw, hout⟩ := ramcoderEncoder_spec hu hfuel msg hp seed
  refine ⟨enc, henc, fun hfull hwrapped => ?_⟩
  have hrec := hout hwrapped
  obtain ⟨hsync, hzero, hend, -⟩ := hrewind_synced hp
  have hfalse : (record (hrewind hp, false) (E ++ flushBits c' u')).2 = false := by
    rw [← hrec]
    exact hfull
  obtain ⟨hs', hlen, hpos, -, hbits⟩ := record_spec hsync (by rw [hzero]; exact Nat.zero_le _) hfalse
  rw [← hrec] at hs' hlen hpos hbits
  change enc.hp.Synced at hs'
  change enc.hp.bitoffset = (hrewind hp).bitoffset + _ at hlen
  change StartsWith (drop (hrewind hp).bitoffset enc.hp.bitAt) _ at hbits
  rw [hzero, Nat.zero_add] at hlen
  rw [hzero, drop_zero] at hbits
  refine ⟨hpos, fun hd hdend hdbits => ?_⟩
  have hc := initRamcoder_between seed
  have he := (initRamcoder_table seed).2
  have hcount := hw.count
  have hends := hw.ends hc he
  have hflush : (flushBits c' u').length = u' + 2 := by simp [flushBits]
  rw [List.length_append, hflush] at hlen
  have hF : StartsWith hd.bitAt (E ++ flushBits c' u') := by
    intro i hi
    rw [hdbits i (by rw [hlen, ← hflush, ← List.length_append]; exact hi)]
    exact hbits i hi
  obtain ⟨hE, hfl⟩ := StartsWith.append.mp hF
  have hopened : (c'.frame u').Opened 14 := by
    obtain ⟨h1, h2, h3⟩ := (hw.between hc).opened
    exact ⟨h1, h2, h3⟩
  have hfinal : (c'.frame u').Holds 14 (drop E.length hd.bitAt) := hopened.flush hfl
  obtain ⟨dsync, dzero, dend, dbuf⟩ := hrewind_synced hd
  have hsmall : enc.hp.bitoffset < 2^32 := lt_of_le_of_lt hs'.inside enc.hp.addressable
  have hread : Reading hd.bitAt enc.hp.bitoffset 0 (hrewind hd) :=
    ⟨dsync.ptr, dsync.maski, dzero, fun i _ => hrewind_bitAt hd i, by rw [dend]; exact hdend, hsmall⟩
  have hstart : ∃ k, (loadCode 16 ⟨initRamcoder seed, hrewind hd, false⟩).coder = { initRamcoder seed with code := k } ∧
      k = window (0+16) hd.bitAt ∧
      Reading hd.bitAt enc.hp.bitoffset (0+16) (loadCode 16 ⟨initRamcoder seed, hrewind hd, false⟩).hp ∧
      (loadCode 16 ⟨initRamcoder seed, hrewind hd, false⟩).eof = false := by
    have hcode : (initRamcoder seed).code = 0 := rfl
    generalize initRamcoder seed = c₀ at hcode ⊢
    exact loadCode_spec _ (k := c₀.code) rfl hcode le_rfl (by omega) hread
  obtain ⟨k, hcoder, hk, hreading, heof⟩ := hstart
  have hlower : (loadCode 16 ⟨initRamcoder seed, hrewind hd, false⟩).coder.lower = (initRamcoder seed).lower := by
    rw [hcoder]
  have hupper : (loadCode 16 ⟨initRamcoder seed, hrewind hd, false⟩).coder.upper = (initRamcoder seed).upper := by
    rw [hcoder]
  have hin : InStep hd.bitAt enc.hp.bitoffset 0 ((initRamcoder seed).frame 0)
      (loadCode 16 ⟨initRamcoder seed, hrewind hd, false⟩) := by
    refine ⟨hlower, hupper, ?_, hreading⟩
    rw [hcoder]
    change k = register 14 0 (drop 0 hd.bitAt)
    rw [drop_zero, register_zero, hk]
  obtain ⟨src, hloop, hsrc⟩ := decodeLoop_spec hu hfuel [] hw hc he hcoder hin (by omega)
    (by rw [drop_zero]; exact hE) (by rw [Nat.zero_add]; exact hfinal) hmax
  exact ⟨src, hloop, hsrc.trans heof⟩

/-- A `HUFF` of 16 bytes. -/
def smallHuff : Huff := ⟨List.replicate 16 0, 16, 0, 0, 0, 0, rfl, by decide⟩

theorem ramcoder_round_trip_abc : ∃ enc, ramcoderEncoder 17 1 [97, 98, 99] smallHuff 5 = some enc ∧
    enc.full = false ∧ enc.wrapped = false ∧
    ∃ src, ramcoderDecoder 17 1 8 enc.hp 5 = some (src, [97, 98, 99]) ∧ src.eof = false := by
  obtain ⟨enc, he, h⟩ := ramcoder_round_trip 1 (by decide) 17 le_rfl [97, 98, 99] 5 8 (by decide) smallHuff
  have hfull : (ramcoderEncoder 17 1 [97, 98, 99] smallHuff 5).map (fun st => (st.full, st.wrapped)) =
      some (false, false) := by decide +kernel
  rw [he] at hfull
  obtain ⟨h1, h2⟩ := Prod.mk.inj (Option.some.inj hfull)
  obtain ⟨hend, hdec⟩ := h h1 h2
  exact ⟨enc, he, h1, h2, hdec enc.hp hend fun _ _ => rfl⟩

end SuperNet.Utils.Ramcoder
