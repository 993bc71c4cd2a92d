import SuperNet.Utils.RamcoderWalk

/-! What the encoder writes: the bits of a walk, then the flush. -/
namespace SuperNet.Utils.Ramcoder
open Lib.Words Lib.IntervalCoding Huffstream

/-- The sink after the encoder has followed a walk. -/
structure Written (st : Sink) (u : Nat) (E : List Bool) (c' : Coder) (u' : Nat) (st' : Sink) : Prop where
  coder : ∃ v, st'.coder = { c' with underflowBits := v }
  exact : st'.wrapped = false → st.wrapped = false ∧
    (st.coder.underflowBits = u → st'.coder.underflowBits = u' ∧ st'.out = record st.out E)

theorem Written.trans {st st₁ st' : Sink} {u u₁ u' : Nat} {a b : List Bool} {c₁ c' : Coder}
    (h : Written st u a c₁ u₁ st₁) (h' : Written st₁ u₁ b c' u' st') : Written st u (a ++ b) c' u' st' :=
  ⟨h'.coder, recorded_trans h.exact h'.exact⟩

section Encoder
variable {updateprobs : Int} (hu : updateprobs ≠ 0) {fuel : Nat} (hfuel : 17 ≤ fuel)

include hu hfuel in
theorem ramcoderEncode_spec {c : Coder} (hc : c.Between) {s : Nat} (hs : s ≤ 256) {u n v : Nat}
    {bits : List Bool} {f : Frame} (hr : Renorm 14 (c.slice s u) bits n f) (flushflag : Bool) {st : Sink}
    (hst : st.coder = { c with underflowBits := v }) :
    ∃ st', ramcoderEncode fuel s updateprobs flushflag st = some (if flushflag then st'.flush else st') ∧
      Written st u bits (c.follow s f) f.pending st' := by
  have hupd := ramcoderUpdate_eq hc hs hu c.code v
  have hn := Renorm.count_le hr (hc.slice_le hs u) (hc.slice_lt hs u)
  have hcoder : ramcoderUpdate s updateprobs st.coder = { ramcoderAdapt s c with
      lower := c.cut s, upper := c.cut (s+1) - 1, code := c.code, underflowBits := v } := by
    rw [hst]
    exact hupd
  obtain ⟨st', he, hship⟩ := ramcoderPutbits_renorm hr flushflag (by omega : n < fuel)
    { st with coder := ramcoderUpdate s updateprobs st.coder } (by rw [hcoder]; rfl) (by rw [hcoder]; rfl)
    (hc.slice_le hs u) (hc.slice_lt hs u)
  have hcode : (ramcoderAdapt s c).code = c.code := by
    rw [ramcoderAdapt]
    dsimp only
    split <;> rfl
  refine ⟨st', he, ?_, fun hw => ?_⟩
  · obtain ⟨v', hv'⟩ := hship.coder
    refine ⟨v', ?_⟩
    rw [hv', hcoder, Coder.follow, hcode]
  · obtain ⟨hw₀, hx⟩ := hship.exact hw
    refine ⟨hw₀, fun hp => hx ?_⟩
    change (ramcoderUpdate s updateprobs st.coder).underflowBits = u
    rw [hcoder, ← hp, hst]

include hu hfuel in
theorem ramcoderEmit_spec {msg : List UInt8} {tail : List Nat} {c c' : Coder} {u u' n v : Nat} {E : List Bool}
    (hw : Walk c u (msg.map UInt8.toNat ++ tail) E n c' u') (hc : c.Between) (st : Sink)
    (hst : st.coder = { c with underflowBits := v }) :
    ∃ st₁ c₁ u₁ a b m k, ramcoderEmit fuel updateprobs msg st = some st₁ ∧ E = a ++ b ∧ n = m + k ∧
      Walk c u (msg.map UInt8.toNat) a m c₁ u₁ ∧ Walk c₁ u₁ tail b k c' u' ∧ Written st u a c₁ u₁ st₁ := by
  induction msg generalizing c u v E n st with
  | nil =>
    refine ⟨st, c, u, [], E, 0, n, rfl, rfl, (Nat.zero_add n).symm, .nil, hw, ⟨v, hst⟩, fun h => ⟨h, fun hp => ⟨hp, rfl⟩⟩⟩
  | cons x msg ih =>
    cases hw with
    | @cons _ _ _ _ _ n m _ bits E f hs hr next =>
      obtain ⟨st₁, he₁, hwr⟩ := ramcoderEncode_spec hu hfuel hc hs hr false hst
      obtain ⟨v₁, hv₁⟩ := hwr.coder
      obtain ⟨st₂, c₂, u₂, a, b, m', k, he₂, hE, hm, ha, hb, hw₂⟩ := ih next (hc.follow hs hr) st₁ hv₁
      refine ⟨st₂, c₂, u₂, bits ++ a, b, n + m', k, ?_, ?_, ?_, .cons hs hr ha, hb, hwr.trans hw₂⟩
      · rw [ramcoderEmit, he₁]
        exact he₂
      · rw [hE, List.append_assoc]
      · omega

/-- The bits of the flush in an opened frame. -/
def flushBits (c : Coder) (u : Nat) : List Bool :=
  decide (2^14 ≤ c.lower) :: List.replicate (u+1) (!decide (2^14 ≤ c.lower))

theorem Sink.flush_spec {c : Coder} (hc : c.Between) {u v : Nat} {st : Sink}
    (hst : st.coder = { c with underflowBits := v }) (hw : st.flush.wrapped = false) :
    st.wrapped = false ∧ (v = u → st.flush.out = record st.out (flushBits c u)) := by
  have hlow := hc.lower_lt
  have hl : st.coder.lower = c.lower := by rw [hst]
  have hbit : decide (st.coder.lower &&& rammaskBit 1 ≠ 0) = decide (2^14 ≤ c.lower) := by
    rw [hl, and_second, decide_eq_decide]
    split <;> omega
  rw [Sink.flush, hbit] at hw
  rw [Sink.flush, hbit, flushBits]
  generalize decide (2^14 ≤ c.lower) = bit at hw ⊢
  obtain ⟨ho, hwr, -⟩ := Sink.drain_spec (!bit) (st.put bit).addUnderflow.coder.underflowBits (st.put bit).addUnderflow
  rw [hwr] at hw
  have hor : (st.wrapped || decide (2^16 ≤ st.coder.underflowBits + 1)) = false := hw
  obtain ⟨hw₀, hsmall⟩ := Bool.or_eq_false_iff.mp hor
  refine ⟨hw₀, ?_⟩
  rintro rfl
  have hlt : st.coder.underflowBits + 1 < 2^16 := not_le.mp (of_decide_eq_false hsmall)
  have hcount : (st.put bit).addUnderflow.coder.underflowBits = v + 1 := by
    change u16 ((st.coder.underflowBits : Int) + 1) = v + 1
    have he : st.coder.underflowBits = v := by rw [hst]
    rw [he] at hlt ⊢
    exact_mod_cast unsigned_of_lt hlt
  rw [ho, hcount]
  rfl

include hu hfuel in
/-- What `ramcoder_encoder` writes: the bits of a walk over the message and two
end symbols, then the flush. -/
theorem ramcoderEncoder_spec (msg : List UInt8) (hp : Huff) (seed : BitVec 256) :
    ∃ enc E n c' u', ramcoderEncoder fuel updateprobs msg hp seed = some enc ∧
      Walk (initRamcoder seed) 0 (msg.map UInt8.toNat ++ [256, 256]) E n c' u' ∧
      (enc.wrapped = false → enc.out = record (hrewind hp, false) (E ++ flushBits c' u')) := by
  have hc := initRamcoder_between seed
  have hzero : (initRamcoder seed).underflowBits = 0 := rfl
  unfold ramcoderEncoder
  generalize initRamcoder seed = c₀ at hc hzero ⊢
  have hbytes : ∀ s ∈ msg.map UInt8.toNat ++ [256, 256], s ≤ 256 := by
    intro s hs
    rcases List.mem_append.mp hs with h | h
    · obtain ⟨b, -, rfl⟩ := List.mem_map.mp h
      exact (UInt8.toNat_lt b).le
    · simp at h
      omega
  obtain ⟨E, n, c', u', hw⟩ := Walk.total hc 0 hbytes
  obtain ⟨st₁, c₁, u₁, a, b, m, k, he₁, hE, -, ha, hb, hw₁⟩ := ramcoderEmit_spec hu hfuel hw hc
    ⟨c₀, hrewind hp, false, false⟩ (v := c₀.underflowBits) rfl
  have hc₁ := ha.between hc
  obtain ⟨v₁, hv₁⟩ := hw₁.coder
  cases hb with
  | @cons _ _ _ _ _ n₁ _ _ bits₁ E₁ f₁ hs₁ hr₁ next₁ =>
    cases next₁ with
    | @cons _ _ _ _ _ n₂ _ _ bits₂ E₂ f₂ hs₂ hr₂ next₂ =>
      cases next₂ with
      | nil =>
        have hc₂ := hc₁.follow hs₁ hr₁
        have hc₃ := hc₂.follow hs₂ hr₂
        obtain ⟨st₂, he₂, hw₂⟩ := ramcoderEncode_spec hu hfuel hc₁ hs₁ hr₁ false hv₁
        obtain ⟨v₂, hv₂⟩ := hw₂.coder
        obtain ⟨st₃, he₃, hw₃⟩ := ramcoderEncode_spec hu hfuel hc₂ hs₂ hr₂ true hv₂
        obtain ⟨v₃, hv₃⟩ := hw₃.coder
        have hlast₁ : st₁.coder.lastsymbol = 256 := by rw [hv₁]; exact hc₁.table.lastsymbol
        have hlast₂ : st₂.coder.lastsymbol = 256 := by rw [hv₂]; exact hc₂.table.lastsymbol
        refine ⟨st₃.flush, E, n, _, f₂.pending, ?_, hw, ?_⟩
        · dsimp only
          rw [he₁]
          change (ramcoderEncode fuel st₁.coder.lastsymbol updateprobs false st₁ >>= fun st =>
            ramcoderEncode fuel st.coder.lastsymbol updateprobs true st) = _
          rw [hlast₁, he₂]
          change ramcoderEncode fuel st₂.coder.lastsymbol updateprobs true st₂ = _
          rw [hlast₂, he₃]
          rfl
        · intro hwrap
          obtain ⟨hwr, hflush⟩ := Sink.flush_spec (u := f₂.pending) hc₃ hv₃ hwrap
          obtain ⟨-, hx⟩ := ((hw₁.trans hw₂).trans hw₃).exact hwr
          obtain ⟨hpend, hout⟩ := hx hzero
          rw [hv₃] at hpend
          rw [hflush hpend, hout, ← record_append, hE, List.append_nil, List.append_assoc a]
          rfl

end Encoder

/-- Bits recorded without meeting the end of the buffer stand where the cursor was. -/
theorem record_spec {o : Huff × Bool} {bits : List Bool} (hs : o.1.Synced) (hend : o.1.bitoffset ≤ o.1.endpos)
    (h : (record o bits).2 = false) :
    (record o bits).1.Synced ∧ (record o bits).1.bitoffset = o.1.bitoffset + bits.length ∧
    (record o bits).1.bitoffset ≤ (record o bits).1.endpos ∧
    (∀ i < o.1.bitoffset, (record o bits).1.bitAt i = o.1.bitAt i) ∧
    StartsWith (drop o.1.bitoffset (record o bits).1.bitAt) bits := by
  induction bits generalizing o with
  | nil => exact ⟨hs, rfl, hend, fun _ _ => rfl, startsWith_nil _⟩
  | cons b bits ih =>
    have hmono : ∀ (bits : List Bool) (o : Huff × Bool), (record o bits).2 = false → o.2 = false := by
      intro bits
      induction bits with
      | nil => exact fun o h => h
      | cons b bits ih => exact fun o h => (Bool.or_eq_false_iff.mp (ih _ h)).1
    have hfirst := hmono bits _ h
    have hok : (hputbit o.1 b).2 = 0 := by
      have := of_decide_eq_false (Bool.or_eq_false_iff.mp hfirst).2
      exact not_not.mp this
    obtain ⟨hsync, hoff, hendpos, -, hbits⟩ := hputbit_spec hs hok
    obtain ⟨h1, h2, h3, h4, h5⟩ := ih (o := ((hputbit o.1 b).1, o.2 || decide ((hputbit o.1 b).2 ≠ 0))) hsync
      (by rw [hoff, hendpos]; exact le_max_left _ _) h
    dsimp only at h2 h4 h5
    rw [hoff] at h2 h4 h5
    refine ⟨h1, ?_, h3, ?_, ?_⟩
    · change (record _ bits).1.bitoffset = _
      rw [h2, List.length_cons]
      omega
    · intro i hi
      change (record _ bits).1.bitAt i = _
      rw [h4 i (by omega), hbits, if_neg (by omega)]
    · apply StartsWith.cons.mpr
      constructor
      · change (record _ bits).1.bitAt (o.1.bitoffset + 0) = b
        rw [Nat.add_zero, h4 _ (Nat.lt_succ_self _), hbits, if_pos rfl]
      · rw [drop_drop]
        exact h5

end SuperNet.Utils.Ramcoder
