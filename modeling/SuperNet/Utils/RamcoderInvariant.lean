import SuperNet.Utils.RamcoderWalk

/-! What holds of the coder after any sequence of calls of `ramcoder_update`: the table always, the interval as long
as the calls could finish their renormalisation. -/
namespace SuperNet.Utils.Ramcoder
open Lib.Words Lib.IntervalCoding Huffstream

/-- A call of `ramcoder_update`; `putflags` is `none` for 0, and otherwise tells whether `RAMCODER_FINALIZE` is set. -/
structure Call where
  symbol : Nat
  updateprobs : Int
  putflags : Option Bool
  hp : Huff

/-- What a call leaves: the coder, whether the stream ended under it and whether the count of pending bits wrapped. -/
structure Outcome where
  coder : Coder
  eof : Bool
  wrapped : Bool

def Call.update (fuel : Nat) (c : Coder) (call : Call) : Option Outcome :=
  match call.putflags with
  | some flushflag => (ramcoderEncode fuel call.symbol call.updateprobs flushflag ⟨c, call.hp, false, false⟩).map
      fun st => ⟨st.coder, false, st.wrapped⟩
  | none => (ramcoderGetbits fuel ⟨ramcoderUpdate call.symbol call.updateprobs c, call.hp, false⟩).map
      fun st => ⟨st.coder, st.eof, false⟩

/-- `init_ramcoder` on a zeroed coder, with a stream to load the code from or without. -/
def initWith (seed : BitVec 256) : Option Huff → Coder
  | none => initRamcoder seed
  | some hp => (loadCode 16 ⟨initRamcoder seed, hp, false⟩).coder

/-- The coders that calls lead to. The flag is kept while the calls adapt the table, or find it small enough not to
need that, and end their renormalisation. -/
inductive Reachable (seed : BitVec 256) : Coder → Bool → Prop
  | init (hp : Option Huff) : Reachable seed (initWith seed hp) true
  | update {c : Coder} {whole : Bool} {fuel : Nat} {call : Call} {out : Outcome} (h : Reachable seed c whole)
      (hs : call.symbol ≤ 256) (hcall : call.update fuel c = some out) :
      Reachable seed out.coder (whole && !out.eof && (call.updateprobs ≠ 0 || decide (c.cumulativeProb ≤ 2^14 + 2)))

/-- What the interval of a coder between two symbols has to be. -/
structure Coder.Normalised (c : Coder) : Prop where
  lt : c.lower < c.upper
  fits : c.cumulativeProb ≤ c.upper - c.lower + 1
  shares : ∀ s ≤ 256, c.cut s < c.cut (s+1)
  first : c.cut 0 = c.lower
  last : c.cut 257 = c.upper + 1
  exact : ∀ s ≤ 256, ramcoderNarrow s c = { c with lower := c.cut s, upper := c.cut (s+1) - 1 }
  returns : ∀ call : Call, call.symbol ≤ 256 →
    ∃ out, call.update 17 c = some out ∧ (c.underflowBits + 17 < 2^16 → out.wrapped = false)

section Table
variable {c c' : Coder}

structure Coder.SameTable (c c' : Coder) : Prop where
  ranges : c'.ranges = c.ranges
  cumulativeProb : c'.cumulativeProb = c.cumulativeProb
  lastsymbol : c'.lastsymbol = c.lastsymbol
  upperLastsymbol : c'.upperLastsymbol = c.upperLastsymbol
  counter : c'.counter = c.counter

theorem Coder.SameTable.refl (c : Coder) : c.SameTable c := ⟨rfl, rfl, rfl, rfl, rfl⟩

theorem Coder.SameTable.trans {d : Coder} (h : c.SameTable d) (h' : d.SameTable c') : c.SameTable c' :=
  ⟨h'.ranges.trans h.ranges, h'.cumulativeProb.trans h.cumulativeProb, h'.lastsymbol.trans h.lastsymbol,
    h'.upperLastsymbol.trans h.upperLastsymbol, h'.counter.trans h.counter⟩

theorem Coder.TableOk.same (h : c.TableOk) (hsame : c.SameTable c') : c'.TableOk := by
  obtain ⟨hranges, hcum, hlast, hupper, -⟩ := hsame
  obtain ⟨h1, h2, h3, h4, h5, h6⟩ := h
  exact ⟨hlast.trans h1, hupper.trans h2, by rw [hranges]; exact h3, by rw [hranges]; exact h4,
    by rw [hranges, hcum]; exact h5, hcum.trans_le h6⟩

theorem loadCode_coder (n : Nat) (st : Source) : ∃ k, (loadCode n st).coder = { st.coder with code := k } := by
  induction n generalizing st with
  | zero => exact ⟨st.coder.code, rfl⟩
  | succ n ih =>
    rw [loadCode]
    dsimp only
    split
    case h_1 hp bit _ => exact ih ⟨{ st.coder with code := u16 (st.coder.code * 2) ||| bit.toNat }, hp, st.eof⟩
    case h_2 hp _ => exact ih ⟨{ st.coder with code := 0xffff }, hp, true⟩

theorem Sink.drain_sameTable (bit : Bool) (n : Nat) (st : Sink) : st.coder.SameTable (st.drain bit n).coder := by
  rw [(Sink.drain_spec bit n st).2.2]
  exact ⟨rfl, rfl, rfl, rfl, rfl⟩

theorem Sink.flush_coder (st : Sink) : ∃ u, st.flush.coder = { st.coder with underflowBits := u } := by
  rw [Sink.flush]
  generalize decide (st.coder.lower &&& rammaskBit 1 ≠ 0) = bit
  exact ⟨_, (Sink.drain_spec (!bit) (st.put bit).addUnderflow.coder.underflowBits (st.put bit).addUnderflow).2.2⟩

theorem ramcoderPutbits_sameTable {flushflag : Bool} {fuel : Nat} {st st' : Sink}
    (h : ramcoderPutbits flushflag fuel st = some st') : st.coder.SameTable st'.coder := by
  induction fuel generalizing st with
  | zero => cases h
  | succ fuel ih =>
    rw [ramcoderPutbits] at h
    split at h
    · refine Coder.SameTable.trans ?_ (ih h)
      exact ⟨rfl, rfl, rfl, rfl, rfl⟩
    · dsimp only at h
      generalize decide (st.coder.upper &&& rammaskBit 0 ≠ 0) = msb at h
      have hdrain := Sink.drain_sameTable (!msb) (st.put msb).coder.underflowBits (st.put msb)
      refine Coder.SameTable.trans (hdrain.trans ?_) (ih h)
      exact ⟨rfl, rfl, rfl, rfl, rfl⟩
    · obtain rfl := Option.some.inj h
      split
      · obtain ⟨u, hu⟩ := st.flush_coder
        rw [hu]
        exact ⟨rfl, rfl, rfl, rfl, rfl⟩
      · exact .refl _

theorem getbitsShift_sameTable {loop : Source → Option Source} {st st' : Source}
    (hloop : ∀ {t : Source}, loop t = some st' → t.coder.SameTable st'.coder) (h : getbitsShift loop st = some st') :
    st.coder.SameTable st'.coder := by
  rw [getbitsShift] at h
  split at h
  · refine Coder.SameTable.trans ?_ (hloop h)
    exact ⟨rfl, rfl, rfl, rfl, rfl⟩
  · obtain rfl := Option.some.inj h
    exact ⟨rfl, rfl, rfl, rfl, rfl⟩

theorem ramcoderGetbits_sameTable {fuel : Nat} {st st' : Source} (h : ramcoderGetbits fuel st = some st') :
    st.coder.SameTable st'.coder := by
  induction fuel generalizing st with
  | zero => cases h
  | succ fuel ih =>
    rw [ramcoderGetbits] at h
    split at h
    · exact getbitsShift_sameTable ih h
    · refine Coder.SameTable.trans ?_ (getbitsShift_sameTable ih h)
      exact ⟨rfl, rfl, rfl, rfl, rfl⟩
    · obtain rfl := Option.some.inj h
      exact .refl _

theorem Call.update_sameTable {fuel : Nat} {call : Call} {out : Outcome} (h : call.update fuel c = some out) :
    (ramcoderUpdate call.symbol call.updateprobs c).SameTable out.coder := by
  rw [Call.update] at h
  split at h <;> obtain ⟨st, hst, rfl⟩ := Option.map_eq_some_iff.mp h
  · exact ramcoderPutbits_sameTable hst
  · exact ramcoderGetbits_sameTable hst

theorem narrow_sameTable (symbol : Nat) (c : Coder) : c.SameTable (ramcoderNarrow symbol c) := ⟨rfl, rfl, rfl, rfl, rfl⟩

theorem Coder.TableOk.update (h : c.TableOk) {symbol : Nat} (hs : symbol ≤ 256) (updateprobs : Int) :
    (ramcoderUpdate symbol updateprobs c).TableOk := by
  have hnarrow := h.same (narrow_sameTable symbol c)
  rw [ramcoderUpdate]
  split
  · exact (ramcoderAdapt_spec hnarrow hs).table
  · exact hnarrow

/-- After an update the total fits an opened interval, unless it did not before and nothing was adapted. -/
theorem Coder.TableOk.update_le (h : c.TableOk) {symbol : Nat} (hs : symbol ≤ 256) {updateprobs : Int}
    (hu : updateprobs ≠ 0 ∨ c.cumulativeProb ≤ 2^14 + 2) :
    (ramcoderUpdate symbol updateprobs c).cumulativeProb ≤ 2^14 + 2 := by
  have hnarrow := h.same (narrow_sameTable symbol c)
  rw [ramcoderUpdate]
  split
  case isTrue =>
    have := (ramcoderAdapt_spec hnarrow hs).small
    omega
  case isFalse hno => exact hu.resolve_left hno

end Table

section Interval
variable {c c' : Coder} {f f' : Frame} {bits : List Bool} {n : Nat}

/-- A table whose total fits stays so in every opened interval. -/
theorem Coder.Between.of_opened (ht : c'.TableOk) (hsmall : c'.cumulativeProb ≤ 2^14 + 2) (ho : f.Opened 14)
    (hlt : f.hi < 65536) (hlo : c'.lower = f.lo) (hhi : c'.upper = f.hi) : c'.Between := by
  have hw := ho.width
  rw [Frame.width] at hw
  refine ⟨ht, hhi ▸ hlt, ?_, ?_⟩
  · rw [hlo, hhi]
    exact ⟨ho.lo, ho.hi, ho.apart⟩
  · rw [hlo, hhi]
    omega

theorem Coder.Between.narrow_update (h : c.Between) {s : Nat} (hs : s ≤ 256) (updateprobs : Int) :
    (ramcoderUpdate s updateprobs c).lower = c.cut s ∧ (ramcoderUpdate s updateprobs c).upper = c.cut (s+1) - 1 := by
  rw [ramcoderUpdate, h.narrow hs]
  split
  · rw [ramcoderAdapt]
    dsimp only
    split <;> exact ⟨rfl, rfl⟩
  · exact ⟨rfl, rfl⟩

/-- A round of `ramcoder_getbits` goes on with the doubled interval or ends with the stream. -/
theorem getbitsShift_opens {loop : Source → Option Source} {P : Source → Prop} {lo hi : Nat}
    (hloop : ∀ t : Source, t.coder.lower = lo → t.coder.upper = hi → ∃ st', loop t = some st' ∧ (st'.eof = false → P st'))
    {st : Source} (hlo : lo = 2 * (st.coder.lower % 32768)) (hhi : hi = 2 * (st.coder.upper % 32768) + 1) :
    ∃ st', getbitsShift loop st = some st' ∧ (st'.eof = false → P st') := by
  rw [getbitsShift, ramcoderShiftbits_eq]
  split
  case h_1 hp bit hread => exact hloop _ hlo.symm hhi.symm
  case h_2 hp hread => exact ⟨_, rfl, fun h => by cases h⟩

/-- `ramcoder_getbits` renormalises the interval, whatever it reads, as long as it can read. -/
theorem ramcoderGetbits_opens (h : Renorm 14 f bits n f') {fuel : Nat} (hfuel : n < fuel) (st : Source)
    (hlo : st.coder.lower = f.lo) (hhi : st.coder.upper = f.hi) (hle : f.lo ≤ f.hi) (hlt : f.hi < 65536) :
    ∃ st', ramcoderGetbits fuel st = some st' ∧
      (st'.eof = false → st'.coder.lower = f'.lo ∧ st'.coder.upper = f'.hi) := by
  induction h generalizing fuel st with
  | @done f ho =>
    obtain ⟨fuel, rfl⟩ := Nat.exists_eq_succ_of_ne_zero (by omega : fuel ≠ 0)
    have h1 := ho.lo
    have h2 := ho.hi
    have h3 := ho.apart
    norm_num at h1 h2 h3
    refine ⟨st, ?_, fun _ => ⟨hlo, hhi⟩⟩
    rw [ramcoderGetbits, ramcoderState_eq (by omega) (by omega), if_neg (by omega), if_neg (by omega)]
  | @shipLow f f' bits n hl _ ih =>
    obtain ⟨fuel, rfl⟩ := Nat.exists_eq_succ_of_ne_zero (by omega : fuel ≠ 0)
    norm_num at hl
    rw [ramcoderGetbits, ramcoderState_eq (by omega) (by omega), if_pos (by omega)]
    exact getbitsShift_opens (fun t h1 h2 => ih (by omega) t h1 h2 (by simp; omega) (by simp; omega)) (by simp; omega)
      (by simp; omega)
  | @shipHigh f f' bits n hh _ ih =>
    obtain ⟨fuel, rfl⟩ := Nat.exists_eq_succ_of_ne_zero (by omega : fuel ≠ 0)
    norm_num at hh
    rw [ramcoderGetbits, ramcoderState_eq (by omega) (by omega), if_pos (by omega)]
    exact getbitsShift_opens (fun t h1 h2 => ih (by omega) t h1 h2 (by simp; omega) (by simp; omega)) (by simp; omega)
      (by simp; omega)
  | @straddle f f' bits n h0 h1 h2 h3 _ ih =>
    obtain ⟨fuel, rfl⟩ := Nat.exists_eq_succ_of_ne_zero (by omega : fuel ≠ 0)
    norm_num at h0 h1 h2 h3
    have hnormal := ramcoderNormalize_eq (c := st.coder) (by omega) (by omega) (by omega) (by omega)
    rw [ramcoderGetbits, ramcoderState_eq (by omega) (by omega), if_neg (by omega), if_pos (by omega)]
    dsimp only
    rw [hnormal]
    exact getbitsShift_opens (fun t h1 h2 => ih (by omega) t h1 h2 (by simp; omega) (by simp; omega)) (by simp; omega)
      (by simp; omega)

theorem getbitsShift_mono {loop loop' : Source → Option Source} {st st' : Source}
    (hloop : ∀ {t : Source}, loop t = some st' → loop' t = some st') (h : getbitsShift loop st = some st') :
    getbitsShift loop' st = some st' := by
  rw [getbitsShift] at h ⊢
  split <;> rename_i hread <;> rw [hread] at h
  · exact hloop h
  · exact h

/-- More rounds than a loop needs change nothing. -/
theorem ramcoderGetbits_mono {fuel : Nat} {st st' : Source} (h : ramcoderGetbits fuel st = some st') (k : Nat) :
    ramcoderGetbits (fuel + k) st = some st' := by
  induction fuel generalizing st with
  | zero => cases h
  | succ fuel ih =>
    rw [Nat.succ_add, ramcoderGetbits]
    rw [ramcoderGetbits] at h
    split <;> rename_i hstate <;> rw [hstate] at h
    · exact getbitsShift_mono ih h
    · exact getbitsShift_mono ih h
    · exact h

theorem ramcoderPutbits_mono {flushflag : Bool} {fuel : Nat} {st st' : Sink}
    (h : ramcoderPutbits flushflag fuel st = some st') (k : Nat) : ramcoderPutbits flushflag (fuel + k) st = some st' := by
  induction fuel generalizing st with
  | zero => cases h
  | succ fuel ih =>
    rw [Nat.succ_add, ramcoderPutbits]
    rw [ramcoderPutbits] at h
    split <;> rename_i hstate <;> rw [hstate] at h
    · exact ih h
    · exact ih h
    · exact h

theorem Sink.addUnderflow_wrapped {st : Sink} (h : st.coder.underflowBits + 1 < 2^16) :
    st.addUnderflow.wrapped = st.wrapped := by
  change (st.wrapped || decide (2^16 ≤ st.coder.underflowBits + 1)) = st.wrapped
  rw [decide_eq_false (Nat.not_le.mpr h), Bool.or_false]

/-- In so few rounds the count of pending bits cannot wrap, unless many are pending before. -/
theorem ramcoderPutbits_wrapped {flushflag : Bool} {fuel : Nat} {st st' : Sink}
    (h : ramcoderPutbits flushflag fuel st = some st') (hfew : st.coder.underflowBits + fuel < 2^16) :
    st'.wrapped = st.wrapped := by
  induction fuel generalizing st with
  | zero => cases h
  | succ fuel ih =>
    have hone : st.coder.underflowBits + 1 < 2^16 := by omega
    rw [ramcoderPutbits] at h
    split at h
    · have hcount : u16 ((st.coder.underflowBits : Int) + 1) = st.coder.underflowBits + 1 := by
        exact_mod_cast unsigned_of_lt hone
      have hnext := ih h (by
        change u16 ((st.coder.underflowBits : Int) + 1) + fuel < 2^16
        omega)
      exact hnext.trans (Sink.addUnderflow_wrapped hone)
    · dsimp only at h
      generalize decide (st.coder.upper &&& rammaskBit 0 ≠ 0) = msb at h
      obtain ⟨-, hwrapped, hcoder⟩ := Sink.drain_spec (!msb) (st.put msb).coder.underflowBits (st.put msb)
      have hnext := ih h (by
        rw [hcoder]
        change (st.put msb).coder.underflowBits - (st.put msb).coder.underflowBits + fuel < 2^16
        omega)
      exact hnext.trans hwrapped
    · obtain rfl := Option.some.inj h
      split
      · rw [Sink.flush]
        generalize decide (st.coder.lower &&& rammaskBit 1 ≠ 0) = bit
        obtain ⟨-, hwrapped, -⟩ := Sink.drain_spec (!bit) (st.put bit).addUnderflow.coder.underflowBits (st.put bit).addUnderflow
        exact hwrapped.trans (Sink.addUnderflow_wrapped hone)
      · rfl

end Interval

section Calls
variable {c : Coder} {call : Call} {fuel : Nat} {out : Outcome}

theorem Call.update_mono (h : call.update fuel c = some out) (k : Nat) : call.update (fuel + k) c = some out := by
  rw [Call.update] at h ⊢
  split at h <;> obtain ⟨st, hst, rfl⟩ := Option.map_eq_some_iff.mp h
  · rw [ramcoderEncode, ramcoderPutbits_mono hst k]
    rfl
  · rw [ramcoderGetbits_mono hst k]
    rfl

/-- A call returns, and with an opened interval unless its stream ended. -/
theorem Call.returns (hc : c.Between) (hs : call.symbol ≤ 256) (hfuel : 17 ≤ fuel) :
    ∃ out, call.update fuel c = some out ∧ (out.eof = false → ∃ f : Frame, f.Opened 14 ∧ f.hi < 65536 ∧
      out.coder.lower = f.lo ∧ out.coder.upper = f.hi) := by
  obtain ⟨hlo, hhi⟩ := hc.narrow_update hs call.updateprobs
  have hle := hc.slice_le hs 0
  have hlt := hc.slice_lt hs 0
  obtain ⟨bits, n, f, hr⟩ := Renorm.total 14 (c.slice call.symbol 0) hle hlt
  have hn := Renorm.count_le hr hle hlt
  rw [Call.update]
  split
  case h_1 flushflag hput =>
    obtain ⟨st', hst', hship⟩ := ramcoderPutbits_renorm hr flushflag (by omega : n < fuel)
      ⟨ramcoderUpdate call.symbol call.updateprobs c, call.hp, false, false⟩ hlo hhi hle hlt
    obtain ⟨u, hu⟩ := hship.coder
    obtain ⟨v, hv⟩ := st'.flush_coder
    refine ⟨_, by rw [ramcoderEncode, hst', Option.map_some], fun _ => ⟨f, hr.opened, hr.hi_lt hlt, ?_⟩⟩
    cases flushflag
    · exact ⟨by simp [hu], by simp [hu]⟩
    · exact ⟨by simp [hv, hu], by simp [hv, hu]⟩
  case h_2 hget =>
    obtain ⟨st', hst', hopen⟩ := ramcoderGetbits_opens hr (by omega : n < fuel)
      ⟨ramcoderUpdate call.symbol call.updateprobs c, call.hp, false⟩ hlo hhi hle hlt
    exact ⟨_, by rw [hst', Option.map_some], fun heof => ⟨f, hr.opened, hr.hi_lt hlt, hopen heof⟩⟩

theorem Call.update_table (hc : c.TableOk) (hs : call.symbol ≤ 256) (h : call.update fuel c = some out) :
    out.coder.TableOk := (hc.update hs call.updateprobs).same (Call.update_sameTable h)

/-- One call that ends its renormalisation leads from one good coder to the next. -/
theorem Call.update_between (hc : c.Between) (hs : call.symbol ≤ 256)
    (hu : call.updateprobs ≠ 0 ∨ c.cumulativeProb ≤ 2^14 + 2) (h : call.update fuel c = some out) (heof : out.eof = false) :
    out.coder.Between := by
  obtain ⟨out', hout', hopen⟩ := Call.returns hc hs (Nat.le_add_left 17 fuel)
  obtain rfl := Option.some.inj ((Call.update_mono h 17).symm.trans hout')
  obtain ⟨f, ho, hlt, hlo, hhi⟩ := hopen heof
  refine Coder.Between.of_opened (Call.update_table hc.table hs h) ?_ ho hlt hlo hhi
  rw [(Call.update_sameTable h).cumulativeProb]
  exact hc.table.update_le hs hu

theorem ramcoderUpdate_underflowBits (symbol : Nat) (updateprobs : Int) (c : Coder) :
    (ramcoderUpdate symbol updateprobs c).underflowBits = c.underflowBits := by
  rw [ramcoderUpdate]
  split
  · rw [ramcoderAdapt]
    dsimp only
    split <;> rfl
  · rfl

theorem Call.update_wrapped (h : call.update fuel c = some out) (hfew : c.underflowBits + fuel < 2^16) :
    out.wrapped = false := by
  rw [Call.update] at h
  split at h <;> obtain ⟨st, hst, rfl⟩ := Option.map_eq_some_iff.mp h
  · refine ramcoderPutbits_wrapped hst ?_
    rw [ramcoderUpdate_underflowBits]
    exact hfew
  · rfl

theorem Coder.Between.normalised (hc : c.Between) : c.Normalised := by
  have hlow := hc.lower_lt
  have hup := hc.le_upper
  have hge := hc.table.total_ge
  refine ⟨by omega, ?_, fun s hs => hc.cut_lt hs, ?_, ?_, fun s hs => hc.narrow hs, ?_⟩
  · have := hc.fits
    omega
  · rw [Coder.cut, hc.table.zero, Nat.zero_mul, Nat.zero_div, Nat.add_zero]
  · rw [Coder.cut, hc.table.total, Nat.mul_div_cancel_left _ (by omega)]
    omega
  · intro call hs
    obtain ⟨out, hout, -⟩ := Call.returns hc hs le_rfl
    exact ⟨out, hout, Call.update_wrapped hout⟩

theorem initWith_between (seed : BitVec 256) (hp : Option Huff) : (initWith seed hp).Between := by
  have hinit := initRamcoder_between seed
  cases hp with
  | none => exact hinit
  | some hp =>
    obtain ⟨k, hk⟩ := loadCode_coder 16 ⟨initRamcoder seed, hp, false⟩
    rw [initWith, hk]
    generalize initRamcoder seed = c₀ at hinit
    obtain ⟨htable, hhi, hopened, hfits⟩ := hinit
    exact ⟨htable.same ⟨rfl, rfl, rfl, rfl, rfl⟩, hhi, hopened, hfits⟩

theorem Reachable.between {seed : BitVec 256} {whole : Bool} (h : Reachable seed c whole) :
    c.TableOk ∧ (whole = true → c.Between) := by
  induction h with
  | init hp => exact ⟨(initWith_between seed hp).table, fun _ => initWith_between seed hp⟩
  | @update c whole fuel call out h hs hcall ih =>
    refine ⟨Call.update_table ih.1 hs hcall, fun hwhole => ?_⟩
    simp only [Bool.and_eq_true, Bool.or_eq_true, decide_eq_true_eq, Bool.not_eq_true'] at hwhole
    exact Call.update_between (ih.2 hwhole.1.1) hs hwhole.2 hcall hwhole.1.2

/-- In every coder that calls lead to the table is whole and adapted exactly; while the calls end their
renormalisation, every symbol has its share of an interval that is wide enough. -/
theorem reachable_normalised (seed : BitVec 256) (c : Coder) (whole : Bool) (h : Reachable seed c whole) :
    c.TableOk ∧ 0 < c.cumulativeProb ∧ (∀ s ≤ 256, ramcoderAdapt s c = exactAdapt s c) ∧ (whole = true → c.Normalised) := by
  obtain ⟨htable, hwhole⟩ := h.between
  have hge := htable.total_ge
  exact ⟨htable, by omega, fun s hs => ramcoderAdapt_exact htable hs, fun hw => (hwhole hw).normalised⟩

/-- The coder after some calls. -/
def run : Coder → List Call → Option Coder
  | c, [] => some c
  | c, call :: calls => (call.update 17 c).bind fun out => run out.coder calls

theorem Reachable.run {seed : BitVec 256} {whole : Bool} {c' : Coder} {calls : List Call} (h : Reachable seed c whole)
    (hs : ∀ call ∈ calls, call.symbol ≤ 256) (hrun : run c calls = some c') : ∃ whole', Reachable seed c' whole' := by
  induction calls generalizing c whole with
  | nil =>
    obtain rfl := Option.some.inj hrun
    exact ⟨whole, h⟩
  | cons call calls ih =>
    obtain ⟨out, hout, hrun⟩ := Option.bind_eq_some_iff.mp hrun
    exact ih (.update h (hs call List.mem_cons_self) hout) (fun call hc => hs call (List.mem_cons_of_mem _ hc)) hrun

end Calls

section Examples

def blank : Huff := .over (List.replicate 16 0) 0 (by decide)

def encoding (symbol : Nat) : Call := ⟨symbol, 1, some false, blank⟩

/-- Two symbols decoded from a stream without bits. -/
def pastEnd : List Call := [⟨0, 1, none, blank⟩, ⟨0, 1, none, blank⟩]

/-- Symbols coded without an update of the table. -/
def unadapted : List Call :=
  [78, 0, 0, 0, 0, 0, 0, 0, 0, 0, 0, 0, 0, 0, 0, 0, 0, 0, 0, 37, 50, 8, 21, 2, 39, 56, 25, 0, 3, 34, 32].map
    fun symbol => ⟨symbol, 0, some false, blank⟩

def tooNarrow (c : Coder) : Bool := decide (c.upper - c.lower + 1 < c.cumulativeProb)

theorem reachable_normalised_encoding : ∃ c, (encoding 97).update 17 (initWith 5 none) = some ⟨c, false, false⟩ ∧
    c.TableOk ∧ 0 < c.cumulativeProb ∧ (∀ s ≤ 256, ramcoderAdapt s c = exactAdapt s c) ∧ c.Normalised := by
  obtain ⟨out, hout, hwrapped⟩ := (initWith_between 5 none).normalised.returns (encoding 97) (by decide)
  have hflags : ((encoding 97).update 17 (initWith 5 none)).map (fun out => (out.eof, out.wrapped)) = some (false, false) := by
    decide +kernel
  rw [hout] at hflags
  obtain ⟨heof, hwrap⟩ := Prod.mk.inj (Option.some.inj hflags)
  obtain ⟨c, eof, wrapped⟩ := out
  obtain rfl : eof = false := heof
  obtain rfl : wrapped = false := hwrap
  obtain ⟨htable, hpos, hadapt, hwhole⟩ := reachable_normalised 5 c true (.update (.init none) (by decide) hout)
  exact ⟨c, hout, htable, hpos, hadapt, hwhole rfl⟩

theorem encoding_counter {seed : BitVec 256} {c : Coder} (h : Reachable seed c true) :
    ∃ out, (encoding 0).update 17 c = some out ∧ Reachable seed out.coder true ∧ out.coder.counter = u16 (c.counter + 1) := by
  obtain ⟨out, hout, -⟩ := (h.between.2 rfl).normalised.returns (encoding 0) (by decide)
  have heof : out.eof = false := by
    obtain ⟨st, -, rfl⟩ := Option.map_eq_some_iff.mp hout
    rfl
  refine ⟨out, hout, ?_, ?_⟩
  · have hnext := h.update (by decide) hout
    rw [heof] at hnext
    exact hnext
  · rw [(Call.update_sameTable hout).counter, ramcoderUpdate, if_pos (by decide), ramcoderAdapt]
    dsimp only
    split <;> rfl

theorem exists_counter (seed : BitVec 256) (n : Nat) : ∃ c, Reachable seed c true ∧ c.counter = n % 2^16 := by
  induction n with
  | zero => exact ⟨initWith seed none, .init none, rfl⟩
  | succ n ih =>
    obtain ⟨c, hc, hcounter⟩ := ih
    obtain ⟨out, -, hout, hnext⟩ := encoding_counter hc
    refine ⟨out.coder, hout, ?_⟩
    rw [hnext, hcounter, u16, unsigned]
    omega

theorem tooNarrow_reachable {seed : BitVec 256} (calls : List Call) (hs : ∀ call ∈ calls, call.symbol ≤ 256)
    (h : (run (initWith seed none) calls).map tooNarrow = some true) :
    ∃ c whole, Reachable seed c whole ∧ c.upper - c.lower + 1 < c.cumulativeProb := by
  obtain ⟨c, hc, hnarrow⟩ := Option.map_eq_some_iff.mp h
  obtain ⟨whole, hreach⟩ := Reachable.run (.init none) hs hc
  exact ⟨c, whole, hreach, of_decide_eq_true hnarrow⟩

/-- The interval is too narrow for the table when the stream has ended under the decoder, and when a table of the
largest total is not adapted; and `counter` starts again after 65536 symbols. -/
theorem not_always_normalised :
    (∃ c whole, Reachable 0 c whole ∧ c.upper - c.lower + 1 < c.cumulativeProb) ∧
    (∃ c whole, Reachable (BitVec.ofNat 256 (2^64 - 1)) c whole ∧ c.upper - c.lower + 1 < c.cumulativeProb) ∧
    ∃ c out, Reachable 0 c true ∧ (encoding 0).update 17 c = some out ∧ c.counter = 65535 ∧ out.coder.counter = 0 := by
  refine ⟨tooNarrow_reachable pastEnd (by decide) (by decide +kernel),
    tooNarrow_reachable unadapted (by decide) (by decide +kernel), ?_⟩
  obtain ⟨c, hc, hcounter⟩ := exists_counter 0 65535
  obtain ⟨out, hout, -, hnext⟩ := encoding_counter hc
  refine ⟨c, out, hc, hout, hcounter, ?_⟩
  rw [hnext, hcounter]
  rfl

end Examples

end SuperNet.Utils.Ramcoder
