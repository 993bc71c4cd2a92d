import SuperNet.Lib.BitCodec
import SuperNet.Utils.Huffstream

/-! Whole bit strings going into and out of a `HUFF`. -/
namespace SuperNet.Utils.Huffstream
open Lib.Words Lib.BitCodec

/-- One `hputbit`; `tested` tells whether the caller looks at its result. -/
structure Call where
  bit : Bool
  tested : Bool
  deriving DecidableEq, Repr

/-- A walk that only writes: the calls in order, stopped by the first tested failure. -/
def hputcalls (hp : Huff) : List Call → Option Huff
  | [] => some hp
  | c :: cs => if (hputbit hp c.bit).2 < 0 ∧ c.tested then none else hputcalls (hputbit hp c.bit).1 cs

/-- No bit fits any more. -/
def Huff.Full (hp : Huff) : Prop := hp.allocsize ≤ (hp.bitoffset + 1) / 8

/-- Untested calls, if any, are followed by a tested one. -/
def EndsTested (cs : List Call) : Prop := ∀ c, cs.getLast? = some c → c.tested = true

theorem EndsTested.nil : EndsTested [] := by
  intro c hc
  exact absurd hc (by simp)

theorem EndsTested.append {cs ds : List Call} (hc : EndsTested cs) (hd : EndsTested ds) : EndsTested (cs ++ ds) := by
  intro c h
  rw [List.getLast?_append] at h
  cases hl : ds.getLast? with
  | none =>
    rw [hl] at h
    exact hc c h
  | some d =>
    rw [hl] at h
    exact hd c (hl.trans h)

/-- What comes last decides. -/
theorem EndsTested.of_ne_nil {ds : List Call} (cs : List Call) (hd : EndsTested ds) (hne : ds ≠ []) :
    EndsTested (cs ++ ds) := by
  intro c h
  rw [List.getLast?_append_of_ne_nil _ hne] at h
  exact hd c h

private theorem u32_succ {hp : Huff} (hs : hp.Synced) : u32 ((hp.bitoffset : Int) + 1) = hp.bitoffset + 1 := by
  have hin := hs.inside
  have had := hp.addressable
  exact_mod_cast unsigned_of_lt (w := 32) (n := hp.bitoffset + 1) (by omega)

private theorem hputbit_full {hp : Huff} (hs : hp.Synced) (hf : hp.Full) (bit : Bool) :
    (hputbit hp bit).2 = -1 ∧ (hputbit hp bit).1.Synced ∧ (hputbit hp bit).1.Full ∧
    (hputbit hp bit).1.bitoffset = hp.bitoffset ∧ (hputbit hp bit).1.allocsize = hp.allocsize ∧
    ∀ i < hp.bitoffset, (hputbit hp bit).1.bitAt i = hp.bitAt i := by
  have hu := u32_succ hs
  have hin := hs.inside
  have had := hp.addressable
  have hback : u32 ((hp.bitoffset : Int) + 1 - 1) = hp.bitoffset := by
    rw [add_sub_cancel_right]
    exact unsigned_of_lt (by omega)
  have hnp : ¬ hp.bitoffset / 8 > hp.allocsize := by omega
  have hput : hputbit hp bit = ({ hp with
      buf := storeBit hp.buf hp.ptr hp.maski bit
      bitoffset := hp.bitoffset
      endpos := max hp.bitoffset (max (hp.bitoffset + 1) hp.endpos)
      ptr := hp.bitoffset / 8
      maski := hp.bitoffset % 8
      buf_length := by simp [storeBit, hp.buf_length] }, -1) := by
    rw [Huff.Full] at hf
    simp only [hputbit, hu, ge_iff_le, if_pos hf, hupdateInternals, Nat.cast_add, Nat.cast_one, hback, hnp,
      decide_false, Bool.false_eq_true, if_false]
  rw [hput]
  refine ⟨rfl, ⟨rfl, rfl, hin⟩, hf, rfl, rfl, ?_⟩
  intro i hi
  change ((storeBit hp.buf hp.ptr hp.maski bit).getD (i/8) 0).toNat.testBit (i%8) = _
  rw [hs.ptr, hs.maski]
  by_cases hb : hp.bitoffset / 8 < hp.buf.length
  · rw [storeBit_bitAt hp.buf hp.bitoffset i bit hb, if_neg (by omega)]
    rfl
  · rw [storeBit, List.set_eq_of_length_le (by omega)]
    rfl

theorem hputbit_room {hp : Huff} (hs : hp.Synced) (hf : ¬ hp.Full) (bit : Bool) : (hputbit hp bit).2 = 0 := by
  have hu := u32_succ hs
  rw [Huff.Full] at hf
  simp only [hputbit, hu, ge_iff_le, if_neg hf]

private theorem hputcalls_full {cs : List Call} {hp : Huff} (hs : hp.Synced) (hf : hp.Full)
    (he : EndsTested cs) (hne : cs ≠ []) : hputcalls hp cs = none := by
  induction cs generalizing hp with
  | nil => exact absurd rfl hne
  | cons c cs ih =>
    obtain ⟨hret, hs', hf', -⟩ := hputbit_full hs hf c.bit
    rw [hputcalls, hret]
    by_cases ht : c.tested = true
    · rw [if_pos ⟨by decide, ht⟩]
    · rw [if_neg fun h => ht h.2]
      have hcs : cs ≠ [] := by
        rintro rfl
        exact ht (he c rfl)
      refine ih hs' hf' ?_ hcs
      intro d hd
      exact he d (by rw [List.getLast?_cons, hd]; rfl)

/-- A walk that succeeds has stored every bit of its calls, and nothing else changed. -/
theorem hputcalls_spec {cs : List Call} {hp hp' : Huff} (hs : hp.Synced) (he : EndsTested cs)
    (h : hputcalls hp cs = some hp') :
    hp'.Synced ∧ hp'.bitoffset = hp.bitoffset + cs.length ∧ hp'.allocsize = hp.allocsize ∧
    ∀ i, hp'.bitAt i = if hp.bitoffset ≤ i ∧ i < hp.bitoffset + cs.length
      then (cs.getD (i - hp.bitoffset) ⟨false, false⟩).bit else hp.bitAt i := by
  induction cs generalizing hp with
  | nil =>
    obtain rfl := Option.some.inj h
    refine ⟨hs, rfl, rfl, ?_⟩
    intro i
    rw [if_neg (by simp)]
  | cons c cs ih =>
    have he' : EndsTested cs := by
      intro d hd
      exact he d (by rw [List.getLast?_cons, hd]; rfl)
    have hroom : ¬ hp.Full := by
      intro hf
      rw [hputcalls_full hs hf he (List.cons_ne_nil c cs)] at h
      exact absurd h (by simp)
    have hok := hputbit_room hs hroom c.bit
    obtain ⟨hs₁, hoff, -, halloc, hbit⟩ := hputbit_spec hs hok
    rw [hputcalls, hok, if_neg (by simp)] at h
    obtain ⟨hs', hoff', halloc', hbit'⟩ := ih hs₁ he' h
    refine ⟨hs', ?_, halloc'.trans halloc, ?_⟩
    · rw [hoff', hoff, List.length_cons]
      omega
    · intro i
      rw [hbit', hoff, hbit, List.length_cons]
      by_cases hi : i = hp.bitoffset
      · subst hi
        rw [if_neg (by omega), if_pos rfl, if_pos (by omega), Nat.sub_self, List.getD_cons_zero]
      · by_cases hin : hp.bitoffset + 1 ≤ i ∧ i < hp.bitoffset + 1 + cs.length
        · obtain ⟨k, rfl⟩ : ∃ k, i = hp.bitoffset + (k + 1) := ⟨i - hp.bitoffset - 1, by omega⟩
          rw [if_pos hin, if_pos (by omega)]
          congr 1
          rw [Nat.add_sub_cancel_left, List.getD_cons_succ]
          congr 1
          omega
        · rw [if_neg hin, if_neg hi, if_neg (by omega)]

/-- However a walk ends, it leaves the bits before its start alone. -/
theorem hputcalls_below {cs : List Call} {hp hp' : Huff} (hs : hp.Synced) (h : hputcalls hp cs = some hp') :
    hp'.Synced ∧ hp.bitoffset ≤ hp'.bitoffset ∧ hp'.allocsize = hp.allocsize ∧
    ∀ i < hp.bitoffset, hp'.bitAt i = hp.bitAt i := by
  induction cs generalizing hp with
  | nil =>
    obtain rfl := Option.some.inj h
    exact ⟨hs, le_rfl, rfl, fun _ _ => rfl⟩
  | cons c cs ih =>
    rw [hputcalls] at h
    split at h
    · exact absurd h (by simp)
    · by_cases hf : hp.Full
      · obtain ⟨-, hs₁, -, hoff, halloc, hbit⟩ := hputbit_full hs hf c.bit
        obtain ⟨hs', hle, halloc', hbit'⟩ := ih hs₁ h
        refine ⟨hs', by omega, halloc'.trans halloc, ?_⟩
        intro i hi
        rw [hbit' i (by omega), hbit i hi]
      · obtain ⟨hs₁, hoff, -, halloc, hbit⟩ := hputbit_spec hs (hputbit_room hs hf c.bit)
        obtain ⟨hs', hle, halloc', hbit'⟩ := ih hs₁ h
        refine ⟨hs', by omega, halloc'.trans halloc, ?_⟩
        intro i hi
        rw [hbit' i (by omega), hbit, if_neg (by omega)]

theorem hputcalls_append (hp : Huff) (cs ds : List Call) :
    hputcalls hp (cs ++ ds) = (hputcalls hp cs).bind fun hp' => hputcalls hp' ds := by
  induction cs generalizing hp with
  | nil => rfl
  | cons c cs ih =>
    rw [List.cons_append, hputcalls, hputcalls]
    split
    · rfl
    · exact ih _

/-- Two streams at the same cursor that agree from bit `n` on. -/
structure Huff.Alike (n : Nat) (hp hq : Huff) : Prop where
  ptr : hp.ptr = hq.ptr
  maski : hp.maski = hq.maski
  bitoffset : hp.bitoffset = hq.bitoffset
  endpos : hp.endpos = hq.endpos
  allocsize : hp.allocsize = hq.allocsize
  bits : ∀ i, n ≤ i → hp.bitAt i = hq.bitAt i

theorem Huff.Alike.refl (n : Nat) (hp : Huff) : Huff.Alike n hp hp :=
  ⟨rfl, rfl, rfl, rfl, rfl, fun _ _ => rfl⟩

private theorem stored_bitAt {hp : Huff} (hs : hp.Synced) (bit : Bool) (i : Nat) :
    ((storeBit hp.buf hp.ptr hp.maski bit).getD (i/8) 0).toNat.testBit (i%8) =
      if i = hp.bitoffset ∧ hp.bitoffset / 8 < hp.allocsize then bit else hp.bitAt i := by
  rw [hs.ptr, hs.maski, ← hp.buf_length]
  by_cases hin : hp.bitoffset / 8 < hp.buf.length
  · rw [storeBit_bitAt hp.buf hp.bitoffset i bit hin]
    simp only [hin, and_true]
    rfl
  · rw [storeBit, List.set_eq_of_length_le (not_lt.mp hin), if_neg fun h => hin h.2]
    rfl

/-- The same bit, or different ones below bit `n`, keep two streams alike. -/
theorem Huff.Alike.hputbit {n : Nat} {hp hq : Huff} (h : Huff.Alike n hp hq) (hs : hp.Synced) {b b' : Bool}
    (hb : b = b' ∨ hp.bitoffset < n) :
    Huff.Alike n (hputbit hp b).1 (hputbit hq b').1 ∧ (Huffstream.hputbit hp b).2 = (Huffstream.hputbit hq b').2 := by
  have hsq : hq.Synced := ⟨h.ptr ▸ h.bitoffset ▸ hs.ptr, h.maski ▸ h.bitoffset ▸ hs.maski,
    h.bitoffset ▸ h.allocsize ▸ hs.inside⟩
  have hbits (i : Nat) (hi : n ≤ i) : ((storeBit hp.buf hp.ptr hp.maski b).getD (i/8) 0).toNat.testBit (i%8) =
      ((storeBit hq.buf hq.ptr hq.maski b').getD (i/8) 0).toNat.testBit (i%8) := by
    rw [stored_bitAt hs, stored_bitAt hsq, h.bits i hi, h.bitoffset, h.allocsize]
    rcases hb with rfl | hlt
    · rfl
    · rw [h.bitoffset] at hlt
      rw [if_neg (by omega), if_neg (by omega)]
  simp only [h.ptr, h.maski] at hbits
  simp only [Huffstream.hputbit, h.ptr, h.maski, h.bitoffset, h.endpos, h.allocsize]
  split
  · refine ⟨⟨?_, ?_, ?_, ?_, rfl, hbits⟩, rfl⟩
    all_goals simp only [hupdateInternals]
  · exact ⟨⟨rfl, rfl, rfl, rfl, rfl, hbits⟩, rfl⟩

private theorem hputbit_synced {hp : Huff} (hs : hp.Synced) (bit : Bool) :
    (hputbit hp bit).1.Synced ∧ (hputbit hp bit).1.bitoffset ≤ hp.bitoffset + 1 := by
  by_cases hf : hp.Full
  · obtain ⟨-, hs', -, hoff, -⟩ := hputbit_full hs hf bit
    exact ⟨hs', by omega⟩
  · obtain ⟨hs', hoff, -⟩ := hputbit_spec hs (hputbit_room hs hf bit)
    exact ⟨hs', hoff.le⟩

/-- Walks that differ only in bits below bit `n` end alike. -/
theorem Huff.Alike.hputcalls {n : Nat} {cs ds : List Call} {hp hq : Huff} (h : Huff.Alike n hp hq) (hs : hp.Synced)
    (hc : List.Forall₂ (fun c d => c.tested = d.tested) cs ds) (hb : cs = ds ∨ hp.bitoffset + cs.length ≤ n) :
    Option.Rel (fun a b => a.Synced ∧ Huff.Alike n a b) (hputcalls hp cs) (hputcalls hq ds) := by
  induction hc generalizing hp hq with
  | nil => exact .some ⟨hs, h⟩
  | @cons c d cs ds ht _ ih =>
    have hbit : c.bit = d.bit ∨ hp.bitoffset < n := by
      rcases hb with hb | hb
      · exact .inl (by rw [(List.cons.inj hb).1])
      · rw [List.length_cons] at hb
        exact .inr (by omega)
    obtain ⟨hnext, hret⟩ := h.hputbit hs hbit
    obtain ⟨hs', hoff⟩ := hputbit_synced hs c.bit
    rw [Huffstream.hputcalls, Huffstream.hputcalls, hret, ht]
    split
    · exact .none
    · refine ih hnext hs' ?_
      rcases hb with hb | hb
      · exact .inl (List.cons.inj hb).2
      · rw [List.length_cons] at hb
        exact .inr (by omega)

theorem Huff.Alike.hrewind {n : Nat} {hp hq : Huff} (h : Huff.Alike n hp hq) :
    Huff.Alike n (hrewind hp) (Huffstream.hrewind hq) := by
  obtain ⟨hs, hoff, hend, -⟩ := hrewind_synced hp
  obtain ⟨hs', hoff', hend', -⟩ := hrewind_synced hq
  refine ⟨?_, ?_, hoff.trans hoff'.symm, ?_, h.allocsize, ?_⟩
  · rw [hs.ptr, hs'.ptr, hoff, hoff']
  · rw [hs.maski, hs'.maski, hoff, hoff']
  · rw [hend, hend', h.endpos]
  · intro i hi
    rw [hrewind_bitAt, hrewind_bitAt, h.bits i hi]

theorem Huff.buf_eq {hp hq : Huff} (hsize : hp.allocsize = hq.allocsize) (h : ∀ i, hp.bitAt i = hq.bitAt i) :
    hp.buf = hq.buf := by
  apply List.ext_getElem
  · rw [hp.buf_length, hq.buf_length, hsize]
  · intro k hk hk'
    apply UInt8.toNat_inj.mp
    apply Nat.eq_of_testBit_eq
    intro j
    by_cases hj : j < 8
    · have hkj := h (8*k + j)
      have hdiv : (8*k + j) / 8 = k := by omega
      have hmod : (8*k + j) % 8 = j := by omega
      rw [Huff.bitAt, Huff.bitAt, hdiv, hmod] at hkj
      simpa [hk, hk'] using hkj
    · rw [Nat.testBit_lt_two_pow, Nat.testBit_lt_two_pow]
      · exact lt_of_lt_of_le hq.buf[k].toNat_lt (Nat.pow_le_pow_right (by decide) (not_lt.mp hj))
      · exact lt_of_lt_of_le hp.buf[k].toNat_lt (Nat.pow_le_pow_right (by decide) (not_lt.mp hj))

/-- Exactly the bits `bs` lie between the cursor and `endpos`. -/
structure Huff.Ahead (hp : Huff) (bs : List Bool) : Prop where
  ptr : hp.ptr = hp.bitoffset / 8
  maski : hp.maski = hp.bitoffset % 8
  small : hp.endpos < 2^32
  length : hp.bitoffset + bs.length = hp.endpos
  bits : ∀ i (h : i < bs.length), hp.bitAt (hp.bitoffset + i) = bs.get ⟨i, h⟩

/-- `hgetbit` as a step of a parser. -/
def getbit : StateT Huff Option (Option Bool) := fun hp => some ((hgetbit hp).2, (hgetbit hp).1)

theorem getbit_parses (b : Bool) : Parses Huff.Ahead getbit [b] (some b) := by
  intro hp rest h
  have hlen := h.length
  rw [List.singleton_append, List.length_cons] at hlen
  have hsmall := h.small
  obtain ⟨hval, hoff, hptr, hmask, hend, hbuf⟩ :=
    hgetbit_spec h.ptr h.maski (by omega) (by omega)
  refine ⟨(hgetbit hp).1, ?_, ⟨?_, ?_, ?_, ?_, ?_⟩⟩
  · have hb := h.bits 0 (by simp)
    rw [add_zero] at hb
    rw [getbit, hval, hb]
    rfl
  · rw [hptr, hoff]
  · rw [hmask, hoff]
  · rw [hend]
    exact hsmall
  · rw [hoff, hend]
    omega
  · intro i hi
    have hb := h.bits (i + 1) (by simpa using hi)
    rw [hoff, Huff.bitAt, hbuf, ← Huff.bitAt, add_assoc, add_comm 1 i, hb]
    rfl

theorem getbit_keeps : Keeps Huff.endpos getbit := by
  rintro hp b hp' h
  obtain ⟨-, rfl⟩ := Prod.mk.inj (Option.some.inj h)
  rw [hgetbit]
  split <;> rfl

/-- A parser with the number of bits that its cursor has moved. -/
def measured {α : Type} (p : StateT Huff Option α) : StateT Huff Option (α × Nat) :=
  fun hp => (p hp).map fun r => ((r.1, r.2.bitoffset - hp.bitoffset), r.2)

/-- What is parsed is what the cursor moves over. -/
theorem parses_measured {α : Type} {p : StateT Huff Option α} {bs : List Bool} {a : α} (hp : Parses Huff.Ahead p bs a)
    (hk : Keeps Huff.endpos p) : Parses Huff.Ahead (measured p) bs (a, bs.length) := by
  intro s rest h
  obtain ⟨s', hs', h'⟩ := hp s rest h
  have hend := hk s a s' hs'
  have hbefore := h.length
  have hafter := h'.length
  rw [List.length_append] at hbefore
  have hmoved : s'.bitoffset - s.bitoffset = bs.length := by omega
  refine ⟨s', ?_, h'⟩
  rw [Huffstream.measured, hs', Option.map_some, hmoved]

/-- Calls of `hputbit` whose results are not looked at. -/
def hputs (hp : Huff) (bs : List Bool) : Huff := bs.foldl (fun hp b => (hputbit hp b).1) hp

theorem hputs_spec {hp : Huff} (hs : hp.Synced) (bs : List Bool) (hroom : hp.bitoffset + bs.length < 8 * hp.allocsize) :
    (hputs hp bs).Synced ∧ (hputs hp bs).bitoffset = hp.bitoffset + bs.length ∧
    (hputs hp bs).allocsize = hp.allocsize ∧
    (hputs hp bs).endpos = (if bs = [] then hp.endpos else max (hp.bitoffset + bs.length) hp.endpos) ∧
    ∀ i, (hputs hp bs).bitAt i = if hp.bitoffset ≤ i ∧ i < hp.bitoffset + bs.length
      then bs.getD (i - hp.bitoffset) false else hp.bitAt i := by
  induction bs generalizing hp with
  | nil =>
    refine ⟨hs, rfl, rfl, rfl, fun i => ?_⟩
    rw [if_neg (by simp)]
    rfl
  | cons b bs ih =>
    rw [List.length_cons] at hroom
    have hfull : ¬ hp.Full := by
      rw [Huff.Full]
      omega
    obtain ⟨hs₁, hoff, hend, halloc, hbit⟩ := hputbit_spec hs (hputbit_room hs hfull b)
    obtain ⟨hs', hoff', halloc', hend', hbit'⟩ := ih hs₁ (by rw [hoff, halloc]; omega)
    change (hputs (hputbit hp b).1 bs).Synced ∧ (hputs (hputbit hp b).1 bs).bitoffset = _ ∧
      (hputs (hputbit hp b).1 bs).allocsize = _ ∧ (hputs (hputbit hp b).1 bs).endpos = _ ∧
      ∀ i, (hputs (hputbit hp b).1 bs).bitAt i = _
    refine ⟨hs', ?_, halloc'.trans halloc, ?_, fun i => ?_⟩
    · rw [hoff', hoff, List.length_cons]
      omega
    · rw [hend', hoff, hend, List.length_cons, if_neg (List.cons_ne_nil b bs)]
      split
      case isTrue hnil => rw [hnil, List.length_nil, Nat.zero_add]
      case isFalse => omega
    · rw [hbit', hoff, hbit, List.length_cons]
      by_cases hi : i = hp.bitoffset
      · subst hi
        rw [if_neg (by omega), if_pos rfl, if_pos (by omega), Nat.sub_self, List.getD_cons_zero]
      · by_cases hin : hp.bitoffset + 1 ≤ i ∧ i < hp.bitoffset + 1 + bs.length
        · obtain ⟨k, rfl⟩ : ∃ k, i = hp.bitoffset + (k + 1) := ⟨i - hp.bitoffset - 1, by omega⟩
          rw [if_pos hin, if_pos (by omega), Nat.add_sub_cancel_left, List.getD_cons_succ]
          congr 1
          omega
        · rw [if_neg hin, if_neg hi, if_neg (by omega)]

theorem hputs_append (hp : Huff) (bs cs : List Bool) : hputs hp (bs ++ cs) = hputs (hputs hp bs) cs :=
  List.foldl_append

/-- Back at the place where the bits were written, they are ahead. -/
theorem hputs_ahead {hp : Huff} (hs : hp.Synced) (hend : hp.endpos < 2^32) (bs : List Bool)
    (hroom : hp.bitoffset + bs.length < 8 * hp.allocsize) :
    ∃ rest, (hseek (hputs hp bs) hp.bitoffset .set).1.Ahead (bs ++ rest) := by
  obtain ⟨-, -, halloc, hend', hbit⟩ := hputs_spec hs bs hroom
  have hinside := hs.inside
  have haddr := hp.addressable
  generalize hputs hp bs = hq at halloc hend' hbit
  have hu : u32 (hp.bitoffset : Int) = hp.bitoffset := unsigned_of_lt (w := 32) (by omega)
  have hpast : ¬ hp.bitoffset / 8 > hq.allocsize := by omega
  have hseek' : (hseek hq hp.bitoffset .set).1 = { hq with
      bitoffset := hp.bitoffset
      endpos := max hp.bitoffset hq.endpos
      ptr := hp.bitoffset / 8
      maski := hp.bitoffset % 8 } := by
    simp only [hseek, hupdateInternals, hu, hpast, decide_false, Bool.false_eq_true, if_false]
  have hlen : hp.bitoffset + bs.length ≤ max hp.bitoffset hq.endpos := by
    rw [hend']
    split
    case isTrue hnil =>
      rw [hnil, List.length_nil]
      exact le_max_left _ _
    case isFalse => exact (le_max_left _ _).trans (le_max_right _ _)
  have hsmall : max hp.bitoffset hq.endpos < 2^32 := by
    rw [hend']
    split <;> omega
  let after := hp.bitoffset + bs.length
  refine ⟨(List.range (max hp.bitoffset hq.endpos - after)).map fun i => hq.bitAt (after + i), ?_⟩
  rw [hseek']
  refine ⟨rfl, rfl, hsmall, ?_, ?_⟩
  · change hp.bitoffset + _ = max hp.bitoffset hq.endpos
    rw [List.length_append, List.length_map, List.length_range]
    omega
  · intro i hi
    change hq.bitAt (hp.bitoffset + i) = _
    by_cases hb : i < bs.length
    · rw [hbit, if_pos (by omega), Nat.add_sub_cancel_left, List.getD_eq_getElem _ _ hb, List.get_eq_getElem,
        List.getElem_append_left hb]
    · rw [List.get_eq_getElem, List.getElem_append_right (not_lt.mp hb), List.getElem_map, List.getElem_range]
      congr 1
      omega

/-! What is read. -/

end SuperNet.Utils.Huffstream
