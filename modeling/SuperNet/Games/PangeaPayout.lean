import SuperNet.Lib.Ledger
import SuperNet.Games.PangeaPots

/-! The pots add up to the bets, every pot that has a contributor left has a winner, and a pot is paid
out to its winners and the two rakes without remainder. -/
namespace SuperNet.Games.Pangea
open SuperNet.Lib.Words SuperNet.Lib.Runs SuperNet.Lib.Ledger

theorem unsigned_sub {total part : Nat} (h : part ≤ total) (ht : total < 2^64) :
    u64 ((total : Int) - part) = total - part := by
  rw [← Nat.cast_sub h]
  exact unsigned_of_lt (by omega)

private theorem unsigned_share (total : Nat) {part whole : Nat} (h : part ≤ whole) :
    u64 ((total : Int) * part) ≤ total * whole := by
  rw [← Nat.cast_mul, u64, unsigned_natCast]
  exact (Nat.mod_le _ _).trans (Nat.mul_le_mul_left total h)

theorem winningsSplit_le {total rakemillis : Nat} (numwinners maxrake : Nat) (ht : total < 2^64)
    (hr : rakemillis ≤ 1000) : winningsSplit total numwinners rakemillis maxrake * numwinners ≤ total := by
  have hsplit : u64 ((total : Int) * (1000 - rakemillis)) / (1000 * numwinners) * numwinners ≤ total := by
    rw [← Nat.div_div_eq_div_mul]
    refine (Nat.div_mul_le_self _ _).trans (Nat.div_le_of_le_mul ?_)
    have hshare := unsigned_share total (Nat.sub_le 1000 rakemillis)
    rw [Nat.cast_sub hr] at hshare
    rwa [mul_comm 1000]
  rw [winningsSplit]
  split
  · rename_i hmax
    rw [winningsLeft, unsigned_sub hsplit ht] at hmax
    refine (Nat.div_mul_le_self _ _).trans ?_
    rw [unsigned_sub (by omega) ht]
    exact Nat.sub_le _ _
  · exact hsplit

theorem winningsRake_le (pangearake rakemillis : Nat) : winningsRake pangearake rakemillis ≤ pangearake := by
  rw [winningsRake]
  split
  · rename_i hmin
    refine Nat.div_le_of_le_mul ?_
    have hshare := unsigned_share pangearake (Nat.sub_le rakemillis PANGEA_MINRAKE_MILLIS)
    rw [Nat.cast_sub hmin.le] at hshare
    rwa [mul_comm rakemillis]
  · exact Nat.zero_le _

/-- The shares and the two rakes make up the pot. -/
theorem pangeaWinnings_exact {total numwinners rakemillis : Nat} (maxrake : Nat) (ht : total < 2^64)
    (hr : rakemillis ≤ 1000) (hw : 0 < numwinners) :
    (pangeaWinnings total numwinners rakemillis maxrake).split * numwinners +
      (pangeaWinnings total numwinners rakemillis maxrake).hostrake +
      (pangeaWinnings total numwinners rakemillis maxrake).pangearake = total := by
  have hsplit := winningsSplit_le numwinners maxrake ht hr
  have hleft : winningsLeft total numwinners (winningsSplit total numwinners rakemillis maxrake) =
      total - winningsSplit total numwinners rakemillis maxrake * numwinners := unsigned_sub hsplit ht
  have hrake := winningsRake_le (total - winningsSplit total numwinners rakemillis maxrake * numwinners) rakemillis
  simp only [pangeaWinnings, if_pos hw, hleft]
  rw [unsigned_sub hrake (by omega)]
  omega

namespace Table

def contributors (t : Table) (pot : Nat → Nat) : Finset Nat := (Finset.range t.N).filter (t.Contributes pot)

def potTotal (t : Table) (pot : Nat → Nat) : Nat := ∑ j ∈ Finset.range t.N, pot j

variable {t : Table} {pot : Nat → Nat}

theorem mem_contributors {j : Nat} : j ∈ t.contributors pot ↔ j < t.N ∧ t.Contributes pot j := by
  rw [contributors, Finset.mem_filter, Finset.mem_range]

/-- The minimum is below every contributor's bet, and one of these bets unless it is 0. -/
theorem sidepotMinbet_spec (t : Table) (pot : Nat → Nat) :
    (∀ j ∈ t.contributors pot, t.sidepotMinbet pot ≠ 0 ∧ t.sidepotMinbet pot ≤ pot j) ∧
      (t.sidepotMinbet pot ≠ 0 → ∃ j ∈ t.contributors pot, pot j = t.sidepotMinbet pot) := by
  simp only [mem_contributors, and_imp, and_assoc]
  refine rounds_pick (r := fun m x => m ≠ 0 ∧ m ≤ x) t.N ?_ ?_ ?_
  · intro j hc
    exact ⟨hc.1, le_rfl⟩
  · intro m j x hc hb hm
    exact ⟨hc.1, by omega⟩
  · intro m j hc hb
    omega

private theorem splitpotBestrank_spec (t : Table) (pot : Nat → Nat) :
    (∀ j ∈ t.contributors pot, t.hand.handranks j ≤ t.splitpotBestrank pot) ∧
      (t.splitpotBestrank pot ≠ 0 → ∃ j ∈ t.contributors pot, t.hand.handranks j = t.splitpotBestrank pot) := by
  simp only [mem_contributors, and_imp, and_assoc]
  refine rounds_pick (r := fun m x => x ≤ m) t.N ?_ ?_ ?_
  · intro j _
    exact le_rfl
  · intro m j x _ hb hm
    exact hm.trans hb.le
  · intro m j _ hb
    exact not_lt.mp hb

theorem splitpotWinners_ne_nil (h : (t.contributors pot).Nonempty) : t.splitpotWinners pot ≠ [] := by
  obtain ⟨hall, hex⟩ := splitpotBestrank_spec t pot
  obtain ⟨j, hj, hbest⟩ : ∃ j ∈ t.contributors pot, t.hand.handranks j = t.splitpotBestrank pot := by
    by_cases hz : t.splitpotBestrank pot = 0
    · obtain ⟨j, hj⟩ := h
      exact ⟨j, hj, by have := hall j hj; omega⟩
    · exact hex hz
  obtain ⟨hlt, hc⟩ := mem_contributors.mp hj
  refine List.ne_nil_of_mem (a := j) ?_
  rw [splitpotWinners, List.mem_filter]
  exact ⟨List.mem_range.mpr hlt, by simpa using ⟨by simpa using hc.2, Nat.pos_of_ne_zero hc.1, hbest⟩⟩

/-! ## Side pots -/

/-- The part of the bets that stays in the pot, and the part that moves to the next one. -/
def capped (minbet : Nat) (pot : Nat → Nat) (j : Nat) : Nat := if minbet < pot j then minbet else pot j

def excess (minbet : Nat) (pot : Nat → Nat) (j : Nat) : Nat := if minbet < pot j then pot j - minbet else 0

theorem capped_add_excess (t : Table) (minbet : Nat) (pot : Nat → Nat) :
    t.potTotal (capped minbet pot) + t.potTotal (excess minbet pot) = t.potTotal pot := by
  rw [potTotal, potTotal, ← Finset.sum_add_distrib]
  refine Finset.sum_congr rfl fun j _ => ?_
  simp only [capped, excess]
  split
  · omega
  · rfl

theorem contributors_capped {minbet : Nat} (h : minbet ≠ 0) :
    t.contributors (capped minbet pot) = t.contributors pot := by
  ext j
  simp only [mem_contributors, Contributes, capped]
  split
  · have : pot j ≠ 0 := by omega
    simp [h, this]
  · rfl

theorem mem_contributors_excess {minbet j : Nat} :
    j ∈ t.contributors (excess minbet pot) ↔ j ∈ t.contributors pot ∧ minbet < pot j := by
  simp only [mem_contributors, Contributes, excess]
  split
  · have h1 : pot j - minbet ≠ 0 := by omega
    have h2 : pot j ≠ 0 := by omega
    simp [*]
  · simp [*]

theorem sidepotNonz_pos {minbet : Nat} :
    0 < t.sidepotNonz pot minbet ↔ (t.contributors (excess minbet pot)).Nonempty := by
  rw [sidepotNonz, List.countP_pos_iff]
  constructor
  · rintro ⟨j, hj, hc⟩
    obtain ⟨hlt, hnf⟩ : minbet < pot j ∧ ¬ t.folded j := by simpa using hc
    refine ⟨j, mem_contributors_excess.mpr ⟨mem_contributors.mpr ⟨List.mem_range.mp hj, ?_, hnf⟩, hlt⟩⟩
    omega
  · rintro ⟨j, hj⟩
    obtain ⟨hc, hlt⟩ := mem_contributors_excess.mp hj
    obtain ⟨hn, -, hnf⟩ := mem_contributors.mp hc
    exact ⟨j, List.mem_range.mpr hn, by simp [hlt, hnf]⟩

/-- The next row has fewer contributors: the one with the smallest bet is gone. -/
theorem excess_card_lt (h : (t.contributors pot).Nonempty) :
    (t.contributors (excess (t.sidepotMinbet pot) pot)).card < (t.contributors pot).card := by
  obtain ⟨hall, hex⟩ := sidepotMinbet_spec t pot
  obtain ⟨i, hi⟩ := h
  obtain ⟨j, hj, hmin⟩ := hex (hall i hi).1
  apply Finset.card_lt_card
  refine Finset.ssubset_iff_subset_ne.mpr ⟨fun k hk => (mem_contributors_excess.mp hk).1, fun heq => ?_⟩
  rw [← heq] at hj
  exact absurd (mem_contributors_excess.mp hj).2 (by omega)

private theorem sidepotsFrom_total (t : Table) (rows : Nat) (pot : Nat → Nat) (h : (t.contributors pot).card ≤ rows)
    (h1 : 1 ≤ rows) : ((t.sidepotsFrom rows pot).map t.potTotal).sum = t.potTotal pot := by
  induction rows generalizing pot with
  | zero => exact absurd h1 (by omega)
  | succ rows ih =>
    rw [sidepotsFrom]
    split
    · rename_i hnonz
      have hnext := sidepotNonz_pos.mp hnonz
      have hlt := excess_card_lt (t := t) (hnext.mono fun j hj => (mem_contributors_excess.mp hj).1)
      have hpos := hnext.card_pos
      rw [List.map_cons, List.sum_cons]
      refine Eq.trans ?_ (capped_add_excess t (t.sidepotMinbet pot) pot)
      rw [← ih (excess (t.sidepotMinbet pot) pot) (by omega) (by omega)]
      rfl
    · simp

/-- If the bets have a contributor who has not folded, so has every pot. -/
theorem sidepotsFrom_contributors (t : Table) (rows : Nat) (pot : Nat → Nat) (h : (t.contributors pot).Nonempty) :
    ∀ p ∈ t.sidepotsFrom rows pot, (t.contributors p).Nonempty := by
  induction rows generalizing pot with
  | zero => simp [sidepotsFrom]
  | succ rows ih =>
    rw [sidepotsFrom]
    split
    · rename_i hnonz
      intro p hp
      rcases List.mem_cons.mp hp with rfl | hp
      · obtain ⟨i, hi⟩ := h
        have hmin := ((sidepotMinbet_spec t pot).1 i hi).1
        exact ⟨i, (contributors_capped hmin).symm ▸ hi⟩
      · exact ih (excess (t.sidepotMinbet pot) pot) (sidepotNonz_pos.mp hnonz) p hp
    · intro p hp
      rw [List.mem_singleton.mp hp]
      exact h

/-- Without such a contributor there is one pot, with all the bets. -/
theorem sidepotsFrom_abandoned (t : Table) {rows : Nat} (pot : Nat → Nat) (h : t.contributors pot = ∅)
    (h1 : 1 ≤ rows) : t.sidepotsFrom rows pot = [pot] := by
  obtain ⟨rows, rfl⟩ := Nat.exists_eq_add_of_le' h1
  rw [sidepotsFrom, if_neg]
  rw [sidepotNonz_pos]
  rintro ⟨j, hj⟩
  have := (mem_contributors_excess.mp hj).1
  simp [h] at this

/-! ## Payout -/

/-- Chips as the code adds them up. -/
abbrev Word := ZMod (2^64)

/-- The sum of the balances over all slots of the table. -/
def bank (t : Table) : Int := total t.seats.addrs.length t.balances

def Funded (t : Table) : Prop := ∀ i < t.seats.addrs.length, 0 ≤ t.balances i

instance (t : Table) : Decidable t.Funded :=
  inferInstanceAs (Decidable (∀ i < t.seats.addrs.length, 0 ≤ t.balances i))

private theorem words_trans {held held' held'' : Int} {a b : Nat} (h : (held' : Word) = held + a)
    (h' : (held'' : Word) = held' + b) : (held'' : Word) = held + (a + b : Nat) := by
  rw [h', h]
  push_cast
  ring

private theorem exact_trans {held held' held'' : Int} {funded funded' funded'' : Prop} {a b : Nat}
    (h : funded → held + a < 2^63 → held' = held + a ∧ funded')
    (h' : funded' → held' + b < 2^63 → held'' = held' + b ∧ funded'') (hf : funded)
    (hb : held + (a + b : Nat) < 2^63) : held'' = held + (a + b : Nat) ∧ funded'' := by
  push_cast at hb ⊢
  obtain ⟨h1, hf1⟩ := h hf (by omega)
  obtain ⟨h2, hf2⟩ := h' hf1 (by omega)
  exact ⟨by omega, hf2⟩

/-- `amount` has been paid into the bank: always as a word, and exactly if it cannot overflow. -/
structure Paid (t t' : Table) (amount : Nat) : Prop where
  seats : t'.seats = t.seats
  betstatus : t'.hand.betstatus = t.hand.betstatus
  betstarted : t'.hand.betstarted = t.hand.betstarted
  words : (t'.bank : Word) = t.bank + amount
  exact : t.Funded → t.bank + amount < 2^63 → t'.bank = t.bank + amount ∧ t'.Funded

theorem Paid.trans {t t' t'' : Table} {a b : Nat} (h : Paid t t' a) (h' : Paid t' t'' b) : Paid t t'' (a + b) := by
  refine ⟨h'.seats.trans h.seats, h'.betstatus.trans h.betstatus, h'.betstarted.trans h.betstarted, ?_, ?_⟩
  · exact words_trans h.words h'.words
  · exact exact_trans h.exact h'.exact

theorem payWinner_balances (split winner : Nat) : (payWinner split t winner).balances =
    Function.update t.balances (t.pangeaSlot winner) (i64 (t.balances (t.pangeaSlot winner) + split)) := rfl

theorem payWinner_paid (split : Nat) {winner : Nat} (h : winner < t.N) : Paid t (payWinner split t winner) split := by
  have hslot := t.seats.pangeaSlot_lt h
  refine ⟨rfl, rfl, rfl, ?_, fun hf hb => ?_⟩
  · rw [bank, bank, payWinner_balances, ← Int.cast_natCast]
    exact total_store 64 hslot split
  · have hfit : 2 * (total t.seats.addrs.length t.balances + split) < 2^64 := by
      rw [bank] at hb
      omega
    exact total_credit hf hslot (Int.natCast_nonneg split) hfit

theorem payWinners_paid (split : Nat) (winners : List Nat) (t : Table) (h : ∀ j ∈ winners, j < t.N) :
    Paid t (winners.foldl (payWinner split) t) (winners.length * split) := by
  induction winners generalizing t with
  | nil => exact ⟨rfl, rfl, rfl, by simp, fun hf _ => ⟨by simp, hf⟩⟩
  | cons winner winners ih =>
    have hfirst := payWinner_paid (t := t) split (h winner List.mem_cons_self)
    have hrest := ih (payWinner split t winner) fun j hj => h j (List.mem_cons_of_mem _ hj)
    have hboth := hfirst.trans hrest
    rwa [List.length_cons, Nat.succ_mul, Nat.add_comm]

/-- The bank and the rakes taken so far. -/
def Payout.held (p : Payout) : Int := p.table.bank + p.rake + p.pangearake

/-- `amount` has been paid out to players and rakes. -/
structure PaidOut (p p' : Payout) (amount : Nat) : Prop where
  seats : p'.table.seats = p.table.seats
  betstatus : p'.table.hand.betstatus = p.table.hand.betstatus
  betstarted : p'.table.hand.betstarted = p.table.hand.betstarted
  words : (p'.held : Word) = p.held + amount
  exact : p.table.Funded → p.held + amount < 2^63 → p'.held = p.held + amount ∧ p'.table.Funded

theorem PaidOut.refl (p : Payout) : PaidOut p p 0 := ⟨rfl, rfl, rfl, by simp, fun hf _ => ⟨by simp, hf⟩⟩

theorem PaidOut.trans {p p' p'' : Payout} {a b : Nat} (h : PaidOut p p' a) (h' : PaidOut p' p'' b) :
    PaidOut p p'' (a + b) := by
  refine ⟨h'.seats.trans h.seats, h'.betstatus.trans h.betstatus, h'.betstarted.trans h.betstarted, ?_, ?_⟩
  · exact words_trans h.words h'.words
  · exact exact_trans h.exact h'.exact

theorem splitpotTotal_eq (t : Table) (pot : Nat → Nat) : t.splitpotTotal pot = t.potTotal pot % 2^64 := by
  refine rounds_induct (motive := fun k s => s = (∑ j ∈ Finset.range k, pot j) % 2^64) t.N rfl ?_
  intro k _ ih
  rw [ih, Finset.sum_range_succ, ← Nat.cast_add, u64, unsigned_natCast]
  omega

private theorem rake_exact {a b : Nat} (h : a + b < 2^64) : u64 ((a : Int) + b) = a + b := by
  rw [← Nat.cast_add]
  exact unsigned_of_lt h

/-- The shares and rakes of a pot with a winner. -/
def splitpotWinnings (t : Table) (rakemillis : Nat) (pot : Nat → Nat) : Winnings :=
  pangeaWinnings (t.splitpotTotal pot) (t.splitpotWinners pot).length rakemillis t.splitpotMaxrake

private theorem splitpotWinnings_exact {rakemillis : Nat} (hr : rakemillis ≤ 1000) (h : (t.contributors pot).Nonempty) :
    (t.splitpotWinners pot).length * (t.splitpotWinnings rakemillis pot).split +
      (t.splitpotWinnings rakemillis pot).hostrake + (t.splitpotWinnings rakemillis pot).pangearake =
        t.potTotal pot % 2^64 := by
  have hwin : 0 < (t.splitpotWinners pot).length := List.length_pos_iff.mpr (splitpotWinners_ne_nil h)
  have hlt : t.splitpotTotal pot < 2^64 := by
    rw [splitpotTotal_eq]
    exact Nat.mod_lt _ (by norm_num)
  rw [← splitpotTotal_eq, Nat.mul_comm]
  exact pangeaWinnings_exact t.splitpotMaxrake hlt hr hwin

theorem pangeaSplitpot_eq (rakemillis : Nat) {p : Payout} (h : (p.table.contributors pot).Nonempty) :
    pangeaSplitpot rakemillis p pot =
      ⟨(p.table.splitpotWinners pot).foldl (payWinner (p.table.splitpotWinnings rakemillis pot).split) p.table,
        u64 (p.rake + (p.table.splitpotWinnings rakemillis pot).hostrake),
        u64 (p.pangearake + (p.table.splitpotWinnings rakemillis pot).pangearake)⟩ := by
  have hwin := List.length_pos_iff.mpr (splitpotWinners_ne_nil h)
  rw [pangeaSplitpot, if_neg hwin.ne']
  rfl

theorem pangeaSplitpot_paidOut {rakemillis : Nat} (hr : rakemillis ≤ 1000) {p : Payout}
    (h : (p.table.contributors pot).Nonempty) :
    PaidOut p (pangeaSplitpot rakemillis p pot) (p.table.potTotal pot) := by
  have hexact := splitpotWinnings_exact hr h
  have hpaid := payWinners_paid (p.table.splitpotWinnings rakemillis pot).split (p.table.splitpotWinners pot) p.table
    fun j hj => List.mem_range.mp (List.mem_filter.mp hj).1
  rw [pangeaSplitpot_eq rakemillis h]
  refine ⟨hpaid.seats, hpaid.betstatus, hpaid.betstarted, ?_, fun hf hb => ?_⟩
  · have hword := congrArg (Nat.cast : Nat → Word) hexact
    rw [ZMod.natCast_mod] at hword
    simp only [Payout.held, Int.cast_add, Int.cast_natCast, unsigned_cast, hpaid.words, ← hword, Nat.cast_add]
    ring
  · have hbank : 0 ≤ p.table.bank := total_nonneg hf
    rw [Payout.held] at hb
    rw [Nat.mod_eq_of_lt (by omega)] at hexact
    obtain ⟨hcredit, hf'⟩ := hpaid.exact hf (by omega)
    refine ⟨?_, hf'⟩
    simp only [Payout.held]
    rw [hcredit, rake_exact (by omega), rake_exact (by omega)]
    omega

private theorem contributors_congr {t' : Table} (hs : t'.seats = t.seats)
    (hb : t'.hand.betstatus = t.hand.betstatus) : t'.contributors pot = t.contributors pot := by
  ext j
  simp only [mem_contributors, Contributes, folded, N, hs, hb]

private theorem potTotal_congr {t' : Table} (hs : t'.seats = t.seats) : t'.potTotal pot = t.potTotal pot := by
  simp only [potTotal, N, hs]

private theorem splitpots_paidOut {rakemillis : Nat} (hr : rakemillis ≤ 1000) (pots : List (Nat → Nat)) (p : Payout)
    (h : ∀ pot ∈ pots, (p.table.contributors pot).Nonempty) :
    PaidOut p (pots.foldl (pangeaSplitpot rakemillis) p) (pots.map p.table.potTotal).sum := by
  induction pots generalizing p with
  | nil => exact .refl p
  | cons pot pots ih =>
    have hfirst := pangeaSplitpot_paidOut hr (h pot List.mem_cons_self)
    have hrest := ih (pangeaSplitpot rakemillis p pot) fun q hq => by
      rw [contributors_congr hfirst.seats hfirst.betstatus]
      exact h q (List.mem_cons_of_mem _ hq)
    have hsame : (pangeaSplitpot rakemillis p pot).table.potTotal = p.table.potTotal := by
      funext q
      exact potTotal_congr hfirst.seats
    rw [hsame] at hrest
    exact hfirst.trans hrest

/-- The bets as the pots see them. -/
def wordBets (t : Table) (j : Nat) : Nat := u64 (t.hand.bets j)

theorem finishRakemillis_le (t : Table) : t.finishRakemillis ≤ 1000 := by
  obtain ⟨hostrake, hraked⟩ := t.raked
  have hsmall : newRakemillis hostrake ≤ 1000 := by
    simp only [newRakemillis, PANGEA_MAX_HOSTRAKE, PANGEA_MINRAKE_MILLIS]
    omega
  rw [finishRakemillis]
  split
  · exact Nat.zero_le _
  · exact hraked.trans_le hsmall

/-- With a contributor left, all the bets are paid out. -/
theorem finishPayout_paidOut (h : (t.contributors t.wordBets).Nonempty) :
    PaidOut ⟨t, 0, 0⟩ t.finishPayout (t.potTotal t.wordBets) := by
  have hcard : (t.contributors t.wordBets).card ≤ t.N := by
    simpa [contributors] using Finset.card_filter_le (Finset.range t.N) (t.Contributes t.wordBets)
  have hsum := sidepotsFrom_total t t.N t.wordBets hcard t.seats.N_pos
  rw [← hsum]
  exact splitpots_paidOut t.finishRakemillis_le t.pangeaSidepots ⟨t, 0, 0⟩
    (sidepotsFrom_contributors t t.N t.wordBets h)

/-- With no contributor left, nothing is paid. -/
theorem finishPayout_abandoned (h : t.contributors t.wordBets = ∅) : t.finishPayout = ⟨t, 0, 0⟩ := by
  have hpots : t.pangeaSidepots = [t.wordBets] := sidepotsFrom_abandoned t t.wordBets h t.seats.N_pos
  have hnone : (t.splitpotWinners t.wordBets).length = 0 := by
    rw [List.length_eq_zero_iff, splitpotWinners, List.filter_eq_nil_iff]
    intro j hj hwin
    obtain ⟨hnf, hpos, -⟩ : ¬ t.folded j ∧ 0 < t.wordBets j ∧ _ := by simpa using hwin
    have : j ∈ t.contributors t.wordBets := mem_contributors.mpr ⟨List.mem_range.mp hj, hpos.ne', hnf⟩
    simp [h] at this
  rw [finishPayout, hpots, List.foldl_cons, List.foldl_nil, pangeaSplitpot, if_pos hnone]

end Table

end SuperNet.Games.Pangea
