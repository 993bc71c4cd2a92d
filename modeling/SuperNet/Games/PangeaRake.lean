import SuperNet.Games.PangeaPayout

/-! pangea_winnings in exact numbers: a pot is split without remainder and raked up to the cap, and its products fit
their words, as long as the share of the winners does. -/
namespace SuperNet.Games.Pangea
open SuperNet.Lib.Words

/-- A computation that notes the exact values of the products it takes. -/
structure Noted (α : Type) where
  value : α
  products : List Int

instance : Monad Noted where
  pure a := ⟨a, []⟩
  bind m f := ⟨(f m.value).value, m.products ++ (f m.value).products⟩

theorem Noted.value_bind {α β : Type} (m : Noted α) (f : α → Noted β) : (m >>= f).value = (f m.value).value := rfl

theorem Noted.products_bind {α β : Type} (m : Noted α) (f : α → Noted β) :
    (m >>= f).products = m.products ++ (f m.value).products := rfl

/-- A product in a 64-bit word. -/
def mul64 (a b : Int) : Noted Nat := ⟨u64 (a * b), [a * b]⟩

/-- The share of a winner and what the shares leave. -/
def splitNoted (total numwinners rakemillis maxrake : Nat) : Noted (Nat × Nat) :=
  if 0 < numwinners then do
    let share ← mul64 total (1000 - rakemillis)
    let whole ← mul64 1000 numwinners
    let split := share / whole
    let paid ← mul64 split numwinners
    let pangearake := u64 (total - paid)
    if maxrake < pangearake then do
      let split := u64 (total - maxrake) / numwinners
      let paid ← mul64 split numwinners
      pure (split, u64 (total - paid))
    else pure (split, pangearake)
  else pure (0, total)

def winningsNoted (total numwinners rakemillis maxrake : Nat) : Noted Winnings := do
  let (split, pangearake) ← splitNoted total numwinners rakemillis maxrake
  if PANGEA_MINRAKE_MILLIS < rakemillis then do
    let part ← mul64 pangearake (rakemillis - PANGEA_MINRAKE_MILLIS)
    let rake := part / rakemillis
    pure ⟨split, u64 (pangearake - rake), rake⟩
  else pure ⟨split, pangearake, 0⟩

/-- The rakes that `pangea_finish` asks for: none before the flop, else that of the table. -/
def AcceptedRake (rakemillis : Nat) : Prop := rakemillis = 0 ∨ ∃ hostrake, rakemillis = newRakemillis hostrake

/-- A pot of `total` chips, handed over as a word, is split among the winners and the two rakes without a remainder,
the rakes stay within the cap and the rest of a division, and no product leaves its word. -/
structure SplitsExactly (total numwinners rakemillis maxrake : Nat) : Prop where
  shares : let w := (winningsNoted (u64 total) numwinners rakemillis maxrake).value
    w.split * numwinners + w.hostrake + w.pangearake = total
  capped : let w := (winningsNoted (u64 total) numwinners rakemillis maxrake).value
    w.hostrake + w.pangearake ≤ maxrake + numwinners - 1
  products : ∀ p ∈ (winningsNoted (u64 total) numwinners rakemillis maxrake).products, 0 ≤ p ∧ p < 2^64

variable {total numwinners rakemillis maxrake : Nat}

private theorem u64_sub_u64 (total : Nat) (paid : Int) : u64 ((total : Int) - u64 paid) = u64 ((total : Int) - paid) := by
  have hpaid : ((u64 paid : Nat) : Int) = paid % 2^64 := Int.toNat_of_nonneg (Int.emod_nonneg paid (by norm_num))
  rw [hpaid]
  refine congrArg Int.toNat ?_
  omega

private theorem left_eq (total numwinners split : Nat) :
    u64 ((total : Int) - (split * numwinners : Nat)) = winningsLeft total numwinners split := rfl

private theorem whole_eq (hw : numwinners ≤ 9) : u64 ((1000 : Int) * numwinners) = 1000 * numwinners := by
  have hcast : ((1000 : Int) * numwinners) = ((1000 * numwinners : Nat) : Int) := by norm_cast
  rw [hcast]
  exact unsigned_of_lt (by omega)

private theorem splitNoted_value (hw : 0 < numwinners) (hw9 : numwinners ≤ 9) :
    (splitNoted total numwinners rakemillis maxrake).value =
      (winningsSplit total numwinners rakemillis maxrake,
        winningsLeft total numwinners (winningsSplit total numwinners rakemillis maxrake)) := by
  rw [splitNoted, if_pos hw, winningsSplit]
  simp only [bind, mul64, whole_eq hw9, u64_sub_u64, ← Nat.cast_mul, left_eq]
  split
  case isTrue => rfl
  case isFalse => rfl

/-- The noted computation is the one of the pots. -/
theorem winningsNoted_value (hw : 0 < numwinners) (hw9 : numwinners ≤ 9) :
    (winningsNoted total numwinners rakemillis maxrake).value = pangeaWinnings total numwinners rakemillis maxrake := by
  rw [pangeaWinnings, if_pos hw, if_pos hw, winningsNoted, Noted.value_bind, splitNoted_value hw hw9, winningsRake]
  dsimp only
  split
  case isTrue => rfl
  case isFalse =>
    have hword : winningsLeft total numwinners (winningsSplit total numwinners rakemillis maxrake) < 2^64 :=
      unsigned_lt 64 _
    rw [Nat.cast_zero, Int.sub_zero, show u64 _ = _ from unsigned_of_lt hword]
    rfl

theorem AcceptedRake.le (h : AcceptedRake rakemillis) : rakemillis ≤ 10 := by
  rcases h with rfl | ⟨hostrake, rfl⟩
  · exact Nat.zero_le _
  · rw [newRakemillis, PANGEA_MAX_HOSTRAKE, PANGEA_MINRAKE_MILLIS]
    omega

/-- The rakes of a pot together: what is due on it, at most the cap, and the rest of the division among the winners. -/
def potDue (total rakemillis maxrake : Nat) : Nat :=
  min (total - u64 ((total : Int) * (1000 - rakemillis)) / 1000) maxrake

private theorem share_le (total : Nat) (ht : rakemillis ≤ 1000) : u64 ((total : Int) * (1000 - rakemillis)) / 1000 ≤ total := by
  have hcast : ((total : Int) * (1000 - rakemillis)) = ((total * (1000 - rakemillis) : Nat) : Int) := by
    push_cast [Nat.cast_sub ht]
    ring
  rw [hcast, u64, unsigned_natCast]
  refine Nat.div_le_of_le_mul ((Nat.mod_le _ _).trans ?_)
  rw [Nat.mul_comm]
  exact Nat.mul_le_mul_right total (Nat.sub_le _ _)

private theorem left_of_div (numwinners : Nat) {whole due : Nat} (hdue : due ≤ whole) :
    whole - (whole - due) / numwinners * numwinners = due + (whole - due) % numwinners := by
  have hdiv := Nat.div_add_mod (whole - due) numwinners
  rw [Nat.mul_comm] at hdiv
  omega

private theorem left_of_rest {numwinners whole due more : Nat} (hdue : due ≤ more) (hmore : more < due + (whole - due) % numwinners)
    (hwhole : due ≤ whole) : more + (whole - more) % numwinners = due + (whole - due) % numwinners := by
  have hle := Nat.mod_le (whole - due) numwinners
  have hrest : whole - more = (whole - due) - (more - due) := by omega
  have hmod : (whole - due - (more - due)) % numwinners = (whole - due) % numwinners - (more - due) := by
    have hdiv := Nat.div_add_mod (whole - due) numwinners
    have hsplit : whole - due - (more - due) =
        numwinners * ((whole - due) / numwinners) + ((whole - due) % numwinners - (more - due)) := by omega
    have hlt : (whole - due) % numwinners - (more - due) < numwinners ∨ numwinners = 0 := by
      rcases Nat.eq_zero_or_pos numwinners with h0 | hpos
      · exact .inr h0
      · have := Nat.mod_lt (whole - due) hpos
        exact .inl (by omega)
    rcases hlt with hlt | h0
    · rw [hsplit, Nat.mul_add_mod, Nat.mod_eq_of_lt hlt]
    · rw [h0, Nat.mod_zero, Nat.mod_zero]
  rw [hrest, hmod]
  omega

theorem pangeaWinnings_rakes (maxrake : Nat) (ht : total < 2^64) (hr : rakemillis ≤ 1000) (hw : 0 < numwinners) :
    (pangeaWinnings total numwinners rakemillis maxrake).hostrake +
      (pangeaWinnings total numwinners rakemillis maxrake).pangearake =
      potDue total rakemillis maxrake + (total - potDue total rakemillis maxrake) % numwinners := by
  have hexact := pangeaWinnings_exact maxrake ht hr hw
  have hsplit : (pangeaWinnings total numwinners rakemillis maxrake).split =
      winningsSplit total numwinners rakemillis maxrake := if_pos hw
  have hshare := share_le total hr
  rw [hsplit, winningsSplit, ← Nat.div_div_eq_div_mul] at hexact
  rw [potDue]
  generalize u64 ((total : Int) * (1000 - rakemillis)) / 1000 = share at *
  have hleft : winningsLeft total numwinners (share / numwinners) = (total - share) + share % numwinners := by
    have hdiv := Nat.div_add_mod share numwinners
    rw [Nat.mul_comm] at hdiv
    rw [winningsLeft, unsigned_sub (by omega) ht]
    omega
  have hback : total - (total - share) = share := by omega
  rw [hleft] at hexact
  by_cases hmax : maxrake < (total - share) + share % numwinners
  case pos =>
    have hmod := Nat.mod_le share numwinners
    have hdiv := left_of_div numwinners (show maxrake ≤ total by omega)
    rw [if_pos hmax, unsigned_sub (by omega) ht] at hexact
    have hle := Nat.div_mul_le_self (total - maxrake) numwinners
    by_cases hcap : maxrake ≤ total - share
    case pos =>
      rw [Nat.min_eq_right hcap]
      omega
    case neg =>
      have hmore : maxrake < total - share + (total - (total - share)) % numwinners := by
        rw [hback]
        exact hmax
      have hrest := left_of_rest (by omega) hmore (Nat.sub_le total share)
      rw [Nat.min_eq_left (by omega)]
      omega
  case neg =>
    have hdiv := Nat.div_add_mod share numwinners
    rw [Nat.mul_comm] at hdiv
    rw [if_neg hmax] at hexact
    rw [Nat.min_eq_left (by omega), hback]
    omega

theorem potDue_le (total rakemillis maxrake : Nat) : potDue total rakemillis maxrake ≤ maxrake := Nat.min_le_right _ _

private theorem share_paid (total numwinners : Nat) (hr : rakemillis ≤ 1000) :
    u64 ((total : Int) * (1000 - rakemillis)) / (1000 * numwinners) * numwinners ≤ total := by
  rw [← Nat.div_div_eq_div_mul]
  exact (Nat.div_mul_le_self _ _).trans (share_le total hr)

private theorem paid_small {split : Nat} (ht : total < 2^64) (h : split * numwinners ≤ total) :
    (0 : Int) ≤ (split : Int) * numwinners ∧ (split : Int) * numwinners < 2^64 := by
  rw [← Nat.cast_mul]
  omega

private theorem splitNoted_small (hw : 0 < numwinners) (hw9 : numwinners ≤ 9) (hr : rakemillis ≤ 10)
    (hfits : total * (1000 - rakemillis) < 2^64) :
    ∀ p ∈ (splitNoted total numwinners rakemillis maxrake).products, 0 ≤ p ∧ p < 2^64 := by
  have htotal : total < 2^64 := (Nat.le_mul_of_pos_right total (by omega)).trans_lt hfits
  have hpaid := share_paid total numwinners (show rakemillis ≤ 1000 by omega)
  have hshare : (0 : Int) ≤ (total : Int) * (1000 - rakemillis) ∧ (total : Int) * (1000 - rakemillis) < 2^64 := by
    have hcast : ((total : Int) * (1000 - rakemillis)) = ((total * (1000 - rakemillis) : Nat) : Int) := by
      push_cast [Nat.cast_sub (show rakemillis ≤ 1000 by omega)]
      ring
    rw [hcast]
    omega
  intro p hp
  rw [splitNoted, if_pos hw] at hp
  simp only [Noted.products_bind, mul64, whole_eq hw9, u64_sub_u64, ← Nat.cast_mul, List.mem_append,
    List.mem_singleton] at hp
  rcases hp with rfl | rfl | rfl | hp
  · exact hshare
  · push_cast
    omega
  · push_cast
    exact paid_small htotal hpaid
  · split at hp
    case isTrue hmax =>
      rw [unsigned_sub hpaid htotal] at hmax
      simp only [Noted.products_bind, List.mem_append, List.mem_singleton] at hp
      rcases hp with rfl | hp
      · push_cast
        refine paid_small htotal ((Nat.div_mul_le_self _ _).trans ?_)
        rw [unsigned_sub (by omega) htotal]
        exact Nat.sub_le _ _
      · cases hp
    case isFalse => cases hp

private theorem winningsNoted_small (hw : 0 < numwinners) (hw9 : numwinners ≤ 9) (hr : rakemillis ≤ 10)
    (hfits : total * (1000 - rakemillis) < 2^64) :
    ∀ p ∈ (winningsNoted total numwinners rakemillis maxrake).products, 0 ≤ p ∧ p < 2^64 := by
  have htotal : total < 2^64 := (Nat.le_mul_of_pos_right total (by omega)).trans_lt hfits
  have hsplit := winningsSplit_le numwinners maxrake htotal (show rakemillis ≤ 1000 by omega)
  intro p hp
  rw [winningsNoted, Noted.products_bind, splitNoted_value hw hw9, List.mem_append] at hp
  rcases hp with hp | hp
  · exact splitNoted_small hw hw9 hr hfits p hp
  dsimp only at hp
  split at hp
  case isTrue hmin =>
    simp only [Noted.products_bind, mul64, List.mem_append, List.mem_singleton] at hp
    rcases hp with rfl | hp
    · -- the rakes are at most the pot, and 5 of 1000 are less than the winners have
      rw [PANGEA_MINRAKE_MILLIS] at hmin ⊢
      rw [winningsLeft, unsigned_sub hsplit htotal]
      have hpart := Nat.mul_le_mul (Nat.sub_le total (winningsSplit total numwinners rakemillis maxrake * numwinners))
        (show rakemillis - 5 ≤ 1000 - rakemillis by omega)
      rw [← Nat.cast_sub hmin.le, ← Nat.cast_mul]
      omega
    · cases hp
  case isFalse => cases hp

/-- Pot splitting is exact, within the cap and free of overflow iff the share of the winners fits its word before it
is divided. -/
theorem splitsExactly_iff (hw : 0 < numwinners) (hw9 : numwinners ≤ 9) (hr : AcceptedRake rakemillis) :
    SplitsExactly total numwinners rakemillis maxrake ↔ total * (1000 - rakemillis) < 2^64 := by
  have hr10 := hr.le
  constructor
  · intro h
    have hvalue := h.shares
    rw [winningsNoted_value hw hw9] at hvalue
    have hexact := pangeaWinnings_exact maxrake (unsigned_lt 64 (total : Int)) (show rakemillis ≤ 1000 by omega) hw
    have hword : u64 (total : Int) = total := hexact.symm.trans hvalue
    have hshare : (total : Int) * (1000 - rakemillis) ∈
        (winningsNoted (u64 (total : Int)) numwinners rakemillis maxrake).products := by
      rw [hword, winningsNoted, Noted.products_bind, splitNoted, if_pos hw]
      exact List.mem_append_left _ List.mem_cons_self
    have hsmall := (h.products _ hshare).2
    have hcast : ((total : Int) * (1000 - rakemillis)) = ((total * (1000 - rakemillis) : Nat) : Int) := by
      push_cast [Nat.cast_sub (show rakemillis ≤ 1000 by omega)]
      ring
    rw [hcast] at hsmall
    omega
  · intro hfits
    have htotal : total < 2^64 := (Nat.le_mul_of_pos_right total (by omega)).trans_lt hfits
    have hword : u64 (total : Int) = total := unsigned_of_lt htotal
    have hexact := pangeaWinnings_exact maxrake htotal (show rakemillis ≤ 1000 by omega) hw
    have hrakes := pangeaWinnings_rakes maxrake htotal (show rakemillis ≤ 1000 by omega) hw
    have hdue := potDue_le total rakemillis maxrake
    have hrest := Nat.mod_lt (total - potDue total rakemillis maxrake) hw
    refine ⟨?_, ?_, ?_⟩
    · rw [hword, winningsNoted_value hw hw9]
      exact hexact
    · rw [hword, winningsNoted_value hw hw9]
      dsimp only
      omega
    · rw [hword]
      exact winningsNoted_small hw hw9 hr10 hfits

/-- Two winners of an odd pot at the host's highest rake. -/
theorem splitsExactly_odd_pot : 2001 * (1000 - 10) < 2^64 ∧ SplitsExactly 2001 2 10 100 :=
  ⟨by decide, (splitsExactly_iff (by decide) (by decide) (.inr ⟨5, rfl⟩)).mpr (by decide)⟩

/-- One winner of three stakes of 2^60. -/
theorem large_pot_overflows : ¬ SplitsExactly (3 * 2^60) 1 5 PANGEA_MAXRAKE := by
  intro h
  have hmem : (3 * 2^60 * 995 : Int) ∈ (winningsNoted (u64 (3 * 2^60 : Nat)) 1 5 PANGEA_MAXRAKE).products := by decide
  exact absurd (h.products _ hmem).2 (by decide)

end SuperNet.Games.Pangea
