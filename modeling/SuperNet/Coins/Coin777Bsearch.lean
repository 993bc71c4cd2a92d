import SuperNet.Lib.AccessLog
import SuperNet.Coins.Coin777Addrtx

/-! coin777_bsearch on its 32-bit words, with the entries it reads logged: it is the search of the model and finds
an entry of an ascending list iff it is there. -/
namespace SuperNet.Coins.Coin777
open Lib.Words Lib.AccessLog

section words
variable (read : Nat → AddrtxInfo) (uvalue : Nat → UInt64) (unspentind : Nat) (value : UInt64)

abbrev readEntry (addrtxi : Nat) : Logged AddrtxInfo := ⟨read addrtxi, [.read addrtxi]⟩

/-- The first loop of `coin777_bsearch` with `n` probes to go. -/
def probeWords : Nat → Nat → Nat → Nat → Logged (Nat ⊕ (Nat × Nat))
  | 0, floor, ceiling, _ => pure (.inr (floor, ceiling))
  | n + 1, floor, ceiling, lastprobe =>
    if floor < ceiling then do
      let middle := u32 (floor + ceiling) / 2
      let probe := if middle = lastprobe then u32 (middle + 1) else middle
      let atx ← readEntry read probe
      if unspentind < atx.unspentind then probeWords n floor probe probe
      else if unspentind > atx.unspentind then probeWords n probe ceiling probe
      else if uvalue atx.unspentind = value then pure (.inl probe)
      else pure (.inr (floor, ceiling))
    else pure (.inr (floor, ceiling))

/-- The loop over `i` up to `last`: the entry, or `none` after a mismatch and behind the last entry. It is still
running, the outer `none`, when the fuel is used up. -/
def scanWords : Nat → Nat → Nat → Logged (Option (Option Nat))
  | 0, _, _ => pure none
  | fuel + 1, i, last =>
    if i ≤ last then do
      let atx ← readEntry read i
      if unspentind = atx.unspentind then
        if uvalue atx.unspentind ≠ value then pure (some none) else pure (some (some i))
      else scanWords fuel (u32 (i + 1)) last
    else pure (some none)

end words

def Coin.bsearchWords (coin : Coin) (fuel addrind : Nat) (L : Lentry) (unspentind : Nat) (value : UInt64) :
    Logged (Option (Option Nat)) :=
  let read := coin.readAddrtx addrind L
  if L.numaddrtx = 0 then pure (some none) else do
    match ← probeWords read coin.uvalue unspentind value 30 0 (L.numaddrtx - 1) (u32 (-2)) with
    | .inl probe => pure (some (some probe))
    | .inr (floor, ceiling) =>
      match ← scanWords read coin.uvalue unspentind value fuel floor ceiling with
      | some none => scanWords read coin.uvalue unspentind value fuel 0 (L.numaddrtx - 1)
      | found => pure found

section words
variable {read : Nat → AddrtxInfo} {uvalue : Nat → UInt64} {u : Nat} {v : UInt64} {num : Nat}

private theorem safe_readEntry {i : Nat} (hi : i < num) : (readEntry read i).Safe num := by
  intro a ha
  obtain rfl := List.mem_singleton.mp ha
  exact ⟨Int.natCast_nonneg i, Int.ofNat_lt.mpr hi⟩

/-- The word the last probe is kept in. -/
private def lastWord : Option Nat → Nat
  | none => u32 (-2)
  | some probe => probe

private theorem nudge_eq (m : Nat) (last : Option Nat) (hm : m + 1 < 2^31) :
    (if m = lastWord last then u32 ((m : Int) + 1) else m) = if some m = last then m + 1 else m := by
  have hnext : u32 ((m : Int) + 1) = m + 1 := by
    rw [← Nat.cast_succ]
    exact unsigned_of_lt (by omega)
  have hfirst : u32 (-2) = 2^32 - 2 := rfl
  rw [hnext]
  cases last with
  | none => rw [lastWord, hfirst, if_neg (by omega), if_neg (by simp)]
  | some probe =>
    simp only [lastWord, Option.some.injEq]
    rfl

variable (read uvalue u v)

private theorem probeWords_spec (n floor ceiling : Nat) (last : Option Nat) (hf : floor ≤ ceiling) (hc : ceiling < num)
    (hnum : num < 2^31) :
    (probeWords read uvalue u v n floor ceiling (lastWord last)).value = bsearchLoop read uvalue u v n floor ceiling last ∧
      (probeWords read uvalue u v n floor ceiling (lastWord last)).Safe num ∧
      ∀ f c, bsearchLoop read uvalue u v n floor ceiling last = .inr (f, c) → f ≤ c := by
  induction n generalizing floor ceiling last with
  | zero =>
    refine ⟨rfl, safe_pure num _, fun f c h => ?_⟩
    cases h
    exact hf
  | succ n ih =>
    rw [probeWords, bsearchLoop]
    by_cases hlt : floor < ceiling
    case neg =>
      rw [if_neg hlt, if_neg hlt]
      refine ⟨rfl, safe_pure num _, fun f c h => ?_⟩
      cases h
      exact hf
    case pos =>
      have hsum : u32 ((floor : Int) + ceiling) = floor + ceiling := by
        rw [← Nat.cast_add]
        exact unsigned_of_lt (by omega)
      have hmiddle := nudge_eq ((floor + ceiling) / 2) last (by omega)
      rw [if_pos hlt, if_pos hlt, hsum]
      dsimp only
      rw [hmiddle]
      generalize hprobe : (if some ((floor + ceiling) / 2) = last then (floor + ceiling) / 2 + 1
        else (floor + ceiling) / 2) = probe
      have hbounds : floor ≤ probe ∧ probe ≤ ceiling := by
        rw [← hprobe]
        split
        · omega
        · omega
      have hread : (readEntry read probe).Safe num := safe_readEntry (by omega)
      rw [value_bind, safe_bind]
      dsimp only [readEntry] at hread ⊢
      by_cases hless : u < (read probe).unspentind
      case pos =>
        obtain ⟨hvalue, hsafe, hord⟩ := ih floor probe (some probe) hbounds.1 (by omega)
        rw [if_pos hless, if_pos hless]
        exact ⟨hvalue, ⟨hread, hsafe⟩, hord⟩
      case neg =>
        rw [if_neg hless, if_neg hless]
        by_cases hmore : u > (read probe).unspentind
        case pos =>
          obtain ⟨hvalue, hsafe, hord⟩ := ih probe ceiling (some probe) hbounds.2 (by omega)
          rw [if_pos hmore, if_pos hmore]
          exact ⟨hvalue, ⟨hread, hsafe⟩, hord⟩
        case neg =>
          rw [if_neg hmore, if_neg hmore]
          by_cases hmatch : uvalue (read probe).unspentind = v
          case pos =>
            rw [if_pos hmatch, if_pos hmatch]
            exact ⟨rfl, ⟨hread, safe_pure num _⟩, fun f c h => by cases h⟩
          case neg =>
            rw [if_neg hmatch, if_neg hmatch]
            refine ⟨rfl, ⟨hread, safe_pure num _⟩, fun f c h => ?_⟩
            cases h
            exact hf

private theorem scanWords_spec (n i last fuel : Nat) (hn : n = last + 1 - i) (hi : i ≤ last + 1) (hl : last < num)
    (hnum : num < 2^31) (hfuel : n < fuel) :
    (scanWords read uvalue u v fuel i last).value = some (linearSearch read uvalue u v n i) ∧
      (scanWords read uvalue u v fuel i last).Safe num := by
  induction n generalizing i fuel with
  | zero =>
    obtain ⟨fuel, rfl⟩ := Nat.exists_eq_succ_of_ne_zero (Nat.ne_of_gt hfuel)
    rw [scanWords, if_neg (by omega), linearSearch]
    exact ⟨rfl, safe_pure num _⟩
  | succ n ih =>
    obtain ⟨fuel, rfl⟩ := Nat.exists_eq_succ_of_ne_zero (Nat.ne_of_gt (Nat.zero_lt_of_lt hfuel))
    have hread : (readEntry read i).Safe num := safe_readEntry (by omega)
    have hnext : u32 ((i : Int) + 1) = i + 1 := by
      rw [← Nat.cast_succ]
      exact unsigned_of_lt (by omega)
    rw [scanWords, if_pos (by omega), linearSearch, value_bind, safe_bind, hnext]
    dsimp only [readEntry] at hread ⊢
    split
    case isTrue =>
      split
      case isTrue => exact ⟨rfl, hread, safe_pure num _⟩
      case isFalse => exact ⟨rfl, hread, safe_pure num _⟩
    case isFalse =>
      obtain ⟨hvalue, hsafe⟩ := ih (i + 1) fuel (by omega) (by omega) (by omega)
      exact ⟨hvalue, hread, hsafe⟩

end words

section search
variable {coin : Coin} {a fuel : Nat} {L : Lentry} {u : Nat} {v : UInt64}

/-- The words hold what the search of the model computes, and only entries of the list are read. -/
theorem bsearchWords_eq (hnum : L.numaddrtx < 2^31) (hfuel : L.numaddrtx < fuel) :
    (coin.bsearchWords fuel a L u v).value = some (coin.bsearch a L u v) ∧
      (coin.bsearchWords fuel a L u v).Safe L.numaddrtx := by
  rw [Coin.bsearchWords, Coin.bsearch]
  by_cases h0 : L.numaddrtx = 0
  case pos =>
    rw [if_pos h0, if_pos h0]
    exact ⟨rfl, safe_pure _ _⟩
  case neg =>
    have hlast : L.numaddrtx - 1 < L.numaddrtx := Nat.sub_lt (Nat.pos_of_ne_zero h0) Nat.one_pos
    obtain ⟨hvalue, hsafe, hord⟩ := probeWords_spec (coin.readAddrtx a L) coin.uvalue u v 30 0 (L.numaddrtx - 1) none
      (Nat.zero_le _) hlast hnum
    rw [if_neg h0, if_neg h0, value_bind, safe_bind, show u32 (-2) = lastWord none from rfl, hvalue]
    cases hloop : bsearchLoop (coin.readAddrtx a L) coin.uvalue u v 30 0 (L.numaddrtx - 1) none with
    | inl k => exact ⟨rfl, hsafe, safe_pure _ _⟩
    | inr bounds =>
      obtain ⟨floor, ceiling⟩ := bounds
      have hc := bsearchLoop_bounds hloop
      have hf := hord floor ceiling hloop
      obtain ⟨hnear, hnearSafe⟩ := scanWords_spec (coin.readAddrtx a L) coin.uvalue u v (ceiling + 1 - floor) floor
        ceiling fuel rfl (by omega) (by omega) hnum (by omega)
      obtain ⟨hall, hallSafe⟩ := scanWords_spec (coin.readAddrtx a L) coin.uvalue u v L.numaddrtx 0
        (L.numaddrtx - 1) fuel (by omega) (Nat.zero_le _) hlast hnum hfuel
      dsimp only
      rw [value_bind, safe_bind, hnear]
      cases linearSearch (coin.readAddrtx a L) coin.uvalue u v (ceiling + 1 - floor) floor with
      | some k => exact ⟨rfl, hsafe, hnearSafe, safe_pure _ _⟩
      | none => exact ⟨hall, hsafe, hnearSafe, hallSafe⟩

/-- An entry that `coin777_bsearch` returns is the entry of the output, and the output has the value. -/
theorem bsearch_sound {k : Nat} (h : coin.bsearch a L u v = some k) :
    k < L.numaddrtx ∧ (coin.readAddrtx a L k).unspentind = u ∧ coin.uvalue u = v := by
  rw [Coin.bsearch] at h
  split at h
  case isTrue => cases h
  case isFalse hnum =>
    split at h
    case h_1 i hloop =>
      cases h
      obtain ⟨hu, hv, hk⟩ := bsearchLoop_found hloop
      exact ⟨by omega, hu, hv⟩
    case h_2 floor ceiling hloop =>
      have hc := bsearchLoop_bounds hloop
      rcases Option.or_eq_some_iff.mp h with hnear | ⟨-, hall⟩
      · obtain ⟨hu, hv, hstart, hk⟩ := linearSearch_found hnear
        exact ⟨by omega, hu, hv⟩
      · obtain ⟨hu, hv, hstart, hk⟩ := linearSearch_found hall
        exact ⟨by omega, hu, hv⟩

/-- In an ascending list `coin777_bsearch` comes back with the index of the entry when the entry is there and has
the value, and with -1 otherwise. `numaddrtx` is a field of 31 bits. -/
theorem bsearchWords_finds
    (hascending : ∀ i j, i < j → j < L.numaddrtx →
      (coin.readAddrtx a L i).unspentind < (coin.readAddrtx a L j).unspentind)
    (hnum : L.numaddrtx < 2^31) (hfuel : L.numaddrtx < fuel) :
    (coin.bsearchWords fuel a L u v).Safe L.numaddrtx ∧
      ∃ found, (coin.bsearchWords fuel a L u v).value = some found ∧
        ∀ i, found = some i ↔ i < L.numaddrtx ∧ (coin.readAddrtx a L i).unspentind = u ∧ coin.uvalue u = v := by
  obtain ⟨hvalue, hsafe⟩ : (coin.bsearchWords fuel a L u v).value = some (coin.bsearch a L u v) ∧
      (coin.bsearchWords fuel a L u v).Safe L.numaddrtx := bsearchWords_eq hnum hfuel
  refine ⟨hsafe, coin.bsearch a L u v, hvalue, fun i => ⟨bsearch_sound, ?_⟩⟩
  rintro ⟨hi, hu, hv⟩
  obtain ⟨k, hk, hfound, hku⟩ := bsearch_spec hi hu hv
  -- two entries of one output would be out of order
  rcases Nat.lt_trichotomy k i with hlt | rfl | hlt
  · exact absurd (hascending k i hlt hi) (by rw [hu, hku]; exact Nat.lt_irrefl u)
  · exact hfound
  · exact absurd (hascending i k hlt hk) (by rw [hu, hku]; exact Nat.lt_irrefl u)

/-- Three outputs in the table behind the records, the last of them looked for. -/
theorem bsearchWords_finds_last :
    let coin := { Coin.genesis with
      addrtx := fun i => ⟨10 * i, 0⟩, unspents := fun i => ⟨UInt64.ofNat (100 * i), 0, 0, false⟩ }
    let L : Lentry := ⟨0, 1, 3, 16, false⟩
    (coin.bsearchWords 4 0 L 30 3000).value = some (some 2) ∧ (coin.bsearchWords 4 0 L 30 3000).Safe 3 := by
  intro coin L
  obtain ⟨hsafe, found, hvalue, hfound⟩ := @bsearchWords_finds coin 0 4 L 30 3000
    (fun i j hij _ => Nat.mul_lt_mul_of_pos_left (Nat.add_lt_add_left hij 1) (by decide)) (by decide)
    (by decide)
  exact ⟨by rw [hvalue, (hfound 2).mpr ⟨by decide, rfl, rfl⟩], hsafe⟩

end search

end SuperNet.Coins.Coin777
