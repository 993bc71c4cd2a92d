import SuperNet.Coins.Coin777Add
import SuperNet.Mgw.MgwRedeem

/-! coin777_unspentmap on its 32-bit words, over the tables that coin777_addtx writes: when its bisection ends, and
when it ends with the transaction of an unspent. -/
namespace SuperNet.Mgw.MgwUnspentmap
open Lib.Words Coins.Coin777 MgwRedeem

/-- The arguments of a call of `coin777_addtx` that differ from call to call. -/
structure AddtxArgs where
  txidstr : List Char
  numvouts : UInt16
  numvins : UInt16
  deriving DecidableEq, Repr

/-- A call of `coin777_addtx` for the next index, its outputs and inputs behind those of the call before. -/
def addNext (coin : Coin) (tx : AddtxArgs) : Coin :=
  { coin.addtx tx.txidstr tx.numvouts.toNat tx.numvins.toNat with
    txidind := coin.txidind + 1
    firstvout := coin.firstvout + tx.numvouts.toNat
    firstvin := coin.firstvin + tx.numvins.toNat }

def firstOutput (txs : List AddtxArgs) (txidind : Nat) : Nat :=
  1 + ((txs.take (txidind - 1)).map fun tx => tx.numvouts.toNat).sum

/-- Transactions written one behind the other, with the block that was last added; the indices are words of 32 bits. -/
structure TxTable where
  txs : List AddtxArgs
  latest : CoinOffsets
  fits : firstOutput txs (txs.length + 1) < 2^32
  counted : txs.length + 1 < 2^32
  behind : latest.txidind ≤ txs.length + 1

def TxTable.coin (table : TxTable) : Coin :=
  { table.txs.foldl addNext Coin.genesis with latest := table.latest }

/-- The loop of `coin777_unspentmap` with `n` probes to go: `none` is still searching, `some none` its return
value -1. -/
def unspentmapWords (txoffsets : Nat → Nat × Nat) (unspentind : Nat) : Nat → Nat → Nat → Option (Option (Nat × Nat))
  | 0, _, _ => none
  | n + 1, floor, ceiling =>
    if floor = ceiling then some none
    else
      let probe := u32 (floor + ceiling) / 2
      let firstvout := (txoffsets probe).1
      let lastvout := (txoffsets (u32 (probe + 1))).1
      if firstvout = 0 ∨ lastvout = 0 then some none
      else if unspentind < firstvout then unspentmapWords txoffsets unspentind n floor probe
      else if unspentind ≥ lastvout then unspentmapWords txoffsets unspentind n probe ceiling
      else some (some (probe, unspentind - firstvout))

def coin777Unspentmap (n : Nat) (coin : Coin) (unspentind : Nat) : Option (Option (Nat × Nat)) :=
  unspentmapWords coin.txoffsets unspentind n 1 coin.latest.txidind

/-- The search ends, with the transaction below `latest.txidind` that the unspent is an output of and with -1 when
there is none. -/
def Exact (table : TxTable) (unspentind : Nat) : Prop :=
  ∃ n found, coin777Unspentmap n table.coin unspentind = some found ∧
    ∀ txidind vout, found = some (txidind, vout) ↔
      1 ≤ txidind ∧ txidind < table.latest.txidind ∧
        firstOutput table.txs txidind ≤ unspentind ∧ unspentind < firstOutput table.txs (txidind + 1) ∧
        vout = unspentind - firstOutput table.txs txidind

/-- The probes for as long as every one of them lies below the unspent, with the floor before them. -/
def risingProbes (ceiling : Nat) : Nat → Nat
  | 0 => 1
  | k + 1 => u32 (risingProbes ceiling k + ceiling) / 2

section written

private theorem foldl_addNext (txs : List AddtxArgs) (coin : Coin) :
    (txs.foldl addNext coin).txidind = coin.txidind + txs.length ∧
      (txs.foldl addNext coin).firstvout = coin.firstvout + (txs.map fun tx => tx.numvouts.toNat).sum := by
  induction txs generalizing coin with
  | nil => exact ⟨rfl, rfl⟩
  | cons tx txs ih =>
    obtain ⟨hind, hvout⟩ := ih (addNext coin tx)
    rw [List.foldl_cons, hind, hvout]
    simp only [addNext, List.length_cons, List.map_cons, List.sum_cons]
    omega

private theorem firstOutput_append {txs : List AddtxArgs} {tx : AddtxArgs} {t : Nat} (ht : t ≤ txs.length + 1) :
    firstOutput (txs ++ [tx]) t = firstOutput txs t := by
  rw [firstOutput, firstOutput, List.take_append_of_le_length (by omega)]

private theorem txoffsets_foldl (txs : List AddtxArgs) :
    ((txs.foldl addNext Coin.genesis).txoffsets 0).1 = 0 ∧
      ∀ t, 1 ≤ t → t ≤ txs.length + 1 → txs ≠ [] →
        ((txs.foldl addNext Coin.genesis).txoffsets t).1 = firstOutput txs t := by
  induction txs using List.reverseRecOn with
  | nil => exact ⟨rfl, fun t _ _ h => absurd rfl h⟩
  | append_singleton txs tx ih =>
    obtain ⟨hzero, hoffsets⟩ := ih
    obtain ⟨hind, hvout⟩ := foldl_addNext txs Coin.genesis
    rw [List.foldl_append]
    generalize txs.foldl addNext Coin.genesis = coin at *
    have hind' : coin.txidind = txs.length + 1 := by rw [hind, Nat.add_comm]; rfl
    have hvout' : coin.firstvout = firstOutput txs (txs.length + 1) := by
      rw [hvout, firstOutput, Nat.add_sub_cancel, List.take_length]
      rfl
    simp only [List.foldl_cons, List.foldl_nil, addNext, Coin.addtx, Coin.vupdate, hind']
    refine ⟨?_, fun t ht hlen _ => ?_⟩
    · rw [Function.update_of_ne (by omega), Function.update_of_ne (by omega)]
      exact hzero
    · rw [List.length_append, List.length_singleton] at hlen
      by_cases hlast : t = txs.length + 1 + 1
      case pos =>
        rw [hlast, Function.update_self, hvout', firstOutput, firstOutput]
        simp only [Nat.add_sub_cancel]
        rw [List.take_length, List.take_of_length_le (by simp), List.map_append, List.sum_append]
        simp only [List.map_cons, List.map_nil, List.sum_singleton, Nat.add_assoc]
      case neg =>
        rw [Function.update_of_ne hlast, firstOutput_append (by omega)]
        by_cases hnew : t = txs.length + 1
        case pos => rw [hnew, Function.update_self, hvout']
        case neg =>
          rw [Function.update_of_ne hnew]
          exact hoffsets t ht (by omega) (by rintro rfl; simp at hnew hlen hlast; omega)

theorem firstOutput_mono {txs : List AddtxArgs} {s t : Nat} (h : s ≤ t) : firstOutput txs s ≤ firstOutput txs t := by
  rw [firstOutput, firstOutput]
  refine Nat.add_le_add_left ?_ 1
  rw [show t - 1 = (s - 1) + (t - 1 - (s - 1)) by omega, List.take_add, List.map_append, List.sum_append]
  exact Nat.le_add_right _ _

end written

section search
variable {txoffsets : Nat → Nat × Nat} {u last : Nat}

/-- What the search should come back with. -/
private def Finds (txoffsets : Nat → Nat × Nat) (last u : Nat) (found : Option (Nat × Nat)) : Prop :=
  ∀ t vout, found = some (t, vout) ↔
    1 ≤ t ∧ t < last ∧ (txoffsets t).1 ≤ u ∧ u < (txoffsets (t + 1)).1 ∧ vout = u - (txoffsets t).1

/-- The entries from 1 to `last` are written and never fall. -/
private def Rising (txoffsets : Nat → Nat × Nat) (last : Nat) : Prop :=
  ∀ t, 1 ≤ t → t < last → 0 < (txoffsets t).1 ∧ (txoffsets t).1 ≤ (txoffsets (t + 1)).1

private theorem Rising.le (h : Rising txoffsets last) {s t : Nat} (hs : 1 ≤ s) (hst : s ≤ t) (ht : t ≤ last) :
    (txoffsets s).1 ≤ (txoffsets t).1 :=
  rising_le (fun t h1 h2 => (h t h1 h2).2) hs hst ht

private theorem Rising.finds_some (h : Rising txoffsets last) {t : Nat} (h1 : 1 ≤ t) (hlast : t < last)
    (hlow : (txoffsets t).1 ≤ u) (hhigh : u < (txoffsets (t + 1)).1) :
    Finds txoffsets last u (some (t, u - (txoffsets t).1)) := by
  intro s vout
  constructor
  · intro heq
    cases heq
    exact ⟨h1, hlast, hlow, hhigh, rfl⟩
  · rintro ⟨hs1, hslast, hslow, hshigh, rfl⟩
    have hsame : s = t := by
      rcases Nat.lt_trichotomy s t with hlt | heq | hlt
      · exact absurd (h.le (Nat.le_add_left 1 s) hlt hlast.le) (by omega)
      · exact heq
      · exact absurd (h.le (Nat.le_add_left 1 t) hlt hslast.le) (by omega)
    rw [hsame]

private theorem Rising.finds_none (h : Rising txoffsets last) (hout : u < (txoffsets 1).1 ∨ (txoffsets last).1 ≤ u) :
    Finds txoffsets last u none := by
  intro t vout
  constructor
  · exact fun heq => by cases heq
  · rintro ⟨h1, hlast, hlow, hhigh, -⟩
    have hfirst := h.le (le_refl 1) h1 hlast.le
    have hend := h.le (Nat.le_add_left 1 t) hlast (le_refl last)
    omega

private theorem u32_add {x y : Nat} (h : x + y < 2^32) : u32 ((x : Int) + y) = x + y := by
  rw [← Nat.cast_add]
  exact unsigned_of_lt h

private theorem u32_half_lt (x y : Nat) : u32 ((x : Int) + y) / 2 < 2^31 := by
  have h : u32 ((x : Int) + y) < 2^32 := unsigned_lt 32 _
  omega

private theorem u32_half_succ (x y : Nat) :
    u32 (((u32 ((x : Int) + y) / 2 : Nat) : Int) + 1) = u32 ((x : Int) + y) / 2 + 1 := by
  have := u32_half_lt x y
  exact u32_add (y := 1) (by omega)

private theorem unspentmapWords_eq (n : Nat) : ∀ floor ceiling, floor ≤ ceiling → ceiling ≤ 2^31 →
    unspentmapWords txoffsets u n floor ceiling = unspentmapLoop txoffsets u n floor ceiling := by
  induction n with
  | zero => exact fun _ _ _ _ => rfl
  | succ n ih =>
    intro floor ceiling hle hsmall
    by_cases heq : floor = ceiling
    case pos => rw [unspentmapWords, unspentmapLoop, if_pos heq, if_pos heq]
    case neg =>
      rw [unspentmapWords, unspentmapLoop, if_neg heq, if_neg heq]
      dsimp only
      rw [u32_half_succ, u32_add (by omega), ih floor _ (by omega) (by omega), ih _ ceiling (by omega) (by omega)]

private theorem unspentmapLoop_before (h : Rising txoffsets last) (hu : u < (txoffsets 1).1) (n : Nat) :
    ∀ ceiling, 1 ≤ ceiling → ceiling ≤ last → ceiling ≤ n → unspentmapLoop txoffsets u n 1 ceiling = some none := by
  induction n with
  | zero => exact fun ceiling h1 _ hn => absurd hn (by omega)
  | succ n ih =>
    intro ceiling h1 hlast hn
    rw [unspentmapLoop]
    by_cases heq : 1 = ceiling
    case pos => rw [if_pos heq]
    case neg =>
      have hprobe : 1 ≤ (1 + ceiling) / 2 ∧ (1 + ceiling) / 2 < ceiling := by omega
      obtain ⟨hpos, hnext⟩ := h _ hprobe.1 (by omega)
      have hfirst := h.le (le_refl 1) hprobe.1 (by omega)
      rw [if_neg heq]
      dsimp only
      rw [if_neg (by omega), if_pos (by omega)]
      exact ih _ hprobe.1 (by omega) (by omega)

private theorem unspentmapWords_succ {n floor ceiling probe : Nat} (hne : floor ≠ ceiling)
    (hprobe : u32 (floor + ceiling) / 2 = probe) :
    unspentmapWords txoffsets u (n + 1) floor ceiling =
      if (txoffsets probe).1 = 0 ∨ (txoffsets (probe + 1)).1 = 0 then some none
      else if u < (txoffsets probe).1 then unspentmapWords txoffsets u n floor probe
      else if u ≥ (txoffsets (probe + 1)).1 then unspentmapWords txoffsets u n probe ceiling
      else some (some (probe, u - (txoffsets probe).1)) := by
  rw [unspentmapWords, if_neg hne]
  dsimp only
  rw [u32_half_succ, hprobe]

private theorem risingProbes_succ (ceiling k : Nat) :
    u32 (risingProbes ceiling k + ceiling) / 2 = risingProbes ceiling (k + 1) := rfl

private theorem risingProbes_lt (hlast : 2 ≤ last) (k : Nat) : risingProbes last k < last := by
  induction k with
  | zero => exact hlast
  | succ k ih =>
    have hle : u32 (risingProbes last k + last) ≤ risingProbes last k + last := by
      rw [← Nat.cast_add]
      exact (unsigned_natCast 32 _).trans_le (Nat.mod_le _ _)
    rw [risingProbes]
    omega

/-- A search whose floor is still on the way up ends only at a probe of 0 or at the first probe that is not below
the unspent. -/
private theorem rising_ends (h : Rising txoffsets last) (hzero : (txoffsets 0).1 = 0) (hlast : 2 ≤ last) {n k : Nat}
    {found : Option (Nat × Nat)}
    (hrun : unspentmapWords txoffsets u n (risingProbes last k) last = some found) :
    (∃ m, risingProbes last (m + 1) = 0 ∧ found = none) ∨
      ∃ m, (∀ j, k ≤ j → j ≤ m → risingProbes last (j + 1) ≠ 0) ∧ k ≤ m ∧
        u < (txoffsets (risingProbes last (m + 1) + 1)).1 := by
  induction n generalizing k with
  | zero => cases hrun
  | succ n ih =>
    have hlt := risingProbes_lt hlast (k + 1)
    rw [unspentmapWords_succ (Nat.ne_of_lt (risingProbes_lt hlast k)) (risingProbes_succ last k)] at hrun
    by_cases hprobe : risingProbes last (k + 1) = 0
    case pos =>
      rw [hprobe, if_pos (.inl hzero)] at hrun
      exact .inl ⟨k, hprobe, (Option.some.inj hrun).symm⟩
    case neg =>
      obtain ⟨hpos, hnext⟩ := h _ (Nat.pos_of_ne_zero hprobe) hlt
      have honly : ∀ j, k ≤ j → j ≤ k → risingProbes last (j + 1) ≠ 0 := by
        intro j h1 h2
        rw [Nat.le_antisymm h2 h1]
        exact hprobe
      rw [if_neg (by omega)] at hrun
      split at hrun
      case isTrue hbelow => exact .inr ⟨k, honly, le_refl k, by omega⟩
      case isFalse =>
        split at hrun
        case isFalse habove => exact .inr ⟨k, honly, le_refl k, by omega⟩
        case isTrue =>
          rcases ih hrun with hend | ⟨m, hnonzero, hkm, hu⟩
          · exact .inl hend
          · refine .inr ⟨m, fun j h1 h2 => ?_, by omega, hu⟩
            rcases Nat.eq_or_lt_of_le h1 with rfl | h1
            · exact hprobe
            · exact hnonzero j h1 h2

private theorem rising_reaches (h : Rising txoffsets last) (hlast : 2 ≤ last) {k : Nat}
    (hbelow : ∀ j < k, risingProbes last (j + 1) ≠ 0 ∧ (txoffsets (risingProbes last (j + 1) + 1)).1 ≤ u) (n : Nat) :
    unspentmapWords txoffsets u (n + k) 1 last = unspentmapWords txoffsets u n (risingProbes last k) last := by
  induction k generalizing n with
  | zero => rfl
  | succ k ih =>
    obtain ⟨hprobe, habove⟩ := hbelow k (Nat.lt_succ_self k)
    obtain ⟨hpos, hnext⟩ := h _ (Nat.pos_of_ne_zero hprobe) (risingProbes_lt hlast (k + 1))
    rw [show n + (k + 1) = (n + 1) + k by omega, ih fun j hj => hbelow j (Nat.lt_succ_of_lt hj),
      unspentmapWords_succ (Nat.ne_of_lt (risingProbes_lt hlast k)) (risingProbes_succ last k),
      if_neg (by omega), if_neg (by omega), if_pos habove]

private theorem finds_before (h : Rising txoffsets last) (hzero : (txoffsets 0).1 = 0) (hlast : 2 ≤ last)
    (hu : u < (txoffsets 1).1) :
    ∃ n found, unspentmapWords txoffsets u n 1 last = some found ∧ Finds txoffsets last u found := by
  refine ⟨last + 1, none, ?_, h.finds_none (.inl hu)⟩
  have hlt := risingProbes_lt hlast 1
  have hstart : u32 ((1 : Nat) + last) / 2 = risingProbes last 1 := rfl
  rw [unspentmapWords_succ (Nat.ne_of_lt hlast) hstart]
  by_cases hprobe : risingProbes last 1 = 0
  case pos => rw [hprobe, if_pos (.inl hzero)]
  case neg =>
    obtain ⟨hpos, hnext⟩ := h _ (Nat.pos_of_ne_zero hprobe) hlt
    have hfirst := h.le (le_refl 1) (Nat.pos_of_ne_zero hprobe) hlt.le
    have hsmall : risingProbes last 1 < 2^31 := u32_half_lt 1 last
    rw [if_neg (by omega), if_pos (by omega), unspentmapWords_eq last 1 _ (by omega) hsmall.le]
    exact unspentmapLoop_before h hu last _ (by omega) hlt.le hlt.le

private theorem finds_reached (h : Rising txoffsets last) (hlast : 2 ≤ last) (hu : (txoffsets 1).1 ≤ u) {k : Nat}
    (hbelow : ∀ j < k, risingProbes last (j + 1) ≠ 0 ∧ (txoffsets (risingProbes last (j + 1) + 1)).1 ≤ u)
    (hprobe : risingProbes last (k + 1) ≠ 0) (hreached : u < (txoffsets (risingProbes last (k + 1) + 1)).1) :
    ∃ n found, unspentmapWords txoffsets u n 1 last = some found ∧ Finds txoffsets last u found := by
  have hlt := risingProbes_lt hlast (k + 1)
  have hsmall : risingProbes last (k + 1) < 2^31 := u32_half_lt (risingProbes last k) last
  obtain ⟨hpos, hnext⟩ := h _ (Nat.pos_of_ne_zero hprobe) hlt
  have hfloor : 1 ≤ risingProbes last k ∧ (txoffsets (risingProbes last k)).1 ≤ u := by
    cases k with
    | zero => exact ⟨le_refl 1, hu⟩
    | succ k =>
      obtain ⟨hne, hle⟩ := hbelow k (Nat.lt_succ_self k)
      have hpred := h _ (Nat.pos_of_ne_zero hne) (risingProbes_lt hlast (k + 1))
      exact ⟨Nat.pos_of_ne_zero hne, hpred.2.trans hle⟩
  by_cases hover : u < (txoffsets (risingProbes last (k + 1))).1
  case pos =>
    have hup : risingProbes last k < risingProbes last (k + 1) := by
      by_contra hdown
      exact absurd (h.le (Nat.pos_of_ne_zero hprobe) (Nat.le_of_not_lt hdown) (risingProbes_lt hlast k).le) (by omega)
    obtain ⟨t, h1, ht, hlow, hhigh, hfound⟩ := unspentmapLoop_found h last _ _ hfloor.1 hup hlt.le (by omega)
      hfloor.2 hover
    refine ⟨last + 1 + k, _, ?_, h.finds_some h1 ht hlow hhigh⟩
    rw [rising_reaches h hlast hbelow, unspentmapWords_succ (Nat.ne_of_lt (risingProbes_lt hlast k))
      (risingProbes_succ last k), if_neg (by omega), if_pos hover, unspentmapWords_eq last _ _ hup.le hsmall.le]
    exact hfound
  case neg =>
    refine ⟨1 + k, _, ?_, h.finds_some (Nat.pos_of_ne_zero hprobe) hlt (Nat.le_of_not_lt hover) hreached⟩
    rw [rising_reaches h hlast hbelow, unspentmapWords_succ (Nat.ne_of_lt (risingProbes_lt hlast k))
      (risingProbes_succ last k), if_neg (by omega), if_neg hover, if_neg (by omega)]

/-- The search ends, and with the right answer, iff the rising probes come to the transaction of the unspent before
they come to 0, or to 0 for an unspent behind the last output. -/
private theorem finds_iff (h : Rising txoffsets last) (hzero : (txoffsets 0).1 = 0) (hlast : 2 ≤ last) :
    (∃ n found, unspentmapWords txoffsets u n 1 last = some found ∧ Finds txoffsets last u found) ↔
      u < (txoffsets 1).1 ∨
      (∃ k, (∀ j ≤ k, risingProbes last (j + 1) ≠ 0) ∧ u < (txoffsets (risingProbes last (k + 1) + 1)).1) ∨
      ((txoffsets last).1 ≤ u ∧ ∃ k, risingProbes last (k + 1) = 0) := by
  constructor
  · rintro ⟨n, found, hrun, hfinds⟩
    rcases rising_ends h hzero hlast (k := 0) hrun with ⟨m, hm, rfl⟩ | ⟨m, hnonzero, -, hu⟩
    · by_cases hbefore : u < (txoffsets 1).1
      · exact .inl hbefore
      · by_cases hbehind : (txoffsets last).1 ≤ u
        · exact .inr (.inr ⟨hbehind, m, hm⟩)
        · obtain ⟨t, h1, ht, hlow, hhigh, -⟩ := unspentmapLoop_found h last 1 last (le_refl 1) hlast (le_refl _)
            (Nat.sub_le _ _) (Nat.le_of_not_lt hbefore) (Nat.lt_of_not_le hbehind)
          cases (hfinds t _).mpr ⟨h1, ht, hlow, hhigh, rfl⟩
    · exact .inr (.inl ⟨m, fun j => hnonzero j (Nat.zero_le j), hu⟩)
  · intro hcond
    by_cases hbefore : u < (txoffsets 1).1
    · exact finds_before h hzero hlast hbefore
    rcases hcond with hu | ⟨k, hnonzero, hu⟩ | ⟨hbehind, k, hk⟩
    · exact absurd hu hbefore
    · -- the first rising probe that is not below the unspent
      have hex : ∃ k, u < (txoffsets (risingProbes last (k + 1) + 1)).1 := ⟨k, hu⟩
      have hfirst := Nat.find_min' hex hu
      refine finds_reached h hlast (Nat.le_of_not_lt hbefore) (k := Nat.find hex) (fun j hj => ?_)
        (hnonzero _ hfirst) (Nat.find_spec hex)
      exact ⟨hnonzero j (hj.le.trans hfirst), Nat.le_of_not_lt (Nat.find_min hex hj)⟩
    · have hex : ∃ k, risingProbes last (k + 1) = 0 := ⟨k, hk⟩
      refine ⟨1 + Nat.find hex, none, ?_, h.finds_none (.inr hbehind)⟩
      rw [rising_reaches h hlast, unspentmapWords_succ (Nat.ne_of_lt (risingProbes_lt hlast _))
        (risingProbes_succ last _), Nat.find_spec hex, if_pos (.inl hzero)]
      intro j hj
      refine ⟨Nat.find_min hex hj, (h.le (Nat.le_add_left 1 _) ?_ (le_refl last)).trans hbehind⟩
      exact risingProbes_lt hlast (j + 1)

private theorem risingProbes_rise (hlast : 2 ≤ last) (hsmall : last ≤ 2^31) (k : Nat) :
    min (last - 1) (k + 1) ≤ risingProbes last k := by
  induction k with
  | zero => exact Nat.min_le_right _ _
  | succ k ih =>
    have hlt := risingProbes_lt hlast k
    rw [risingProbes, u32_add (by omega)]
    omega

end search

private theorem TxTable.rising (table : TxTable) (hlast : 2 ≤ table.latest.txidind) :
    (table.coin.txoffsets 0).1 = 0 ∧ Rising table.coin.txoffsets table.latest.txidind ∧
      ∀ t, 1 ≤ t → t ≤ table.latest.txidind → (table.coin.txoffsets t).1 = firstOutput table.txs t := by
  have hbehind := table.behind
  obtain ⟨hzero, hoffsets⟩ := txoffsets_foldl table.txs
  have hne : table.txs ≠ [] := by
    intro hnil
    rw [hnil, List.length_nil] at hbehind
    omega
  have hwritten : ∀ t, 1 ≤ t → t ≤ table.latest.txidind →
      (table.coin.txoffsets t).1 = firstOutput table.txs t :=
    fun t h1 ht => hoffsets t h1 (ht.trans hbehind) hne
  refine ⟨hzero, fun t h1 ht => ?_, hwritten⟩
  rw [hwritten t h1 ht.le, hwritten (t + 1) (Nat.le_add_left 1 t) ht]
  exact ⟨Nat.lt_of_lt_of_le Nat.one_pos (Nat.le_add_right 1 _), firstOutput_mono (Nat.le_succ t)⟩

private theorem exact_iff_finds (table : TxTable) (u : Nat) (hlast : 2 ≤ table.latest.txidind) :
    Exact table u ↔ ∃ n found, unspentmapWords table.coin.txoffsets u n 1 table.latest.txidind = some found ∧
      Finds table.coin.txoffsets table.latest.txidind u found := by
  obtain ⟨-, -, hwritten⟩ := table.rising hlast
  refine exists_congr fun n => exists_congr fun found => and_congr_right fun _ =>
    forall_congr' fun t => forall_congr' fun vout => iff_congr Iff.rfl ?_
  refine and_congr_right fun h1 => and_congr_right fun ht => ?_
  rw [hwritten t h1 ht.le, hwritten (t + 1) (Nat.le_add_left 1 t) ht]

private theorem exact_empty (table : TxTable) (u : Nat) (hlast : table.latest.txidind ≤ 1) : Exact table u := by
  refine ⟨1, none, ?_, fun t vout => ⟨fun h => (by cases h), fun ⟨h1, ht, _⟩ => absurd ht (by omega)⟩⟩
  obtain ⟨hzero, -⟩ := txoffsets_foldl table.txs
  have hlatest : table.coin.latest.txidind = table.latest.txidind := rfl
  rw [coin777Unspentmap, hlatest]
  interval_cases table.latest.txidind
  · rw [unspentmapWords_succ (by decide) (show u32 ((1 : Nat) + (0 : Nat) : Int) / 2 = 0 from rfl)]
    exact if_pos (.inl hzero)
  · rfl

/-- Up to index 2^31 `coin777_unspentmap` is exact iff no transaction is searched or the unspent is not behind the
last output: behind it the floor stays at the last transaction for ever. From there on the sum of the bounds wraps,
and it is exact for the unspents that its rising probes come to before a probe of 0. -/
theorem unspentmap_exact_iff (table : TxTable) (unspentind : Nat) :
    (table.latest.txidind ≤ 2^31 →
      (Exact table unspentind ↔
        table.latest.txidind ≤ 1 ∨ unspentind < firstOutput table.txs table.latest.txidind)) ∧
    (2^31 < table.latest.txidind →
      (Exact table unspentind ↔
        unspentind = 0 ∨
        (∃ k, (∀ j ≤ k, risingProbes table.latest.txidind (j + 1) ≠ 0) ∧
          unspentind < firstOutput table.txs (risingProbes table.latest.txidind (k + 1) + 1)) ∨
        (firstOutput table.txs table.latest.txidind ≤ unspentind ∧
          ∃ k, risingProbes table.latest.txidind (k + 1) = 0))) := by
  constructor
  · intro hsmall
    by_cases hlast : table.latest.txidind ≤ 1
    · exact ⟨fun _ => .inl hlast, fun _ => exact_empty table unspentind hlast⟩
    replace hlast : 2 ≤ table.latest.txidind := Nat.lt_of_not_le hlast
    obtain ⟨hzero, hrising, hwritten⟩ := table.rising hlast
    rw [exact_iff_finds table unspentind hlast, finds_iff hrising hzero hlast, or_iff_right (Nat.not_le_of_lt hlast),
      ← hwritten _ (Nat.le_of_succ_le hlast) (le_refl _)]
    constructor
    · rintro (hu | ⟨k, -, hu⟩ | ⟨-, k, hk⟩)
      · exact hu.trans_le (hrising.le (le_refl 1) (Nat.le_of_succ_le hlast) (le_refl _))
      · exact hu.trans_le (hrising.le (Nat.le_add_left 1 _) (risingProbes_lt hlast (k + 1)) (le_refl _))
      · have hrise := risingProbes_rise hlast hsmall (k + 1)
        omega
    · intro hu
      have hnonzero : ∀ j, risingProbes table.latest.txidind (j + 1) ≠ 0 := by
        intro j
        have hrise := risingProbes_rise hlast hsmall (j + 1)
        omega
      refine .inr (.inl ⟨table.latest.txidind, fun j _ => hnonzero j, ?_⟩)
      have hrise := risingProbes_rise hlast hsmall (table.latest.txidind + 1)
      have hlt := risingProbes_lt hlast (table.latest.txidind + 1)
      rw [show risingProbes table.latest.txidind (table.latest.txidind + 1) + 1 = table.latest.txidind by omega]
      exact hu
  · intro hlarge
    have hlast : 2 ≤ table.latest.txidind := by omega
    obtain ⟨hzero, hrising, hwritten⟩ := table.rising hlast
    have hfirst : firstOutput table.txs 1 = 1 := rfl
    rw [exact_iff_finds table unspentind hlast, finds_iff hrising hzero hlast, hwritten 1 (le_refl 1) (by omega),
      hwritten _ (by omega) (le_refl _), hfirst, Nat.lt_one_iff]
    refine or_congr Iff.rfl (or_congr (exists_congr fun k => and_congr_right fun _ => ?_) Iff.rfl)
    rw [hwritten _ (Nat.le_add_left 1 _) (risingProbes_lt hlast (k + 1))]

def singleTable : TxTable where
  txs := [⟨[], 1, 0⟩]
  latest := { CoinOffsets.zero with txidind := 2 }
  fits := by decide
  counted := by decide
  behind := by decide

/-- The search for the index behind its output goes on for ever. -/
theorem singleTable_hangs : ¬ Exact singleTable 2 := by
  rintro ⟨n, found, hrun, -⟩
  have hhangs : ∀ n, coin777Unspentmap n singleTable.coin 2 = none := by
    intro n
    induction n with
    | zero => rfl
    | succ n ih => exact ih
  rw [hhangs] at hrun
  cases hrun

end SuperNet.Mgw.MgwUnspentmap
