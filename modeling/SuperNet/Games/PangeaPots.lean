import SuperNet.Games.Pangea

/-! The end of a pangea hand: side pots, winners, rake and the closing records. -/
namespace SuperNet.Games.Pangea
open SuperNet.Lib.Words SuperNet.Lib.Runs

def SATOSHIDEN : Nat := 100000000
def PANGEA_BTCMAXRAKE : Nat := SATOSHIDEN / 100
def PANGEA_MAXRAKE : Nat := 3 * SATOSHIDEN

/-- What `pangea_winnings` returns and stores through its pointers. -/
structure Winnings where
  split : Nat
  pangearake : Nat
  hostrake : Nat

/-- What `numwinners` shares leave of the pot. -/
def winningsLeft (total numwinners split : Nat) : Nat := u64 ((total : Int) - (split * numwinners : Nat))

/-- The share of each winner, limited from below by the maximal rake. -/
def winningsSplit (total numwinners rakemillis maxrake : Nat) : Nat :=
  let split := u64 ((total : Int) * (1000 - rakemillis)) / (1000 * numwinners)
  if maxrake < winningsLeft total numwinners split then u64 ((total : Int) - maxrake) / numwinners else split

/-- The host's part of the rake, everything above the fixed minimum. -/
def winningsRake (pangearake rakemillis : Nat) : Nat :=
  if PANGEA_MINRAKE_MILLIS < rakemillis then
    u64 ((pangearake : Int) * (rakemillis - PANGEA_MINRAKE_MILLIS)) / rakemillis
  else 0

def pangeaWinnings (total numwinners rakemillis maxrake : Nat) : Winnings :=
  let split := if 0 < numwinners then winningsSplit total numwinners rakemillis maxrake else 0
  let pangearake := if 0 < numwinners then winningsLeft total numwinners split else total
  let rake := winningsRake pangearake rakemillis
  ⟨split, u64 ((pangearake : Int) - rake), rake⟩

namespace Table

def folded (t : Table) (j : Nat) : Bool := t.hand.betstatus j = .fold

/-- Player `j` has chips in the pot and has not folded. -/
def Contributes (t : Table) (pot : Nat → Nat) (j : Nat) : Prop := pot j ≠ 0 ∧ ¬ t.folded j

instance (t : Table) (pot : Nat → Nat) : DecidablePred (t.Contributes pot) :=
  fun j => inferInstanceAs (Decidable (pot j ≠ 0 ∧ ¬ t.folded j))

/-- The smallest nonzero bet of a player who has not folded, 0 if there is none. -/
def sidepotMinbet (t : Table) (pot : Nat → Nat) : Nat :=
  rounds (fun minbet j =>
    if t.Contributes pot j ∧ (minbet = 0 ∨ pot j < minbet) then pot j else minbet) 0 t.N

def sidepotNonz (t : Table) (pot : Nat → Nat) (minbet : Nat) : Nat :=
  (List.range t.N).countP fun j => minbet < pot j ∧ ¬ t.folded j

/-- The rows of `sidepots` from row `n` on, with `N - n` rows left. -/
def sidepotsFrom (t : Table) : Nat → (Nat → Nat) → List (Nat → Nat)
  | 0, _ => []
  | rows + 1, pot =>
    let minbet := t.sidepotMinbet pot
    if 0 < t.sidepotNonz pot minbet then
      (fun j => if minbet < pot j then minbet else pot j) ::
        t.sidepotsFrom rows (fun j => if minbet < pot j then pot j - minbet else 0)
    else [pot]

def pangeaSidepots (t : Table) : List (Nat → Nat) :=
  t.sidepotsFrom t.N fun j => u64 (t.hand.bets j)

/-- The best rank among the contributors of a pot who have not folded. -/
def splitpotBestrank (t : Table) (pot : Nat → Nat) : Nat :=
  rounds (fun bestrank j =>
    if t.Contributes pot j ∧ bestrank < t.hand.handranks j then t.hand.handranks j
    else bestrank) 0 t.N

def splitpotTotal (t : Table) (pot : Nat → Nat) : Nat :=
  rounds (fun total j => u64 (total + pot j)) 0 t.N

def splitpotWinners (t : Table) (pot : Nat → Nat) : List Nat :=
  (List.range t.N).filter fun j =>
    ¬ t.folded j ∧ 0 < pot j ∧ t.hand.handranks j = t.splitpotBestrank pot

/-- 2 players 1BB, 3-4 players 2BB, 5 and more players 3BB. -/
def maxrakes : List Nat := [0, 0, 1, 2, 2, 3, 3, 3, 3, 3]

def splitpotMaxrake (t : Table) : Nat :=
  let n := (List.range t.N).countP fun j => 0 < t.hand.bets j
  let maxrake := u64 (maxrakes.getD n 0 * t.bigblind)
  if t.maxrake < maxrake then
    if t.coinstr = "BTC" ∧ t.maxrake < PANGEA_BTCMAXRAKE then PANGEA_BTCMAXRAKE
    else if t.maxrake < PANGEA_MAXRAKE then PANGEA_MAXRAKE
    else t.maxrake
  else maxrake

/-- One winner's share: the record, the balance of his slot, his total won. -/
def payWinner (split : Nat) (t : Table) (winner : Nat) : Table :=
  let t := t.pangeaSummary .winnings winner [split]
  let slot := t.pangeaSlot winner
  { t with
    balances := Function.update t.balances slot (i64 (t.balances slot + split))
    hand := { t.hand with won := Function.update t.hand.won winner (i64 (t.hand.won winner + split)) } }

/-- The state of the loop of `pangea_finish` over the pots. -/
structure Payout where
  table : Table
  rake : Nat
  pangearake : Nat

def pangeaSplitpot (rakemillis : Nat) (acc : Payout) (pot : Nat → Nat) : Payout :=
  let t := acc.table
  let winners := t.splitpotWinners pot
  if winners.length = 0 then acc
  else
    let w := pangeaWinnings (t.splitpotTotal pot) winners.length rakemillis t.splitpotMaxrake
    ⟨winners.foldl (payWinner w.split) t, u64 (acc.rake + w.hostrake), u64 (acc.pangearake + w.pangearake)⟩

/-- Bit mask of the active indices with property `p`. -/
def playerMask (t : Table) (p : Nat → Bool) : Nat :=
  rounds (fun mask j => if p j then mask ||| (1 <<< j) else mask) 0 t.N

def finishChanges (t : Table) : Nat :=
  let busted := t.playerMask fun j => 0 < t.snapshot (t.pangeaSlot j) ∧ t.balance j ≤ 0
  let rebuy := t.playerMask fun j => t.snapshot (t.pangeaSlot j) ≤ 0 ∧ 0 < t.balance j
  (rebuy <<< 20) ||| (busted <<< 4) ||| (t.N &&& 0xf)

/-- Without a flop the hand is not raked. -/
def finishRakemillis (t : Table) : Nat := if t.hand.community 0 = 0xff then 0 else t.rakemillis

def finishPayout (t : Table) : Payout :=
  t.pangeaSidepots.foldl (pangeaSplitpot t.finishRakemillis) ⟨t, 0, 0⟩

/-- The rakes and the closing records of a hand whose pots have been paid out. -/
def finishRecords (p : Payout) : Table :=
  let t := p.table
  let t : Table := { t with
    hostrake := u64 (t.hostrake + p.rake)
    pangearake := u64 (t.pangearake + p.pangearake)
    hand := { t.hand with
      hostrake := i64 p.rake
      pangearake := i64 p.pangearake
      finished := true } }
  (t.pangeaSummary .changes t.finishChanges ((List.range t.N).map t.balance)).pangeaSummary
    .rakes p.rake [p.pangearake]

theorem finishRecords_hand (p : Payout) : (finishRecords p).hand = { p.table.hand with
    hostrake := i64 p.rake
    pangearake := i64 p.pangearake
    finished := true } := rfl

def pangeaFinish (t : Table) : Table :=
  if t.hand.finished then t else finishRecords t.finishPayout

/-- A hand with at most one player left is finished; the flag is the return value. -/
def pangeaLastman (t : Table) : Table × Bool :=
  if t.hand.betstarted ≠ 0 ∧ t.pangeaActives ≤ 1 then (t.pangeaFinish, true) else (t, false)

end Table

end SuperNet.Games.Pangea
