import SuperNet.Games.Cards777Shuffle
import SuperNet.Lib.Words

/-! The table of a pangea hand: seating, funds, folds, bets, antes and blinds.
Balances are kept by table slot, everything in the hand by active index. -/
namespace SuperNet.Games.Pangea
open SuperNet.Lib.Words SuperNet.Lib.Runs

def PANGEA_MINRAKE_MILLIS : Nat := 5
def PANGEA_MAX_HOSTRAKE : Nat := 5

/-- An order that `pangea_neworder` installs: nodeA first, every active node has a table address. -/
structure Seating where
  addrs : List Nat
  active : List Nat
  host_first : active.head? = addrs.head?
  nonempty : active ≠ []
  found : ∀ a ∈ active, a ∈ addrs
  addrs_length : addrs.length ≤ CARDS777_MAXPLAYERS
  active_length : active.length ≤ CARDS777_MAXPLAYERS

/-- Table slot of an address; `addrs.length` stands for the `-1` of an unknown one. -/
def pangeaTableaddr (addrs : List Nat) (destbits : Nat) : Nat := addrs.idxOf destbits

def Seating.N (s : Seating) : Nat := s.active.length

def Seating.pangeaSlot (s : Seating) (ind : Nat) : Nat := pangeaTableaddr s.addrs (s.active.getD ind 0)

theorem Seating.N_pos (s : Seating) : 0 < s.N := List.length_pos_iff.mpr s.nonempty

theorem Seating.N_le (s : Seating) : s.N ≤ CARDS777_MAXPLAYERS := s.active_length

theorem Seating.pangeaSlot_lt (s : Seating) {ind : Nat} (h : ind < s.N) :
    s.pangeaSlot ind < s.addrs.length := by
  have hget : s.active.getD ind 0 = s.active.get ⟨ind, h⟩ := by
    simp [List.getD_eq_getElem?_getD, show ind < s.active.length from h]
  rw [pangeaSlot, pangeaTableaddr, List.idxOf_lt_length_iff, hget]
  exact s.found _ (List.getElem_mem h)

def threeSeats : Seating :=
  ⟨[11, 22, 33], [11, 22, 33], rfl, by decide, by decide, by decide, by decide⟩

/-- The last two players have changed places in the order of play. -/
def swappedSeats : Seating :=
  ⟨[11, 22, 33], [11, 33, 22], rfl, by decide, by decide, by decide, by decide⟩

/-- The player at the second address has left: active player 1 keeps slot 2. -/
def skippedSeat : Seating :=
  ⟨[11, 22, 33], [11, 33], rfl, by decide, by decide, by decide, by decide⟩

inductive BetStatus where
  | live | fold | allin
  deriving DecidableEq, Repr

/-- The `CARDS777_` codes of actions and summary records. -/
inductive Act where
  | fold | start | ante | smallblind | bigblind | check | call | bet | raise | fullraise
  | sentcards | allin | faceup | winnings | rakes | changes | snapshot
  deriving DecidableEq, Repr

def Act.code : Act → Int
  | .fold => -1 | .start => 1 | .ante => 2 | .smallblind => 3 | .bigblind => 4 | .check => 5
  | .call => 6 | .bet => 7 | .raise => 8 | .fullraise => 9 | .sentcards => 10 | .allin => 11
  | .faceup => 12 | .winnings => 13 | .rakes => 14 | .changes => 15 | .snapshot => 16

def BetStatus.code : BetStatus → Int
  | .live => 0 | .fold => Act.fold.code | .allin => Act.allin.code

/-- One record of the hand summary: type, first argument, the 64-bit words after it. -/
structure Record where
  type : Act
  arg : Nat
  data : List Int
  deriving DecidableEq, Repr

structure Hand where
  checkprod : Nat
  betsize : Int
  lastraise : Int
  hostrake : Int
  pangearake : Int
  bets : Nat → Int
  snapshot : Nat → Int
  won : Nat → Int
  handmask : Nat
  lastbettor : Nat
  betstarted : Nat
  finished : Bool
  cardi : Nat
  handranks : Nat → Nat
  betstatus : Nat → BetStatus
  actions : Nat → Int
  turnis : Nat → Nat
  numactions : Nat
  undergun : Nat
  community : Nat → Nat

/-- The hand that `pangea_clearhand` leaves: all zero, no community card known. -/
def pangeaClearhand : Hand where
  checkprod := 0
  betsize := 0
  lastraise := 0
  hostrake := 0
  pangearake := 0
  bets := fun _ => 0
  snapshot := fun _ => 0
  won := fun _ => 0
  handmask := 0
  lastbettor := 0
  betstarted := 0
  finished := false
  cardi := 0
  handranks := fun _ => 0
  betstatus := fun _ => .live
  actions := fun _ => 0
  turnis := fun _ => 0
  numactions := 0
  undergun := 0
  community := fun _ => 0xff

/-- The rake of a new table: the host's share up to its limit and the fixed minimum. -/
def newRakemillis (hostrake : Nat) : Nat := min hostrake PANGEA_MAX_HOSTRAKE + PANGEA_MINRAKE_MILLIS

structure Table where
  seats : Seating
  balances : Nat → Int
  snapshot : Nat → Int
  maxrake : Nat
  hostrake : Nat
  bigblind : Nat
  bigblind_lt : bigblind < 2^64
  ante : Nat
  pangearake : Nat
  button : Nat
  numhands : Nat
  rakemillis : Nat
  raked : ∃ hostrake, rakemillis = newRakemillis hostrake
  coinstr : String
  summary : List Record
  hand : Hand

/-- A table before its first hand, raked at the minimum. -/
def openTable (seats : Seating) (balances : Nat → Int) (bigblind : UInt64) (ante : Nat) : Table where
  seats := seats
  balances := balances
  snapshot := fun _ => 0
  maxrake := 0
  hostrake := 0
  bigblind := bigblind.toNat
  bigblind_lt := bigblind.toNat_lt
  ante := ante
  pangearake := 0
  button := 0
  numhands := 1
  rakemillis := newRakemillis 0
  raked := ⟨0, rfl⟩
  coinstr := "BTCD"
  summary := []
  hand := pangeaClearhand

namespace Table

abbrev N (t : Table) : Nat := t.seats.N
abbrev pangeaSlot (t : Table) (ind : Nat) : Nat := t.seats.pangeaSlot ind

/-- The balance of the player at active index `ind`. -/
def balance (t : Table) (ind : Nat) : Int := t.balances (t.pangeaSlot ind)

def pangeaSummary (t : Table) (type : Act) (arg : Nat) (data : List Int) : Table :=
  { t with summary := t.summary ++ [⟨type, arg, data⟩] }

def pangeaFold (t : Table) (player : Nat) : Table :=
  { t with
    hand := { t.hand with
      handmask := t.hand.handmask ||| (1 <<< player)
      betstatus := Function.update t.hand.betstatus player .fold
      actions := Function.update t.hand.actions player Act.fold.code }
    : Table }.pangeaSummary .fold player [t.hand.bets player]

def pangeaActives (t : Table) : Nat :=
  ((List.range t.N).filter fun i => t.hand.betstatus i ≠ .fold).length

/-- First test of `pangea_bet`: a positive bet that the balance does not exceed. -/
def betAllin (t : Table) (player : Nat) (bet : Int) : Bool := 0 < bet ∧ t.balance player ≤ bet

/-- Second test of `pangea_bet`: a raise of less than twice the last one. -/
def betClip (t : Table) (bet : Int) : Bool :=
  t.hand.betsize < bet ∧ t.hand.lastraise < bet ∧ bet < i64 (t.hand.lastraise * 2)

/-- The bet after the all-in and last-raise clips. -/
def betClipped (t : Table) (player : Nat) (bet : Int) : Int :=
  if t.betAllin player bet then t.balance player
  else if t.betClip bet then t.hand.lastraise else bet

def betAction (t : Table) (player : Nat) (bet : Int) (action : Act) : Act :=
  if t.betAllin player bet then .allin else if t.betClip bet then .raise else action

/-- The sum of `pangea_bet` in `uint64_t`. -/
def betSum (t : Table) (player : Nat) (bet : Int) : Nat := u64 (t.hand.bets player + bet)

/-- Third test of `pangea_bet`: the bet does not reach the bet size. -/
def betShort (t : Table) (player : Nat) (bet : Int) (action : Act) : Bool :=
  t.betSum player bet < u64 t.hand.betsize ∧ action ≠ .allin

/-- A bet of twice the last raise and more reopens the betting. -/
def betFull (t : Table) (bet : Int) : Bool := i64 (2 * t.hand.lastraise) ≤ bet

/-- The bet makes the player's sum the new bet size. -/
def betOver (t : Table) (player : Nat) (bet : Int) : Bool := u64 t.hand.betsize < t.betSum player bet

/-- The hand after a bet that stands, before the chips move. -/
def raiseHand (t : Table) (player : Nat) (bet : Int) (action : Act) : Hand :=
  let sum := t.betSum player bet
  let lastraise := if t.betFull bet then bet else t.hand.lastraise
  { t.hand with
    lastraise := if t.betOver player bet ∧ u64 lastraise < sum ∧ action = .allin then i64 sum else lastraise
    numactions := if t.betFull bet ∨ t.betOver player bet then 0 else t.hand.numactions
    betsize := if t.betOver player bet then i64 sum else t.hand.betsize
    lastbettor := if t.betOver player bet then player else t.hand.lastbettor }

/-- The name under which a bet that stands is recorded; a check is renamed by what it did. -/
def raiseAction (t : Table) (player : Nat) (bet : Int) (action : Act) : Act :=
  let action := if t.betFull bet ∧ action = .check then .fullraise else action
  let action := if t.betOver player bet ∧ action = .check then .bet else action
  if 0 < bet ∧ action = .check then .call else action

/-- The rest of `pangea_bet`: the record, then the chips. Bets are credited by table slot. -/
def bookBet (t : Table) (player : Nat) (bet : Int) (action : Act) : Table × Act :=
  let slot := t.pangeaSlot player
  let hand := t.raiseHand player bet action
  let action := t.raiseAction player bet action
  ({ t with
      summary := t.summary ++ [⟨action, player, [bet]⟩]
      balances := Function.update t.balances slot (i64 (t.balances slot - bet))
      hand := { hand with bets := Function.update hand.bets slot (i64 (hand.bets slot + bet)) } }, action)

def setAllin (t : Table) (player : Nat) : Table :=
  { t with hand := { t.hand with betstatus := Function.update t.hand.betstatus player .allin } }

def pangeaBet (t : Table) (player : Nat) (bet : Int) (action : Act) : Table × Act :=
  let player := player % t.N
  match t.hand.betstatus player with
  | .allin => (t, .allin)
  | .fold => (t, .fold)
  | .live =>
    let action' := t.betAction player bet action
    let bet' := t.betClipped player bet
    let t := if t.betAllin player bet then t.setAllin player else t
    if t.betShort player bet' action' then (t.pangeaFold player, .fold)
    else t.bookBet player bet' action'

/-- Players without funds fold before the antes. -/
def antesBroke (t : Table) (i : Nat) : Table :=
  if t.balance i ≤ 0 then t.pangeaFold i else t

/-- One round of the ante loop; the two players after the button's predecessor are exempt. -/
def antesPost (t : Table) (i : Nat) : Table :=
  if i ≠ t.button ∧ i ≠ u32 (t.button + 1) % t.N then
    if u64 (t.balance i) < t.ante then t.pangeaFold i
    else (t.pangeaBet i (i64 t.ante) .ante).1
  else t

/-- What the `n`-th player found by the blinds loop must exceed, in `uint64_t`. -/
def antesThreshold (t : Table) (n : Nat) : Nat :=
  if n = 0 then u64 ((t.bigblind / 2 : Nat) - 1) else if n = 1 then u64 (t.bigblind - 1) else 0

/-- One round of the blinds loop, with the active players found so far. -/
def antesSeat (acc : Table × List Nat) (i : Nat) : Table × List Nat :=
  let (t, actives) := acc
  let j := u32 (1 + t.button + i) % t.N
  if t.antesThreshold actives.length < u64 (t.balance j) then (t, actives ++ [j])
  else (t.pangeaFold j, actives)

def antesSmallblind (t : Table) (small : Nat) : Table :=
  { (t.pangeaBet small (i64 (t.bigblind / 2 : Nat)) .smallblind).1 with button := (small + t.N - 1) % t.N }

/-- With fewer than two players left nobody posts a blind. -/
def antesBlinds (t : Table) : List Nat → Table
  | small :: big :: _ => ((t.antesSmallblind small).pangeaBet big (i64 t.bigblind) .bigblind).1
  | _ => t

/-- The players' funds at the start of the hand and their record. -/
def antesSnapshot (t : Table) : Table :=
  let snapshot := fun i => if i < t.seats.addrs.length then t.balances i else t.snapshot i
  { t with snapshot := snapshot }.pangeaSummary .snapshot (u32 (t.numhands - 1))
    ((List.range CARDS777_MAXPLAYERS).map snapshot)

def antesFunded (t : Table) : Table := rounds antesBroke t.antesSnapshot t.N

def antesPosted (t : Table) : Table :=
  if t.ante ≠ 0 then rounds antesPost t.antesFunded t.N else t.antesFunded

def antesSeated (t : Table) : Table × List Nat := rounds antesSeat (t.antesPosted, []) t.N

def pangeaAntes (t : Table) : Table := antesBlinds t.antesSeated.1 t.antesSeated.2

end Table

end SuperNet.Games.Pangea
