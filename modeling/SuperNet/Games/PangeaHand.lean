import SuperNet.Games.PangeaPots

/-! The betting rounds of a pangea hand: the check for antes, the start of a round and the action
message, as the host and as the other players process it. -/
namespace SuperNet.Games.Pangea.Table
open SuperNet.Lib.Words SuperNet.Lib.Runs

/-- Antes and blinds are posted while nobody has bet and a deck has been checked. -/
def pangeaCheckantes (t : Table) : Table :=
  if (∀ i < t.N, t.hand.bets i = 0) ∧ t.hand.checkprod ≠ 0 then t.pangeaAntes else t

def updateHand (t : Table) (f : Hand → Hand) : Table := { t with hand := f t.hand }

def startbetsReset (t : Table) (cardi : Nat) : Table :=
  t.updateHand fun hand => { hand with
    betstarted := hand.betstarted + 1
    numactions := 0
    cardi := cardi
    actions := fun _ => 0
    turnis := fun _ => 0xff
    undergun := u32 (t.button + 3) % t.N }

/-- From the flop on the bets are noted, before it the antes are posted. -/
def startbetsFunds (t : Table) (cardi : Nat) : Table :=
  if t.N * 2 < cardi then
    t.updateHand fun hand => { hand with snapshot := fun i => if i < t.N then hand.bets i else hand.snapshot i }
  else t.pangeaCheckantes

/-- The host opens a round of betting. -/
def pangeaStartbets (t : Table) (cardi : Nat) : Table :=
  ((t.startbetsReset cardi).startbetsFunds cardi).updateHand fun hand => { hand with
    snapshot := Function.update hand.snapshot t.N hand.betsize }

/-- What `pangea_action` leads to: an error, the end of the hand, nothing more (not the host), the next
player's turn, the next cards to decode, or the request for a showdown. -/
inductive Outcome where
  | outOfTurn
  | lastman
  | follower
  | turn (undergun : Nat)
  | decoded (cardi count : Nat)
  | showdown (undergun : Nat)
  deriving DecidableEq, Repr

def isOut (t : Table) (j : Nat) : Bool := t.hand.betstatus j = .fold ∨ t.hand.betstatus j = .allin

/-- The host passes over players who have folded or are all in, at most `n` of them, from the `i`-th
after the current one; `j` is the last one looked at. -/
def skipOut : Nat → Nat → Nat → Table → Table × Nat
  | 0, _, j, t => (t, j)
  | n + 1, i, _, t =>
    let j := (t.hand.undergun + i) % t.N
    if t.isOut j then
      skipOut n (i + 1) j (t.updateHand fun hand => { hand with
        actions := Function.update hand.actions j (hand.betstatus j).code
        numactions := u8 (hand.numactions + 1) })
    else (t, j)

/-- The number of community cards known, counted up to the first unknown one. -/
def knownCards (t : Table) : Nat := ((List.range 5).takeWhile fun i => t.hand.community i ≠ 0xff).length

/-- The first player from the last bettor on who has not folded, else the one before him. -/
def showdownFirst (t : Table) : Nat :=
  ((List.range t.N).map fun i => u32 (t.hand.lastbettor + i) % t.N).find? (fun j => ¬ t.folded j)
    |>.getD (u32 (t.hand.lastbettor + (t.N - 1 : Nat)) % t.N)

/-- The round is over: the next street, or the showdown after the river. -/
def nextStreet (t : Table) : Table × Outcome :=
  match t.knownCards with
  | 0 => (t, .decoded t.hand.cardi 3)
  | 3 => (t, .decoded t.hand.cardi 1)
  | 4 => (t, .decoded t.hand.cardi 1)
  | _ =>
    let j := t.showdownFirst
    (t.updateHand fun hand => { hand with undergun := j }, .showdown j)

/-- The bet of an action message and the turn that passes with it. -/
def actionBet (t : Table) (senderind : Nat) (action : Int) (amount : Nat) : Table :=
  (t.pangeaBet senderind (i64 amount) .check).1.updateHand fun hand => { hand with
    actions := Function.update hand.actions senderind (signed 8 action)
    undergun := (hand.undergun + 1) % t.N
    numactions := u8 (hand.numactions + 1) }

/-- The host's part of `pangea_action` while at least two players are left. -/
def hostAction (t : Table) : Table × Outcome :=
  let (t, j) := skipOut t.N 0 0 t
  let t := t.updateHand fun hand => { hand with undergun := j }
  if t.hand.numactions < t.N then (t, .turn t.hand.undergun) else t.nextStreet

def pangeaAction (host : Bool) (t : Table) (senderind : Nat) (action : Int) (amount : Nat) : Table × Outcome :=
  if senderind ≠ t.hand.undergun then (t, .outOfTurn)
  else
    let (t, last) := (t.actionBet senderind action amount).pangeaLastman
    if last then (t, .lastman)
    else if host then t.hostAction
    else (t, .follower)

/-- The turns that pass are written down and counted, and nothing else. -/
theorem skipOut_updates (n i j : Nat) (t : Table) : ∃ actions numactions, (skipOut n i j t).1 =
    t.updateHand fun hand => { hand with actions := actions, numactions := numactions } := by
  induction n generalizing i j t with
  | zero => exact ⟨t.hand.actions, t.hand.numactions, rfl⟩
  | succ n ih =>
    rw [skipOut]
    split
    · obtain ⟨actions, numactions, h⟩ := ih (i + 1) ((t.hand.undergun + i) % t.N) (t.updateHand fun hand => { hand with
        actions := Function.update hand.actions ((t.hand.undergun + i) % t.N) (hand.betstatus ((t.hand.undergun + i) % t.N)).code
        numactions := u8 (hand.numactions + 1) })
      exact ⟨actions, numactions, h⟩
    · exact ⟨t.hand.actions, t.hand.numactions, rfl⟩

/-- After a bet the host only moves the turn and what is noted of the actions. -/
theorem hostAction_updates (t : Table) : ∃ actions numactions undergun, t.hostAction.1 =
    t.updateHand fun hand => { hand with actions := actions, numactions := numactions, undergun := undergun } := by
  obtain ⟨actions, numactions, h⟩ := skipOut_updates t.N 0 0 t
  simp only [hostAction, nextStreet]
  split
  · exact ⟨actions, numactions, _, by rw [h]; rfl⟩
  · split <;> exact ⟨actions, numactions, _, by rw [h]; rfl⟩

/-- The host's table when the first round of betting has started: big blind 10, no ante. -/
def firstRound (seats : Seating) (chips : Int) : Table :=
  ((openTable seats (fun _ => chips) 10 0).updateHand fun hand => { hand with checkprod := 1 }).pangeaStartbets
    (seats.N * 2)

end SuperNet.Games.Pangea.Table
