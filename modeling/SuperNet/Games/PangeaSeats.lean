import SuperNet.Games.Pangea

/-! Who sits at a pangea table and in which order the players act, as hands are started and players
come and go. A call that writes behind the end of an array gives `none`. -/
namespace SuperNet.Games.PangeaSeats
open SuperNet.Games.Pangea

/-- The seats in `struct pangea_info` and `struct cards777_pubdata`. `active` has the `numactive`
accounts in the order of play, `N` is the number of players in the deck. -/
structure Table where
  addrs : List Nat
  active : List Nat
  N : Nat
  M : Nat
  myslot : Nat
  myind : Int
  numhands : Nat
  button : Nat

/-- The first place of an account, -1 if it is not there. -/
def place (accounts : List Nat) (nxt64bits : Nat) : Int := if nxt64bits ∈ accounts then accounts.idxOf nxt64bits else -1

namespace Table

def pangeaSearch (t : Table) (nxt64bits : Nat) : Int := place t.active nxt64bits

def pangeaTableaddr (t : Table) (destbits : Nat) : Int := place t.addrs destbits

/-- `pangea_slot`, by which the balances are addressed. -/
def pangeaSlot (t : Table) (ind : Nat) : Int := t.pangeaTableaddr (t.active.getD ind 0)

def pangeaInd (t : Table) (slot : Nat) : Int := t.pangeaSearch (t.addrs.getD slot 0)

/-- The checks of `pangea_neworder`: the host is first and the others have addresses. `stack` is what
stands in the first place of an order without places. -/
def accepts (t : Table) (stack : Nat) (order : List Nat) : Bool :=
  order.headD stack = t.addrs.headD 0 ∧ ∀ account ∈ order.tail, 0 ≤ t.pangeaTableaddr account

/-- The checks come to an account for which `slots` has no place. -/
def overruns (t : Table) (stack : Nat) (order : List Nat) : Bool :=
  CARDS777_MAXPLAYERS < order.length ∧ t.accepts stack (order.take CARDS777_MAXPLAYERS)

/-- `pangea_neworder`, with its result. -/
def pangeaNeworder (t : Table) (stack : Nat) (order : List Nat) : Option (Int × Table) :=
  if t.overruns stack order then none
  else if t.accepts stack order then
    let t := { t with active := order, N := order.length, M := order.length >>> 1 + 1 }
    some (order.length, { t with myind := t.pangeaInd t.myslot })
  else some (-1, t)

def pangeaInactivate (t : Table) (stack nxt64bits : Nat) : Option (Int × Table) :=
  let order := t.active.filter (· ≠ nxt64bits)
  if CARDS777_MAXPLAYERS < order.length then none
  else (t.pangeaNeworder stack order).map fun (_, t) => (order.length, t)

/-- The slot that `pangea_addplayer` gives away: the last one without a balance. -/
def openslot (t : Table) (balances : Nat → Int) : Option Nat :=
  ((List.range t.addrs.length).filter fun i => balances i ≤ 0).getLast?

/-- `pangea_addplayer` of the account of a public key; the balances are those at the time of the call. -/
def pangeaAddplayer (t : Table) (stack nxt64bits : Nat) (balances : Nat → Int) : Option (Int × Table) :=
  if nxt64bits ∈ t.addrs then some (-1, t)
  else
    match t.openslot balances with
    | none => some (-1, t)
    | some openslot =>
      if t.addrs.length - 1 ≤ t.active.length then some (-1, t)
      else if CARDS777_MAXPLAYERS ≤ t.active.length then none
      else
        let t := { t with addrs := t.addrs.set openslot nxt64bits, active := t.active ++ [nxt64bits] }
        (t.pangeaNeworder stack t.active).map fun (_, t) => (0, t)

/-- `pangea_newhand` with data of the right length or not; `active` is the array of that name in the
message, which counts only if it has entries. -/
def pangeaNewhand (t : Table) (stack : Nat) (valid : Bool) (active : List Nat) : Option (Int × Table) :=
  let start (t : Table) : Int × Table := (0, { t with button := t.numhands % t.N, numhands := t.numhands + 1 })
  if valid then
    if t.myslot = 0 then some (start t)
    else if CARDS777_MAXPLAYERS < active.length then none
    else if active ≠ [] then (t.pangeaNeworder stack active).map fun (_, t) => start t
    else (t.pangeaNeworder stack t.active).map fun (_, t) => start t
  else some (-1, t)

end Table

/-- `pangea_create`, with the place that the caller gives to the node. -/
def pangeaCreate (addrs : List Nat) (myind : Nat) : Option Table :=
  if CARDS777_MAXPLAYERS < addrs.length then none
  else
    some
      { addrs := addrs
        active := addrs
        N := addrs.length
        M := addrs.length >>> 1 + 1
        myslot := myind
        myind := myind
        numhands := 0
        button := 0 }

/-- A call, with what is on the stack where the order is read. -/
inductive Call
  | neworder (stack : Nat) (order : List Nat)
  | inactivate (stack nxt64bits : Nat)
  | addplayer (stack nxt64bits : Nat) (balances : Nat → Int)
  | newhand (stack : Nat) (valid : Bool) (active : List Nat)

/-- What a call returns, and the table after it. -/
def call (t : Table) : Call → Option (Int × Table)
  | .neworder stack order => t.pangeaNeworder stack order
  | .inactivate stack nxt64bits => t.pangeaInactivate stack nxt64bits
  | .addplayer stack nxt64bits balances => t.pangeaAddplayer stack nxt64bits balances
  | .newhand stack valid active => t.pangeaNewhand stack valid active

def step (t : Table) (c : Call) : Option Table := (call t c).map Prod.snd

/-- The table after some calls. -/
def run (t : Table) (calls : List Call) : Option Table := calls.foldlM step t

structure Seated (my : Nat) (t : Table) : Prop where
  distinct : t.active.Nodup
  slots : ∀ ind < t.active.length, 0 ≤ t.pangeaSlot ind
  host : ∃ account, t.active.head? = some account ∧ t.addrs.head? = some account
  count : t.active.length = t.N
  position : t.myind = t.pangeaSearch my

/-- The calls that keep the seats in order: an order does not make the checks run behind `slots`, one that is
accepted has entries and none twice, the last player is not taken from the order, a newcomer gets neither the
slot of a player in the order nor that of the node, and a message names no more players than a table has. -/
def Orderly (t : Table) : Call → Prop
  | .neworder stack order => t.overruns stack order = false ∧ (t.accepts stack order → order ≠ [] ∧ order.Nodup)
  | .inactivate stack nxt64bits => t.accepts stack (t.active.filter (· ≠ nxt64bits)) → ∃ account ∈ t.active, account ≠ nxt64bits
  | .addplayer _ nxt64bits balances => nxt64bits ∉ t.addrs → t.active.length < t.addrs.length - 1 →
      ∀ slot, t.openslot balances = some slot → t.addrs.getD slot 0 ∉ t.active ∧ slot ≠ t.myslot
  | .newhand stack valid active => valid → t.myslot ≠ 0 →
      active.length ≤ CARDS777_MAXPLAYERS ∧ (t.accepts stack active → active.Nodup)

/-- Every call of a run keeps the seats in order. -/
def OrderlyRun : Table → List Call → Prop
  | _, [] => True
  | t, c :: calls => Orderly t c ∧ ∀ next, step t c = some next → OrderlyRun next calls

/-- What the calls keep: besides the seating, the address of the node stands in its slot, and the addresses
fit in their array. -/
structure Kept (my : Nat) (t : Table) : Prop extends Seated my t where
  mine : t.addrs.getD t.myslot 0 = my
  fits : t.addrs.length ≤ CARDS777_MAXPLAYERS

variable {my : Nat} {t : Table}

private theorem place_nonneg {accounts : List Nat} {account : Nat} : 0 ≤ place accounts account ↔ account ∈ accounts := by
  rw [place]
  split
  case isTrue h => exact ⟨fun _ => h, fun _ => Int.natCast_nonneg _⟩
  case isFalse h => exact ⟨fun hneg => absurd hneg (by decide), fun hmem => absurd hmem h⟩

theorem slots_iff : (∀ ind < t.active.length, 0 ≤ t.pangeaSlot ind) ↔ ∀ account ∈ t.active, account ∈ t.addrs := by
  have hslot {ind : Nat} (hind : ind < t.active.length) : 0 ≤ t.pangeaSlot ind ↔ t.active[ind] ∈ t.addrs := by
    rw [Table.pangeaSlot, Table.pangeaTableaddr, place_nonneg, List.getD_eq_getElem?_getD,
      List.getElem?_eq_getElem hind, Option.getD_some]
  rw [List.forall_mem_iff_forall_getElem]
  exact forall₂_congr fun ind hind => hslot hind

theorem accepts_iff {stack : Nat} {order : List Nat} : t.accepts stack order ↔
    order.headD stack = t.addrs.headD 0 ∧ ∀ account ∈ order.tail, account ∈ t.addrs := by
  rw [Table.accepts, decide_eq_true_iff]
  simp only [Table.pangeaTableaddr, place_nonneg]

/-- No order that fits is too long for `slots`. -/
theorem overruns_of_le {stack : Nat} {order : List Nat} (h : order.length ≤ CARDS777_MAXPLAYERS) :
    t.overruns stack order = false :=
  decide_eq_false fun hover => absurd hover.1 (not_lt.mpr h)

/-- An order is refused, or installed and the seats are in order. -/
theorem kept_neworder {stack : Nat} {order : List Nat} (hmine : t.addrs.getD t.myslot 0 = my) (haddrs : t.addrs ≠ [])
    (hfits : t.addrs.length ≤ CARDS777_MAXPLAYERS) (hover : t.overruns stack order = false)
    (haccept : t.accepts stack order) (hne : order ≠ []) (hnodup : order.Nodup) :
    ∃ ret next, t.pangeaNeworder stack order = some (ret, next) ∧ Kept my next := by
  obtain ⟨hfirst, hrest⟩ := accepts_iff.mp haccept
  obtain ⟨host, rest, rfl⟩ := List.exists_cons_of_ne_nil hne
  obtain ⟨first, addrs, heq⟩ := List.exists_cons_of_ne_nil haddrs
  have hhost : host = first := by
    rw [heq] at hfirst
    exact hfirst
  rw [Table.pangeaNeworder, hover, if_neg Bool.false_ne_true, if_pos haccept]
  refine ⟨_, _, rfl, ⟨hnodup, slots_iff.mpr ?_, ⟨host, rfl, ?_⟩, rfl, ?_⟩, hmine, hfits⟩
  · intro account haccount
    rcases List.mem_cons.mp haccount with rfl | haccount
    · simp [heq, hhost]
    · exact hrest account haccount
  · simp [heq, hhost]
  · dsimp only
    rw [Table.pangeaInd, hmine]
    rfl

namespace Kept

theorem addrs_ne_nil (h : Kept my t) : t.addrs ≠ [] := by
  obtain ⟨_, _, haddrs⟩ := h.host
  rintro heq
  rw [heq] at haddrs
  cases haddrs

theorem active_ne_nil (h : Kept my t) : t.active ≠ [] := by
  obtain ⟨_, hactive, _⟩ := h.host
  rintro heq
  rw [heq] at hactive
  cases hactive

/-- The order fits in its array, as a part of the addresses. -/
theorem active_fits (h : Kept my t) : t.active.length ≤ CARDS777_MAXPLAYERS :=
  ((h.distinct.subperm (slots_iff.mp h.slots)).length_le).trans h.fits

theorem neworder (h : Kept my t) {stack : Nat} {order : List Nat} (hover : t.overruns stack order = false)
    (horder : t.accepts stack order → order ≠ [] ∧ order.Nodup) :
    ∃ ret next, t.pangeaNeworder stack order = some (ret, next) ∧ Kept my next := by
  by_cases haccept : t.accepts stack order
  · exact kept_neworder h.mine h.addrs_ne_nil h.fits hover haccept (horder haccept).1 (horder haccept).2
  · rw [Table.pangeaNeworder, hover, if_neg Bool.false_ne_true, if_neg haccept]
    exact ⟨-1, t, rfl, h⟩

theorem inactivate (h : Kept my t) {stack nxt64bits : Nat} (hcall : Orderly t (.inactivate stack nxt64bits)) :
    ∃ ret next, t.pangeaInactivate stack nxt64bits = some (ret, next) ∧ Kept my next := by
  have hfits : (t.active.filter (· ≠ nxt64bits)).length ≤ CARDS777_MAXPLAYERS :=
    (List.length_filter_le _ _).trans h.active_fits
  have hover : t.overruns stack (t.active.filter (· ≠ nxt64bits)) = false := overruns_of_le hfits
  obtain ⟨ret, next, hnext, hkept⟩ := h.neworder hover fun haccept => by
    obtain ⟨account, hmem, hne⟩ := hcall haccept
    exact ⟨List.ne_nil_of_mem (List.mem_filter.mpr ⟨hmem, decide_eq_true hne⟩), h.distinct.filter _⟩
  rw [Table.pangeaInactivate, if_neg (not_lt.mpr hfits), hnext]
  exact ⟨_, next, rfl, hkept⟩

private theorem mem_set_of_ne {addrs : List Nat} {slot account b : Nat} (hmem : account ∈ addrs)
    (hne : addrs.getD slot 0 ≠ account) : account ∈ addrs.set slot b := by
  obtain ⟨i, hi, rfl⟩ := List.mem_iff_getElem.mp hmem
  have hslot : slot ≠ i := by
    rintro rfl
    exact hne (by rw [List.getD_eq_getElem?_getD, List.getElem?_eq_getElem hi, Option.getD_some])
  refine List.mem_iff_getElem.mpr ⟨i, by rwa [List.length_set], ?_⟩
  rw [List.getElem_set_of_ne hslot]

private theorem openslot_lt {balances : Nat → Int} {slot : Nat} (h : t.openslot balances = some slot) :
    slot < t.addrs.length :=
  List.mem_range.mp (List.mem_of_mem_filter (List.mem_of_getLast? h))

private theorem headD_append_set (h : Kept my t) {slot nxt64bits stack : Nat} (hfree : t.addrs.getD slot 0 ∉ t.active) :
    (t.active ++ [nxt64bits]).headD stack = (t.addrs.set slot nxt64bits).headD 0 := by
  obtain ⟨host, hactive, haddrs⟩ := h.host
  obtain ⟨others, hactive⟩ := List.head?_eq_some_iff.mp hactive
  obtain ⟨rest, haddrs⟩ := List.head?_eq_some_iff.mp haddrs
  rw [hactive, haddrs] at hfree
  cases slot with
  | zero => exact absurd List.mem_cons_self hfree
  | succ slot =>
    rw [hactive, haddrs]
    rfl

theorem addplayer (h : Kept my t) {stack nxt64bits : Nat} {balances : Nat → Int}
    (hcall : Orderly t (.addplayer stack nxt64bits balances)) :
    ∃ ret next, t.pangeaAddplayer stack nxt64bits balances = some (ret, next) ∧ Kept my next := by
  rw [Table.pangeaAddplayer]
  split
  case isTrue => exact ⟨_, t, rfl, h⟩
  case isFalse hnew =>
    cases hopen : t.openslot balances with
    | none => exact ⟨_, t, rfl, h⟩
    | some slot =>
      dsimp only
      split
      case isTrue => exact ⟨_, t, rfl, h⟩
      case isFalse hroom =>
        have hfits := h.fits
        have hlength : t.active.length + 1 ≤ CARDS777_MAXPLAYERS := by omega
        rw [if_neg (not_le.mpr (Nat.lt_of_succ_le hlength))]
        obtain ⟨hfree, hnode⟩ := hcall hnew (not_le.mp hroom) slot hopen
        have hlt := openslot_lt hopen
        have hseated := slots_iff.mp h.slots
        have hstay {account : Nat} (hmem : account ∈ t.active) : account ∈ t.addrs.set slot nxt64bits :=
          mem_set_of_ne (hseated account hmem) fun heq => hfree (heq ▸ hmem)
        have hself : nxt64bits ∈ t.addrs.set slot nxt64bits := List.mem_set hlt nxt64bits
        have hordered : ∃ ret next,
            Table.pangeaNeworder { t with addrs := t.addrs.set slot nxt64bits, active := t.active ++ [nxt64bits] } stack
              (t.active ++ [nxt64bits]) = some (ret, next) ∧ Kept my next := by
          refine kept_neworder ?_ ?_ ?_ ?_ (accepts_iff.mpr ⟨?_, ?_⟩) ?_ ?_
          · dsimp only
            rw [List.getD_eq_getElem?_getD, List.getElem?_set_ne hnode, ← List.getD_eq_getElem?_getD]
            exact h.mine
          · exact List.ne_nil_of_mem hself
          · exact (List.length_set ..).trans_le hfits
          · exact overruns_of_le ((List.length_append ..).trans_le hlength)
          · exact h.headD_append_set hfree
          · intro account hmem
            rcases List.mem_append.mp (List.mem_of_mem_tail hmem) with hmem | hmem
            · exact hstay hmem
            · rwa [List.mem_singleton.mp hmem]
          · exact List.append_ne_nil_of_right_ne_nil _ (List.cons_ne_nil _ _)
          · exact h.distinct.append (List.nodup_singleton _)
              (List.disjoint_singleton.mpr fun hmem => hnew (hseated _ hmem))
        obtain ⟨ret, next, hnext, hkept⟩ := hordered
        rw [hnext]
        exact ⟨_, next, rfl, hkept⟩

theorem newhand (h : Kept my t) {stack : Nat} {valid : Bool} {active : List Nat}
    (hcall : Orderly t (.newhand stack valid active)) :
    ∃ ret next, t.pangeaNewhand stack valid active = some (ret, next) ∧ Kept my next := by
  rw [Table.pangeaNewhand]
  dsimp only
  split
  case isFalse => exact ⟨_, t, rfl, h⟩
  case isTrue hvalid =>
    have hseats {u : Table} (hu : Kept my u) (button numhands : Nat) :
        Kept my { u with button := button, numhands := numhands } :=
      ⟨⟨hu.distinct, hu.slots, hu.host, hu.count, hu.position⟩, hu.mine, hu.fits⟩
    split
    case isTrue => exact ⟨_, _, rfl, hseats h _ _⟩
    case isFalse hnode =>
      obtain ⟨hfits, hnodup⟩ := hcall hvalid hnode
      rw [if_neg (not_lt.mpr hfits)]
      split
      case isTrue hne =>
        obtain ⟨ret, next, hnext, hkept⟩ := h.neworder (overruns_of_le hfits) fun haccept => ⟨hne, hnodup haccept⟩
        rw [hnext]
        exact ⟨_, _, rfl, hseats hkept _ _⟩
      case isFalse =>
        have hover : t.overruns stack t.active = false := overruns_of_le h.active_fits
        obtain ⟨ret, next, hnext, hkept⟩ := h.neworder hover fun _ => ⟨h.active_ne_nil, h.distinct⟩
        rw [hnext]
        exact ⟨_, _, rfl, hseats hkept _ _⟩

theorem step (h : Kept my t) {c : Call} (hcall : Orderly t c) : ∃ next, step t c = some next ∧ Kept my next := by
  have hcalled : ∃ ret next, call t c = some (ret, next) ∧ Kept my next := by
    cases c with
    | neworder => exact h.neworder hcall.1 hcall.2
    | inactivate => exact h.inactivate hcall
    | addplayer => exact h.addplayer hcall
    | newhand => exact h.newhand hcall
  obtain ⟨ret, next, hnext, hkept⟩ := hcalled
  rw [PangeaSeats.step, hnext]
  exact ⟨next, rfl, hkept⟩

theorem run (h : Kept my t) {calls : List Call} (hrun : OrderlyRun t calls) :
    ∃ last, run t calls = some last ∧ Kept my last := by
  induction calls generalizing t with
  | nil => exact ⟨t, rfl, h⟩
  | cons c calls ih =>
    obtain ⟨hcall, hrest⟩ := hrun
    obtain ⟨next, hnext, hkept⟩ := h.step hcall
    obtain ⟨last, hlast, hend⟩ := ih hkept (hrest next hnext)
    refine ⟨last, ?_, hend⟩
    rw [PangeaSeats.run, List.foldlM_cons, hnext]
    exact hlast

end Kept

/-- A table starts in order if its addresses are distinct and one of them is that of the node. -/
theorem kept_create {addrs : List Nat} {myind : Nat} (hnodup : addrs.Nodup) (hmy : addrs[myind]? = some my)
    (hcreate : pangeaCreate addrs myind = some t) : Kept my t := by
  rw [pangeaCreate] at hcreate
  split at hcreate
  case isTrue => cases hcreate
  case isFalse hfits =>
    cases hcreate
    obtain ⟨hlt, hget⟩ := List.getElem?_eq_some_iff.mp hmy
    have hpos : addrs ≠ [] := List.ne_nil_of_length_pos (Nat.zero_lt_of_lt hlt)
    obtain ⟨host, rest, heq⟩ := List.exists_cons_of_ne_nil hpos
    refine ⟨⟨hnodup, slots_iff.mpr fun _ h => h, ⟨host, ?_, ?_⟩, rfl, ?_⟩, ?_, not_lt.mp hfits⟩
    · dsimp only
      rw [heq]
      rfl
    · dsimp only
      rw [heq]
      rfl
    · dsimp only
      rw [Table.pangeaSearch, place, if_pos (List.mem_of_getElem? hmy), ← hget, hnodup.idxOf_getElem]
    · dsimp only
      rw [List.getD_eq_getElem?_getD, hmy]
      rfl

/-- Whatever orders, departures, newcomers and hands there are, all calls come back and the seats stay in order
while no order is too long or names an account twice and no newcomer gets the slot of a player in the order
or of the node. -/
theorem seated_of_orderlyRun {addrs : List Nat} {myind : Nat} {calls : List Call} (hnodup : addrs.Nodup)
    (hmy : addrs[myind]? = some my) (hcreate : pangeaCreate addrs myind = some t) (hrun : OrderlyRun t calls) :
    ∃ last, run t calls = some last ∧ Seated my last := by
  obtain ⟨last, hlast, hkept⟩ := (kept_create hnodup hmy hcreate).run hrun
  exact ⟨last, hlast, hkept.toSeated⟩

/-- A table in order is one that a hand can be played at, with the same slots. -/
theorem Seated.seating (h : Seated my t) (hfits : t.addrs.length ≤ CARDS777_MAXPLAYERS) :
    ∃ seating : Seating, seating.addrs = t.addrs ∧ seating.active = t.active ∧ seating.N = t.N ∧
      ∀ ind < seating.N, t.pangeaSlot ind = seating.pangeaSlot ind := by
  obtain ⟨host, hactive, hfirst⟩ := h.host
  have hfound := slots_iff.mp h.slots
  have hlength : t.active.length ≤ t.addrs.length := (h.distinct.subperm hfound).length_le
  have hne : t.active ≠ [] := by
    rintro heq
    rw [heq] at hactive
    cases hactive
  refine ⟨⟨t.addrs, t.active, hactive.trans hfirst.symm, hne, hfound, hfits, hlength.trans hfits⟩, rfl, rfl, h.count, ?_⟩
  intro ind hind
  have hmem : t.active.getD ind 0 ∈ t.addrs := by
    rw [List.getD_eq_getElem?_getD, List.getElem?_eq_getElem hind, Option.getD_some]
    exact hfound _ (List.getElem_mem hind)
  rw [Table.pangeaSlot, Table.pangeaTableaddr, place, if_pos hmem]
  rfl

def fourPlayers (myind : Nat) : Table := ⟨[11, 22, 33, 44], [11, 22, 33, 44], 4, 3, myind, myind, 0, 0⟩

/-- The third player leaves after a new order, and a newcomer gets the slot of the fourth one. -/
def newcomerCalls : List Call :=
  [.newhand 0 true [11, 33, 22], .inactivate 0 33, .addplayer 0 55 fun i => if i = 3 then 0 else 100]

theorem newcomer_in_open_slot : ∃ last, run (fourPlayers 1) newcomerCalls = some last ∧ Seated 22 last := by
  have hcreate : pangeaCreate [11, 22, 33, 44] 1 = some (fourPlayers 1) := rfl
  refine seated_of_orderlyRun (by decide) (by decide) hcreate ?_
  refine ⟨fun _ _ => ⟨by decide, fun _ => by decide⟩, fun next hnext => ?_⟩
  cases hnext
  refine ⟨fun _ => by decide, fun next hnext => ?_⟩
  cases hnext
  refine ⟨fun _ _ slot hslot => ?_, fun _ _ => trivial⟩
  cases hslot
  decide

/-- A newcomer gets the slot of a player who has lost everything and is still in the order: that player
has no address any more and the deck has one player less than the order. An order that names an account
twice is accepted, and one of ten accounts does not fit. -/
theorem newcomer_in_active_slot :
    (∃ last, run (fourPlayers 0) [.neworder 0 [11, 22], .addplayer 0 55 fun i => if i = 1 then 0 else 100] = some last ∧
      ¬ Seated 11 last ∧ last.pangeaSlot 1 = -1) ∧
    (∃ last, run (fourPlayers 1) [.newhand 0 true [11, 22, 22]] = some last ∧ ¬ Seated 22 last) ∧
    run (fourPlayers 1) [.newhand 0 true (List.replicate 10 11)] = none := by
  refine ⟨⟨_, rfl, fun h => absurd (h.slots 1 (by decide)) (by decide), by decide⟩,
    ⟨_, rfl, fun h => absurd h.distinct (by decide)⟩, rfl⟩

end SuperNet.Games.PangeaSeats
