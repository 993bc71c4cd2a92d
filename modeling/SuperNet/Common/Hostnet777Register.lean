import Mathlib.Tactic

/-! The clients of a hostnet777 server: which slots they get and which slots the server polls. -/
namespace SuperNet.Common.Hostnet777Register

abbrev Bits256 := List UInt8

/-- `struct hostnet777_id`, as far as registration goes. A slot is free when `nxt64bits` is 0. -/
structure Id where
  pubkey : Bits256
  nxt64bits : Nat
  pmsock : Int

/-- A slot that holds nobody. -/
def Id.free : Id := ⟨List.replicate 32 0, 0, -1⟩

/-- `struct hostnet777_server`; slot 0 is the server itself. -/
structure Server where
  num : Nat
  max : Nat
  clients : Nat → Id

/-- What registration uses of the rest of the program: the account id of a public key and the socket
that is made for a slot. -/
structure Net where
  nxt64bits : Bits256 → Nat
  createsocket : Nat → Int

namespace Server

def occupied (srv : Server) (slot : Nat) : Bool := (srv.clients slot).nxt64bits ≠ 0

/-- The number of clients, as `hostnet777_register` counts them. -/
def registered (srv : Server) : Nat := (List.range srv.max).countP srv.occupied

/-- The slots that `hostnet777_idle` polls. -/
def idle (srv : Server) : List Nat :=
  (List.range srv.num).filter fun slot => 1 ≤ slot ∧ 0 ≤ (srv.clients slot).pmsock

end Server

variable (net : Net)

def server (srvpubkey : Bits256) (maxclients : Nat) : Server where
  num := 1
  max := maxclients
  clients := Function.update (fun _ => Id.free) 0 ⟨srvpubkey, net.nxt64bits srvpubkey, -1⟩

namespace Server

/-- `hostnet777_find`: the slot of a client. -/
def find (srv : Server) (senderpub : Bits256) : Option Nat :=
  if 0 < srv.num then (List.range srv.max).find? fun i => (srv.clients i).nxt64bits = net.nxt64bits senderpub
  else none

/-- `hostnet777_replace` in a slot of the table. -/
def replace (srv : Server) (clientpub : Bits256) (slot : Nat) : Server :=
  { srv with clients := Function.update srv.clients slot {
      pubkey := clientpub
      nxt64bits := net.nxt64bits clientpub
      pmsock := if (srv.clients slot).pmsock < 0 then net.createsocket slot else (srv.clients slot).pmsock } }

/-- What `hostnet777_register` does with a client that is there already if it is given no slot. -/
def deregister (srv : Server) (slot : Nat) : Server :=
  { srv with clients := Function.update srv.clients slot Id.free, num := srv.num - 1 }

/-- The slot that `hostnet777_register` looks for if it is given none. -/
def openslot (srv : Server) : Nat :=
  ((List.range' 1 (srv.max - 1)).find? fun slot => ¬ srv.occupied slot).getD (Nat.max 1 srv.max)

/-- `hostnet777_register` of a client in a slot, with its result. -/
def registerAt (srv : Server) (clientpub : Bits256) (slot : Int) : Int × Server :=
  if srv.max ≤ srv.num then (-1, srv)
  else
    match srv.find net clientpub with
    | some i => (i, srv)
    | none =>
      if slot ≠ srv.num then (-1, srv)
      else
        let srv := { srv.replace net clientpub srv.num with num := srv.num + 1 }
        (slot, { srv with num := srv.registered })

def register (srv : Server) (clientpub : Bits256) (slot : Int) : Int × Server :=
  if slot < 0 then
    match srv.find net clientpub with
    | some i => (-1, srv.deregister i)
    | none => srv.registerAt net clientpub srv.openslot
  else srv.registerAt net clientpub slot

end Server

inductive Call
  | register (clientpub : Bits256) (slot : Int)
  | replace (clientpub : Bits256) (slot : Nat)

def step (srv : Server) : Call → Server
  | .register clientpub slot => (srv.register net clientpub slot).2
  | .replace clientpub slot => srv.replace net clientpub slot

/-- Every client is polled, no public key is there twice and there is room for a new client until the
table is full. -/
structure Registration (srv : Server) : Prop where
  below : ∀ slot < srv.max, srv.occupied slot → slot < srv.num
  polled : ∀ slot < srv.max, 1 ≤ slot → srv.occupied slot → 0 ≤ (srv.clients slot).pmsock → slot ∈ srv.idle
  distinct : ∀ i < srv.max, ∀ j < srv.max, srv.occupied i → srv.occupied j →
    (srv.clients i).pubkey = (srv.clients j).pubkey → i = j
  open_until_full : srv.registered < srv.max → ∀ clientpub, net.nxt64bits clientpub ≠ 0 →
    (∀ i < srv.max, (srv.clients i).nxt64bits ≠ net.nxt64bits clientpub) →
    0 ≤ (srv.register net clientpub (-1)).1

/-- The calls that leave no hole and no double entry: a client leaves only from the last slot in use
and not from that of the server, and a client is put only in a slot in use, with an account id that no
other slot has. -/
def Orderly (srv : Server) : Call → Prop
  | .register clientpub slot => slot < 0 → (net.nxt64bits clientpub = 0 → srv.num = srv.max) ∧
      ∀ i < srv.max, srv.occupied i → (srv.clients i).nxt64bits = net.nxt64bits clientpub → 1 ≤ i ∧ i + 1 = srv.num
  | .replace clientpub slot => net.nxt64bits clientpub ≠ 0 ∧ slot < srv.num ∧
      ∀ i < srv.max, (srv.clients i).nxt64bits = net.nxt64bits clientpub → i = slot

instance (srv : Server) : (call : Call) → Decidable (Orderly net srv call)
  | .register clientpub slot => inferInstanceAs (Decidable (slot < 0 → (net.nxt64bits clientpub = 0 → srv.num = srv.max) ∧
      ∀ i < srv.max, srv.occupied i → (srv.clients i).nxt64bits = net.nxt64bits clientpub → 1 ≤ i ∧ i + 1 = srv.num))
  | .replace clientpub slot => inferInstanceAs (Decidable (net.nxt64bits clientpub ≠ 0 ∧ slot < srv.num ∧
      ∀ i < srv.max, (srv.clients i).nxt64bits = net.nxt64bits clientpub → i = slot))

/-- The states that orderly calls lead to. -/
inductive OrderlyRun (start : Server) : Server → Prop
  | start : OrderlyRun start start
  | call {srv : Server} (call : Call) (h : OrderlyRun start srv) (hcall : Orderly net srv call) :
    OrderlyRun start (step net srv call)

/-- The slots in use are the first `num`, and their account ids are distinct. -/
structure Compact (srv : Server) : Prop where
  pos : 1 ≤ srv.num
  le : srv.num ≤ srv.max
  occupied_iff : ∀ slot < srv.max, srv.occupied slot ↔ slot < srv.num
  account : ∀ slot < srv.num, (srv.clients slot).nxt64bits = net.nxt64bits (srv.clients slot).pubkey
  injective : ∀ i < srv.num, ∀ j < srv.num, (srv.clients i).nxt64bits = (srv.clients j).nxt64bits → i = j

section
variable {net} {srv : Server}

private theorem countP_range_lt (n k : Nat) : (List.range n).countP (fun i => i < k) = min n k := by
  induction n with
  | zero => simp
  | succ n ih =>
    rw [List.range_succ, List.countP_append, ih, List.countP_singleton]
    split <;> simp_all <;> omega

private theorem Server.occupied_false {slot : Nat} : ¬ srv.occupied slot ↔ (srv.clients slot).nxt64bits = 0 := by
  rw [Server.occupied, decide_eq_true_iff, not_not]

theorem Compact.registered (h : Compact net srv) : srv.registered = srv.num := by
  have hcount : srv.registered = (List.range srv.max).countP fun i => i < srv.num := by
    apply List.countP_congr
    intro slot hslot
    rw [h.occupied_iff slot (List.mem_range.mp hslot), decide_eq_true_iff]
  rw [hcount, countP_range_lt, Nat.min_eq_right h.le]

/-- The first free slot is the one behind the last client. -/
theorem Compact.openslot (h : Compact net srv) (hroom : srv.num < srv.max) : srv.openslot = srv.num := by
  have hpos := h.pos
  have hfree : ¬ srv.occupied srv.num := fun hocc => absurd ((h.occupied_iff _ hroom).mp hocc) (lt_irrefl _)
  have hfind : (List.range' 1 (srv.max - 1)).find? (fun slot => ¬ srv.occupied slot) = some srv.num := by
    refine List.find?_range'_eq_some.mpr ⟨decide_eq_true hfree, List.mem_range'_1.mpr ⟨hpos, by omega⟩, ?_⟩
    intro slot _ hslot
    have hocc : srv.occupied slot := (h.occupied_iff slot (hslot.trans hroom)).mpr hslot
    simp [hocc]
  rw [Server.openslot, hfind]
  rfl

theorem Server.find_eq_none (hpos : 1 ≤ srv.num) {clientpub : Bits256} :
    srv.find net clientpub = none ↔ ∀ i < srv.max, (srv.clients i).nxt64bits ≠ net.nxt64bits clientpub := by
  rw [Server.find, if_pos (Nat.lt_of_succ_le hpos), List.find?_range_eq_none]
  simp

theorem Server.find_eq_some {clientpub : Bits256} {i : Nat} (h : srv.find net clientpub = some i) :
    i < srv.max ∧ (srv.clients i).nxt64bits = net.nxt64bits clientpub := by
  rw [Server.find] at h
  split at h
  case isTrue => exact ⟨List.mem_range.mp (List.mem_of_find?_eq_some h), by simpa using List.find?_some h⟩
  case isFalse => cases h

/-- A client with a new account id in a slot in use, or in the one behind them. -/
theorem Compact.replace (h : Compact net srv) {clientpub : Bits256} {slot num : Nat} (hslot : slot ≤ srv.num)
    (hroom : slot < srv.max) (hnum : num = Nat.max srv.num (slot + 1)) (hzero : net.nxt64bits clientpub ≠ 0)
    (hnew : ∀ i < srv.max, (srv.clients i).nxt64bits = net.nxt64bits clientpub → i = slot) :
    Compact net { srv.replace net clientpub slot with num := num } := by
  have hle := h.le
  have hself : (srv.replace net clientpub slot).clients slot =
      ⟨clientpub, net.nxt64bits clientpub, if (srv.clients slot).pmsock < 0 then net.createsocket slot
        else (srv.clients slot).pmsock⟩ := Function.update_self ..
  have hother {i : Nat} (hi : i ≠ slot) : (srv.replace net clientpub slot).clients i = srv.clients i :=
    Function.update_of_ne hi ..
  have hbelow {i : Nat} (hi : i < num) (hne : i ≠ slot) : i < srv.num := by
    rcases Nat.le_total srv.num (slot + 1) with hcase | hcase
    · rw [hnum, Nat.max_eq_max, Nat.max_eq_right hcase] at hi
      omega
    · rwa [hnum, Nat.max_eq_max, Nat.max_eq_left hcase] at hi
  have hnumle : srv.num ≤ num := hnum ▸ Nat.le_max_left ..
  have hslotlt : slot < num := hnum ▸ Nat.le_max_right ..
  refine ⟨h.pos.trans hnumle, hnum ▸ Nat.max_le.mpr ⟨hle, hroom⟩, fun i hi => ?_, fun i hi => ?_, fun i hi j hj heq => ?_⟩
  · rw [Server.occupied]
    dsimp only
    rcases eq_or_ne i slot with rfl | hne
    · rw [hself]
      simp [hzero, hslotlt]
    · rw [hother hne]
      exact (h.occupied_iff i hi).trans ⟨fun hlt => hlt.trans_le hnumle, fun hlt => hbelow hlt hne⟩
  · dsimp only
    rcases eq_or_ne i slot with rfl | hne
    · rw [hself]
    · rw [hother hne]
      exact h.account i (hbelow hi hne)
  · dsimp only at heq
    rcases eq_or_ne i slot with hi' | hi' <;> rcases eq_or_ne j slot with hj' | hj'
    · rw [hi', hj']
    · rw [hi', hself, hother hj'] at heq
      rw [hi']
      exact (hnew j ((hbelow hj hj').trans_le hle) heq.symm).symm
    · rw [hj', hself, hother hi'] at heq
      rw [hj']
      exact hnew i ((hbelow hi hi').trans_le hle) heq
    · rw [hother hi', hother hj'] at heq
      exact h.injective i (hbelow hi hi') j (hbelow hj hj') heq

theorem Compact.deregister (h : Compact net srv) {slot : Nat} (hslot : 1 ≤ slot) (hlast : slot + 1 = srv.num) :
    Compact net (srv.deregister slot) := by
  have hle := h.le
  have hself : (srv.deregister slot).clients slot = Id.free := Function.update_self ..
  have hother {i : Nat} (hi : i ≠ slot) : (srv.deregister slot).clients i = srv.clients i :=
    Function.update_of_ne hi ..
  have hnum : (srv.deregister slot).num = slot := by
    rw [Server.deregister, ← hlast]
    rfl
  refine ⟨hnum ▸ hslot, ?_, fun i hi => ?_, fun i hi => ?_, fun i hi j hj heq => ?_⟩
  · rw [hnum]
    exact (Nat.lt_succ_self slot).le.trans (hlast.le.trans hle)
  · rw [hnum, Server.occupied]
    rcases eq_or_ne i slot with rfl | hne
    · rw [hself]
      simp [Id.free]
    · rw [hother hne]
      exact (h.occupied_iff i hi).trans (by omega)
  · rw [hnum] at hi
    rw [hother hi.ne]
    exact h.account i (by omega)
  · rw [hnum] at hi hj
    rw [hother hi.ne, hother hj.ne] at heq
    exact h.injective i (by omega) j (by omega) heq

/-- A client that is not there is put behind the last one while there is room. -/
theorem Compact.registerAt_new (h : Compact net srv) {clientpub : Bits256} (hroom : srv.num < srv.max)
    (hnew : srv.find net clientpub = none) :
    (srv.registerAt net clientpub srv.num).1 = srv.num ∧ Compact net (srv.registerAt net clientpub srv.num).2 := by
  have hids := (Server.find_eq_none h.pos).mp hnew
  have hzero : net.nxt64bits clientpub ≠ 0 := by
    have hfree : ¬ srv.occupied srv.num := fun hocc => absurd ((h.occupied_iff _ hroom).mp hocc) (lt_irrefl _)
    rw [← Server.occupied_false.mp hfree]
    exact (hids srv.num hroom).symm
  have hput : Compact net { srv.replace net clientpub srv.num with num := srv.num + 1 } :=
    h.replace le_rfl hroom (Nat.max_eq_right (Nat.le_succ _)).symm hzero fun i hi heq => absurd heq (hids i hi)
  rw [Server.registerAt, if_neg (not_le.mpr hroom), hnew]
  dsimp only
  rw [if_neg (not_not_intro rfl), hput.registered]
  exact ⟨rfl, hput⟩

theorem Compact.registerAt (h : Compact net srv) (clientpub : Bits256) (slot : Int) :
    Compact net (srv.registerAt net clientpub slot).2 := by
  by_cases hfull : srv.max ≤ srv.num
  · rwa [Server.registerAt, if_pos hfull]
  · cases hfind : srv.find net clientpub with
    | some i => rwa [Server.registerAt, if_neg hfull, hfind]
    | none =>
      by_cases hslot : slot = srv.num
      · rw [hslot]
        exact (h.registerAt_new (not_le.mp hfull) hfind).2
      · rw [Server.registerAt, if_neg hfull, hfind]
        dsimp only
        rwa [if_pos hslot]

theorem Compact.step (h : Compact net srv) {call : Call} (hcall : Orderly net srv call) :
    Compact net (step net srv call) := by
  cases call with
  | register clientpub slot =>
    rw [Hostnet777Register.step, Server.register]
    split
    case isTrue hslot =>
      obtain ⟨hzero, hlast⟩ := hcall hslot
      cases hfind : srv.find net clientpub with
      | none => exact h.registerAt clientpub _
      | some i =>
        obtain ⟨hi, hid⟩ := Server.find_eq_some hfind
        have hocc : srv.occupied i := by
          by_contra hfree
          have hnum := hzero (hid ▸ Server.occupied_false.mp hfree)
          exact hfree ((h.occupied_iff i hi).mpr (hnum ▸ hi))
        obtain ⟨hone, hnum⟩ := hlast i hi hocc hid
        exact h.deregister hone hnum
    case isFalse => exact h.registerAt clientpub slot
  | replace clientpub slot =>
    obtain ⟨hzero, hslot, hnew⟩ := hcall
    exact h.replace hslot.le (hslot.trans_le h.le) (Nat.max_eq_left hslot).symm hzero hnew

theorem Compact.registration (h : Compact net srv) : Registration net srv where
  below slot hslot hocc := (h.occupied_iff slot hslot).mp hocc
  polled slot hslot hone hocc hsock := by
    rw [Server.idle, List.mem_filter, List.mem_range, decide_eq_true_iff]
    exact ⟨(h.occupied_iff slot hslot).mp hocc, hone, hsock⟩
  distinct i hi j hj hocci hoccj heq := by
    have hi := (h.occupied_iff i hi).mp hocci
    have hj := (h.occupied_iff j hj).mp hoccj
    refine h.injective i hi j hj ?_
    rw [h.account i hi, h.account j hj, heq]
  open_until_full hroom clientpub _ hnew := by
    rw [h.registered] at hroom
    have hfind := (Server.find_eq_none h.pos).mpr hnew
    rw [Server.register, if_pos (by decide), hfind]
    dsimp only
    rw [h.openslot hroom, (h.registerAt_new hroom hfind).1]
    exact Int.natCast_nonneg _

private theorem Server.one_le_openslot : 1 ≤ srv.openslot := by
  rw [Server.openslot]
  cases hfind : (List.range' 1 (srv.max - 1)).find? fun slot => ¬ srv.occupied slot with
  | none => exact Nat.le_max_left ..
  | some slot => exact (List.mem_range'_1.mp (List.find?_range'_eq_some.mp hfind).2.1).1

/-- A client may leave only from the last slot in use, and the server may not. -/
theorem Compact.registration_deregister_iff (h : Compact net srv) {slot : Nat} (hslot : slot < srv.num) :
    Registration net (srv.deregister slot) ↔ 1 ≤ slot ∧ slot + 1 = srv.num := by
  refine ⟨fun hreg => ?_, fun hlast => (h.deregister hlast.1 hlast.2).registration⟩
  have hle := h.le
  have hlast : slot + 1 = srv.num := by
    by_contra hne
    have hother : (srv.deregister slot).clients (srv.num - 1) = srv.clients (srv.num - 1) :=
      Function.update_of_ne (by omega) ..
    have hocc : (srv.deregister slot).occupied (srv.num - 1) := by
      rw [Server.occupied, hother]
      exact (h.occupied_iff (srv.num - 1) (by omega)).mpr (by omega)
    exact lt_irrefl _ (hreg.below (srv.num - 1) (by change _ < srv.max; omega) hocc)
  refine ⟨Nat.one_le_iff_ne_zero.mpr ?_, hlast⟩
  rintro rfl
  have hempty : (srv.deregister 0).num = 0 := by
    rw [Server.deregister, ← hlast]
  have hfree : ∀ i < srv.max, ((srv.deregister 0).clients i).nxt64bits = 0 := by
    intro i hi
    rcases eq_or_ne i 0 with rfl | hne
    · rw [Server.deregister]
      rfl
    · have hother : (srv.deregister 0).clients i = srv.clients i := Function.update_of_ne hne ..
      rw [hother]
      exact Server.occupied_false.mp fun hocc => hne (by have := (h.occupied_iff i hi).mp hocc; omega)
  have hroom : (srv.deregister 0).registered < srv.max := by
    have hnone : (srv.deregister 0).registered = 0 := by
      refine List.countP_eq_zero.mpr fun i hi => ?_
      exact Server.occupied_false.mpr (hfree i (List.mem_range.mp hi))
    omega
  have hid : net.nxt64bits (srv.clients 0).pubkey ≠ 0 := by
    rw [← h.account 0 hslot]
    exact of_decide_eq_true ((h.occupied_iff 0 (hslot.trans_le hle)).mpr hslot)
  have hnew := hreg.open_until_full hroom (srv.clients 0).pubkey hid fun i hi => by
    rw [hfree i hi]
    exact hid.symm
  have hfind : (srv.deregister 0).find net (srv.clients 0).pubkey = none := by
    rw [Server.find, if_neg (by rw [hempty]; decide)]
  have hopen : 1 ≤ (srv.deregister 0).openslot := Server.one_le_openslot
  rw [Server.register, if_pos (by decide), hfind] at hnew
  dsimp only at hnew
  rw [Server.registerAt, if_neg (by rw [hempty]; change ¬ srv.max ≤ 0; omega), hfind] at hnew
  dsimp only at hnew
  rw [if_pos (by rw [hempty]; omega)] at hnew
  exact absurd hnew (by simp)

end

theorem step_max (srv : Server) (call : Call) : (step net srv call).max = srv.max := by
  have hat (clientpub : Bits256) (slot : Int) : (srv.registerAt net clientpub slot).2.max = srv.max := by
    rw [Server.registerAt]
    split
    · rfl
    · split
      · rfl
      · split <;> rfl
  cases call with
  | register clientpub slot =>
    rw [step, Server.register]
    split
    · split
      · rfl
      · exact hat _ _
    · exact hat _ _
  | replace => rfl

theorem compact_server {srvpubkey : Bits256} (hsrv : net.nxt64bits srvpubkey ≠ 0) {maxclients : Nat}
    (hmax : 1 ≤ maxclients) : Compact net (server net srvpubkey maxclients) := by
  have hself : (server net srvpubkey maxclients).clients 0 = ⟨srvpubkey, net.nxt64bits srvpubkey, -1⟩ := rfl
  refine ⟨le_rfl, hmax, fun slot _ => ?_, fun slot hslot => ?_, fun i hi j hj _ => ?_⟩
  · rw [Server.occupied, server]
    rcases eq_or_ne slot 0 with rfl | hne
    · simp [hsrv]
    · simp [Id.free, hne]
  · obtain rfl := Nat.lt_one_iff.mp hslot
    rw [hself]
  · rw [Nat.lt_one_iff.mp hi, Nat.lt_one_iff.mp hj]

private theorem registration_of_no_slots {srv : Server} (h : srv.max = 0) : Registration net srv where
  below slot hslot := by omega
  polled slot hslot := by omega
  distinct i hi := by omega
  open_until_full hroom := by omega

/-- Whatever clients come and go, the table stays in order while they leave only from its end and are
replaced only in slots in use. -/
theorem registration_of_orderlyRun {srvpubkey : Bits256} (hsrv : net.nxt64bits srvpubkey ≠ 0) {maxclients : Nat}
    {srv : Server} (hrun : OrderlyRun net (server net srvpubkey maxclients) srv) : Registration net srv := by
  rcases Nat.eq_zero_or_pos maxclients with rfl | hmax
  · have hzero : srv.max = 0 := by
      induction hrun with
      | start => rfl
      | call call _ _ ih => rw [step_max, ih]
    exact registration_of_no_slots net hzero
  · have hcompact : Compact net srv := by
      induction hrun with
      | start => exact compact_server net hsrv hmax
      | call call _ hcall ih => exact ih.step hcall
    exact hcompact.registration

/-- Account ids for the keys below: the first byte of the key. -/
def sampleNet : Net := ⟨fun pubkey => (pubkey.headD 0).toNat, fun slot => slot⟩

def sampleKey (b : UInt8) : Bits256 := List.replicate 32 b

/-- A server with room for four and two clients. -/
def twoClients : Server :=
  step sampleNet (step sampleNet (server sampleNet (sampleKey 1) 4) (.register (sampleKey 2) (-1)))
    (.register (sampleKey 3) (-1))

private theorem twoClients_run : OrderlyRun sampleNet (server sampleNet (sampleKey 1) 4) twoClients :=
  .call _ (.call _ .start (by decide)) (by decide)

/-- The second client leaves and a third one takes its place. -/
theorem last_client_leaves : sampleNet.nxt64bits (sampleKey 1) ≠ 0 ∧
    Registration sampleNet (step sampleNet (step sampleNet twoClients (.register (sampleKey 3) (-1)))
      (.register (sampleKey 4) (-1))) :=
  ⟨by decide, registration_of_orderlyRun sampleNet (by decide)
    (.call _ (.call _ twoClients_run (by decide)) (by decide))⟩

/-- The first of two clients leaves: the second one is in slot 2 of a server that polls up to slot 1,
and with two of four places taken a third client is refused. -/
theorem first_client_leaves :
    ¬ Registration sampleNet (step sampleNet twoClients (.register (sampleKey 2) (-1))) ∧
    (step sampleNet twoClients (.register (sampleKey 2) (-1))).occupied 2 = true ∧
    (step sampleNet twoClients (.register (sampleKey 2) (-1))).idle = [] ∧
    ((step sampleNet twoClients (.register (sampleKey 2) (-1))).register sampleNet (sampleKey 4) (-1)).1 = -1 := by
  refine ⟨fun h => absurd (h.below 2 (by decide) (by decide)) (by decide), by decide, by decide, by decide⟩

end SuperNet.Common.Hostnet777Register
