import SuperNet.Common.Txnet777
import SuperNet.KV.Kv777Durable
import SuperNet.Lib.Runs

/-! The weights of the stored transactions: kept while transactions come in, and recomputed at the start. -/
namespace SuperNet.Common.Txnet777
open SuperNet.Lib.Words SuperNet.Lib.Runs SuperNet.Utils.SaM

/-- The limits of a `struct txnet777_txfilter`. -/
structure TxFilter where
  oldest : Nat
  latest : Nat
  maxitems : Nat

/-- `txnet777_filteriterator` on a transaction: whether the iteration ends, the tables and `numitems`. -/
def filteriterator (filter : TxFilter) (func : Txnet → Tx → Txnet) (s : Txnet × Nat) (tx : Tx) : Bool × (Txnet × Nat) :=
  let s := if (filter.oldest = 0 ∨ filter.oldest ≤ tx.timestamp.toNat) ∧
      (filter.latest = 0 ∨ tx.timestamp.toNat < filter.latest) then
    (if filter.maxitems ≠ 0 then func s.1 ((s.1.lookup tx.sig).getD tx) else s.1, s.2 + 1)
    else s
  (filter.maxitems ≠ 0 ∧ filter.maxitems ≤ s.2, s)

namespace Txnet

def txrefs (net : Txnet) (tx : Tx) : Txnet :=
  (List.finRange 3).foldl (fun net i =>
    match net.txid (tx.refs i).1 with
    | some reftx => net.wtadd 1 reftx tx.txid tx.leverage
    | none => net) net

/-- `txnet777_txinit` before it sorts and prints: both iterations with a filter that has been cleared. -/
def txinit (net : Txnet) : Txnet :=
  let filter : TxFilter := ⟨0, 0, 0⟩
  let net := (walk (filteriterator filter fun net tx => net.store (txclear tx)) (net, 0) net.txs).2.1
  (walk (filteriterator filter txrefs) (net, 0) net.txs).2.1

/-- The stored transactions that refer to a transaction, as `txnet777_txrefs` finds it. -/
def approvers (net : Txnet) (tx : Tx) : List Tx :=
  net.txs.filter fun a => ∃ i, (net.txid (a.refs i).1).map Tx.sig = some tx.sig

/-- The weights and the counts under their signatures. -/
def weights (net : Txnet) : List (Bits384 × Nat × Nat) := net.txs.map fun tx => (tx.sig, tx.wtsum, tx.numrefs)

/-- Every weight is the transaction's own and that of each transaction that refers to it, and these are counted. -/
def Weighed (net : Txnet) : Prop := ∀ tx ∈ net.txs,
  tx.wtsum = u64 (leverageToWt tx.leverage + ((net.approvers tx).map fun a => leverageToWt a.leverage).sum : Nat) ∧
    tx.numrefs = (net.approvers tx).length

instance : DecidablePred Weighed := fun net => inferInstanceAs (Decidable (∀ tx ∈ net.txs, _ ∧ _))

end Txnet

/-- Cleared `filter.maxitems` keeps the functions from being called. -/
theorem txinit_eq (net : Txnet) : net.txinit = net := by
  have hwalk (func : Txnet → Tx → Txnet) (net : Txnet) (n : Nat) :
      (walk (filteriterator ⟨0, 0, 0⟩ func) (net, n) net.txs).2.1 = net :=
    walk_induct (motive := fun (s : Txnet × Nat) => s.1 = net) net.txs rfl fun s tx _ h => by
      simp [filteriterator, h]
  rw [Txnet.txinit, hwalk, hwalk]

/-- The copy that is stored of a transaction. -/
def saved (env : Env) (tx : Tx) : Tx := Txnet.copied env tx (tx.size.getD 0)

/-- The sender, the weight and the references of a transaction. -/
structure Entry where
  sig : Bits384
  leverage : Nat
  reftxids : Fin 3 → Nat
  deriving DecidableEq

def Tx.entry (tx : Tx) : Entry := ⟨tx.sig, tx.leverage, fun i => (tx.refs i).1⟩

def Entry.references (a : Entry) (txid : Nat) : Bool := decide (∃ i, a.reftxids i = txid)

/-- The transactions whose approval by a transaction that comes in has not been counted: all, and when it is
stored already only itself, which is cleared. -/
def Txnet.uncounted (net : Txnet) (tx : Tx) : List Tx :=
  if net.txs.any fun x => x.sig = tx.sig then [tx] else tx :: net.txs

/-- An accepted transaction gives the time of what it approves, and a previous one that it confirms is one that it
alone refers to. -/
structure Approves (env : Env) (net : Txnet) (tx : Tx) : Prop where
  stamps : ∀ a ∈ net.uncounted tx, tx.entry.references a.txid → ∃ i, tx.refs i = (a.txid, a.timestamp.toNat)
  prev : ∀ a ∈ (net.store (txclear (saved env tx))).txs, a.txid = tx.prevtxid → a.senderbits = tx.senderbits →
    checksig env a tx.prevprivkey →
      ∀ b ∈ (net.store (txclear (saved env tx))).txs, b.entry.references a.txid ↔ b.sig = tx.sig

/-- A refused transaction came with its own weight and approves nothing more. -/
structure Unheeded (net : Txnet) (tx : Tx) : Prop where
  wtsum : tx.wtsum = leverageToWt tx.leverage
  numrefs : tx.numrefs = 0
  refs : ∀ a ∈ net.uncounted tx, tx.entry.references a.txid = false

/-- A transaction that comes in has a legal size and a txid of its own, the size and the entry of what is stored
already, and nothing else in the table refers to it yet; and it approves what it refers to or is refused without
harm. -/
structure Orderly (env : Env) (net : Txnet) (tx : Tx) (recvlen : Nat) : Prop where
  size : INPUTEND ≤ tx.size.getD 0
  txid : tx.txid ≠ 0
  room : net.txs.length + 1 < 2 ^ 32
  alone : ∀ a ∈ net.txs, a.txid = tx.txid → a.sig = tx.sig
  same : ∀ a ∈ net.txs, a.sig = tx.sig → a.size = tx.size ∧ a.entry = tx.entry
  unapproved : ∀ a ∈ net.txs, a.sig ≠ tx.sig → a.entry.references tx.txid = false
  counted : if Txnet.accepts env (txclear tx) recvlen then Approves env net tx else Unheeded net tx

instance (env : Env) (net : Txnet) (tx : Tx) : Decidable (Approves env net tx) :=
  decidable_of_iff (_ ∧ _) ⟨fun ⟨h1, h2⟩ => ⟨h1, h2⟩, fun h => ⟨h.stamps, h.prev⟩⟩

instance (net : Txnet) (tx : Tx) : Decidable (Unheeded net tx) :=
  decidable_of_iff (_ ∧ _ ∧ _) ⟨fun ⟨h1, h2, h3⟩ => ⟨h1, h2, h3⟩, fun h => ⟨h.wtsum, h.numrefs, h.refs⟩⟩

instance (env : Env) (net : Txnet) (tx : Tx) (recvlen : Nat) : Decidable (Orderly env net tx recvlen) :=
  decidable_of_iff
    ((INPUTEND ≤ tx.size.getD 0 ∧ tx.txid ≠ 0 ∧ net.txs.length + 1 < 2 ^ 32) ∧
      ((∀ a ∈ net.txs, a.txid = tx.txid → a.sig = tx.sig) ∧
        (∀ a ∈ net.txs, a.sig = tx.sig → a.size = tx.size ∧ a.entry = tx.entry) ∧
        ∀ a ∈ net.txs, a.sig ≠ tx.sig → a.entry.references tx.txid = false) ∧
      if Txnet.accepts env (txclear tx) recvlen then Approves env net tx else Unheeded net tx)
    ⟨fun ⟨⟨h1, h2, h3⟩, ⟨h4, h5, h6⟩, h7⟩ => ⟨h1, h2, h3, h4, h5, h6, h7⟩,
      fun h => ⟨⟨h.size, h.txid, h.room⟩, ⟨h.alone, h.same, h.unapproved⟩, h.counted⟩⟩

/-- A transaction as it is received, with the state of the node around its tables. -/
structure Delivery where
  env : Env
  rtflag : Bool
  now : Nat
  tx : Tx
  recvlen : Nat

namespace Txnet

def deliver (net : Txnet) (d : Delivery) : Option Txnet := net.incoming d.env d.rtflag d.now d.tx d.recvlen

/-- The delivery is turned away or orderly. -/
def OrderlyAt (net : Txnet) (d : Delivery) : Prop :=
  admits d.env d.rtflag d.now d.tx d.recvlen → Orderly d.env net d.tx d.recvlen

instance (net : Txnet) (d : Delivery) : Decidable (net.OrderlyAt d) := inferInstanceAs (Decidable (_ → _))

/-- The tables after some deliveries. -/
def run (net : Txnet) : List Delivery → Option Txnet
  | [] => some net
  | d :: ds => (net.deliver d).bind fun net => net.run ds

def OrderlyRun : Txnet → List Delivery → Prop
  | _, [] => True
  | net, d :: ds => net.OrderlyAt d ∧ ∀ net' ∈ net.deliver d, OrderlyRun net' ds

instance decidableOrderlyRun : (net : Txnet) → (ds : List Delivery) → Decidable (OrderlyRun net ds)
  | _, [] => inferInstanceAs (Decidable True)
  | net, d :: ds =>
    have : ∀ net', Decidable (OrderlyRun net' ds) := fun net' => decidableOrderlyRun net' ds
    inferInstanceAs (Decidable (net.OrderlyAt d ∧ ∀ net' ∈ net.deliver d, OrderlyRun net' ds))

def empty : Txnet := ⟨[], fun _ => none, fun _ => none⟩

end Txnet

namespace Txnet

def entries (net : Txnet) : List Entry := net.txs.map Tx.entry

def stamps (net : Txnet) : List (Nat × Nat) := net.txs.map fun tx => (tx.txid, tx.timestamp.toNat)

/-- A reference of a transaction gives a stored txid and its time. -/
def stamped (net : Txnet) (tx : Tx) (txid : Nat) (i : Fin 3) : Bool := decide ((tx.refs i).1 = txid ∧ tx.refs i ∈ net.stamps)

theorem mem_store {net : Txnet} {tx x : Tx} : x ∈ (net.store tx).txs ↔ x = tx ∨ (x ∈ net.txs ∧ x.sig ≠ tx.sig) := by
  rw [store]
  dsimp only
  split
  case isTrue hany =>
    obtain ⟨old, hold, hsig⟩ := List.any_eq_true.mp hany
    rw [List.mem_map]
    constructor
    · rintro ⟨y, hy, rfl⟩
      split
      · exact .inl rfl
      case isFalse hne => exact .inr ⟨hy, hne⟩
    · rintro (rfl | ⟨hx, hne⟩)
      · exact ⟨old, hold, if_pos (of_decide_eq_true hsig)⟩
      · exact ⟨x, hx, if_neg hne⟩
  case isFalse hany =>
    have hnew : ∀ x ∈ net.txs, x.sig ≠ tx.sig := fun x hx hsig => hany (List.any_eq_true.mpr ⟨x, hx, decide_eq_true hsig⟩)
    rw [List.mem_append, List.mem_singleton]
    constructor
    · rintro (hx | rfl)
      · exact .inr ⟨hx, hnew x hx⟩
      · exact .inl rfl
    · rintro (rfl | ⟨hx, -⟩)
      · exact .inr rfl
      · exact .inl hx

/-- A value of the stored transactions that a change of one of them keeps. -/
theorem map_store_of_mem {α : Type} {net : Txnet} (tx : Tx) {old : Tx} (f : Tx → α) (hold : old ∈ net.txs)
    (hsig : old.sig = tx.sig) (hf : ∀ x ∈ net.txs, x.sig = tx.sig → f x = f tx) :
    (net.store tx).txs.map f = net.txs.map f := by
  have hany : net.txs.any (fun x => x.sig = tx.sig) = true := List.any_eq_true.mpr ⟨old, hold, decide_eq_true hsig⟩
  rw [store, hany, if_pos rfl, List.map_map]
  refine List.map_congr_left fun x hx => ?_
  rw [Function.comp_apply]
  split
  case isTrue heq => exact (hf x hx heq).symm
  case isFalse => rfl

theorem store_of_new {net : Txnet} {tx : Tx} (hnew : ∀ x ∈ net.txs, x.sig ≠ tx.sig) :
    (net.store tx).txs = net.txs ++ [tx] := by
  rw [store]
  refine if_neg fun hany => ?_
  obtain ⟨x, hx, hsig⟩ := List.any_eq_true.mp hany
  exact hnew x hx (of_decide_eq_true hsig)

theorem store_store {net : Txnet} {tx tx' : Tx} (hsig : tx.sig = tx'.sig) : (net.store tx).store tx' = net.store tx' := by
  have hany : ((net.store tx).txs.any fun x => x.sig = tx'.sig) = true :=
    List.any_eq_true.mpr ⟨tx, mem_store.mpr (.inl rfl), decide_eq_true hsig⟩
  rw [store, hany, if_pos rfl, store, store, hsig]
  split
  case isTrue =>
    rw [List.map_map]
    congr 1
    refine List.map_congr_left fun x _ => ?_
    by_cases hx : x.sig = tx'.sig
    · simp [hx, hsig]
    · simp [hx]
  case isFalse hnew =>
    have hmap : net.txs.map (fun x => if x.sig = tx'.sig then tx' else x) = net.txs := by
      refine (List.map_congr_left fun x hx => if_neg fun h => hnew ?_).trans (List.map_id' _)
      exact List.any_eq_true.mpr ⟨x, hx, decide_eq_true h⟩
    rw [List.map_append, hmap, List.map_singleton, if_pos hsig]

theorem lookup_store (net : Txnet) (tx : Tx) (sig : Bits384) :
    (net.store tx).lookup sig = if tx.sig = sig then some tx else net.lookup sig := by
  rw [store, lookup, lookup]
  split
  case isTrue hany =>
    rw [List.find?_map]
    have hkey : ((fun x : Tx => decide (x.sig = sig)) ∘ fun x => if x.sig = tx.sig then tx else x) =
        fun x => decide (x.sig = sig) := by
      funext x
      rw [Function.comp_apply]
      split
      case isTrue heq => rw [heq]
      case isFalse => rfl
    rw [hkey]
    cases hfind : net.txs.find? fun x => x.sig = sig with
    | none =>
      obtain ⟨x, hx, hsig⟩ := List.any_eq_true.mp hany
      have hother : tx.sig ≠ sig := fun h =>
        List.find?_eq_none.mp hfind x hx (decide_eq_true ((of_decide_eq_true hsig).trans h))
      rw [if_neg hother]
      rfl
    | some x =>
      have hsig := List.find?_some hfind
      rw [Option.map_some, of_decide_eq_true hsig]
      split
      case isTrue heq => rw [if_pos heq.symm]
      case isFalse hne => rw [if_neg fun h => hne h.symm]
  case isFalse hany =>
    have hnone : tx.sig = sig → (net.txs.find? fun x => x.sig = sig) = none := fun h =>
      List.find?_eq_none.mpr fun x hx hsig => hany (List.any_eq_true.mpr ⟨x, hx, decide_eq_true ((of_decide_eq_true hsig).trans h.symm)⟩)
    rw [List.find?_append]
    split
    case isTrue heq =>
      rw [hnone heq, Option.none_or]
      exact List.find?_cons_of_pos (decide_eq_true heq)
    case isFalse hne =>
      rw [List.find?_cons_of_neg (by simpa using hne), List.find?_nil, Option.or_none]

/-- `kv777_write` of a transaction's bytes under its signature is `store`, on the writes that keep the keys. -/
theorem write_store {kv : KV.Kv777.Kv} {rs : List KV.Kv777.Rec} {net : Txnet} (h : kv.Holds rs) (hfree : kv.locked = false)
    (hshows : ∀ sig : Bits384, sig.length = 48 → kv.map sig = (net.lookup sig).map Tx.bytes) {tx : Tx}
    (hok : KV.Kv777.WriteOk kv tx.sig tx.bytes) :
    ∃ kv', KV.Kv777.write kv tx.sig tx.bytes = some kv' ∧
      ∀ sig : Bits384, sig.length = 48 → kv'.map sig = ((net.store tx).lookup sig).map Tx.bytes := by
  obtain ⟨kv', rs', hwrite, hwrote⟩ := KV.Kv777.write_wrote h hfree hok
  refine ⟨kv', hwrite, fun sig hlength => ?_⟩
  rw [hwrote.map, lookup_store]
  split
  · rfl
  · exact hshows sig hlength

/-- The tables with a transaction that has been saved as the copy `x`. -/
def withSaved (net : Txnet) (tx x : Tx) : Txnet :=
  { net.store x with index := Function.update net.index tx.txid (some tx.sig) }

theorem savetx_eq {env : Env} {net : Txnet} {tx : Tx} (hsize : INPUTEND ≤ tx.size.getD 0)
    (hsame : ∀ a ∈ net.txs, a.sig = tx.sig → a.size = tx.size) :
    net.savetx env tx = some (net.withSaved tx (saved env tx), txclear tx) := by
  rw [savetx]
  cases htx : tx.size with
  | none =>
    rw [htx] at hsize
    exact absurd hsize (by decide)
  | some size =>
    rw [htx, Option.getD_some] at hsize
    have hfits : ¬ (size < INPUTEND ∨ ∃ x ∈ net.txs, x.sig = tx.sig ∧ x.size ≠ some size) := by
      rintro (hlt | ⟨x, hx, hsig, hne⟩)
      · omega
      · exact hne ((hsame x hx hsig).trans htx)
    dsimp only
    rw [if_neg hfits, saved, htx]
    rfl

theorem withSaved_withSaved (net : Txnet) {tx x y : Tx} (hx : x.sig = y.sig) :
    (net.withSaved tx x).withSaved (txclear tx) y = net.withSaved tx y := by
  have hindex : Function.update (Function.update net.index tx.txid (some tx.sig)) tx.txid (some tx.sig) =
      Function.update net.index tx.txid (some tx.sig) := Function.update_idem ..
  have hstore : (net.store x).store y = net.store y := store_store hx
  have htwice : (net.withSaved tx x).withSaved (txclear tx) y = { (net.store x).store y with
      index := Function.update (Function.update net.index tx.txid (some tx.sig)) tx.txid (some tx.sig) } := rfl
  rw [htwice, hstore, hindex, withSaved]

end Txnet

private theorem eq_of_txclear {α : Type} (f : Tx → α) (hf : ∀ tx, f (txclear tx) = f tx) {a b : Tx}
    (h : txclear a = txclear b) : f a = f b := by
  rw [← hf a, h, hf b]

private theorem leverageToWt_lt (leverage : Nat) : leverageToWt leverage < 2 ^ 64 := by
  rw [leverageToWt]
  split
  case isTrue hlt =>
    have hpow : 3 ^ (leverage + 1) ≤ 3 ^ 32 := Nat.pow_le_pow_right (by decide) hlt
    have hsmall : 3 ^ 32 < 2 ^ 64 := by decide
    omega
  case isFalse => decide

/-- What is known of a stored transaction when the approvals for which `done` holds have been counted. -/
structure Counted (net : Txnet) (done : Entry → Bool) (tx : Tx) : Prop where
  wtsum : tx.wtsum = u64 (leverageToWt tx.leverage +
    ((net.entries.filter done).map fun a => leverageToWt a.leverage).sum : Nat)
  numrefs : tx.numrefs = (net.entries.filter done).length
  known : ∀ x, (∃ i < tx.numrefs, net.reftxid tx.txid i = x) ↔ ∃ a ∈ net.entries.filter done, Bits384.txid a.sig = x

/-- What is known of a transaction stays known with the same weight and approvals. -/
theorem Counted.transport {net net' : Txnet} {done done' : Entry → Bool} {tx tx' : Tx} (h : Counted net done tx)
    (hclear : txclear tx' = txclear tx) (hwtsum : tx'.wtsum = tx.wtsum) (hnumrefs : tx'.numrefs = tx.numrefs)
    (hfilter : net'.entries.filter done' = net.entries.filter done)
    (hreftxid : ∀ i < tx.numrefs, net'.reftxid tx.txid i = net.reftxid tx.txid i) : Counted net' done' tx' := by
  have hleverage := eq_of_txclear Tx.leverage (fun _ => rfl) hclear
  have hsig := eq_of_txclear Tx.sig (fun _ => rfl) hclear
  refine ⟨?_, ?_, fun x => ?_⟩
  · rw [hwtsum, hleverage, hfilter]
    exact h.wtsum
  · rw [hnumrefs, hfilter]
    exact h.numrefs
  · rw [hnumrefs, hfilter, Tx.txid, hsig, ← h.known x]
    refine exists_congr fun i => and_congr_right fun hi => ?_
    rw [hreftxid i hi]

/-- A transaction that nothing approves has its own weight. -/
theorem Counted.of_none {net : Txnet} {done : Entry → Bool} {tx : Tx} (hwtsum : tx.wtsum = leverageToWt tx.leverage)
    (hnumrefs : tx.numrefs = 0) (hnone : ∀ a ∈ net.entries, done a = false) : Counted net done tx := by
  have hnil : net.entries.filter done = [] := List.filter_eq_nil_iff.mpr fun a ha => by simp [hnone a ha]
  refine ⟨?_, ?_, fun x => ?_⟩
  · rw [hnil, List.map_nil, List.sum_nil, Nat.add_zero, hwtsum]
    exact (unsigned_of_lt (leverageToWt_lt tx.leverage)).symm
  · rw [hnil, hnumrefs, List.length_nil]
  · rw [hnil, hnumrefs]
    exact ⟨fun ⟨_, hi, _⟩ => absurd hi (Nat.not_lt_zero _), fun ⟨_, ha, _⟩ => absurd ha List.not_mem_nil⟩

theorem filter_or_perm {l : List Entry} (hl : (l.map Entry.sig).Nodup) {e : Entry} (he : e ∈ l) {p : Entry → Bool}
    (hp : p e = false) : (l.filter fun a => p a || decide (a.sig = e.sig)).Perm (e :: l.filter p) := by
  induction l with
  | nil => exact absurd he List.not_mem_nil
  | cons a l ih =>
    obtain ⟨hnew, hl⟩ := List.nodup_cons.mp hl
    rcases List.mem_cons.mp he with rfl | he
    · have hrest : (l.filter fun a => p a || decide (a.sig = e.sig)) = l.filter p := by
        refine List.filter_congr fun x hx => ?_
        have hne : x.sig ≠ e.sig := fun hsig => hnew (hsig ▸ List.mem_map_of_mem hx)
        rw [decide_eq_false hne, Bool.or_false]
      rw [List.filter_cons_of_pos (by simp), hrest, List.filter_cons_of_neg (by simp [hp])]
    · have hne : a.sig ≠ e.sig := fun hsig => hnew (hsig ▸ List.mem_map_of_mem he)
      cases ha : p a with
      | true =>
        rw [List.filter_cons_of_pos (by simp [ha]), List.filter_cons_of_pos ha]
        exact ((ih hl he).cons a).trans (.swap e a _)
      | false =>
        rw [List.filter_cons_of_neg (by simp [ha, hne]), List.filter_cons_of_neg (by simp [ha])]
        exact ih hl he

theorem Counted.add {net net' : Txnet} {done : Entry → Bool} {tx tx' : Tx} (h : Counted net done tx)
    (hsigs : (net.entries.map Entry.sig).Nodup) (hroom : net.entries.length < 2 ^ 32) {e : Entry} (he : e ∈ net.entries)
    (hfresh : done e = false) (hclear : txclear tx' = txclear tx)
    (hwtsum : tx'.wtsum = u64 (tx.wtsum + leverageToWt e.leverage : Nat))
    (hnumrefs : tx'.numrefs = u32 (tx.numrefs + 1 : Nat)) (hentries : net'.entries = net.entries)
    (hreftxid : ∀ r n, net'.reftxid r n =
      if (r, n) = (tx.txid, tx.numrefs) then Bits384.txid e.sig else net.reftxid r n) :
    Counted net' (fun a => done a || decide (a.sig = e.sig)) tx' := by
  have hleverage := eq_of_txclear Tx.leverage (fun _ => rfl) hclear
  have hsig := eq_of_txclear Tx.sig (fun _ => rfl) hclear
  have hperm := filter_or_perm hsigs he hfresh
  have hsum := (hperm.map fun a => leverageToWt a.leverage).sum_eq
  have hlength := hperm.length_eq
  rw [List.map_cons, List.sum_cons] at hsum
  rw [List.length_cons, ← h.numrefs] at hlength
  have hle := List.length_filter_le (fun a => done a || decide (a.sig = e.sig)) net.entries
  have hsucc : u32 (tx.numrefs + 1 : Nat) = tx.numrefs + 1 := unsigned_of_lt (by omega)
  refine ⟨?_, ?_, fun x => ?_⟩
  · have hmod (a b c : Nat) (hc : c = a + b) : u64 ((u64 (a : Nat) + b : Nat) : Int) = u64 (c : Nat) := by
      simp only [hc, u64, unsigned_natCast, Nat.mod_add_mod]
    rw [hwtsum, h.wtsum, hleverage, hentries]
    refine hmod _ _ _ ?_
    rw [hsum]
    omega
  · rw [hnumrefs, hsucc, hentries, hlength]
  · rw [hnumrefs, hsucc, hentries, Tx.txid, hsig]
    constructor
    · rintro ⟨i, hi, hx⟩
      rw [hreftxid] at hx
      split at hx
      · exact ⟨e, hperm.mem_iff.mpr List.mem_cons_self, hx⟩
      case isFalse hne =>
        have hi : i < tx.numrefs := lt_of_le_of_ne (Nat.le_of_lt_succ hi) fun hi => hne (by rw [hi])
        obtain ⟨a, ha, htxid⟩ := (h.known x).mp ⟨i, hi, hx⟩
        exact ⟨a, hperm.mem_iff.mpr (List.mem_cons_of_mem e ha), htxid⟩
    · rintro ⟨a, ha, htxid⟩
      rcases List.mem_cons.mp (hperm.mem_iff.mp ha) with rfl | ha
      case inr =>
        obtain ⟨i, hi, hx⟩ := (h.known x).mpr ⟨a, ha, htxid⟩
        refine ⟨i, Nat.lt_succ_of_lt hi, ?_⟩
        rw [hreftxid, if_neg fun h => hi.ne (Prod.ext_iff.mp h).2]
        exact hx
      case inl =>
        refine ⟨tx.numrefs, Nat.lt_succ_self _, ?_⟩
        rw [hreftxid, if_pos rfl, htxid]

/-- The signatures in the table, under their txids. -/
structure Indexed (sigs : List Bits384) (index : Nat → Option Bits384) : Prop where
  nodup : sigs.Nodup
  txids : ∀ sig ∈ sigs, ∀ sig' ∈ sigs, sig.txid = sig'.txid → sig = sig'
  nonzero : ∀ sig ∈ sigs, sig.txid ≠ 0
  index : ∀ txid sig, index txid = some sig ↔ sig ∈ sigs ∧ sig.txid = txid
  room : sigs.length < 2 ^ 32

theorem Indexed.add {sigs : List Bits384} {index : Nat → Option Bits384} (h : Indexed sigs index) {sig : Bits384}
    (hnew : ∀ s ∈ sigs, s.txid ≠ sig.txid) (hnonzero : sig.txid ≠ 0) (hroom : sigs.length + 1 < 2 ^ 32) :
    Indexed (sigs ++ [sig]) (Function.update index sig.txid (some sig)) where
  nodup := List.nodup_append.mpr ⟨h.nodup, List.nodup_singleton sig, fun s hs s' hs' heq =>
    hnew s hs (by rw [heq, List.mem_singleton.mp hs'])⟩
  txids s hs s' hs' htxid := by
    rcases List.mem_append.mp hs with hs | hs
    · rcases List.mem_append.mp hs' with hs' | hs'
      · exact h.txids s hs s' hs' htxid
      · exact absurd (htxid.trans (by rw [List.mem_singleton.mp hs'])) (hnew s hs)
    · rcases List.mem_append.mp hs' with hs' | hs'
      · exact absurd (htxid.symm.trans (by rw [List.mem_singleton.mp hs])) (hnew s' hs')
      · rw [List.mem_singleton.mp hs, List.mem_singleton.mp hs']
  nonzero s hs := by
    rcases List.mem_append.mp hs with hs | hs
    · exact h.nonzero s hs
    · rwa [List.mem_singleton.mp hs]
  index txid s := by
    rw [List.mem_append, List.mem_singleton]
    by_cases htxid : txid = sig.txid
    · subst htxid
      rw [Function.update_self, Option.some.injEq]
      constructor
      · rintro rfl
        exact ⟨.inr rfl, rfl⟩
      · rintro ⟨hs | hs, htxid⟩
        · exact absurd htxid (hnew s hs)
        · exact hs.symm
    · rw [Function.update_of_ne htxid, h.index]
      constructor
      · rintro ⟨hs, rfl⟩
        exact ⟨.inl hs, rfl⟩
      · rintro ⟨hs | rfl, heq⟩
        · exact ⟨hs, heq⟩
        · exact absurd heq.symm htxid
  room := by rwa [List.length_append, List.length_singleton]

/-- The tables when the approvals for which `done` holds have been counted for each txid. -/
structure Kept (net : Txnet) (done : Entry → Nat → Bool) : Prop where
  indexed : Indexed (net.txs.map Tx.sig) net.index
  sized : ∀ tx ∈ net.txs, INPUTEND ≤ tx.size.getD 0
  counted : ∀ tx ∈ net.txs, Counted net (done · tx.txid) tx

namespace Kept
variable {net : Txnet} {done : Entry → Nat → Bool}

theorem eq_of_sig (h : Kept net done) {a b : Tx} (ha : a ∈ net.txs) (hb : b ∈ net.txs) (hsig : a.sig = b.sig) : a = b :=
  List.inj_on_of_nodup_map h.indexed.nodup ha hb hsig

theorem eq_of_txid (h : Kept net done) {a b : Tx} (ha : a ∈ net.txs) (hb : b ∈ net.txs) (htxid : a.txid = b.txid) : a = b :=
  h.eq_of_sig ha hb (h.indexed.txids _ (List.mem_map_of_mem ha) _ (List.mem_map_of_mem hb) htxid)

theorem lookup_eq_some_iff (h : Kept net done) {sig : Bits384} {tx : Tx} :
    net.lookup sig = some tx ↔ tx ∈ net.txs ∧ tx.sig = sig := by
  constructor
  · intro hfind
    have hsig := List.find?_some hfind
    exact ⟨List.mem_of_find?_eq_some hfind, of_decide_eq_true hsig⟩
  · rintro ⟨htx, rfl⟩
    cases hfind : net.lookup tx.sig with
    | none => exact absurd (decide_eq_true rfl) (List.find?_eq_none.mp hfind tx htx)
    | some x =>
      have hsig := List.find?_some hfind
      rw [h.eq_of_sig (List.mem_of_find?_eq_some hfind) htx (of_decide_eq_true hsig)]

theorem txid_eq_some_iff (h : Kept net done) {r : Nat} {tx : Tx} :
    net.txid r = some tx ↔ tx ∈ net.txs ∧ tx.txid = r := by
  rw [Txnet.txid]
  split
  case isTrue hzero =>
    refine ⟨fun h => (nomatch h), fun ⟨htx, hr⟩ => ?_⟩
    exact absurd (hr.trans hzero) (h.indexed.nonzero _ (List.mem_map_of_mem htx))
  case isFalse =>
    rw [Option.bind_eq_some_iff]
    constructor
    · rintro ⟨sig, hindex, hlookup⟩
      obtain ⟨htx, rfl⟩ := h.lookup_eq_some_iff.mp hlookup
      exact ⟨htx, ((h.indexed.index r tx.sig).mp hindex).2⟩
    · rintro ⟨htx, hr⟩
      exact ⟨tx.sig, (h.indexed.index r tx.sig).mpr ⟨List.mem_map_of_mem htx, hr⟩, h.lookup_eq_some_iff.mpr ⟨htx, rfl⟩⟩

/-- Only what `done` says of the stored transactions matters. -/
theorem congr (h : Kept net done) {done' : Entry → Nat → Bool}
    (heq : ∀ a ∈ net.entries, ∀ tx ∈ net.txs, done a tx.txid = done' a tx.txid) : Kept net done' where
  indexed := h.indexed
  sized := h.sized
  counted tx htx := (h.counted tx htx).transport rfl rfl rfl
    (List.filter_congr fun a ha => (heq a ha tx htx).symm) fun _ _ => rfl

end Kept

/-- The transactions of two tables are the same but for their weights and counts. -/
def Txnet.Alike (net net' : Txnet) : Prop := net'.txs.map txclear = net.txs.map txclear

namespace Txnet.Alike
variable {net net' : Txnet}

theorem map {α : Type} (h : Alike net net') (f : Tx → α) (hf : ∀ tx, f (txclear tx) = f tx) :
    net'.txs.map f = net.txs.map f := by
  have hmap := congrArg (List.map f) h
  simp only [List.map_map, Function.comp_def, hf] at hmap
  exact hmap

theorem entries (h : Alike net net') : net'.entries = net.entries := h.map Tx.entry fun _ => rfl

theorem stamps (h : Alike net net') : net'.stamps = net.stamps := h.map (fun tx => (tx.txid, tx.timestamp.toNat)) fun _ => rfl

theorem exists_mem (h : Alike net net') {tx : Tx} (htx : tx ∈ net'.txs) : ∃ old ∈ net.txs, txclear old = txclear tx := by
  have hmem : txclear tx ∈ net.txs.map txclear := h ▸ List.mem_map_of_mem htx
  exact List.mem_map.mp hmem

end Txnet.Alike

private theorem wtadd_counted {net : Txnet} {tx : Tx} (sendflag leverage : Nat) {x : Nat}
    (hdup : ∃ i < tx.numrefs, net.reftxid tx.txid i = x) : ∃ tx', txclear tx' = txclear tx ∧
      (tx'.wtsum = tx.wtsum ∧ tx'.numrefs = tx.numrefs) ∧ net.wtadd sendflag tx x leverage = net.store tx' := by
  refine ⟨{ tx with sent := u32 (tx.sent + sendflag : Nat) }, rfl, ⟨rfl, rfl⟩, ?_⟩
  rw [Txnet.wtadd, if_pos hdup]

private theorem wtadd_new {net : Txnet} {tx : Tx} (sendflag leverage : Nat) {x : Nat}
    (hnew : ¬ ∃ i < tx.numrefs, net.reftxid tx.txid i = x) (hx : x ≠ 0) : ∃ tx', txclear tx' = txclear tx ∧
      (tx'.wtsum = u64 (tx.wtsum + leverageToWt leverage : Nat) ∧ tx'.numrefs = u32 (tx.numrefs + 1 : Nat)) ∧
      (net.wtadd sendflag tx x leverage).txs = (net.store tx').txs ∧
      (net.wtadd sendflag tx x leverage).index = net.index ∧
      ∀ r n, (net.wtadd sendflag tx x leverage).reftxid r n =
        if (r, n) = (tx.txid, tx.numrefs) then x else net.reftxid r n := by
  refine ⟨{ tx with
    sent := u32 (tx.sent + sendflag : Nat)
    wtsum := u64 (tx.wtsum + leverageToWt leverage : Nat)
    numrefs := u32 (tx.numrefs + 1 : Nat) }, rfl, ⟨rfl, rfl⟩, ?_⟩
  rw [Txnet.wtadd, if_neg hnew, if_neg hx]
  refine ⟨rfl, rfl, fun r n => ?_⟩
  rw [Txnet.reftxid]
  dsimp only
  split
  case isTrue heq => rw [heq, Function.update_self, Option.getD_some]
  case isFalse hne => rw [Function.update_of_ne hne, Txnet.reftxid]

namespace Kept
variable {net : Txnet} {done : Entry → Nat → Bool}

theorem entry_eq (h : Kept net done) {a e : Entry} (ha : a ∈ net.entries) (he : e ∈ net.entries) (hsig : a.sig = e.sig) :
    a = e := by
  obtain ⟨x, hx, rfl⟩ := List.mem_map.mp ha
  obtain ⟨y, hy, rfl⟩ := List.mem_map.mp he
  rw [h.eq_of_sig hx hy hsig]

private theorem of_store (h : Kept net done) {tx tx' : Tx} (htx : tx ∈ net.txs) {net' : Txnet} (done' : Entry → Nat → Bool)
    (htxs : net'.txs = (net.store tx').txs) (hclear : txclear tx' = txclear tx) (hindex : net'.index = net.index)
    (hself : net'.entries = net.entries → Counted net' (done' · tx.txid) tx')
    (hothers : net'.entries = net.entries → ∀ t ∈ net.txs, t.sig ≠ tx.sig → Counted net' (done' · t.txid) t) :
    Kept net' done' ∧ Txnet.Alike net net' := by
  have hsig := eq_of_txclear Tx.sig (fun _ => rfl) hclear
  have halike : Txnet.Alike net net' := by
    rw [Txnet.Alike, htxs]
    refine Txnet.map_store_of_mem tx' txclear htx hsig.symm fun x hx hx' => ?_
    rw [h.eq_of_sig hx htx (hx'.trans hsig), hclear]
  refine ⟨⟨?_, fun t ht => ?_, fun t ht => ?_⟩, halike⟩
  · rw [halike.map Tx.sig fun _ => rfl, hindex]
    exact h.indexed
  · obtain ⟨old, hold, hclear⟩ := halike.exists_mem ht
    rw [← eq_of_txclear Tx.size (fun _ => rfl) hclear]
    exact h.sized old hold
  · rw [htxs, Txnet.mem_store] at ht
    rcases ht with rfl | ⟨ht, hne⟩
    · have htxid : t.txid = tx.txid := congrArg Bits384.txid hsig
      rw [htxid]
      exact hself halike.entries
    · exact hothers halike.entries t ht (hsig ▸ hne)

/-- `txnet777_wtadd` counts the approval of a stored transaction once. -/
theorem wtadd (h : Kept net done) {tx : Tx} (htx : tx ∈ net.txs) {e : Entry} (he : e ∈ net.entries) (sendflag : Nat) :
    Kept (net.wtadd sendflag tx (Bits384.txid e.sig) e.leverage)
      (fun a r => done a r || decide (a.sig = e.sig) && decide (r = tx.txid)) ∧
      Txnet.Alike net (net.wtadd sendflag tx (Bits384.txid e.sig) e.leverage) := by
  have hcounted := h.counted tx htx
  have hentries : net.entries.map Entry.sig = net.txs.map Tx.sig := List.map_map
  have hsigs : ∀ a ∈ net.entries, a.sig ∈ net.txs.map Tx.sig := fun a ha => hentries ▸ List.mem_map_of_mem ha
  have hother : ∀ t ∈ net.txs, t.sig ≠ tx.sig → t.txid ≠ tx.txid := fun t ht hne htxid =>
    hne (congrArg Tx.sig (h.eq_of_txid ht htx htxid))
  by_cases hdup : ∃ i < tx.numrefs, net.reftxid tx.txid i = Bits384.txid e.sig
  case pos =>
    obtain ⟨tx', hclear, ⟨hwtsum, hnumrefs⟩, heq⟩ := wtadd_counted sendflag e.leverage hdup
    obtain ⟨a, ha, htxid⟩ := (hcounted.known _).mp hdup
    obtain ⟨ha, hdone⟩ := List.mem_filter.mp ha
    have hae : a = e := h.entry_eq ha he (h.indexed.txids _ (hsigs a ha) _ (hsigs e he) htxid)
    have h' : Kept net fun a r => done a r || decide (a.sig = e.sig) && decide (r = tx.txid) := by
      refine h.congr fun x hx t _ => ?_
      by_cases hboth : x.sig = e.sig ∧ t.txid = tx.txid
      · rw [h.entry_eq hx he hboth.1, hboth.2, ← hae, hdone, Bool.true_or]
      · have hfalse : (decide (x.sig = e.sig) && decide (t.txid = tx.txid)) = false := by
          rw [← Bool.decide_and, decide_eq_false hboth]
        rw [hfalse, Bool.or_false]
    rw [heq]
    refine h'.of_store htx _ rfl hclear rfl (fun hentries => ?_) fun hentries t ht _ => ?_
    · exact (h'.counted tx htx).transport hclear hwtsum hnumrefs (by rw [hentries]) fun _ _ => rfl
    · exact (h'.counted t ht).transport rfl rfl rfl (by rw [hentries]) fun _ _ => rfl
  case neg =>
    have hfresh : done e tx.txid = false := by
      rw [← Bool.not_eq_true]
      exact fun hdone => hdup ((hcounted.known _).mpr ⟨e, List.mem_filter.mpr ⟨he, hdone⟩, rfl⟩)
    have hnonzero : Bits384.txid e.sig ≠ 0 := h.indexed.nonzero _ (hsigs e he)
    obtain ⟨tx', hclear, ⟨hwtsum, hnumrefs⟩, htxs, hindex, hreftxid⟩ :=
      wtadd_new sendflag e.leverage hdup hnonzero
    refine h.of_store htx _ htxs hclear hindex (fun heq => ?_) fun heq t ht hne => ?_
    · have hdone : (fun a : Entry => done a tx.txid || decide (a.sig = e.sig) && decide (tx.txid = tx.txid)) =
          fun a => done a tx.txid || decide (a.sig = e.sig) := by
        funext a
        rw [decide_eq_true rfl, Bool.and_true]
      rw [hdone]
      refine hcounted.add (hentries ▸ h.indexed.nodup) ?_ he hfresh hclear hwtsum hnumrefs heq hreftxid
      rw [Txnet.entries, List.length_map, ← List.length_map (f := Tx.sig)]
      exact h.indexed.room
    · have hdone : (fun a : Entry => done a t.txid || decide (a.sig = e.sig) && decide (t.txid = tx.txid)) =
          fun a => done a t.txid := by
        funext a
        rw [decide_eq_false (hother t ht hne), Bool.and_false, Bool.or_false]
      rw [hdone]
      refine (h.counted t ht).transport rfl rfl rfl (by rw [heq]) fun i _ => ?_
      rw [hreftxid, if_neg fun h => hother t ht hne (Prod.ext_iff.mp h).1]

theorem approve (h : Kept net done) {tx : Tx} (htx : tx.entry ∈ net.entries) (i : Fin 3) :
    Kept (Txnet.approve tx net i) (fun a r => done a r || decide (a.sig = tx.sig) && net.stamped tx r i) ∧
      Txnet.Alike net (Txnet.approve tx net i) := by
  have hskip (hnone : ∀ t ∈ net.txs, ¬ ((tx.refs i).1 = t.txid ∧ tx.refs i ∈ net.stamps)) :
      Kept net fun a r => done a r || decide (a.sig = tx.sig) && net.stamped tx r i := by
    refine h.congr fun a _ t ht => ?_
    rw [Txnet.stamped, decide_eq_false (hnone t ht), Bool.and_false, Bool.or_false]
  rw [Txnet.approve]
  cases hlookup : net.txid (tx.refs i).1 with
  | none =>
    refine ⟨hskip fun t ht hstamped => ?_, rfl⟩
    rw [h.txid_eq_some_iff.mpr ⟨ht, hstamped.1.symm⟩] at hlookup
    cases hlookup
  | some reftx =>
    obtain ⟨hreftx, htxid⟩ := h.txid_eq_some_iff.mp hlookup
    dsimp only
    split
    case isTrue hstamp =>
      have hmem : tx.refs i ∈ net.stamps := List.mem_map.mpr ⟨reftx, hreftx, Prod.ext htxid hstamp⟩
      obtain ⟨hkept, halike⟩ := h.wtadd hreftx htx 0
      refine ⟨hkept.congr fun a _ t _ => ?_, halike⟩
      have heq : decide (t.txid = reftx.txid) = net.stamped tx t.txid i := by
        rw [Txnet.stamped, htxid, decide_eq_decide]
        exact ⟨fun h => ⟨h.symm, hmem⟩, fun h => h.1.symm⟩
      rw [heq]
      rfl
    case isFalse hstamp =>
      refine ⟨hskip fun t _ hstamped => ?_, rfl⟩
      obtain ⟨u, hu, heq⟩ := List.mem_map.mp hstamped.2
      obtain ⟨hutxid, hutime⟩ := Prod.ext_iff.mp heq
      rw [h.eq_of_txid hu hreftx (hutxid.trans htxid.symm)] at hutime
      exact hstamp hutime

theorem approveAll (h : Kept net done) {tx : Tx} (htx : tx.entry ∈ net.entries) (is : List (Fin 3)) :
    Kept (is.foldl (Txnet.approve tx) net)
      (fun a r => done a r || decide (a.sig = tx.sig) && is.any fun i => net.stamped tx r i) ∧
      Txnet.Alike net (is.foldl (Txnet.approve tx) net) := by
  induction is generalizing net done with
  | nil =>
    refine ⟨h.congr fun a _ t _ => ?_, rfl⟩
    rw [List.any_nil, Bool.and_false, Bool.or_false]
  | cons i is ih =>
    obtain ⟨hnext, halike⟩ := h.approve htx i
    obtain ⟨hall, halike'⟩ := ih hnext (halike.entries ▸ htx)
    refine ⟨hall.congr fun a _ t _ => ?_, halike'.trans halike⟩
    have hstamps : (Txnet.approve tx net i).stamped tx t.txid = net.stamped tx t.txid := by
      funext j
      rw [Txnet.stamped, Txnet.stamped, halike.stamps]
    rw [List.any_cons, hstamps, Bool.and_or_distrib_left, Bool.or_assoc]

/-- A previous transaction that is confirmed loses its approvals and gets one back. -/
theorem confirmPrev (h : Kept net Entry.references) (env : Env) {tx : Tx} (htx : tx.entry ∈ net.entries)
    (hprev : ∀ a ∈ net.txs, a.txid = tx.prevtxid → a.senderbits = tx.senderbits → checksig env a tx.prevprivkey →
      ∀ b ∈ net.entries, b.references a.txid ↔ b.sig = tx.sig) :
    ∃ net', net.confirmPrev env true (txclear tx) = some net' ∧ Kept net' Entry.references ∧ net'.entries = net.entries := by
  have hlookup : (txclear tx).prevtxid = tx.prevtxid := rfl
  rw [Txnet.confirmPrev, hlookup]
  cases hfound : net.txid tx.prevtxid with
  | none => exact ⟨net, rfl, h, rfl⟩
  | some prevtx =>
    obtain ⟨hmem, htxid⟩ := h.txid_eq_some_iff.mp hfound
    dsimp only
    split
    case isFalse => exact ⟨net, rfl, h, rfl⟩
    case isTrue hconfirms =>
      have hrefs := hprev prevtx hmem htxid hconfirms.1 hconfirms.2
      have hsame : ∀ a ∈ net.txs, a.sig = prevtx.sig → a.size = prevtx.size := fun a ha hsig => by
        rw [h.eq_of_sig ha hmem hsig]
      have hindex : Function.update net.index prevtx.txid (some prevtx.sig) = net.index :=
        Function.update_eq_self_iff.mpr ((h.indexed.index _ _).mpr ⟨List.mem_map_of_mem hmem, rfl⟩).symm
      have hsaved : (net.withSaved prevtx (saved env prevtx)).store (txclear prevtx) = net.store (txclear prevtx) := by
        rw [Txnet.withSaved, hindex]
        exact Txnet.store_store rfl
      rw [if_pos rfl, Txnet.savetx_eq (h.sized prevtx hmem) hsame]
      refine ⟨_, rfl, ?_⟩
      rw [hsaved]
      obtain ⟨hcleared, halike⟩ := h.of_store hmem (fun a r => a.references r && !decide (r = prevtx.txid)) rfl
        (rfl : txclear (txclear prevtx) = txclear prevtx) rfl
        (fun _ => Counted.of_none rfl rfl fun a _ => by simp)
        (fun heq t ht hne => (h.counted t ht).transport rfl rfl rfl
          (by
            have hother : t.txid ≠ prevtx.txid := fun htxid => hne (congrArg Tx.sig (h.eq_of_txid ht hmem htxid))
            simp [heq, hother])
          fun _ _ => rfl)
      have hclearmem : txclear prevtx ∈ (net.store (txclear prevtx)).txs := Txnet.mem_store.mpr (.inl rfl)
      have hentry : tx.entry ∈ (net.store (txclear prevtx)).entries := by
        rw [halike.entries]
        exact htx
      obtain ⟨hkept, halike'⟩ := hcleared.wtadd hclearmem hentry 0
      refine ⟨hkept.congr fun a ha t _ => ?_, halike'.entries.trans halike.entries⟩
      rw [halike'.entries, halike.entries] at ha
      by_cases hr : t.txid = prevtx.txid
      · have hrefs' : a.references t.txid = decide (a.sig = tx.sig) := by
          rw [hr, Bool.eq_iff_iff, decide_eq_true_iff]
          exact hrefs a ha
        have hback : t.txid = (txclear prevtx).txid := hr
        rw [hrefs', decide_eq_true hr, Bool.not_true, Bool.and_false, Bool.false_or, decide_eq_true hback, Bool.and_true]
        rfl
      · have hback : ¬ t.txid = (txclear prevtx).txid := hr
        rw [decide_eq_false hr, Bool.not_false, Bool.and_true, decide_eq_false hback, Bool.and_false, Bool.or_false]

end Kept

/-- What a stored copy has from the transaction. -/
structure Copy (tx x : Tx) : Prop where
  entry : x.entry = tx.entry
  size : x.size = tx.size
  timestamp : x.timestamp = tx.timestamp

section
variable {env : Env} {net : Txnet} {tx x : Tx} {recvlen : Nat}

/-- What has been counted when a transaction has just been saved: nothing for it, and of its own approvals at most those
of the transactions that have been stored before. -/
structure Fresh (net : Txnet) (tx : Tx) (net' : Txnet) (done : Entry → Nat → Bool) : Prop where
  kept : Kept net' done
  other : ∀ a r, a.sig ≠ tx.sig → done a r = a.references r
  sub : ∀ a r, done a r → a.references r
  own : ∀ t ∈ net'.txs, done tx.entry t.txid = false → tx.entry.references t.txid →
    ∃ u ∈ net.uncounted tx, u.txid = t.txid ∧ u.timestamp = t.timestamp

private theorem Kept.save_repeated (h : Kept net Entry.references) (ho : Orderly env net tx recvlen) (hcopy : Copy tx x)
    (hwtsum : x.wtsum = leverageToWt x.leverage) (hnumrefs : x.numrefs = 0) {old : Tx} (hold : old ∈ net.txs)
    (hsig : old.sig = tx.sig) :
    Fresh net tx (net.withSaved tx x) fun a r => a.references r && !(decide (a.sig = tx.sig) && decide (r = tx.txid)) := by
  have hxsig : x.sig = tx.sig := congrArg Entry.sig hcopy.entry
  have hxtxid : x.txid = tx.txid := congrArg Bits384.txid hxsig
  have hsigs : (net.withSaved tx x).txs.map Tx.sig = net.txs.map Tx.sig :=
    Txnet.map_store_of_mem x Tx.sig hold (hsig.trans hxsig.symm) fun _ _ h => h
  have hentries : (net.withSaved tx x).entries = net.entries :=
    Txnet.map_store_of_mem x Tx.entry hold (hsig.trans hxsig.symm) fun a ha h => by
      rw [hcopy.entry, (ho.same a ha (h.trans hxsig)).2]
  have hindex : (net.withSaved tx x).index = net.index :=
    Function.update_eq_self_iff.mpr ((h.indexed.index _ _).mpr ⟨hsig ▸ List.mem_map_of_mem hold, rfl⟩).symm
  refine ⟨⟨by rw [hsigs, hindex]; exact h.indexed, fun t ht => ?_, fun t ht => ?_⟩, fun a r hne => ?_, fun a r hdone => ?_,
    fun t ht hdone hrefs => ?_⟩
  · rcases Txnet.mem_store.mp ht with rfl | ⟨ht, -⟩
    · rw [hcopy.size]
      exact ho.size
    · exact h.sized t ht
  · rcases Txnet.mem_store.mp ht with rfl | ⟨ht, hne⟩
    · refine Counted.of_none hwtsum hnumrefs fun a ha => ?_
      rw [hentries] at ha
      obtain ⟨y, hy, rfl⟩ := List.mem_map.mp ha
      by_cases hysig : y.sig = tx.sig
      · have htrue : (decide (y.entry.sig = tx.sig) && decide (t.txid = tx.txid)) = true := by
          rw [Bool.and_eq_true]
          exact ⟨decide_eq_true hysig, decide_eq_true hxtxid⟩
        rw [htrue, Bool.not_true, Bool.and_false]
      · rw [hxtxid, ho.unapproved y hy hysig, Bool.false_and]
    · refine (h.counted t ht).transport rfl rfl rfl ?_ fun _ _ => rfl
      rw [hentries]
      refine List.filter_congr fun a _ => ?_
      have hother : t.txid ≠ tx.txid := fun htxid => hne ((ho.alone t ht htxid).trans hxsig.symm)
      rw [decide_eq_false hother, Bool.and_false, Bool.not_false, Bool.and_true]
  · rw [decide_eq_false hne, Bool.false_and, Bool.not_false, Bool.and_true]
  · exact (Bool.and_eq_true_iff.mp hdone).1
  · rw [hrefs, Bool.true_and, Bool.not_eq_false', Bool.and_eq_true_iff] at hdone
    have htxid : t.txid = tx.txid := of_decide_eq_true hdone.2
    have htx : t = x := by
      rcases Txnet.mem_store.mp ht with rfl | ⟨ht, hne⟩
      · rfl
      · exact absurd ((ho.alone t ht htxid).trans hxsig.symm) hne
    refine ⟨tx, ?_, htxid.symm, by rw [htx, hcopy.timestamp]⟩
    rw [Txnet.uncounted]
    split
    · exact List.mem_singleton_self tx
    · exact List.mem_cons_self

private theorem Kept.save_new (h : Kept net Entry.references) (ho : Orderly env net tx recvlen) (hcopy : Copy tx x)
    (hwtsum : x.wtsum = leverageToWt x.leverage) (hnumrefs : x.numrefs = 0) (hnew : ∀ x ∈ net.txs, x.sig ≠ tx.sig) :
    Fresh net tx (net.withSaved tx x) fun a r => a.references r && !decide (a.sig = tx.sig) := by
  have hxsig : x.sig = tx.sig := congrArg Entry.sig hcopy.entry
  have hxtxid : x.txid = tx.txid := congrArg Bits384.txid hxsig
  have hself : x.entry.sig = tx.sig := hxsig
  have htxs : (net.withSaved tx x).txs = net.txs ++ [x] := Txnet.store_of_new fun y hy h => hnew y hy (h.trans hxsig)
  have hentries : (net.withSaved tx x).entries = net.entries ++ [x.entry] := by
    rw [Txnet.entries, htxs, List.map_append]
    rfl
  have hother : ∀ y ∈ net.txs, y.txid ≠ tx.txid := fun y hy htxid => hnew y hy (ho.alone y hy htxid)
  refine ⟨⟨?_, fun t ht => ?_, fun t ht => ?_⟩, fun a r hne => ?_, fun a r hdone => ?_, fun t ht _ _ => ?_⟩
  · rw [htxs, List.map_append, List.map_singleton, hxsig]
    refine h.indexed.add (fun s hs => ?_) ho.txid (by rw [List.length_map]; exact ho.room)
    obtain ⟨y, hy, rfl⟩ := List.mem_map.mp hs
    exact hother y hy
  · rw [htxs] at ht
    rcases List.mem_append.mp ht with ht | ht
    · exact h.sized t ht
    · rw [List.mem_singleton.mp ht, hcopy.size]
      exact ho.size
  · have hold : (net.entries ++ [x.entry]).filter (fun a => a.references t.txid && !decide (a.sig = tx.sig)) =
        net.entries.filter (·.references t.txid) := by
      rw [List.filter_append, List.filter_cons_of_neg (by simp [hself]), List.filter_nil, List.append_nil]
      refine List.filter_congr fun a ha => ?_
      obtain ⟨y, hy, rfl⟩ := List.mem_map.mp ha
      have hne : y.entry.sig ≠ tx.sig := hnew y hy
      rw [decide_eq_false hne, Bool.not_false, Bool.and_true]
    rw [htxs] at ht
    rcases List.mem_append.mp ht with ht | ht
    · exact (h.counted t ht).transport rfl rfl rfl (by rw [hentries, hold]) fun _ _ => rfl
    · obtain rfl := List.mem_singleton.mp ht
      refine Counted.of_none hwtsum hnumrefs fun a ha => ?_
      rw [hentries] at ha
      rcases List.mem_append.mp ha with ha | ha
      · obtain ⟨y, hy, rfl⟩ := List.mem_map.mp ha
        rw [hxtxid, ho.unapproved y hy (hnew y hy), Bool.false_and]
      · rw [List.mem_singleton.mp ha, hself, decide_eq_true rfl, Bool.not_true, Bool.and_false]
  · rw [decide_eq_false hne, Bool.not_false, Bool.and_true]
  · exact (Bool.and_eq_true_iff.mp hdone).1
  · have huncounted : net.uncounted tx = tx :: net.txs := by
      rw [Txnet.uncounted, if_neg]
      intro hany
      obtain ⟨y, hy, hsig⟩ := List.any_eq_true.mp hany
      exact hnew y hy (of_decide_eq_true hsig)
    rw [huncounted]
    rw [htxs] at ht
    rcases List.mem_append.mp ht with ht | ht
    · exact ⟨t, List.mem_cons_of_mem tx ht, rfl, rfl⟩
    · obtain rfl := List.mem_singleton.mp ht
      exact ⟨tx, List.mem_cons_self, hxtxid.symm, hcopy.timestamp.symm⟩

private theorem Kept.save (h : Kept net Entry.references) (ho : Orderly env net tx recvlen) (hcopy : Copy tx x)
    (hwtsum : x.wtsum = leverageToWt x.leverage) (hnumrefs : x.numrefs = 0) :
    ∃ done, Fresh net tx (net.withSaved tx x) done := by
  by_cases hknown : ∃ old ∈ net.txs, old.sig = tx.sig
  · obtain ⟨old, hold, hsig⟩ := hknown
    exact ⟨_, h.save_repeated ho hcopy hwtsum hnumrefs hold hsig⟩
  · push Not at hknown
    exact ⟨_, h.save_new ho hcopy hwtsum hnumrefs hknown⟩

private theorem Fresh.complete {net' : Txnet} {done done' : Entry → Nat → Bool} (h : Fresh net tx net' done)
    (hentry : tx.entry ∈ net'.entries) (hkept : Kept net' done') (hother : ∀ a r, a.sig ≠ tx.sig → done' a r = done a r)
    (hown : ∀ t ∈ net'.txs, done' tx.entry t.txid = tx.entry.references t.txid) : Kept net' Entry.references := by
  refine hkept.congr fun a ha t ht => ?_
  by_cases hsig : a.sig = tx.sig
  · rw [h.kept.entry_eq ha hentry hsig]
    exact hown t ht
  · rw [hother a _ hsig, h.other a _ hsig]

private theorem Fresh.counted {net' : Txnet} {done : Entry → Nat → Bool} (h : Fresh net tx net' done)
    (happroves : Approves env net tx) {t : Tx} (ht : t ∈ net'.txs) {r : Nat} (hr : t.txid = r) :
    (done tx.entry r || (List.finRange 3).any fun i => net'.stamped tx r i) = tx.entry.references r := by
  subst hr
  cases hdone : done tx.entry t.txid with
  | true => rw [Bool.true_or, h.sub _ _ hdone]
  | false =>
    rw [Bool.false_or, Bool.eq_iff_iff, List.any_eq_true]
    constructor
    · rintro ⟨i, -, hi⟩
      exact decide_eq_true ⟨i, (of_decide_eq_true hi).1⟩
    · intro hrefs
      obtain ⟨u, hu, htxid, htime⟩ := h.own t ht hdone hrefs
      rw [← htxid] at hrefs
      obtain ⟨i, hi⟩ := happroves.stamps u hu hrefs
      rw [htxid, htime] at hi
      exact ⟨i, List.mem_finRange i, decide_eq_true ⟨congrArg Prod.fst hi, List.mem_map.mpr ⟨t, ht, hi.symm⟩⟩⟩

private theorem entries_withSaved (hx : x.entry = tx.entry) : (net.withSaved tx x).entries = (net.store tx).entries := by
  have hsig : x.sig = tx.sig := congrArg Entry.sig hx
  rw [Txnet.entries, Txnet.entries, Txnet.withSaved, Txnet.store, Txnet.store, hsig]
  split
  · simp only [List.map_map]
    refine List.map_congr_left fun y _ => ?_
    simp only [Function.comp_apply]
    split
    · exact hx
    · rfl
  · rw [List.map_append, List.map_append, List.map_singleton, List.map_singleton, hx]

private theorem mem_entries_withSaved (hx : x.entry = tx.entry) : tx.entry ∈ (net.withSaved tx x).entries :=
  hx ▸ List.mem_map_of_mem (Txnet.mem_store.mpr (.inl rfl))

private theorem Fresh.unheeded {net' : Txnet} {done : Entry → Nat → Bool} (h : Fresh net tx net' done)
    (hunheeded : Unheeded net tx) (hentry : tx.entry ∈ net'.entries) : Kept net' Entry.references := by
  refine h.complete hentry h.kept (fun _ _ _ => rfl) fun t ht => ?_
  cases hdone : done tx.entry t.txid with
  | true => exact (h.sub _ _ hdone).symm
  | false =>
    cases hrefs : tx.entry.references t.txid with
    | false => rfl
    | true =>
      obtain ⟨u, hu, htxid, -⟩ := h.own t ht hdone hrefs
      rw [← htxid, hunheeded.refs u hu] at hrefs
      cases hrefs

/-- What `txnet777_processtx` does behind its second `savetx`. -/
private theorem Fresh.approved {done : Entry → Nat → Bool}
    (h : Fresh net tx (net.withSaved tx (txclear (saved env tx))) done) (happroves : Approves env net tx) :
    ∃ net', ((List.finRange 3).foldl (Txnet.approve tx) (net.withSaved tx (txclear (saved env tx)))).confirmPrev env true
        (txclear tx) = some net' ∧ Kept net' Entry.references ∧ net'.entries = (net.store tx).entries := by
  have hentry : tx.entry ∈ (net.withSaved tx (txclear (saved env tx))).entries := mem_entries_withSaved rfl
  obtain ⟨hall, halike⟩ := h.kept.approveAll hentry (List.finRange 3)
  have hrefs : Kept ((List.finRange 3).foldl (Txnet.approve tx) (net.withSaved tx (txclear (saved env tx)))) Entry.references := by
    refine hall.congr fun a ha t ht => ?_
    rw [halike.entries] at ha
    by_cases hsig : a.sig = tx.sig
    · obtain ⟨old, hold, hclear⟩ := halike.exists_mem ht
      have htxid : old.txid = t.txid := eq_of_txclear Tx.txid (fun _ => rfl) hclear
      have hself : tx.entry.sig = tx.sig := rfl
      rw [h.kept.entry_eq ha hentry hsig, decide_eq_true hself, Bool.true_and]
      exact h.counted happroves hold htxid
    · rw [h.other a _ hsig, decide_eq_false hsig, Bool.false_and, Bool.or_false]
  have hprev : ∀ a ∈ ((List.finRange 3).foldl (Txnet.approve tx) (net.withSaved tx (txclear (saved env tx)))).txs,
      a.txid = tx.prevtxid → a.senderbits = tx.senderbits → checksig env a tx.prevprivkey →
        ∀ b ∈ ((List.finRange 3).foldl (Txnet.approve tx) (net.withSaved tx (txclear (saved env tx)))).entries,
          b.references a.txid ↔ b.sig = tx.sig := by
    intro a ha htxid hsender hcheck b hb
    obtain ⟨old, hold, hclear⟩ := halike.exists_mem ha
    have htxid' : old.txid = a.txid := eq_of_txclear Tx.txid (fun _ => rfl) hclear
    have hsender' : old.senderbits = a.senderbits := eq_of_txclear Tx.senderbits (fun _ => rfl) hclear
    have hcheck' : checksig env old tx.prevprivkey = checksig env a tx.prevprivkey :=
      eq_of_txclear (checksig env · tx.prevprivkey) (fun _ => rfl) hclear
    rw [halike.entries] at hb
    obtain ⟨c, hc, rfl⟩ := List.mem_map.mp hb
    rw [← htxid']
    exact happroves.prev old hold (htxid'.trans htxid) (hsender'.trans hsender) (hcheck'.trans hcheck) c hc
  obtain ⟨net', hconfirm, hkept, hentries⟩ := hrefs.confirmPrev env (halike.entries ▸ hentry) hprev
  refine ⟨net', hconfirm, hkept, ?_⟩
  rw [hentries, halike.entries]
  exact entries_withSaved rfl

/-- A transaction that is orderly is counted for what it refers to. -/
theorem Kept.incoming (h : Kept net Entry.references) {rtflag : Bool} {now : Nat}
    (hadmits : Txnet.admits env rtflag now tx recvlen) (ho : Orderly env net tx recvlen) :
    ∃ net', net.incoming env rtflag now tx recvlen = some net' ∧ Kept net' Entry.references ∧
      net'.entries = (net.store tx).entries := by
  rw [Txnet.incoming, if_pos hadmits, Txnet.savetx_eq ho.size fun a ha hsig => (ho.same a ha hsig).1]
  simp only [Option.bind_eq_bind, Option.bind_some]
  rw [Txnet.processtx]
  have hcounted := ho.counted
  split at hcounted
  case isFalse haccepts =>
    rw [if_neg haccepts]
    obtain ⟨done, hfresh⟩ := h.save ho (x := saved env tx) ⟨rfl, rfl, rfl⟩ hcounted.wtsum hcounted.numrefs
    exact ⟨_, rfl, hfresh.unheeded hcounted (mem_entries_withSaved rfl), entries_withSaved rfl⟩
  case isTrue haccepts =>
    have hsize : INPUTEND ≤ (txclear tx).size.getD 0 := ho.size
    have hsame : ∀ a ∈ (net.withSaved tx (saved env tx)).txs, a.sig = (txclear tx).sig → a.size = (txclear tx).size := by
      intro a ha hsig
      rcases Txnet.mem_store.mp ha with rfl | ⟨ha, hne⟩
      · rfl
      · exact absurd hsig hne
    rw [if_pos haccepts, Txnet.savetx_eq hsize hsame]
    simp only [Option.bind_eq_bind, Option.bind_some]
    have hcopy : saved env (txclear tx) = txclear (saved env tx) := rfl
    have hsig : (saved env tx).sig = (txclear (saved env tx)).sig := rfl
    have happrove : Txnet.approve (txclear (txclear tx)) = Txnet.approve tx := rfl
    rw [hcopy, Txnet.withSaved_withSaved net hsig, happrove]
    obtain ⟨done, hfresh⟩ := h.save ho (x := txclear (saved env tx)) ⟨rfl, rfl, rfl⟩ rfl rfl
    exact hfresh.approved hcounted

end

/-- When everything a transaction refers to has been counted, its weight is right. -/
theorem Kept.weighed {net : Txnet} (h : Kept net Entry.references) : net.Weighed := by
  intro tx htx
  have hcounted := h.counted tx htx
  have hfilter : (net.approvers tx).map Tx.entry = net.entries.filter (·.references tx.txid) := by
    rw [Txnet.approvers, Txnet.entries, List.filter_map]
    congr 1
    refine List.filter_congr fun a _ => ?_
    rw [Function.comp_apply, Entry.references, decide_eq_decide]
    refine exists_congr fun i => ?_
    rw [Option.map_eq_some_iff]
    constructor
    · rintro ⟨x, hx, hsig⟩
      obtain ⟨hmem, htxid⟩ := h.txid_eq_some_iff.mp hx
      rw [h.eq_of_sig hmem htx hsig] at htxid
      exact htxid.symm
    · intro htxid
      exact ⟨tx, h.txid_eq_some_iff.mpr ⟨htx, htxid.symm⟩, rfl⟩
  constructor
  · rw [hcounted.wtsum, ← hfilter, List.map_map]
    rfl
  · rw [hcounted.numrefs, ← hfilter, List.length_map]

namespace Txnet

theorem kept_empty : Kept empty Entry.references where
  indexed := ⟨List.nodup_nil, fun _ h => absurd h List.not_mem_nil, fun _ h => absurd h List.not_mem_nil,
    fun _ _ => ⟨fun h => (nomatch h), fun h => absurd h.1 List.not_mem_nil⟩, by decide⟩
  sized _ h := absurd h List.not_mem_nil
  counted _ h := absurd h List.not_mem_nil

/-- A delivery that is turned away changes nothing. -/
theorem deliver_of_not_admits {net : Txnet} {d : Delivery} (h : ¬ admits d.env d.rtflag d.now d.tx d.recvlen) :
    net.deliver d = some net := by
  rw [deliver, incoming, if_neg h]

theorem kept_deliver {net : Txnet} (h : Kept net Entry.references) {d : Delivery} (hd : net.OrderlyAt d) :
    ∃ net', net.deliver d = some net' ∧ Kept net' Entry.references := by
  by_cases hadmits : admits d.env d.rtflag d.now d.tx d.recvlen
  · obtain ⟨net', hdeliver, hkept, -⟩ := h.incoming hadmits (hd hadmits)
    exact ⟨net', hdeliver, hkept⟩
  · exact ⟨net, deliver_of_not_admits hadmits, h⟩

theorem kept_run {net : Txnet} (h : Kept net Entry.references) {ds : List Delivery} (hrun : OrderlyRun net ds) :
    ∃ net', net.run ds = some net' ∧ Kept net' Entry.references := by
  induction ds generalizing net with
  | nil => exact ⟨net, rfl, h⟩
  | cons d ds ih =>
    obtain ⟨net', hdeliver, hkept⟩ := kept_deliver h hrun.1
    rw [run, hdeliver]
    exact ih hkept (hrun.2 net' hdeliver)

end Txnet

/-- The same stored transactions have the same weights, in whatever order they came. -/
theorem Kept.weights_perm {net net' : Txnet} (h : Kept net Entry.references) (h' : Kept net' Entry.references)
    (hperm : net.entries.Perm net'.entries) : net.weights.Perm net'.weights := by
  have hweights {net : Txnet} (h : Kept net Entry.references) : net.weights = net.entries.map fun e =>
      (e.sig, u64 (leverageToWt e.leverage +
        ((net.entries.filter (·.references e.sig.txid)).map fun a => leverageToWt a.leverage).sum : Nat),
        (net.entries.filter (·.references e.sig.txid)).length) := by
    conv_rhs => rw [Txnet.entries, List.map_map]
    refine List.map_congr_left fun tx htx => ?_
    have hcounted := h.counted tx htx
    rw [hcounted.wtsum, hcounted.numrefs]
    rfl
  rw [hweights h, hweights h']
  have hfilter (e : Entry) := hperm.filter (·.references e.sig.txid)
  have hsum (e : Entry) := ((hfilter e).map fun a => leverageToWt a.leverage).sum_eq
  have hlength (e : Entry) := (hfilter e).length_eq
  simp only [hsum, hlength]
  exact hperm.map _

/-- A transaction that is received again leaves the entries as they are. -/
theorem Kept.deliver_repeated {net : Txnet} (h : Kept net Entry.references) {d : Delivery} (hd : net.OrderlyAt d)
    (hstored : ∃ old ∈ net.txs, old.sig = d.tx.sig) :
    ∃ net', net.deliver d = some net' ∧ Kept net' Entry.references ∧ net'.entries = net.entries := by
  by_cases hadmits : Txnet.admits d.env d.rtflag d.now d.tx d.recvlen
  · obtain ⟨old, hold, hsig⟩ := hstored
    obtain ⟨net', hdeliver, hkept, hentries⟩ := h.incoming hadmits (hd hadmits)
    refine ⟨net', hdeliver, hkept, hentries.trans ?_⟩
    exact Txnet.map_store_of_mem d.tx Tx.entry hold hsig fun a ha hsig => ((hd hadmits).same a ha hsig).2
  · exact ⟨net, Txnet.deliver_of_not_admits hadmits, h, rfl⟩

/-- A run of orderly deliveries comes back, and in the state that is reached the weights are right, `txnet777_txinit`
keeps them, another delivery of the same transaction keeps them, and so does any other orderly run with the same
transactions. -/
theorem weighed_of_orderlyRun {ds : List Delivery} (hrun : Txnet.OrderlyRun .empty ds) :
    ∃ net, Txnet.run .empty ds = some net ∧ net.Weighed ∧ net.txinit = net ∧
      (∀ d, net.OrderlyAt d → (∃ old ∈ net.txs, old.sig = d.tx.sig) →
        ∃ net', net.deliver d = some net' ∧ net'.weights.Perm net.weights) ∧
      ∀ ds' net', Txnet.OrderlyRun .empty ds' → Txnet.run .empty ds' = some net' → net'.entries.Perm net.entries →
        net'.weights.Perm net.weights := by
  obtain ⟨net, hreached, hkept⟩ := Txnet.kept_run Txnet.kept_empty hrun
  refine ⟨net, hreached, hkept.weighed, txinit_eq _, fun d hd hstored => ?_, fun ds' net' hrun' hreached' hperm => ?_⟩
  · obtain ⟨net', hdeliver, hkept', hentries⟩ := hkept.deliver_repeated hd hstored
    exact ⟨net', hdeliver, hkept'.weights_perm hkept (.of_eq hentries)⟩
  · obtain ⟨net'', hreached'', hkept'⟩ := Txnet.kept_run Txnet.kept_empty hrun'
    obtain rfl := Option.some.inj (hreached'.symm.trans hreached'')
    exact hkept'.weights_perm hkept hperm

/-- A transaction of the account 5 with leverage 2 and one output, and the transaction it refers to. -/
def sampleTx (sig : UInt8) (ref : Nat × Nat) : Tx :=
  { wtsum := 27, sent := 9, numrefs := 0, sig := sig :: List.replicate 47 0, nonce := 1
    refs := fun i => if i = 0 then ref else (0, 0)
    prevtxid := 0, prevprivkey := List.replicate 48 0, senderbits := 5, timestamp := 1000, allocsize := 312
    numoutputs := 1, leverage := 2, body := fun _ => 0 }

/-- Transactions that refer to the third are refused by the application. -/
def sampleDelivery (tx : Tx) : Delivery :=
  { env :=
      { nonce := fun _ _ => 1, validatetx := fun tx => (tx.refs 0).1 ≠ 3, txExpiration := 0, futuregap := 60, pastgap := 60
        heap := fun _ _ => 0, stack := fun _ => 0 }
    rtflag := true, now := 1000, tx := tx, recvlen := 312 }

def firstTx : Delivery := sampleDelivery { sampleTx 1 (0, 0) with wtsum := 999, numrefs := 9 }
def approvingTx : Delivery := sampleDelivery { sampleTx 2 (1, 1000) with wtsum := 999, numrefs := 9 }
def refusedTx : Delivery := sampleDelivery (sampleTx 4 (3, 1000))

private theorem sample_run : Txnet.OrderlyRun .empty [firstTx, approvingTx, refusedTx, approvingTx] := by decide +kernel

theorem approved_once : Txnet.OrderlyRun .empty [firstTx, approvingTx, refusedTx, approvingTx] ∧
    ∃ net, Txnet.run .empty [firstTx, approvingTx, refusedTx, approvingTx] = some net ∧ net.Weighed := by
  obtain ⟨net, hreached, hweighed, -⟩ := weighed_of_orderlyRun sample_run
  exact ⟨sample_run, net, hreached, hweighed⟩

theorem redelivery_drops_approval :
    (Txnet.run .empty [firstTx, approvingTx]).map (fun net => net.weights.map Prod.snd) = some [(54, 1), (27, 0)] ∧
    (Txnet.run .empty [firstTx, approvingTx, firstTx]).map (fun net => net.weights.map Prod.snd) = some [(27, 0), (27, 0)] ∧
    ¬ ∀ ds net, Txnet.run .empty ds = some net → net.Weighed := by
  refine ⟨by decide +kernel, by decide +kernel, fun h => ?_⟩
  have hweighed : ∀ net ∈ Txnet.run .empty [firstTx, approvingTx, firstTx], net.Weighed := h _
  revert hweighed
  decide +kernel

end SuperNet.Common.Txnet777
