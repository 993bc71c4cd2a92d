import SuperNet.Coins.Coin777Add

/-! What the calls of parse_block say of a chain: the outputs in their order, the outputs that are spent and the
transactions, and which calls a valid chain makes. -/
namespace SuperNet.Coins.Coin777
open Utils.Hex

structure Output where
  coinaddr : List Char
  scriptstr : List Char
  value : UInt64
  deriving DecidableEq, Repr

/-- A transaction, with the index of its first output and their number. -/
structure BookTx where
  txid : List UInt8
  first : Nat
  num : Nat
  deriving DecidableEq, Repr

/-- The output `u` is at `u - 1`, and the spend `s` at `s - 1`; `first` is the first output of the transaction
that is parsed. -/
structure Book where
  outputs : List Output
  spends : List Nat
  txs : List BookTx
  first : Nat
  deriving DecidableEq, Repr

def Book.genesis : Book := ⟨[], [], [], 1⟩

def Book.outpoint (book : Book) (txidstr : List Char) (vout : Nat) : Nat :=
  ((book.txs.find? fun t => t.txid = decodeTxid txidstr).map fun t => t.first + vout).getD 0

def Book.step (book : Book) : Call → Book
  | .vout coinaddr scriptstr value => { book with outputs := book.outputs ++ [⟨coinaddr, scriptstr, value⟩] }
  | .vin txidstr vout => { book with spends := book.spends ++ [book.outpoint txidstr vout] }
  | .tx txidstr => { book with
      txs := book.txs ++ [⟨decodeTxid txidstr, book.first, book.outputs.length + 1 - book.first⟩]
      first := book.outputs.length + 1 }

/-- The calls of a valid chain: a string and a script that fit their buffers, an index for each output, a spend of
an output of an earlier transaction that is not spent yet, and an index and a txid of its own for each
transaction. -/
def Book.Accepts (book : Book) : Call → Prop
  | .vout coinaddr scriptstr _ => coinaddr.length + 1 ≤ coinaddrSize ∧
      (∃ script : List UInt8, script.length ≤ 4096 ∧ scriptstr = initHexbytesNoT script) ∧
      book.outputs.length + 1 < 2^32
  | .vin txidstr vout => ∃ t ∈ book.txs, t.txid = decodeTxid txidstr ∧ vout < t.num ∧ t.first + vout ∉ book.spends
  | .tx txidstr => book.txs.length + 1 < 2^32 ∧ ∀ t ∈ book.txs, t.txid ≠ decodeTxid txidstr

def Book.after (book : Book) (calls : List Call) : Book := calls.foldl Book.step book

def Book.AcceptsAll : Book → List Call → Prop
  | _, [] => True
  | book, c :: calls => book.Accepts c ∧ (book.step c).AcceptsAll calls

def Book.spendOf (book : Book) (u : Nat) : Nat := if u ∈ book.spends then book.spends.idxOf u + 1 else 0

def Book.pays (book : Book) (coinaddr : List Char) (i : Nat) : Bool :=
  (book.outputs[i]?).any fun o => o.coinaddr = coinaddr ∧ o.value ≠ 0

def Book.entries (book : Book) (coinaddr : List Char) : List AddrtxInfo :=
  ((List.range book.outputs.length).filter (book.pays coinaddr)).map fun i => ⟨i + 1, book.spendOf (i + 1)⟩

/-- What holds of the book of a valid chain. -/
structure Book.Sound (book : Book) : Prop where
  outputs : book.outputs.length < 2^32
  spends : ∀ u ∈ book.spends, 1 ≤ u ∧ u ≤ book.outputs.length
  txs : ∀ t ∈ book.txs, 1 ≤ t.first ∧ t.first + t.num ≤ book.outputs.length + 1
  txids : (book.txs.map BookTx.txid).Nodup
  first : 1 ≤ book.first ∧ book.first ≤ book.outputs.length + 1

variable {book : Book} {c : Call}

theorem Book.sound_genesis : Book.genesis.Sound where
  outputs := Nat.two_pow_pos 32
  spends _ h := by cases h
  txs _ h := by cases h
  txids := List.nodup_nil
  first := ⟨Nat.le_refl 1, Nat.le_refl 1⟩

theorem Book.outpoint_spec {txidstr : List Char} {vout : Nat} (h : book.Sound)
    (hc : book.Accepts (.vin txidstr vout)) :
    ∃ (i : Nat) (t : BookTx), book.txs[i]? = some t ∧ t.txid = decodeTxid txidstr ∧ book.outpoint txidstr vout = t.first + vout ∧
      1 ≤ t.first ∧ t.first + vout ≤ book.outputs.length ∧ t.first + vout ∉ book.spends := by
  obtain ⟨t, ht, htxid, hvout, hspent⟩ := hc
  obtain ⟨hfirst, hnum⟩ := h.txs t ht
  obtain ⟨i, hi⟩ := List.getElem?_of_mem ht
  have hfind : book.txs.find? (fun t => t.txid = decodeTxid txidstr) = some t := by
    cases hf : book.txs.find? (fun t => t.txid = decodeTxid txidstr) with
    | none => exact absurd (decide_eq_true htxid) (List.find?_eq_none.mp hf t ht)
    | some t' =>
      have htxid' : t'.txid = decodeTxid txidstr := by simpa using List.find?_some hf
      exact congrArg some (List.inj_on_of_nodup_map h.txids (List.mem_of_find?_eq_some hf) ht
        (htxid'.trans htxid.symm))
  refine ⟨i, t, hi, htxid, ?_, hfirst, by omega, hspent⟩
  rw [Book.outpoint, hfind]
  rfl

theorem Book.sound_step (h : book.Sound) (hc : book.Accepts c) : (book.step c).Sound := by
  cases c with
  | vout coinaddr scriptstr value =>
    have hlen : (book.step (.vout coinaddr scriptstr value)).outputs.length = book.outputs.length + 1 := by
      rw [Book.step, List.length_append, List.length_singleton]
    refine ⟨by rw [hlen]; exact hc.2.2, fun u hu => ?_, fun t ht => ?_, h.txids, h.first.1, ?_⟩
    · have := h.spends u hu
      omega
    · have := h.txs t ht
      omega
    · have hfirst : (book.step (.vout coinaddr scriptstr value)).first = book.first := rfl
      rw [hfirst, hlen]
      exact Nat.le_succ_of_le h.first.2
  | vin txidstr vout =>
    obtain ⟨i, t, -, -, hout, hfirst, hlast, -⟩ := Book.outpoint_spec h hc
    refine ⟨h.outputs, fun u hu => ?_, h.txs, h.txids, h.first⟩
    rcases List.mem_append.mp hu with hu | hu
    · exact h.spends u hu
    · rw [List.mem_singleton.mp hu, hout]
      exact ⟨Nat.le_trans hfirst (Nat.le_add_right _ _), hlast⟩
  | tx txidstr =>
    refine ⟨h.outputs, h.spends, fun t ht => ?_, ?_, Nat.le_add_left _ _, Nat.le_refl _⟩
    · rcases List.mem_append.mp ht with ht | ht
      · exact h.txs t ht
      · have hfirst := h.first
        have hlen : (book.step (.tx txidstr)).outputs.length = book.outputs.length := rfl
        rw [List.mem_singleton.mp ht, hlen]
        exact ⟨hfirst.1, by dsimp only; omega⟩
    · rw [Book.step, List.map_append, List.map_singleton]
      refine List.nodup_append.mpr ⟨h.txids, List.nodup_singleton _, ?_⟩
      intro x hx y hy
      obtain ⟨t, ht, rfl⟩ := List.mem_map.mp hx
      rw [List.mem_singleton.mp hy]
      exact hc.2 t ht

theorem Book.acceptsAll_append {calls calls' : List Call} :
    book.AcceptsAll (calls ++ calls') ↔ book.AcceptsAll calls ∧ (book.after calls).AcceptsAll calls' := by
  induction calls generalizing book with
  | nil => exact ⟨fun h => ⟨trivial, h⟩, fun h => h.2⟩
  | cons c calls ih =>
    rw [List.cons_append, Book.AcceptsAll, Book.AcceptsAll, ih, and_assoc]
    rfl

/-! ### The outputs of an address -/

variable {coinaddr : List Char}

theorem Book.entries_increasing (book : Book) (coinaddr : List Char) :
    (book.entries coinaddr).Pairwise fun e e' => e.unspentind < e'.unspentind := by
  refine List.pairwise_map.mpr (List.Pairwise.filter _ ?_)
  exact List.pairwise_lt_range.imp fun h => Nat.succ_lt_succ h

theorem Book.mem_entries {e : AddrtxInfo} : e ∈ book.entries coinaddr ↔
    ∃ i o, book.outputs[i]? = some o ∧ o.coinaddr = coinaddr ∧ o.value ≠ 0 ∧ e = ⟨i + 1, book.spendOf (i + 1)⟩ := by
  rw [Book.entries, List.mem_map]
  constructor
  · rintro ⟨i, hi, rfl⟩
    obtain ⟨-, hpays⟩ := List.mem_filter.mp hi
    rw [Book.pays] at hpays
    cases ho : book.outputs[i]? with
    | none =>
      rw [ho] at hpays
      cases hpays
    | some o =>
      rw [ho] at hpays
      obtain ⟨haddr, hvalue⟩ := of_decide_eq_true hpays
      exact ⟨i, o, ho, haddr, hvalue, rfl⟩
  · rintro ⟨i, o, ho, haddr, hvalue, rfl⟩
    refine ⟨i, List.mem_filter.mpr ⟨List.mem_range.mpr (List.getElem?_eq_some_iff.mp ho).1, ?_⟩, rfl⟩
    rw [Book.pays, ho]
    exact decide_eq_true ⟨haddr, hvalue⟩

theorem Book.spendOf_eq_zero {u : Nat} : book.spendOf u = 0 ↔ u ∉ book.spends := by
  rw [Book.spendOf]
  split
  case isTrue hmem => exact ⟨fun hz => absurd hz (Nat.succ_ne_zero _), fun hnot => absurd hmem hnot⟩
  case isFalse hnot => exact ⟨fun _ => hnot, fun _ => rfl⟩

private theorem pays_append (o : Output) {i : Nat} (hi : i < book.outputs.length) :
    ({ book with outputs := book.outputs ++ [o] } : Book).pays coinaddr i = book.pays coinaddr i := by
  rw [Book.pays, Book.pays]
  dsimp only
  rw [List.getElem?_append_left hi]

/-- A new output is the last entry of its address, unless it has no value. -/
theorem Book.entries_vout (h : book.Sound) (addr scriptstr : List Char) (value : UInt64) :
    (book.step (.vout addr scriptstr value)).entries coinaddr =
      book.entries coinaddr ++
        if addr = coinaddr ∧ value ≠ 0 then [⟨book.outputs.length + 1, 0⟩] else [] := by
  have hfresh : book.spendOf (book.outputs.length + 1) = 0 := by
    refine Book.spendOf_eq_zero.mpr fun hmem => ?_
    have := h.spends _ hmem
    omega
  have hlast : (book.step (.vout addr scriptstr value)).pays coinaddr book.outputs.length =
      decide (addr = coinaddr ∧ value ≠ 0) := by
    rw [Book.step, Book.pays]
    dsimp only
    rw [List.getElem?_append_right (Nat.le_refl _), Nat.sub_self]
    rfl
  have hold : (List.range book.outputs.length).filter ((book.step (.vout addr scriptstr value)).pays coinaddr) =
      (List.range book.outputs.length).filter (book.pays coinaddr) := by
    refine List.filter_congr fun i hi => ?_
    exact pays_append _ (List.mem_range.mp hi)
  have hlen : (book.step (.vout addr scriptstr value)).outputs.length = book.outputs.length + 1 := by
    rw [Book.step, List.length_append, List.length_singleton]
  rw [Book.entries, hlen, List.range_succ, List.filter_append, hold, List.map_append, Book.entries]
  refine congrArg₂ _ rfl ?_
  rw [List.filter_singleton, hlast]
  by_cases hpays : addr = coinaddr ∧ value ≠ 0
  · rw [decide_eq_true hpays, if_pos hpays]
    exact congrArg (fun s => [AddrtxInfo.mk (book.outputs.length + 1) s]) hfresh
  · rw [decide_eq_false hpays, if_neg hpays]
    rfl

theorem Book.entries_spend {u : Nat} (hu : u ∉ book.spends) :
    ({ book with spends := book.spends ++ [u] } : Book).entries coinaddr =
      (book.entries coinaddr).map fun e => if e.unspentind = u then ⟨u, book.spends.length + 1⟩ else e := by
  rw [Book.entries, Book.entries, List.map_map]
  refine List.map_congr_left fun i _ => ?_
  have hspend : ({ book with spends := book.spends ++ [u] } : Book).spendOf (i + 1) =
      if i + 1 = u then book.spends.length + 1 else book.spendOf (i + 1) := by
    rw [Book.spendOf, Book.spendOf]
    dsimp only
    by_cases heq : i + 1 = u
    · rw [if_pos heq, heq, if_pos (List.mem_append_right _ (List.mem_singleton_self u)),
        List.idxOf_append_of_notMem hu, List.idxOf_cons_self, Nat.add_zero]
    · rw [if_neg heq]
      by_cases hmem : i + 1 ∈ book.spends
      · rw [if_pos hmem, if_pos (List.mem_append_left _ hmem), List.idxOf_append_of_mem hmem]
      · rw [if_neg hmem, if_neg fun h => ?_]
        rcases List.mem_append.mp h with h | h
        · exact hmem h
        · exact heq (List.mem_singleton.mp h)
  rw [hspend, Function.comp]
  dsimp only
  by_cases heq : i + 1 = u
  · rw [if_pos heq, if_pos heq, heq]
  · rw [if_neg heq, if_neg heq]

end SuperNet.Coins.Coin777
