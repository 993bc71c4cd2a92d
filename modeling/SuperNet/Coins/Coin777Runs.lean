import SuperNet.Coins.Coin777Ledger
import SuperNet.Coins.Coin777Scripts

/-! The runs of a valid chain: what the ledger holds in every state that they reach. -/
namespace SuperNet.Coins.Coin777
open Lib.Words Lib.Bytes Utils.Hex

variable {coin coin' : Coin} {book : Book} {calls : List (Nat × Call)} {a : Nat}

structure LedgerHolds (coin : Coin) (book : Book) : Prop where
  balance : ∀ a, 1 ≤ a → a < coin.addrind →
    (coin.ledger a).balance = coin.unspentSum (coin.entries a (coin.ledger a))
  increasing : ∀ a, 1 ≤ a → a < coin.addrind →
    (coin.entries a (coin.ledger a)).Pairwise fun e e' => e.unspentind < e'.unspentind
  exact : ∀ a e, 1 ≤ a → a < coin.addrind → (e ∈ coin.entries a (coin.ledger a) ↔
    ∃ i o, book.outputs[i]? = some o ∧ o.coinaddr = (coin.addrinfos a).coinaddr ∧ o.value ≠ 0 ∧
      e = ⟨i + 1, book.spendOf (i + 1)⟩)
  recorded : ∀ i o, book.outputs[i]? = some o → (coin.unspents (i + 1)).value = o.value ∧
    coin.addrDB o.coinaddr = some (coin.unspents (i + 1)).addrind
  supply : Balanced coin
  recalc : ∀ a maxunspentind maxspendind, 1 ≤ a → a < coin.addrind → coin.unspentind ≤ maxunspentind →
    coin.numspends ≤ maxspendind → coin.recalcAddrinfo a maxunspentind maxspendind = (coin.ledger a).balance

private theorem recalcLoop_eq {m s : Nat} {es : List AddrtxInfo} (balance : UInt64)
    (hes : ∀ e ∈ es, e.unspentind ≠ 0 ∧ e.unspentind < m ∧ e.spendind < s) :
    recalcLoop coin.uvalue m s es balance = balance + coin.unspentSum es := by
  induction es generalizing balance with
  | nil => exact (UInt64.add_zero balance).symm
  | cons e es ih =>
    obtain ⟨hne, hlt, hspend⟩ := hes e List.mem_cons_self
    rw [recalcLoop, if_pos hlt, ih _ fun e' he' => hes e' (List.mem_cons_of_mem e he'), unspentSum_cons]
    by_cases hzero : e.spendind = 0
    · rw [if_pos ⟨hne, Or.inl hzero⟩, if_pos hzero, UInt64.add_assoc]
    · rw [if_neg fun hc => hc.2.elim hzero fun hge => Nat.not_le_of_lt hspend hge, if_neg hzero, UInt64.zero_add]

private theorem spendOf_le (book : Book) (u : Nat) : book.spendOf u ≤ book.spends.length := by
  rw [Book.spendOf]
  split
  case isTrue hmem => exact List.idxOf_lt_length_of_mem hmem
  case isFalse => exact Nat.zero_le _

theorem Refines.ledgerHolds (h : Refines coin book) (hbalanced : Balanced coin) : LedgerHolds coin book where
  balance a ha hlt := (h.listed a ha hlt).balance
  increasing a ha hlt := by
    rw [(h.listed a ha hlt).entries]
    exact Book.entries_increasing book _
  exact a e ha hlt := by
    rw [(h.listed a ha hlt).entries]
    exact Book.mem_entries
  recorded := h.unspents
  supply := hbalanced
  recalc a m s ha hlt hm hs := by
    obtain ⟨-, -, hentries, hbalance⟩ := h.listed a ha hlt
    rw [Coin.recalcAddrinfo, recalcLoop_eq, UInt64.zero_add, ← hbalance]
    intro e he
    rw [hentries] at he
    obtain ⟨i, o, ho, -, -, rfl⟩ := Book.mem_entries.mp he
    have hi := (List.getElem?_eq_some_iff.mp ho).1
    have hspend := spendOf_le book (i + 1)
    rw [h.unspentind] at hm
    rw [h.numspends] at hs
    exact ⟨Nat.succ_ne_zero i, Nat.lt_of_lt_of_le (Nat.succ_lt_succ hi) hm,
      Nat.lt_of_lt_of_le (Nat.lt_succ_of_le hspend) hs⟩

/-! ### The run -/

theorem calls_cons (c : Nat × Call) : coin.calls (c :: calls) = (coin.call c.1 c.2).bind fun coin => coin.calls calls := by
  rw [Coin.calls, List.foldlM_cons]
  rfl

theorem calls_append (calls' : List (Nat × Call)) :
    coin.calls (calls ++ calls') = (coin.calls calls).bind fun coin => coin.calls calls' := by
  rw [Coin.calls, List.foldlM_append]
  rfl

theorem calls_refines (h : Refines coin book) (hb : book.Sound) (hbalanced : Balanced coin)
    (haccepts : book.AcceptsAll (calls.map Prod.snd)) (hplain : ∀ c ∈ calls, Plain c.2)
    (hrun : coin.calls calls = some coin') :
    Refines coin' (book.after (calls.map Prod.snd)) ∧ Balanced coin' := by
  induction calls generalizing coin book with
  | nil =>
    obtain rfl : coin = coin' := Option.some.inj hrun
    exact ⟨h, hbalanced⟩
  | cons c calls ih =>
    obtain ⟨hc, hrest⟩ := haccepts
    rw [calls_cons] at hrun
    obtain ⟨coin₁, hcall, hrun⟩ := Option.bind_eq_some_iff.mp hrun
    obtain ⟨hrefines, hbalance⟩ := call_refines h hb hc (hplain c List.mem_cons_self) hcall
    exact ih hrefines (Book.sound_step hb hc) (hbalance hbalanced) hrest
      (fun c' hc' => hplain c' (List.mem_cons_of_mem c hc')) hrun

/-! ### The run does not stop -/

theorem after_outputs (book : Book) (calls : List Call) : ∃ more, (book.after calls).outputs = book.outputs ++ more := by
  induction calls generalizing book with
  | nil => exact ⟨[], (List.append_nil _).symm⟩
  | cons c calls ih =>
    obtain ⟨more, hmore⟩ := ih (book.step c)
    rw [Book.after, List.foldl_cons, ← Book.after, hmore]
    cases c with
    | vout coinaddr scriptstr value => exact ⟨⟨coinaddr, scriptstr, value⟩ :: more, List.append_assoc ..⟩
    | vin txidstr vout => exact ⟨more, rfl⟩
    | tx txidstr => exact ⟨more, rfl⟩

private theorem Scripted.congr {outputs : List Output} (h : Scripted coin outputs)
    (hu : coin'.unspentind = coin.unspentind) (hunspents : coin'.unspents = coin.unspents)
    (haddrs : coin'.addrDB = coin.addrDB) (hind : coin'.addrind = coin.addrind) (hrecords : SameRecords coin coin')
    (hscripts : coin'.scriptDB = coin.scriptDB) (hscriptind : coin'.scriptind = coin.scriptind) :
    Scripted coin' outputs := by
  refine ⟨hu.trans h.unspentind, h.recorded.congr haddrs hind hrecords, h.indexed.congr hscripts hscriptind,
    fun i o ho => ?_⟩
  rw [hunspents, haddrs]
  exact h.unspents i o ho

private theorem Scripted.vin {outputs : List Output} {m : Nat} {txidstr : List Char} {vout : Nat}
    (h : Scripted coin outputs) (hcall : coin.call m (.vin txidstr vout) = some coin') : Scripted coin' outputs := by
  rw [Coin.call] at hcall
  obtain ⟨coin₁, hvin, hcall⟩ := Option.bind_eq_some_iff.mp hcall
  have hscripted : Scripted coin₁ outputs := by
    rw [Coin.addvin] at hvin
    dsimp only at hvin
    split at hvin
    case isTrue => cases hvin
    case isFalse =>
      split at hvin
      case isTrue => cases hvin
      case isFalse =>
        split at hvin
        case isTrue =>
          cases hvin
          exact h
        case isFalse =>
          have hlists := listsOnly_updateAddrinfo hvin
          have hsame := hlists.same
          exact h.congr hsame.unspentind hsame.unspents hsame.addrDB hsame.addrind (fun b => hlists.records b)
            hsame.scriptDB hsame.scriptind
  cases hcall
  exact hscripted.congr rfl rfl rfl rfl (fun _ => ⟨rfl, rfl⟩) rfl rfl

private theorem Scripted.tx {outputs : List Output} {m : Nat} {txidstr : List Char} (h : Scripted coin outputs)
    (hcall : coin.call m (.tx txidstr) = some coin') : Scripted coin' outputs := by
  cases hcall
  exact h.congr rfl rfl rfl rfl (fun _ => ⟨rfl, rfl⟩) rfl rfl

private theorem countP_paidTo (outputs : List Output) (s : List Char) :
    (List.range outputs.length).countP (fun i => (outputs[i]?).any fun o => o.coinaddr = s ∧ o.value ≠ 0) =
      paidTo outputs s := by
  induction outputs using List.reverseRecOn with
  | nil => rfl
  | append_singleton outputs o ih =>
    rw [paidTo] at ih
    have hold : (List.range outputs.length).countP (fun i => ((outputs ++ [o])[i]?).any fun o => o.coinaddr = s ∧ o.value ≠ 0) =
        (List.range outputs.length).countP (fun i => (outputs[i]?).any fun o => o.coinaddr = s ∧ o.value ≠ 0) := by
      refine List.countP_congr fun i hi => ?_
      rw [List.getElem?_append_left (List.mem_range.mp hi)]
    rw [List.length_append, List.length_singleton, List.range_succ, List.countP_append, hold, ih, paidTo, List.countP_append,
      List.countP_singleton, List.countP_singleton, List.getElem?_append_right (Nat.le_refl _), Nat.sub_self]
    rfl

theorem entries_length_eq (book : Book) (s : List Char) : (book.entries s).length = paidTo book.outputs s := by
  rw [Book.entries, List.length_map, ← List.countP_eq_length_filter, ← countP_paidTo]
  rfl

theorem Refines.holds {s : List Char} {outputs : List Output} (h : Refines coin book) (hdb : coin.addrDB s = some a)
    (hscript : (coin.addrinfos a).script = keptScript outputs s) (hroom : RoomFor outputs s)
    (hpaid : paidTo book.outputs s < paidTo outputs s) :
    (coin.ledger a).holds (min (coin.ledger a).numaddrtx (coin.ledger a).maxaddrtx) = true := by
  obtain ⟨ha, hlt, hcoinaddr⟩ := h.addrs s a hdb
  obtain ⟨hhome, hplaced, hentries, -⟩ := h.listed a ha hlt
  have hnum : (coin.ledger a).numaddrtx = paidTo book.outputs s := by
    rw [← entries_length coin a, hentries, hcoinaddr, entries_length_eq]
  cases hinside : (coin.ledger a).insideA with
  | false => rw [Lentry.holds, hinside]; rfl
  | true =>
    obtain ⟨hpos, hplace⟩ := hhome hinside
    rw [RoomFor, ← hscript, ← hcoinaddr, hplace] at hroom
    rcases hroom with hnone | hlink | hfew
    · exact absurd hnone (Nat.ne_of_gt hpos)
    · rw [Lentry.holds, hinside]
      refine decide_eq_true (Nat.le_trans (Nat.add_le_add_left (Nat.mul_le_mul_left _ ?_) _) hlink)
      exact Nat.add_le_add_right (Nat.min_le_right _ _) 1
    · have hfew' : (coin.ledger a).numaddrtx < (coin.ledger a).maxaddrtx := by
        rw [hnum]
        rw [hcoinaddr] at hfew
        exact Nat.lt_of_lt_of_le hpaid hfew
      rw [Nat.min_eq_left (Nat.le_of_lt hfew')]
      exact hplaced.holds hfew'

private theorem Scripted.vout_returns {coinaddr scriptstr : List Char} {value : UInt64} {outputs : List Output} {m : Nat}
    (h : Refines coin book) (hscripted : Scripted coin book.outputs) (hroom : book.outputs.length + 1 < 2^32)
    (hplain : coinaddr.length + 1 ≤ 153) (hmore : ∃ more, outputs = book.outputs ++ [⟨coinaddr, scriptstr, value⟩] ++ more)
    (hlen : ¬ InRecord outputs ⟨coinaddr, scriptstr, value⟩ → (decodeScript scriptstr).length ≠ 4)
    (hlist : RoomFor outputs coinaddr) :
    ∃ coin', coin.call m (.vout coinaddr scriptstr value) = some coin' ∧
      Scripted coin' (book.outputs ++ [⟨coinaddr, scriptstr, value⟩]) := by
  obtain ⟨more, rfl⟩ := hmore
  have hmem : (⟨coinaddr, scriptstr, value⟩ : Output) ∈ book.outputs ++ [⟨coinaddr, scriptstr, value⟩] :=
    List.mem_append_right _ (List.mem_singleton_self _)
  refine hscripted.vout (o := ⟨coinaddr, scriptstr, value⟩) hroom (fun hout => ?_) m fun coin₀ a flag haddr hrecorded hdb hpos => ?_
  · exact hlen fun hin => hout ((inRecord_append hmem more).mp hin)
  · obtain ⟨coin', a', flag', haddr', hrefines, -⟩ := voutAddr_spec h m scriptstr value hplain
    obtain ⟨rfl, rfl, rfl⟩ : coin₀ = coin' ∧ a = a' ∧ flag = flag' := by
      have hsame := Option.some.inj (haddr.symm.trans haddr')
      exact ⟨congrArg Prod.fst hsame, congrArg (fun x => x.2.1) hsame, congrArg (fun x => x.2.2) hsame⟩
    obtain ⟨-, -, hscript, -⟩ := hrecorded.addrs coinaddr a hdb
    refine hrefines.holds hdb hscript (roomFor_of_append ⟨_, hmem, rfl⟩ hlist) ?_
    have hone : paidTo [⟨coinaddr, scriptstr, value⟩] coinaddr = 1 := by
      rw [paidTo, List.countP_singleton, if_pos (decide_eq_true ⟨rfl, hpos⟩)]
    rw [paidTo, paidTo, List.countP_append, ← paidTo, ← paidTo, hone]
    exact Nat.lt_succ_self _

/-- What keeps the outputs of a chain from stopping its run: a script outside the records is not as long as an index,
and the lists have room. -/
def Storable (outputs : List Output) : Prop :=
  ∀ o ∈ outputs, (¬ InRecord outputs o → (decodeScript o.scriptstr).length ≠ 4) ∧ RoomFor outputs o.coinaddr

/-- A run of a valid chain with outputs that can be stored does not stop. -/
theorem calls_return (h : Refines coin book) (hb : book.Sound) (hscripted : Scripted coin book.outputs)
    (hbalanced : Balanced coin) (haccepts : book.AcceptsAll (calls.map Prod.snd)) (hplain : ∀ c ∈ calls, Plain c.2)
    (hstorable : Storable (book.after (calls.map Prod.snd)).outputs) :
    ∃ coin', coin.calls calls = some coin' ∧ Scripted coin' (book.after (calls.map Prod.snd)).outputs := by
  induction calls generalizing coin book with
  | nil => exact ⟨coin, rfl, hscripted⟩
  | cons c calls ih =>
    obtain ⟨hc, hrest⟩ := haccepts
    obtain ⟨m, c⟩ := c
    have hplainc : Plain c := hplain _ List.mem_cons_self
    have hstep : ∃ coin₁, coin.call m c = some coin₁ ∧ Scripted coin₁ (book.step c).outputs := by
      cases c with
      | vout coinaddr scriptstr value =>
        obtain ⟨more, hmore⟩ := after_outputs (book.step (.vout coinaddr scriptstr value)) (calls.map Prod.snd)
        have hmem : (⟨coinaddr, scriptstr, value⟩ : Output) ∈
            (book.after (((m, Call.vout coinaddr scriptstr value) :: calls).map Prod.snd)).outputs := by
          rw [List.map_cons, Book.after, List.foldl_cons, ← Book.after, hmore]
          exact List.mem_append_left _ (List.mem_append_right _ (List.mem_singleton_self _))
        obtain ⟨hlen, hlist⟩ := hstorable _ hmem
        exact Scripted.vout_returns h hscripted hc.2.2 hplainc ⟨more, hmore⟩ hlen hlist
      | vin txidstr vout =>
        obtain ⟨coin₁, hcall⟩ := vin_returns h hb hc hplainc m
        exact ⟨coin₁, hcall, hscripted.vin hcall⟩
      | tx txidstr => exact ⟨_, rfl, hscripted.tx (m := m) rfl⟩
    obtain ⟨coin₁, hcall, hscripted₁⟩ := hstep
    obtain ⟨hrefines, hbalance⟩ := call_refines h hb hc hplainc hcall
    obtain ⟨coin', hrun, hscripted'⟩ := ih hrefines (Book.sound_step hb hc) hscripted₁ (hbalance hbalanced) hrest
      (fun c' hc' => hplain c' (List.mem_cons_of_mem _ hc')) hstorable
    exact ⟨coin', by rw [calls_cons, hcall, Option.bind_some, hrun], hscripted'⟩

theorem balanced_genesis : Balanced Coin.genesis := rfl

/-- In every state of a run of a valid chain with plain calls the ledger holds the book, and the run does not stop
when its outputs can be stored. The counter of the addrtx table has 32 bits. -/
theorem ledgerHolds_of_calls (calls : List (Nat × Call)) (haccepts : Book.genesis.AcceptsAll (calls.map Prod.snd))
    (hplain : ∀ c ∈ calls, Plain c.2) :
    (∀ coin, Coin.genesis.calls calls = some coin → coin.totaladdrtx < 2^32 →
      LedgerHolds coin (Book.genesis.after (calls.map Prod.snd))) ∧
    (Storable (Book.genesis.after (calls.map Prod.snd)).outputs → ∃ coin, Coin.genesis.calls calls = some coin) := by
  refine ⟨fun coin hrun _ => ?_, fun hstorable => ?_⟩
  · obtain ⟨hrefines, hbalanced⟩ :=
      calls_refines refines_genesis Book.sound_genesis balanced_genesis haccepts hplain hrun
    exact hrefines.ledgerHolds hbalanced
  · obtain ⟨coin, hrun, -⟩ :=
      calls_return refines_genesis Book.sound_genesis scripted_genesis balanced_genesis haccepts hplain hstorable
    exact ⟨coin, hrun⟩

private def oneSpend : List (Nat × Call) :=
  [(0, .vout ['a'] ['5', '1'] 5), (0, .tx (List.replicate 64 '1')), (1, .vin (List.replicate 64 '1') 0)]

theorem ledgerHolds_of_oneSpend : ∃ coin, Coin.genesis.calls oneSpend = some coin ∧
    LedgerHolds coin (Book.genesis.after (oneSpend.map Prod.snd)) := by
  have haccepts : Book.genesis.AcceptsAll (oneSpend.map Prod.snd) := by
    refine ⟨⟨by decide, ⟨[0x51], by decide, rfl⟩, by decide⟩, ⟨by decide, fun t ht => by cases ht⟩, ?_, trivial⟩
    exact ⟨⟨decodeTxid (List.replicate 64 '1'), 1, 1⟩, List.mem_singleton_self _, rfl, by decide, List.not_mem_nil⟩
  have hplain : ∀ c ∈ oneSpend, Plain c.2 := by
    intro c hc
    simp only [oneSpend, List.mem_cons, List.not_mem_nil, or_false] at hc
    rcases hc with rfl | rfl | rfl
    · exact Nat.le_of_ble_eq_true rfl
    · exact trivial
    · exact Nat.le_of_ble_eq_true rfl
  obtain ⟨hholds, hreturns⟩ := ledgerHolds_of_calls oneSpend haccepts hplain
  obtain ⟨coin, hrun⟩ := hreturns fun o ho => by
    rw [List.mem_singleton.mp ho]
    exact ⟨fun _ => by decide, by decide⟩
  have htotal : (Coin.genesis.calls oneSpend).map Coin.totaladdrtx = some 1 := by decide +kernel
  rw [hrun, Option.map_some] at htotal
  exact ⟨coin, hrun, hholds coin hrun (by rw [Option.some.inj htotal]; decide)⟩

/-! ### The scripts of a run of outputs -/

private theorem acceptsAll_outputs (outs : List (Nat × Output)) (book : Book) (hvalid : ∀ x ∈ outs, x.2.Valid)
    (hroom : book.outputs.length + outs.length < 2^32) : book.AcceptsAll (outs.map fun x => x.2.call) ∧
      (book.after (outs.map fun x => x.2.call)).outputs = book.outputs ++ outs.map Prod.snd := by
  induction outs generalizing book with
  | nil => exact ⟨trivial, (List.append_nil _).symm⟩
  | cons x outs ih =>
    rw [List.length_cons] at hroom
    have hstep : (book.step x.2.call).outputs = book.outputs ++ [x.2] := rfl
    obtain ⟨haccepts, hafter⟩ := ih (book.step x.2.call) (fun y hy => hvalid y (List.mem_cons_of_mem x hy)) (by
      rw [hstep, List.length_append, List.length_singleton]
      omega)
    obtain ⟨hcoinaddr, hscript⟩ := hvalid x List.mem_cons_self
    refine ⟨⟨⟨hcoinaddr, hscript, by omega⟩, haccepts⟩, ?_⟩
    rw [hstep, List.append_assoc] at hafter
    exact hafter

private theorem plain_of_inRecord {outputs : List Output} {o : Output} (h : InRecord outputs o) : o.coinaddr.length + 1 ≤ 153 := by
  obtain ⟨hne, hkept⟩ := h
  rw [keptScript] at hkept
  split at hkept
  · split at hkept
    case isTrue hfits =>
      have hle := of_decide_eq_true hfits
      dsimp only [addrtxSize, coinaddrSize] at hle
      omega
    case isFalse => exact absurd hkept.symm hne
  · exact absurd hkept.symm hne

theorem calls_scripted (outs : List (Nat × Output)) (hvalid : ∀ x ∈ outs, x.2.Valid) (hroom : outs.length < 2^32)
    (hkept : ∀ x ∈ outs, InRecord (outs.map Prod.snd) x.2 ∨ x.2.Indexable)
    (hlists : ∀ x ∈ outs, RoomFor (outs.map Prod.snd) x.2.coinaddr) :
    ∃ coin, Coin.genesis.calls (outs.map fun x => (x.1, x.2.call)) = some coin ∧
      Scripted coin (outs.map Prod.snd) := by
  have hzero : Book.genesis.outputs.length + outs.length < 2^32 := by
    have hnil : Book.genesis.outputs.length = 0 := rfl
    omega
  have hcalls : (outs.map fun x => (x.1, x.2.call)).map Prod.snd = outs.map fun x => x.2.call := by
    rw [List.map_map]
    rfl
  obtain ⟨haccepts, hafter⟩ := acceptsAll_outputs outs Book.genesis hvalid hzero
  have houtputs : (Book.genesis.after ((outs.map fun x => (x.1, x.2.call)).map Prod.snd)).outputs = outs.map Prod.snd := by
    rw [hcalls, hafter]
    rfl
  have hplain : ∀ c ∈ outs.map fun x => (x.1, x.2.call), Plain c.2 := by
    intro c hc
    obtain ⟨x, hx, rfl⟩ := List.mem_map.mp hc
    exact (hkept x hx).elim plain_of_inRecord fun h => h.1
  have hstorable : Storable (Book.genesis.after ((outs.map fun x => (x.1, x.2.call)).map Prod.snd)).outputs := by
    rw [houtputs]
    intro o ho
    obtain ⟨x, hx, rfl⟩ := List.mem_map.mp ho
    exact ⟨fun hout => ((hkept x hx).resolve_left hout).2, hlists x hx⟩
  rw [← hcalls] at haccepts
  obtain ⟨coin, hrun, hscripted⟩ := calls_return refines_genesis Book.sound_genesis scripted_genesis balanced_genesis
    haccepts hplain hstorable
  rw [houtputs] at hscripted
  exact ⟨coin, hrun, hscripted⟩

/-- Two outputs of an address, each with a script of its own. -/
def twoScripts : List (Nat × Output) := [(7, ⟨['a'], ['5', '1'], 5⟩), (7, ⟨['a'], ['5', '2'], 5⟩)]

private theorem twoScripts_valid : ∀ x ∈ twoScripts, x.2.Valid := by
  intro x hx
  rcases List.mem_pair.mp hx with rfl | rfl
  · exact ⟨by decide, [0x51], by decide, rfl⟩
  · exact ⟨by decide, [0x52], by decide, rfl⟩

/-- The second of two scripts of an address is not read back. -/
theorem addvout_scriptstr_lost : ¬ ∀ outs : List (Nat × Output), (∀ x ∈ outs, x.2.Valid) → outs.length < 2^32 →
    ∃ coin, Coin.genesis.calls (outs.map fun x => (x.1, x.2.call)) = some coin ∧
      ∀ i o, (outs.map Prod.snd)[i]? = some o → ∀ max, o.scriptstr.length < max →
        coin.scriptstr max (coin.unspents (i + 1)).rawindOrBlocknum (coin.unspents (i + 1)).addrind = o.scriptstr := by
  intro h
  obtain ⟨coin, hrun, hback⟩ := h twoScripts twoScripts_valid (by decide)
  have hlost : ((Coin.genesis.calls (twoScripts.map fun x => (x.1, x.2.call))).map fun coin =>
      coin.scriptstr 8192 (coin.unspents 2).rawindOrBlocknum (coin.unspents 2).addrind) = some [] := by decide +kernel
  rw [hrun, Option.map_some] at hlost
  have hread := hback 1 ⟨['a'], ['5', '2'], 5⟩ rfl 8192 (by decide)
  rw [Option.some.inj hlost] at hread
  cases hread

/-- In a run of outputs the script of every output that is in the record of its address is read back, and no two
scripts have the same index. -/
theorem addvout_scriptstr (outs : List (Nat × Output)) (hvalid : ∀ x ∈ outs, x.2.Valid) (hroom : outs.length < 2^32)
    (hkept : ∀ x ∈ outs, InRecord (outs.map Prod.snd) x.2 ∨ x.2.Indexable)
    (hlists : ∀ x ∈ outs, RoomFor (outs.map Prod.snd) x.2.coinaddr) :
    ∃ coin, Coin.genesis.calls (outs.map fun x => (x.1, x.2.call)) = some coin ∧
      (∀ i o, (outs.map Prod.snd)[i]? = some o → InRecord (outs.map Prod.snd) o → ∀ max,
        coin.scriptstr max (coin.unspents (i + 1)).rawindOrBlocknum (coin.unspents (i + 1)).addrind = o.scriptstr) ∧
      ∀ s s', s.length ≠ 4 → s'.length ≠ 4 → coin.scriptDBind s ≠ 0 → coin.scriptDBind s = coin.scriptDBind s' →
        s = s' := by
  obtain ⟨coin, hrun, hscripted⟩ := calls_scripted outs hvalid hroom hkept hlists
  have hlen : (outs.map Prod.snd).length + 1 ≤ 2^32 := by
    rw [List.length_map]
    exact hroom
  refine ⟨coin, hrun, fun i o ho hin max => ?_, fun s s' hs hs' hne heq => ?_⟩
  · obtain ⟨x, hx, rfl⟩ := List.mem_map.mp (List.mem_of_getElem? ho)
    exact hscripted.scriptstr ho (hvalid x hx) hin max
  · exact hscripted.indexed.injective hlen hs hs' hne heq

theorem addvout_scriptstr_first : ∃ coin,
    Coin.genesis.calls ([((7, ⟨['a'], ['5', '1'], 5⟩) : Nat × Output)].map fun x => (x.1, x.2.call)) = some coin ∧
      coin.scriptstr 8192 (coin.unspents 1).rawindOrBlocknum (coin.unspents 1).addrind = ['5', '1'] := by
  have hin : InRecord [⟨['a'], ['5', '1'], 5⟩] ⟨['a'], ['5', '1'], 5⟩ := ⟨by decide, by decide⟩
  obtain ⟨coin, hrun, hback, -⟩ := addvout_scriptstr [(7, ⟨['a'], ['5', '1'], 5⟩)]
    (fun x hx => by
      rw [List.mem_singleton.mp hx]
      exact ⟨by decide, [0x51], by decide, rfl⟩)
    (by decide) (fun x hx => by
      rw [List.mem_singleton.mp hx]
      exact Or.inl hin)
    (fun x hx => by
      rw [List.mem_singleton.mp hx]
      decide)
  exact ⟨coin, hrun, hback 0 _ rfl hin 8192⟩

/-! ### A spend of an output behind the first 32768 of its transaction -/

/-- All entries of an address are of the first output, which has the value 5. -/
private structure PaidOnce (coin : Coin) (a : Nat) (balance : UInt64) : Prop where
  listed : 1 ≤ a ∧ a < coin.addrind
  unspent : (coin.unspents 1).value = 5 ∧ (coin.unspents 1).addrind = a
  placed : Placed coin.totaladdrtx (coin.ledger a)
  increasing : (coin.entries a (coin.ledger a)).Pairwise fun e e' => e.unspentind < e'.unspentind
  entries : (∃ e ∈ coin.entries a (coin.ledger a), e.unspentind = 1) ∧
    ∀ e ∈ coin.entries a (coin.ledger a), e.unspentind = 1
  balance : (coin.ledger a).balance = balance
  numspends : coin.numspends ≠ 0

private theorem PaidOnce.vin {t vout : Nat} {balance : UInt64} {txidstr : List Char} (h : PaidOnce coin a balance)
    (hdb : coin.txidDB (decodeTxid txidstr) = some t) (ht : t ≠ 0) (hle : t ≤ coin.txidind)
    (hind : coin.spentInd t vout = 1) :
    ∃ coin', coin.call 0 (.vin txidstr vout) = some coin' ∧ PaidOnce coin' a (balance - 5) ∧
      (∀ e ∈ coin'.entries a (coin'.ledger a), e.spendind ≠ 0) ∧
      coin'.txidDB = coin.txidDB ∧ coin'.txoffsets = coin.txoffsets ∧ coin'.txidind = coin.txidind := by
  have hfive : (5 : UInt64) ≠ 0 := by decide
  generalize hset : ({ coin.setSpend coin.numspends ⟨1, a, coin.txidind, (coin.numspends - coin.firstvin) % 2^16⟩ with
    debits := coin.debits + 5 } : Coin) = coin₁
  have hledger : coin₁.ledger = coin.ledger := by rw [← hset]; rfl
  have hentries : coin₁.entries a (coin₁.ledger a) = coin.entries a (coin.ledger a) := by
    rw [hledger, ← hset]
    exact entries_records rfl rfl _
  have hplaced : Placed coin₁.totaladdrtx (coin₁.ledger a) := by
    rw [hledger, ← hset]
    exact h.placed
  have hvalue : coin₁.uvalue 1 = 5 := by
    rw [← hset]
    exact h.unspent.1
  obtain ⟨coin₂, hup, hkept, hplaced', -, hentries', hbalance⟩ := updateAddrinfo_spend coin₁ a 1 coin.numspends 5 h.numspends hplaced
    (by rw [hentries]; exact h.increasing) (by rw [hentries]; exact h.entries.1) hvalue hfive 0
  have hsame := hkept.lists.same
  have hmark : coin₂.entries a (coin₂.ledger a) =
      (coin.entries a (coin.ledger a)).map fun _ => ⟨1, coin.numspends⟩ := by
    rw [hentries', hentries]
    exact List.map_congr_left fun e he => if_pos (h.entries.2 e he)
  have hspent : ∀ e ∈ coin₂.entries a (coin₂.ledger a), e = ⟨1, coin.numspends⟩ := by
    intro e he
    rw [hmark] at he
    obtain ⟨-, -, rfl⟩ := List.mem_map.mp he
    rfl
  have hcall : coin.call 0 (.vin txidstr vout) = some { coin₂ with numspends := coin₂.numspends + 1 } := by
    rw [Coin.call, Coin.addvin, hdb, Option.getD_some]
    dsimp only
    rw [if_neg ht, if_neg (Nat.not_lt_of_le hle), hind, h.unspent.1, h.unspent.2, if_neg hfive, hset]
    refine Eq.trans (b := (coin₁.updateAddrinfo a 1 5 coin.numspends 0).bind _) rfl ?_
    rw [hup]
    rfl
  obtain ⟨e, he, -⟩ := h.entries.1
  have hmem : (⟨1, coin.numspends⟩ : AddrtxInfo) ∈ coin₂.entries a (coin₂.ledger a) := by
    rw [hmark]
    exact List.mem_map.mpr ⟨e, he, rfl⟩
  have hlast : ({ coin₂ with numspends := coin₂.numspends + 1 } : Coin).entries a (coin₂.ledger a) =
      coin₂.entries a (coin₂.ledger a) := entries_records rfl rfl _
  refine ⟨_, hcall, ⟨⟨h.listed.1, ?_⟩, ?_, hplaced', ?_, ⟨⟨⟨1, coin.numspends⟩, ?_, rfl⟩, fun e he => ?_⟩, ?_, Nat.succ_ne_zero _⟩,
    fun e he => ?_, ?_, ?_, ?_⟩
  · have hind : coin₂.addrind = coin.addrind := hsame.addrind.trans (by rw [← hset]; rfl)
    exact Nat.lt_of_lt_of_eq h.listed.2 hind.symm
  · have hunspents : coin₂.unspents = coin.unspents := hsame.unspents.trans (by rw [← hset]; rfl)
    dsimp only
    rw [hunspents]
    exact h.unspent
  · have hinc := List.Pairwise.map (f := fun e : AddrtxInfo => if e.unspentind = 1 then ⟨1, coin.numspends⟩ else e)
      (S := fun e e' : AddrtxInfo => e.unspentind < e'.unspentind) (fun e e' hlt => ?_) h.increasing
    · rw [hlast, hentries', hentries]
      exact hinc
    · split <;> split <;> simp_all
  · rw [hlast]
    exact hmem
  · rw [hlast] at he
    rw [hspent e he]
  · refine hbalance.trans ?_
    rw [hledger, h.balance]
  · rw [hlast] at he
    rw [hspent e he]
    exact h.numspends
  · exact hsame.txidDB.trans (by rw [← hset]; rfl)
  · exact hsame.txoffsets.trans (by rw [← hset]; rfl)
  · exact hsame.txidind.trans (by rw [← hset]; rfl)

/-- A valid chain from one book to another. -/
private def Leads (book : Book) (calls : List Call) (book' : Book) : Prop :=
  book.AcceptsAll calls ∧ book.after calls = book'

private theorem Leads.append {book₁ book₂ : Book} {calls calls' : List Call} (h : Leads book calls book₁)
    (h' : Leads book₁ calls' book₂) : Leads book (calls ++ calls') book₂ := by
  obtain ⟨haccepts, rfl⟩ := h
  obtain ⟨haccepts', rfl⟩ := h'
  exact ⟨Book.acceptsAll_append.mpr ⟨haccepts, haccepts'⟩, List.foldl_append ..⟩

private theorem leads_zeros {o : Output} (outputs : List Output) (txs : List BookTx) (first n : Nat)
    (hvalid : o.Valid) (hroom : outputs.length + n < 2^32) :
    ∃ more, Leads ⟨outputs, [], txs, first⟩ (List.replicate n o.call) ⟨outputs ++ more, [], txs, first⟩ ∧
      more.length = n ∧ ∀ o' ∈ more, o' = o := by
  induction n generalizing outputs with
  | zero => exact ⟨[], ⟨trivial, by rw [List.append_nil]; rfl⟩, rfl, fun _ h => by cases h⟩
  | succ n ih =>
    have hlen : (outputs ++ [o]).length = outputs.length + 1 := List.length_append
    obtain ⟨more, ⟨haccepts, hafter⟩, hmore, hall⟩ := ih (outputs ++ [o]) (by omega)
    refine ⟨o :: more, ⟨?_, ?_⟩, ?_, ?_⟩
    · exact ⟨⟨hvalid.1, hvalid.2, by dsimp only; omega⟩, haccepts⟩
    · rw [List.append_cons, ← hafter]
      rfl
    · rw [List.length_cons, hmore]
    · rintro o' (_ | ⟨_, ho'⟩)
      · rfl
      · exact hall o' ho'

private theorem leads_tx {L : List Char} {outputs : List Output} {txs : List BookTx} {first : Nat}
    (hroom : txs.length + 1 < 2^32) (hnew : ∀ t ∈ txs, t.txid ≠ decodeTxid L) :
    Leads ⟨outputs, [], txs, first⟩ [.tx L]
      ⟨outputs, [], txs ++ [⟨decodeTxid L, first, outputs.length + 1 - first⟩], outputs.length + 1⟩ :=
  ⟨⟨⟨hroom, hnew⟩, trivial⟩, rfl⟩

private def paidOutput : Output := ⟨['a'], ['5', '1'], 5⟩

private def zeroOutput : Output := ⟨['a'], ['5', '1'], 0⟩

/-- Two transactions of 32768 and 32769 outputs to one address, the first with a value. -/
def farOutputs : List Call :=
  [.vout ['a'] ['5', '1'] 5] ++ List.replicate 32767 (.vout ['a'] ['5', '1'] 0) ++ [.tx (List.replicate 64 '1')] ++
    List.replicate 32769 (.vout ['a'] ['5', '1'] 0) ++ [.tx (List.replicate 64 '2')]

/-- A spend of the last of them and one of the first. -/
def farSpends : List Call := [.vin (List.replicate 64 '2') 32768, .vin (List.replicate 64 '1') 0]

private def farTxs : List BookTx :=
  [⟨decodeTxid (List.replicate 64 '1'), 1, 32768⟩, ⟨decodeTxid (List.replicate 64 '2'), 32769, 32769⟩]

private theorem farTxids_ne : decodeTxid (List.replicate 64 '1') ≠ decodeTxid (List.replicate 64 '2') := by decide

private theorem farOutputs_leads : ∃ outs, Leads Book.genesis farOutputs ⟨paidOutput :: outs, [], farTxs, 65538⟩ ∧
    ∀ o ∈ outs, o = zeroOutput := by
  have hpaid : paidOutput.Valid := ⟨by decide, [0x51], by decide, rfl⟩
  have hzero : zeroOutput.Valid := ⟨by decide, [0x51], by decide, rfl⟩
  have hfirst : Leads Book.genesis [.vout ['a'] ['5', '1'] 5] ⟨[paidOutput], [], [], 1⟩ :=
    ⟨⟨⟨hpaid.1, hpaid.2, by decide⟩, trivial⟩, rfl⟩
  obtain ⟨outs₁, hzeros₁, hlen₁, hall₁⟩ :=
    leads_zeros [paidOutput] [] 1 32767 hzero (by decide)
  have hrun := (hfirst.append hzeros₁).append (leads_tx (L := List.replicate 64 '1') (by decide) fun t ht => by cases ht)
  have hlen : ([paidOutput] ++ outs₁).length = 32768 := by
    rw [List.length_append, hlen₁, List.length_singleton]
  rw [hlen] at hrun
  obtain ⟨outs₂, hzeros₂, hlen₂, hall₂⟩ := leads_zeros ([paidOutput] ++ outs₁)
    [⟨decodeTxid (List.replicate 64 '1'), 1, 32768⟩] 32769 32769 hzero (by rw [hlen]; decide)
  have hrun' := (hrun.append hzeros₂).append (leads_tx (L := List.replicate 64 '2') (by decide) fun t ht => by
    rw [List.mem_singleton.mp ht]
    exact farTxids_ne)
  have hlen' : ([paidOutput] ++ outs₁ ++ outs₂).length = 65537 := by
    rw [List.length_append, hlen, hlen₂]
  rw [hlen'] at hrun'
  refine ⟨outs₁ ++ outs₂, hrun', fun o ho => ?_⟩
  rcases List.mem_append.mp ho with ho | ho
  · exact hall₁ o ho
  · exact hall₂ o ho

private theorem farCalls_snd : (farOutputs.map fun c => ((0 : Nat), c)).map Prod.snd = farOutputs := by
  rw [List.map_map]
  exact List.map_id _

private theorem farCalls_plain : ∀ c ∈ farOutputs.map fun c => ((0 : Nat), c), Plain c.2 := by
  intro c hc
  obtain ⟨c, hmem, rfl⟩ := List.mem_map.mp hc
  rw [farOutputs] at hmem
  simp only [List.mem_append, List.mem_singleton, List.mem_replicate] at hmem
  rcases hmem with (((rfl | ⟨-, rfl⟩) | rfl) | ⟨-, rfl⟩) | rfl
  · exact Nat.le_of_ble_eq_true rfl
  · exact Nat.le_of_ble_eq_true rfl
  · exact trivial
  · exact Nat.le_of_ble_eq_true rfl
  · exact trivial

private theorem farOutputs_entries {outs : List Output} (houts : ∀ o ∈ outs, o = zeroOutput) :
    (⟨paidOutput :: outs, [], farTxs, 65538⟩ : Book).entries ['a'] = [⟨1, 0⟩] := by
  have hinc := Book.entries_increasing ⟨paidOutput :: outs, [], farTxs, 65538⟩ ['a']
  have hmem : (⟨1, 0⟩ : AddrtxInfo) ∈ (⟨paidOutput :: outs, [], farTxs, 65538⟩ : Book).entries ['a'] :=
    Book.mem_entries.mpr ⟨0, paidOutput, rfl, rfl, by decide, rfl⟩
  have hall : ∀ e ∈ (⟨paidOutput :: outs, [], farTxs, 65538⟩ : Book).entries ['a'], e = ⟨1, 0⟩ := by
    intro e he
    obtain ⟨i, o, ho, -, hne, rfl⟩ := Book.mem_entries.mp he
    cases i with
    | zero => rfl
    | succ i =>
      rw [List.getElem?_cons_succ] at ho
      rw [houts o (List.mem_of_getElem? ho)] at hne
      exact absurd rfl hne
  -- An increasing list has no entry twice.
  generalize (⟨paidOutput :: outs, [], farTxs, 65538⟩ : Book).entries ['a'] = es at hinc hmem hall
  cases es with
  | nil => cases hmem
  | cons e es =>
    rw [hall e List.mem_cons_self]
    refine congrArg _ (List.eq_nil_iff_forall_not_mem.mpr fun e' he' => ?_)
    have hlt := (List.pairwise_cons.mp hinc).1 e' he'
    rw [hall e List.mem_cons_self, hall e' (List.mem_cons_of_mem e he')] at hlt
    exact Nat.lt_irrefl 1 hlt

private theorem farOutputs_return {outs : List Output} (houts : ∀ o ∈ outs, o = zeroOutput)
    (hleads : Leads Book.genesis farOutputs ⟨paidOutput :: outs, [], farTxs, 65538⟩) :
    ∃ coin, Coin.genesis.calls (farOutputs.map fun c => (0, c)) = some coin ∧
      Refines coin ⟨paidOutput :: outs, [], farTxs, 65538⟩ := by
  have hkept : keptScript (paidOutput :: outs) ['a'] = [0x51] := by
    have hfind : (paidOutput :: outs).find? (fun o => o.coinaddr = ['a']) = some paidOutput :=
      List.find?_cons_of_pos (decide_eq_true rfl)
    rw [keptScript, hfind]
    decide
  have hrecord : ∀ o ∈ paidOutput :: outs, InRecord (paidOutput :: outs) o := by
    rintro o (_ | ⟨_, ho⟩)
    · exact ⟨by decide, hkept⟩
    · rw [houts o ho]
      exact ⟨by decide, hkept⟩
  have haccepts : Book.genesis.AcceptsAll ((farOutputs.map fun c => ((0 : Nat), c)).map Prod.snd) := by
    rw [farCalls_snd]
    exact hleads.1
  have hroom : RoomFor (paidOutput :: outs) ['a'] := by
    rw [RoomFor, hkept]
    exact .inr (.inl (by decide))
  obtain ⟨coin, hrun, -⟩ := calls_return refines_genesis Book.sound_genesis scripted_genesis balanced_genesis haccepts
    farCalls_plain (by
      rw [farCalls_snd, hleads.2]
      intro o ho
      refine ⟨fun hout => absurd (hrecord o ho) hout, ?_⟩
      rcases List.mem_cons.mp ho with rfl | hmem
      · exact hroom
      · rw [houts o hmem]
        exact hroom)
  obtain ⟨h, -⟩ := calls_refines refines_genesis Book.sound_genesis balanced_genesis haccepts farCalls_plain hrun
  rw [farCalls_snd, hleads.2] at h
  exact ⟨coin, hrun, h⟩

private theorem farOutputs_run : ∃ coin a, Coin.genesis.calls (farOutputs.map fun c => (0, c)) = some coin ∧
    PaidOnce coin a 5 ∧ coin.txidDB (decodeTxid (List.replicate 64 '1')) = some 1 ∧
      coin.txidDB (decodeTxid (List.replicate 64 '2')) = some 2 ∧ (coin.txoffsets 1).1 = 1 ∧
      (coin.txoffsets 2).1 = 32769 ∧ coin.txidind = 3 := by
  obtain ⟨outs, hleads, houts⟩ := farOutputs_leads
  obtain ⟨coin, hrun, h⟩ := farOutputs_return houts hleads
  obtain ⟨hvalue, hdb⟩ := h.unspents 0 paidOutput rfl
  have haddrDB : coin.addrDB ['a'] = some (coin.unspents 1).addrind := hdb
  obtain ⟨hpos, hlt, hcoinaddr⟩ := h.addrs ['a'] _ haddrDB
  obtain ⟨-, hplaced, hentries, hbalance⟩ := h.listed _ hpos hlt
  rw [hcoinaddr, farOutputs_entries houts] at hentries
  obtain ⟨htxid₁, hfirst₁⟩ := h.txs 0 ⟨decodeTxid (List.replicate 64 '1'), 1, 32768⟩ rfl
  obtain ⟨htxid₂, hfirst₂⟩ := h.txs 1 ⟨decodeTxid (List.replicate 64 '2'), 32769, 32769⟩ rfl
  rw [hentries, unspentSum_cons, if_pos rfl] at hbalance
  refine ⟨coin, _, hrun, ⟨⟨hpos, hlt⟩, ⟨hvalue, rfl⟩, hplaced, ?_, ⟨⟨⟨1, 0⟩, ?_, rfl⟩, fun e he => ?_⟩, ?_, ?_⟩, htxid₁,
    htxid₂, hfirst₁, hfirst₂, h.txidind⟩
  · rw [hentries]
    exact List.pairwise_singleton _ _
  · rw [hentries]
    exact List.mem_singleton_self _
  · rw [hentries] at he
    rw [List.mem_singleton.mp he]
  · rw [hbalance]
    exact (UInt64.add_zero _).trans hvalue
  · rw [h.numspends]
    exact Nat.succ_ne_zero _

/-- A run of a valid chain after which a balance is not the sum of the outputs that are not spent. -/
theorem ledger_far_spend : ¬ ∀ calls : List (Nat × Call), Book.genesis.AcceptsAll (calls.map Prod.snd) →
    ∀ coin, Coin.genesis.calls calls = some coin → ∀ a, 1 ≤ a → a < coin.addrind →
      (coin.ledger a).balance = coin.unspentSum (coin.entries a (coin.ledger a)) := by
  intro hclaim
  obtain ⟨outs, ⟨haccepts, hafter⟩, -⟩ := farOutputs_leads
  obtain ⟨coin, a, hrun, hpaid, htxid₁, htxid₂, hfirst₁, hfirst₂, htxidind⟩ := farOutputs_run
  have hfar : coin.spentInd 2 32768 = 1 := by
    rw [Coin.spentInd, hfirst₂]
    decide
  have hnear : ∀ {coin' : Coin}, coin'.txoffsets = coin.txoffsets → coin'.spentInd 1 0 = 1 := by
    intro coin' hoff
    rw [Coin.spentInd, hoff, hfirst₁]
    decide
  obtain ⟨coin₁, hcall₁, hpaid₁, -, htxidDB, htxoffsets, hind⟩ :=
    hpaid.vin htxid₂ (by decide) (by rw [htxidind]; decide) hfar
  obtain ⟨coin₂, hcall₂, hpaid₂, hspent, -⟩ :=
    hpaid₁.vin ((congrFun htxidDB _).trans htxid₁) (by decide) (by rw [hind, htxidind]; decide) (hnear htxoffsets)
  have hspends : Leads ⟨paidOutput :: outs, [], farTxs, 65538⟩ farSpends
      (Book.after ⟨paidOutput :: outs, [], farTxs, 65538⟩ farSpends) := by
    have hfind : farTxs.find? (fun t => t.txid = decodeTxid (List.replicate 64 '2')) =
        some ⟨decodeTxid (List.replicate 64 '2'), 32769, 32769⟩ := by decide
    refine ⟨⟨?_, ⟨?_, trivial⟩⟩, rfl⟩
    · exact ⟨⟨decodeTxid (List.replicate 64 '2'), 32769, 32769⟩, List.mem_cons_of_mem _ (List.mem_singleton_self _), rfl,
        by decide, List.not_mem_nil⟩
    · refine ⟨⟨decodeTxid (List.replicate 64 '1'), 1, 32768⟩, List.mem_cons_self, rfl, by decide, fun hmem => ?_⟩
      rw [Book.step, Book.outpoint, hfind] at hmem
      exact absurd (List.mem_singleton.mp hmem) (by decide)
  have hall := Leads.append ⟨haccepts, hafter⟩ hspends
  have hsnd : ((farOutputs.map fun c => ((0 : Nat), c)) ++ farSpends.map fun c => (0, c)).map Prod.snd =
      farOutputs ++ farSpends := by
    rw [List.map_append, List.map_map, List.map_map]
    exact congrArg₂ _ (List.map_id _) (List.map_id _)
  have hrun' : Coin.genesis.calls ((farOutputs.map fun c => (0, c)) ++ farSpends.map fun c => (0, c)) = some coin₂ := by
    rw [calls_append, hrun, Option.bind_some, farSpends, List.map_cons, List.map_singleton, calls_cons, hcall₁,
      Option.bind_some, calls_cons, hcall₂]
    rfl
  have hbad := hclaim _ (hsnd ▸ hall.1) coin₂ hrun' a hpaid₂.listed.1 hpaid₂.listed.2
  have hnone : (coin₂.entries a (coin₂.ledger a)).filter (fun atx => atx.spendind = 0) = [] :=
    List.filter_eq_nil_iff.mpr fun e he h => hspent e he (of_decide_eq_true h)
  have hzero : coin₂.unspentSum (coin₂.entries a (coin₂.ledger a)) = 0 := by
    rw [Coin.unspentSum, hnone]
    rfl
  rw [hzero, hpaid₂.balance] at hbad
  exact absurd hbad (by decide)

end SuperNet.Coins.Coin777
