import SuperNet.Coins.Coin777Addrtx
import SuperNet.Coins.Coin777Book
import Mathlib.Data.UInt
import Mathlib.Algebra.BigOperators.Intervals

/-! The ledger of a ramchain over the calls of a valid chain: the entries and the balance of every address are
those of the book, wherever the entries are kept. -/
namespace SuperNet.Coins.Coin777
open Lib.Words Lib.Bytes Utils.Hex

variable {coin coin' : Coin} {book : Book} {a b : Nat} {L : Lentry}

def Coin.addrinfosSum (coin : Coin) (maxaddrind : Nat) : UInt64 :=
  ∑ addrind ∈ Finset.Ico 1 maxaddrind, (coin.ledger addrind).balance

/-- A list that is in the record of its address is where `coin777_add_addrinfo` has put it. -/
def Home (A : Addrinfo) (L : Lentry) : Prop := L.insideA = true → 0 < L.maxaddrtx ∧
  embeddedRoom (A.coinaddr.length + 1 + A.script.length) = (L.firstAddrtxi, L.maxaddrtx)

theorem Home.of_kept {A A' : Addrinfo} {L' : Lentry} (h : Home A L) (hkept : Kept coin coin' a L L')
    (hcoinaddr : A'.coinaddr = A.coinaddr) (hscript : A'.script = A.script) : Home A' L' := by
  intro hinside
  obtain ⟨hold, hfirst, hmax⟩ := hkept.home hinside
  rw [hcoinaddr, hscript, hfirst, hmax]
  exact h hold

/-- The list of an address: it has its place, holds the entries of the book and sums up to the balance. -/
structure Listed (coin : Coin) (book : Book) (a : Nat) : Prop where
  home : Home (coin.addrinfos a) (coin.ledger a)
  placed : Placed coin.totaladdrtx (coin.ledger a)
  entries : coin.entries a (coin.ledger a) = book.entries (coin.addrinfos a).coinaddr
  balance : (coin.ledger a).balance = coin.unspentSum (coin.entries a (coin.ledger a))

/-- The tables hold what the book says. -/
structure Refines (coin : Coin) (book : Book) : Prop where
  unspentind : coin.unspentind = book.outputs.length + 1
  numspends : coin.numspends = book.spends.length + 1
  txidind : coin.txidind = book.txs.length + 1
  firstvout : coin.firstvout = book.first
  addrind : 1 ≤ coin.addrind
  unspents : ∀ i o, book.outputs[i]? = some o → (coin.unspents (i + 1)).value = o.value ∧
    coin.addrDB o.coinaddr = some (coin.unspents (i + 1)).addrind
  addrs : ∀ s a, coin.addrDB s = some a → 1 ≤ a ∧ a < coin.addrind ∧ (coin.addrinfos a).coinaddr = s
  known : ∀ a, 1 ≤ a → a < coin.addrind → coin.addrDB (coin.addrinfos a).coinaddr = some a
  txs : ∀ i t, book.txs[i]? = some t → coin.txidDB t.txid = some (i + 1) ∧ (coin.txoffsets (i + 1)).1 = t.first
  listed : ∀ a, 1 ≤ a → a < coin.addrind → Listed coin book a
  apart : ∀ a b, 1 ≤ a → a < coin.addrind → 1 ≤ b → b < coin.addrind → a ≠ b → Apart (coin.ledger a) (coin.ledger b)

theorem refines_genesis : Refines Coin.genesis Book.genesis where
  unspentind := rfl
  numspends := rfl
  txidind := rfl
  firstvout := rfl
  addrind := Nat.le_refl 1
  unspents _ _ h := by cases h
  addrs _ _ h := by cases h
  known _ h h' := absurd h' (Nat.not_lt_of_le h)
  txs _ _ h := by cases h
  listed _ h h' := absurd h' (Nat.not_lt_of_le h)
  apart _ _ h h' := absurd h' (Nat.not_lt_of_le h)

theorem Refines.unknown_entries (h : Refines coin book) {s : List Char} (hs : coin.addrDB s = none) :
    book.entries s = [] := by
  refine List.eq_nil_iff_forall_not_mem.mpr fun e he => ?_
  obtain ⟨i, o, ho, haddr, -, -⟩ := Book.mem_entries.mp he
  have hdb := (h.unspents i o ho).2
  rw [haddr, hs] at hdb
  cases hdb

/-! ### The record of a new address -/

private theorem embeddedRoom_le {len : Nat} (hlen : len ≤ 153) :
    (embeddedRoom len).1 + addrtxSize * (embeddedRoom len).2 ≤ addrinfoSize := by
  rw [embeddedRoom]
  by_cases haligned : (coinaddrOffset + len) % 4 ≠ 0
  · rw [if_pos haligned]
    dsimp only [coinaddrOffset, coinaddrSize, addrtxSize, addrinfoSize] at haligned ⊢
    omega
  · rw [if_neg haligned]
    dsimp only [coinaddrOffset, coinaddrSize, addrtxSize, addrinfoSize] at haligned ⊢
    omega

/-- What a new address changes: it gets an empty list of its own. -/
structure Opened (coin coin' : Coin) (a : Nat) (coinaddr : List Char) (script : List UInt8) : Prop where
  total : coin.totaladdrtx ≤ coin'.totaladdrtx
  record : (coin'.addrinfos a).coinaddr = coinaddr ∧ (coin'.addrinfos a).script = script
  records : ∀ b ≠ a, coin'.addrinfos b = coin.addrinfos b
  ledgers : ∀ b ≠ a, coin'.ledger b = coin.ledger b
  empty : (coin'.ledger a).numaddrtx = 0 ∧ (coin'.ledger a).balance = 0
  home : Home (coin'.addrinfos a) (coin'.ledger a)
  placed : Placed coin'.totaladdrtx (coin'.ledger a)
  others : ∀ b M, b ≠ a → Placed coin.totaladdrtx M →
    coin'.entries b M = coin.entries b M ∧ Apart (coin'.ledger a) M

private theorem Opened.of_update {A : Addrinfo} (hrecords : coin'.addrinfos = Function.update coin.addrinfos a A)
    (hledgers : coin'.ledger = Function.update coin.ledger a L) {coinaddr : List Char} {script : List UInt8}
    (hA : A.coinaddr = coinaddr ∧ A.script = script) (hL : L.numaddrtx = 0 ∧ L.balance = 0) (hhome : Home A L)
    (htotal : coin.totaladdrtx ≤ coin'.totaladdrtx) (hplaced : Placed coin'.totaladdrtx L)
    (hothers : ∀ b M, b ≠ a → Placed coin.totaladdrtx M → coin'.entries b M = coin.entries b M ∧ Apart L M) :
    Opened coin coin' a coinaddr script := by
  have hrecord : coin'.addrinfos a = A := by rw [hrecords, Function.update_self]
  have hledger : coin'.ledger a = L := by rw [hledgers, Function.update_self]
  refine ⟨htotal, by rwa [hrecord], fun b hb => ?_, fun b hb => ?_, by rwa [hledger], by rwa [hrecord, hledger],
    by rwa [hledger], ?_⟩
  · rw [hrecords, Function.update_of_ne hb]
  · rw [hledgers, Function.update_of_ne hb]
  · rwa [hledger]

private theorem addAddrinfo_spec (coin : Coin) (a : Nat) {coinaddr : List Char} (script : List UInt8) (blocknum : Nat)
    (hlen : coinaddr.length + 1 ≤ 153) :
    SameTables coin (coin.addAddrinfo a coinaddr script blocknum).1 ∧
      Opened coin (coin.addAddrinfo a coinaddr script blocknum).1 a coinaddr
        (if scriptFits coinaddr script then script else []) := by
  rw [Coin.addAddrinfo]
  generalize hkept : (if scriptFits coinaddr script then script else []) = kept
  have hroom : coinaddr.length + 1 + kept.length ≤ 153 := by
    rw [← hkept]
    split
    case isTrue hfits =>
      have hle := of_decide_eq_true hfits
      dsimp only [addrtxSize, coinaddrSize] at hle
      omega
    case isFalse => exact hlen
  have hinside := embeddedRoom_le hroom
  dsimp only
  generalize hfound : embeddedRoom (coinaddr.length + 1 + kept.length) = room at hinside ⊢
  obtain ⟨offset, max⟩ := room
  dsimp only at hinside ⊢
  split
  case isTrue hmax =>
    refine ⟨⟨rfl, rfl, rfl, rfl, rfl, rfl, rfl, rfl, rfl, rfl, rfl, rfl, rfl, rfl, rfl, rfl, rfl⟩,
      Opened.of_update rfl rfl ⟨rfl, rfl⟩ ⟨rfl, rfl⟩ (fun _ => ⟨hmax, hfound⟩) (Nat.le_refl _) ?_
        fun b M hb hM => ⟨?_, ?_⟩⟩
    · exact ⟨Nat.zero_le _, fun _ => hinside, fun h => absurd h.symm Bool.false_ne_true⟩
    · refine entries_records ?_ ?_ M
      · exact Function.update_of_ne hb _ coin.addrinfos
      · rfl
    · exact fun h => absurd h.symm Bool.false_ne_true
  case isFalse hmax =>
    refine ⟨⟨rfl, rfl, rfl, rfl, rfl, rfl, rfl, rfl, rfl, rfl, rfl, rfl, rfl, rfl, rfl, rfl, rfl⟩,
      Opened.of_update rfl rfl ⟨rfl, rfl⟩ ⟨rfl, rfl⟩ (fun h => absurd h Bool.false_ne_true) (Nat.le_add_right _ _) ?_
        fun b M hb hM => ⟨?_, ?_⟩⟩
    · refine ⟨Nat.zero_le _, fun h => absurd h Bool.false_ne_true, fun _ => ?_⟩
      exact Nat.add_lt_add_left (Nat.lt_succ_self 16) _
    · have halloc := entries_addrtxalloc b 16 hM ⟨0, offset, 0, max, true⟩
      rw [← halloc]
      refine entries_records ?_ ?_ M
      · exact Function.update_of_ne hb _ coin.addrinfos
      · rfl
    · exact fun _ hM' => Or.inr (hM.outside hM')

private theorem Refines.open_address {a : Nat} {coinaddr : List Char} {script : List UInt8} (h : Refines coin book)
    (ha : a = coin.addrind) (hnew : coin.addrDB coinaddr = none) (hopen : Opened coin coin' a coinaddr script)
    (hunspents : coin'.unspents = coin.unspents) (htxidDB : coin'.txidDB = coin.txidDB)
    (htxoffsets : coin'.txoffsets = coin.txoffsets) (hu : coin'.unspentind = coin.unspentind)
    (hs : coin'.numspends = coin.numspends) (ht : coin'.txidind = coin.txidind)
    (hf : coin'.firstvout = coin.firstvout) (hind : coin'.addrind = coin.addrind + 1)
    (hDB : coin'.addrDB = Function.update coin.addrDB coinaddr (some a)) :
    Refines coin' book ∧ coin'.addrinfosSum coin'.addrind = coin.addrinfosSum coin.addrind := by
  have hold : ∀ {b}, b < coin.addrind → b ≠ a := fun hb => by omega
  have hcases : ∀ {b}, b < coin'.addrind → b = a ∨ b < coin.addrind := fun hb => by omega
  have hlisted : ∀ b, 1 ≤ b → b < coin.addrind → Listed coin' book b := by
    intro b hb hlt
    obtain ⟨hhome, hplaced, hentries, hbalance⟩ := h.listed b hb hlt
    obtain ⟨hsame, -⟩ := hopen.others b _ (hold hlt) hplaced
    refine ⟨by rwa [hopen.ledgers b (hold hlt), hopen.records b (hold hlt)], ?_, ?_, ?_⟩
    · rw [hopen.ledgers b (hold hlt)]
      exact ⟨hplaced.room, hplaced.inside, fun hi => Nat.lt_of_lt_of_le (hplaced.outside hi) hopen.total⟩
    · rw [hopen.ledgers b (hold hlt), hopen.records b (hold hlt), hsame, hentries]
    · rw [hopen.ledgers b (hold hlt), hsame, hbalance, Coin.unspentSum, Coin.unspentSum]
      refine congrArg List.sum (List.map_congr_left fun e _ => ?_)
      rw [Coin.uvalue, Coin.uvalue, hunspents]
  have hempty : coin'.entries a (coin'.ledger a) = [] := by
    rw [Coin.entries, hopen.empty.1]
    rfl
  refine ⟨⟨hu.trans h.unspentind, hs.trans h.numspends, ht.trans h.txidind, hf.trans h.firstvout,
    by rw [hind]; exact Nat.le_add_left 1 _, ?_, ?_, ?_, ?_, ?_, ?_⟩, ?_⟩
  · intro i o ho
    obtain ⟨hvalue, hdb⟩ := h.unspents i o ho
    have hne : o.coinaddr ≠ coinaddr := by
      rintro heq
      rw [heq, hnew] at hdb
      cases hdb
    rw [hunspents, hDB, Function.update_of_ne hne]
    exact ⟨hvalue, hdb⟩
  · intro s b hsb
    rw [hDB] at hsb
    by_cases heq : s = coinaddr
    · rw [heq, Function.update_self] at hsb
      cases hsb
      rw [hopen.record.1, hind, heq, ha]
      exact ⟨h.addrind, Nat.lt_succ_self _, rfl⟩
    · rw [Function.update_of_ne heq] at hsb
      obtain ⟨hpos, hlt, haddr⟩ := h.addrs s b hsb
      rw [hopen.records b (hold hlt), hind]
      exact ⟨hpos, Nat.lt_succ_of_lt hlt, haddr⟩
  · intro b hb hlt
    rcases hcases hlt with rfl | hlt
    · rw [hopen.record.1, hDB, Function.update_self]
    · have hdb := h.known b hb hlt
      have hne : (coin.addrinfos b).coinaddr ≠ coinaddr := by
        rintro heq
        rw [heq, hnew] at hdb
        cases hdb
      rw [hopen.records b (hold hlt), hDB, Function.update_of_ne hne]
      exact hdb
  · intro i t hit
    rw [htxidDB, htxoffsets]
    exact h.txs i t hit
  · intro b hb hlt
    rcases hcases hlt with rfl | hlt
    · refine ⟨hopen.home, hopen.placed, ?_, ?_⟩
      · rw [hempty, hopen.record.1, h.unknown_entries hnew]
      · rw [hempty, hopen.empty.2]
        rfl
    · exact hlisted b hb hlt
  · intro b c hb hlt hc hlt' hne
    rcases hcases hlt with rfl | hlt
    · rcases hcases hlt' with rfl | hlt'
      · exact absurd rfl hne
      · rw [hopen.ledgers c (hold hlt')]
        exact (hopen.others c _ (hold hlt') (h.listed c hc hlt').placed).2
    · rcases hcases hlt' with rfl | hlt'
      · rw [hopen.ledgers b (hold hlt)]
        exact (hopen.others b _ (hold hlt) (h.listed b hb hlt).placed).2.symm
      · rw [hopen.ledgers b (hold hlt), hopen.ledgers c (hold hlt')]
        exact h.apart b c hb hlt hc hlt' hne
  · rw [Coin.addrinfosSum, Coin.addrinfosSum, hind, Finset.sum_Ico_succ_top h.addrind, ← ha, hopen.empty.2, add_zero]
    refine Finset.sum_congr rfl fun b hb => ?_
    rw [hopen.ledgers b (Nat.ne_of_lt (Finset.mem_Ico.mp hb).2)]

private theorem Refines.scripts (h : Refines coin book) (scriptDB : List UInt8 → Option (List UInt8)) (scriptind : Nat) :
    Refines { coin with scriptDB := scriptDB, scriptind := scriptind } book :=
  ⟨h.unspentind, h.numspends, h.txidind, h.firstvout, h.addrind, h.unspents, h.addrs, h.known, h.txs,
    fun a ha hlt => ⟨(h.listed a ha hlt).home, (h.listed a ha hlt).placed, (h.listed a ha hlt).entries,
      (h.listed a ha hlt).balance⟩, h.apart⟩

private theorem Refines.credit (h : Refines coin book) (scriptstr : List Char) (value : UInt64) :
    Refines (coin.credit scriptstr value) book :=
  ⟨h.unspentind, h.numspends, h.txidind, h.firstvout, h.addrind, h.unspents, h.addrs, h.known, h.txs,
    fun a ha hlt => ⟨(h.listed a ha hlt).home, (h.listed a ha hlt).placed, (h.listed a ha hlt).entries,
      (h.listed a ha hlt).balance⟩, h.apart⟩

private theorem addAddr_known (h : Refines coin book) {coinaddr : List Char} (hdb : coin.addrDB coinaddr = some a) :
    coin.addAddr coinaddr = some (coin, a, false) := by
  obtain ⟨hpos, hlt, -⟩ := h.addrs coinaddr a hdb
  rw [Coin.addAddr, hdb, Option.getD_some]
  dsimp only
  rw [if_neg (Nat.ne_of_gt hpos), if_neg (Nat.ne_of_lt hlt), if_neg (Nat.not_lt_of_gt hlt)]

private theorem addAddr_new {coinaddr : List Char} (hdb : coin.addrDB coinaddr = none) :
    coin.addAddr coinaddr = some (coin.newAddr coinaddr, coin.addrind, true) := by
  rw [Coin.addAddr, hdb]
  rfl

private theorem addRecord_new (coin : Coin) (a : Nat) (coinaddr : List Char) (script : List UInt8) (blocknum : Nat) :
    ∃ scriptDB scriptind flag, coin.addRecord a true coinaddr script blocknum =
      ({ (coin.addAddrinfo a coinaddr script blocknum).1 with scriptDB := scriptDB, scriptind := scriptind }, flag) := by
  rw [Coin.addRecord, if_pos rfl]
  generalize coin.addAddrinfo a coinaddr script blocknum = opened
  obtain ⟨opened, flag⟩ := opened
  cases flag with
  | true => exact ⟨opened.scriptDB, opened.scriptind, true, rfl⟩
  | false =>
    exact ⟨(opened.addscript script).1.scriptDB, (opened.addscript script).1.scriptind, false, rfl⟩

private theorem Opened.of_newAddr {s coinaddr : List Char} {script : List UInt8}
    (h : Opened (coin.newAddr s) coin' a coinaddr script) : Opened coin coin' a coinaddr script where
  total := h.total
  record := h.record
  records := h.records
  ledgers := h.ledgers
  empty := h.empty
  home := h.home
  placed := h.placed
  others b M hb hM := by
    obtain ⟨hentries, hapart⟩ := h.others b M hb hM
    exact ⟨hentries.trans (entries_records rfl rfl M), hapart⟩

/-- The first part of `coin777_addvout` finds the address or gives it an empty list. -/
theorem voutAddr_spec (h : Refines coin book) (blocknum : Nat) {coinaddr : List Char} (scriptstr : List Char)
    (value : UInt64) (hlen : coinaddr.length + 1 ≤ 153) :
    ∃ coin' a flag, coin.voutAddr blocknum coinaddr scriptstr value = some (coin', a, flag) ∧ Refines coin' book ∧
      coin'.addrinfosSum coin'.addrind = coin.addrinfosSum coin.addrind ∧ coin'.addrDB coinaddr = some a ∧
      coin'.credits = coin.credits + value ∧ coin'.debits = coin.debits := by
  have hcredit := h.credit scriptstr value
  have hcredits : (coin.credit scriptstr value).credits = coin.credits + value := rfl
  have hdebits : (coin.credit scriptstr value).debits = coin.debits := rfl
  have hsum : (coin.credit scriptstr value).addrinfosSum (coin.credit scriptstr value).addrind =
      coin.addrinfosSum coin.addrind := rfl
  rw [Coin.voutAddr]
  generalize coin.credit scriptstr value = fed at *
  cases hdb : fed.addrDB coinaddr with
  | some a =>
    refine ⟨fed, a, false, ?_, hcredit, hsum, hdb, hcredits, hdebits⟩
    rw [addAddr_known hcredit hdb]
    rfl
  | none =>
    obtain ⟨scriptDB, scriptind, flag, hrecord⟩ :=
      addRecord_new (fed.newAddr coinaddr) fed.addrind coinaddr (decodeScript scriptstr) blocknum
    obtain ⟨hsame, hopen⟩ :=
      addAddrinfo_spec (fed.newAddr coinaddr) fed.addrind (decodeScript scriptstr) blocknum hlen
    generalize ((fed.newAddr coinaddr).addAddrinfo fed.addrind coinaddr (decodeScript scriptstr) blocknum).1 = opened
      at *
    obtain ⟨hrefines, hopened⟩ := hcredit.open_address rfl hdb hopen.of_newAddr hsame.unspents hsame.txidDB
      hsame.txoffsets hsame.unspentind hsame.numspends hsame.txidind hsame.firstvout hsame.addrind hsame.addrDB
    refine ⟨_, fed.addrind, flag, ?_, hrefines.scripts scriptDB scriptind, hopened.trans hsum, ?_,
      hsame.credits.trans hcredits, hsame.debits.trans hdebits⟩
    · rw [addAddr_new hdb]
      dsimp only [Option.bind_eq_bind, Option.bind_some]
      rw [hrecord]
    · have hself : (Function.update fed.addrDB coinaddr (some fed.addrind)) coinaddr = some fed.addrind :=
        Function.update_self ..
      rw [← hself]
      exact congrFun hsame.addrDB coinaddr

/-! ### A step on the list of one address -/

private theorem sum_step {f g : Nat → UInt64} {n : Nat} (ha : 1 ≤ a) (hlt : a < n) (hothers : ∀ b ≠ a, g b = f b) :
    ∑ b ∈ Finset.Ico 1 n, g b + f a = ∑ b ∈ Finset.Ico 1 n, f b + g a := by
  have hmem : a ∈ Finset.Ico 1 n := Finset.mem_Ico.mpr ⟨ha, hlt⟩
  have hrest : ∑ b ∈ (Finset.Ico 1 n).erase a, g b = ∑ b ∈ (Finset.Ico 1 n).erase a, f b :=
    Finset.sum_congr rfl fun b hb => hothers b (Finset.ne_of_mem_erase hb)
  rw [← Finset.add_sum_erase _ _ hmem, ← Finset.add_sum_erase _ f hmem, hrest]
  abel

private theorem Refines.listed_step (coin₁ coin₂ : Coin) (book' : Book) (h : Refines coin book) (ha : 1 ≤ a)
    (hlt : a < coin.addrind) (haddrinfos : coin₁.addrinfos = coin.addrinfos) (haddrtx : coin₁.addrtx = coin.addrtx)
    (hledger : coin₁.ledger = coin.ledger) (htotal : coin₁.totaladdrtx = coin.totaladdrtx)
    (hkept : Kept coin₁ coin₂ a (coin.ledger a) (coin₂.ledger a))
    (hplaced : Placed coin₂.totaladdrtx (coin₂.ledger a)) (hothers : ∀ b ≠ a, coin₂.ledger b = coin₁.ledger b)
    (hbook : ∀ s, s ≠ (coin.addrinfos a).coinaddr → book'.entries s = book.entries s)
    (hsums : ∀ s, coin₂.unspentSum (book.entries s) = coin.unspentSum (book.entries s))
    (hentries : coin₂.entries a (coin₂.ledger a) = book'.entries (coin.addrinfos a).coinaddr)
    (hbalance : (coin₂.ledger a).balance = coin₂.unspentSum (book'.entries (coin.addrinfos a).coinaddr)) :
    (∀ b, 1 ≤ b → b < coin.addrind → Listed coin₂ book' b) ∧
      (∀ b c, 1 ≤ b → b < coin.addrind → 1 ≤ c → c < coin.addrind → b ≠ c → Apart (coin₂.ledger b) (coin₂.ledger c)) ∧
      coin₂.addrinfosSum coin.addrind + (coin.ledger a).balance =
        coin.addrinfosSum coin.addrind + (coin₂.ledger a).balance := by
  have hother : ∀ b ≠ a, coin₂.ledger b = coin.ledger b := fun b hb => by rw [hothers b hb, hledger]
  have hrecord : ∀ b, (coin₂.addrinfos b).coinaddr = (coin.addrinfos b).coinaddr := fun b => by
    rw [(hkept.lists.records b).1, haddrinfos]
  have hothersList : ∀ b, 1 ≤ b → b < coin.addrind → b ≠ a →
      coin₂.entries b (coin.ledger b) = coin.entries b (coin.ledger b) ∧
        Apart (coin₂.ledger a) (coin.ledger b) := by
    intro b hb hltb hne
    have hplacedb : Placed coin₁.totaladdrtx (coin.ledger b) := by
      rw [htotal]
      exact (h.listed b hb hltb).placed
    obtain ⟨hsame, hapart⟩ := hkept.others b (coin.ledger b) hne (h.apart a b ha hlt hb hltb (Ne.symm hne)) hplacedb
    refine ⟨hsame.trans ?_, hapart⟩
    exact entries_records (congrFun haddrinfos b) haddrtx _
  refine ⟨fun b hb hltb => ?_, fun b c hb hltb hc hltc hne => ?_, ?_⟩
  · by_cases hba : b = a
    · rw [hba]
      obtain ⟨hcoinaddr, hscript⟩ := hkept.lists.records a
      rw [haddrinfos] at hcoinaddr hscript
      refine ⟨(h.listed a ha hlt).home.of_kept hkept hcoinaddr hscript, hplaced, ?_, ?_⟩
      · rw [hrecord, hentries]
      · rw [hentries, hbalance]
    · obtain ⟨hhomeb, hplacedb, hentriesb, hbalanceb⟩ := h.listed b hb hltb
      obtain ⟨hsame, -⟩ := hothersList b hb hltb hba
      obtain ⟨hcoinaddrb, hscriptb⟩ := hkept.lists.records b
      rw [haddrinfos] at hcoinaddrb hscriptb
      have hne : (coin.addrinfos b).coinaddr ≠ (coin.addrinfos a).coinaddr := by
        intro heq
        have hknown := h.known b hb hltb
        rw [heq, h.known a ha hlt] at hknown
        exact hba (Option.some.inj hknown).symm
      refine ⟨?_, ?_, ?_, ?_⟩
      · rw [hother b hba]
        exact hhomeb.of_kept (Kept.refl coin b _) hcoinaddrb hscriptb
      · rw [hother b hba]
        refine ⟨hplacedb.room, hplacedb.inside, fun hi => Nat.lt_of_lt_of_le (hplacedb.outside hi) ?_⟩
        rw [← htotal]
        exact hkept.total
      · rw [hother b hba, hsame, hrecord, hentriesb, hbook _ hne]
      · rw [hother b hba, hsame, hentriesb, hsums, ← hentriesb, hbalanceb]
  · by_cases hba : b = a
    · have hca : c ≠ a := fun hca => hne (hba.trans hca.symm)
      rw [hba, hother c hca]
      exact (hothersList c hc hltc hca).2
    · rw [hother b hba]
      by_cases hca : c = a
      · rw [hca]
        exact (hothersList b hb hltb hba).2.symm
      · rw [hother c hca]
        exact h.apart b c hb hltb hc hltc hne
  · rw [Coin.addrinfosSum, Coin.addrinfosSum]
    refine sum_step (f := fun b => (coin.ledger b).balance) (g := fun b => (coin₂.ledger b).balance) ha hlt ?_
    intro b hb
    rw [hother b hb]

theorem unspentSum_cons (coin : Coin) (e : AddrtxInfo) (es : List AddrtxInfo) :
    coin.unspentSum (e :: es) = (if e.spendind = 0 then coin.uvalue e.unspentind else 0) + coin.unspentSum es := by
  rw [Coin.unspentSum, Coin.unspentSum, List.filter_cons]
  split
  case isTrue h => rw [if_pos (of_decide_eq_true h), List.map_cons, List.sum_cons]
  case isFalse h => rw [if_neg fun hz => h (decide_eq_true hz), UInt64.zero_add]

private theorem unspentSum_append (coin : Coin) (es es' : List AddrtxInfo) :
    coin.unspentSum (es ++ es') = coin.unspentSum es + coin.unspentSum es' := by
  induction es with
  | nil => exact (UInt64.zero_add _).symm
  | cons e es ih => rw [List.cons_append, unspentSum_cons, ih, unspentSum_cons, UInt64.add_assoc]

private theorem unspentSum_congr {es : List AddrtxInfo} (h : ∀ e ∈ es, coin'.uvalue e.unspentind = coin.uvalue e.unspentind) :
    coin'.unspentSum es = coin.unspentSum es := by
  rw [Coin.unspentSum, Coin.unspentSum]
  exact congrArg List.sum (List.map_congr_left fun e he => h e (List.mem_of_mem_filter he))

private theorem unspentSum_mark (coin : Coin) {es : List AddrtxInfo} {u s : Nat} (hs : s ≠ 0)
    (hinc : es.Pairwise fun e e' => e.unspentind < e'.unspentind) (hmem : (⟨u, 0⟩ : AddrtxInfo) ∈ es) :
    coin.unspentSum (es.map fun e => if e.unspentind = u then ⟨u, s⟩ else e) + coin.uvalue u = coin.unspentSum es := by
  induction es with
  | nil => cases hmem
  | cons e es ih =>
    obtain ⟨hhead, htail⟩ := List.pairwise_cons.mp hinc
    rw [List.map_cons, unspentSum_cons, unspentSum_cons]
    rcases List.mem_cons.mp hmem with rfl | hmem
    · have hsame : (es.map fun e => if e.unspentind = u then ⟨u, s⟩ else e) = es :=
        (List.map_congr_left fun e he => if_neg (Nat.ne_of_gt (hhead e he))).trans (List.map_id' es)
      rw [if_pos rfl, if_neg hs, if_pos rfl, hsame, UInt64.zero_add, UInt64.add_comm]
    · have hne : e.unspentind ≠ u := Nat.ne_of_lt (hhead _ hmem)
      rw [if_neg hne, UInt64.add_assoc, ih htail hmem]

private theorem set_eq_mark {es : List AddrtxInfo} {k u s : Nat}
    (hinc : es.Pairwise fun e e' => e.unspentind < e'.unspentind) (hk : (es[k]?).map AddrtxInfo.unspentind = some u) :
    es.set k ⟨u, s⟩ = es.map fun e => if e.unspentind = u then ⟨u, s⟩ else e := by
  induction es generalizing k with
  | nil => rfl
  | cons e es ih =>
    obtain ⟨hhead, htail⟩ := List.pairwise_cons.mp hinc
    cases k with
    | zero =>
      have heu : e.unspentind = u := Option.some.inj hk
      have hsame : (es.map fun e => if e.unspentind = u then ⟨u, s⟩ else e) = es :=
        (List.map_congr_left fun e' he' => if_neg (Nat.ne_of_gt (heu ▸ hhead e' he'))).trans (List.map_id' es)
      rw [List.set_cons_zero, List.map_cons, if_pos heu, hsame]
    | succ k =>
      obtain ⟨e', he', heu⟩ := Option.map_eq_some_iff.mp hk
      have hne : e.unspentind ≠ u := Nat.ne_of_lt (heu ▸ hhead e' (List.mem_of_getElem? he'))
      rw [List.set_cons_succ, List.map_cons, if_neg hne, ih htail hk]

private theorem updateAddrinfo_vout {u : Nat} {value : UInt64} (hL : Placed coin.totaladdrtx (coin.ledger a))
    (hbalance : (coin.ledger a).balance = coin.unspentSum (coin.entries a (coin.ledger a)))
    (hvalue : coin.uvalue u = value) {m : Nat} (hup : coin.updateAddrinfo a u value 0 m = some coin') :
    Kept coin coin' a (coin.ledger a) (coin'.ledger a) ∧ Placed coin'.totaladdrtx (coin'.ledger a) ∧
      (∀ b ≠ a, coin'.ledger b = coin.ledger b) ∧
      coin'.entries a (coin'.ledger a) = coin.entries a (coin.ledger a) ++ (if value ≠ 0 then [⟨u, 0⟩] else []) ∧
      (coin'.ledger a).balance = (coin.ledger a).balance + value := by
  rw [Coin.updateAddrinfo] at hup
  dsimp only at hup
  by_cases hzero : value = 0
  · rw [if_pos hzero] at hup
    cases hup
    refine ⟨Kept.refl coin a _, hL, fun _ _ => rfl, ?_, ?_⟩
    · rw [if_neg (not_not.mpr hzero), List.append_nil]
    · rw [hzero, UInt64.add_zero]
  · rw [if_neg hzero, if_neg (not_not.mpr rfl)] at hup
    obtain ⟨-, hadd⟩ := Option.ite_none_right_eq_some.mp hup
    cases hadd
    obtain ⟨hkept, hplaced, hothers, hentries, hsum⟩ := addAddrtx_spec hL hbalance ⟨u, 0⟩ m
    refine ⟨hkept, hplaced, hothers, ?_, ?_⟩
    · rw [hentries, if_pos hzero]
    · rw [hsum, ← hvalue]

/-- `coin777_update_addrinfo` for a spend of an output that has an entry. -/
theorem updateAddrinfo_spend (coin : Coin) (a u s : Nat) (value : UInt64) (hs : s ≠ 0)
    (hL : Placed coin.totaladdrtx (coin.ledger a))
    (hinc : (coin.entries a (coin.ledger a)).Pairwise fun e e' => e.unspentind < e'.unspentind)
    (hmem : ∃ e ∈ coin.entries a (coin.ledger a), e.unspentind = u) (hvalue : coin.uvalue u = value) (hpos : value ≠ 0)
    (m : Nat) :
    ∃ coin', coin.updateAddrinfo a u value s m = some coin' ∧
      Kept coin coin' a (coin.ledger a) (coin'.ledger a) ∧ Placed coin'.totaladdrtx (coin'.ledger a) ∧
      (∀ b ≠ a, coin'.ledger b = coin.ledger b) ∧
      coin'.entries a (coin'.ledger a) =
        (coin.entries a (coin.ledger a)).map (fun e => if e.unspentind = u then ⟨u, s⟩ else e) ∧
      (coin'.ledger a).balance = (coin.ledger a).balance - value := by
  generalize hLa : coin.ledger a = L at *
  obtain ⟨e, he, heu⟩ := hmem
  obtain ⟨i, hi⟩ := List.getElem?_of_mem he
  have hnum : i < L.numaddrtx := by
    rw [← entries_length coin a L]
    exact (List.getElem?_eq_some_iff.mp hi).1
  have hread : coin.readAddrtx a L i = e := by
    rw [entries_getElem? coin a L hnum] at hi
    exact Option.some.inj hi
  obtain ⟨k, hk, hfound, hku⟩ := bsearch_spec hnum ((congrArg AddrtxInfo.unspentind hread).trans heu) hvalue
  generalize hatx : ({ coin.readAddrtx a L k with spendind := s } : AddrtxInfo) = atx
  have hatxu : atx = ⟨u, s⟩ := by
    rw [← hatx]
    exact congrArg (fun x => AddrtxInfo.mk x s) hku
  generalize hM : ({ L with balance := L.balance - value } : Lentry) = M
  have hup : coin.updateAddrinfo a u value s m = some ((coin.writeAddrtx a atx L k).setLedger a M) := by
    rw [Coin.updateAddrinfo]
    dsimp only
    rw [hLa, if_neg hpos, if_pos hs, hfound]
    dsimp only
    rw [if_pos (hL.holds (Nat.lt_of_lt_of_le hk hL.room)), hatx, hM]
  have hself : ((coin.writeAddrtx a atx L k).setLedger a M).ledger a = M := Function.update_self ..
  have hwrite : Kept coin (coin.writeAddrtx a atx L k) a L L :=
    kept_writeAddrtx (Nat.le_trans (Nat.le_of_lt hk) hL.room)
  have hset : Kept coin ((coin.writeAddrtx a atx L k).setLedger a M) a L L :=
    hwrite.trans (kept_tables (sameTables_setLedger a M) rfl rfl rfl)
  refine ⟨_, hup, ?_, ?_, ?_, ?_, ?_⟩
  · rw [hself]
    exact hset.place (by rw [← hM]) (by rw [← hM]) (by rw [← hM])
  · rw [hself, ← hM]
    refine ⟨hL.room, hL.inside, fun hi => ?_⟩
    have htotal : (coin.writeAddrtx a atx L k).totaladdrtx = coin.totaladdrtx := writeAddrtx_totaladdrtx ..
    exact Nat.lt_of_lt_of_eq (hL.outside hi) htotal.symm
  · intro b hb
    have hother : ((coin.writeAddrtx a atx L k).setLedger a M).ledger b = (coin.writeAddrtx a atx L k).ledger b :=
      Function.update_of_ne hb _ _
    rw [hother, writeAddrtx_ledger]
  · have hplace : ((coin.writeAddrtx a atx L k).setLedger a M).entries a M = (coin.writeAddrtx a atx L k).entries a L := by
      rw [entries_place (L := L) (by rw [← hM]) (by rw [← hM]) (by rw [← hM])]
      exact entries_records rfl rfl L
    rw [hself, hplace, writeAddrtx_entries hL hk, hatxu]
    refine set_eq_mark hinc ?_
    rw [entries_getElem? coin a L hk, Option.map_some]
    exact congrArg some hku
  · rw [hself, ← hM]

/-! ### The calls -/

/-- The sum of the balances is what was credited and not debited. -/
def Balanced (coin : Coin) : Prop := coin.addrinfosSum coin.addrind = coin.credits - coin.debits

/-- The calls that the ledger is kept for: a string that leaves its entries in the record, and an output number
that is the same as a signed 16-bit number. -/
def Plain : Call → Prop
  | .vout coinaddr _ _ => coinaddr.length + 1 ≤ 153
  | .vin _ vout => vout < 2^15
  | .tx _ => True

private theorem voutScript_eq {blocknum : Nat} {flag : Bool} {script : List UInt8} {value : UInt64}
    (h : coin.voutScript blocknum a flag script value = some coin') :
    ∃ scriptDB scriptind U, U.value = value ∧ U.addrind = a ∧
      coin' = ({ coin with scriptDB := scriptDB, scriptind := scriptind } : Coin).setUnspent coin.unspentind U := by
  have hrecord : ∀ flag i, (unspentRecord value a flag i blocknum).value = value ∧
      (unspentRecord value a flag i blocknum).addrind = a := by
    intro flag i
    rw [unspentRecord]
    split
    · exact ⟨rfl, rfl⟩
    · exact ⟨rfl, rfl⟩
  rw [Coin.voutScript] at h
  dsimp only at h
  split at h
  case isTrue =>
    cases h
    exact ⟨coin.scriptDB, coin.scriptind, _, (hrecord _ _).1, (hrecord _ _).2, rfl⟩
  case isFalse =>
    rw [Coin.indexScript] at h
    split at h
    case isTrue => cases h
    case isFalse =>
      split at h
      case isTrue =>
        cases h
        exact ⟨_, _, _, (hrecord _ _).1, (hrecord _ _).2, rfl⟩
      case isFalse =>
        split at h
        case isTrue =>
          cases h
          exact ⟨coin.scriptDB, _, _, (hrecord _ _).1, (hrecord _ _).2, rfl⟩
        case isFalse =>
          split at h
          case isTrue => cases h
          case isFalse =>
            cases h
            exact ⟨coin.scriptDB, coin.scriptind, _, (hrecord _ _).1, (hrecord _ _).2, rfl⟩

private theorem setUnspent_sum (h : Refines coin book) (U : UnspentInfo) (s : List Char) :
    (coin.setUnspent coin.unspentind U).unspentSum (book.entries s) = coin.unspentSum (book.entries s) := by
  refine unspentSum_congr fun e he => ?_
  obtain ⟨i, o, ho, -, -, rfl⟩ := Book.mem_entries.mp he
  have hlt : i < book.outputs.length := (List.getElem?_eq_some_iff.mp ho).1
  have hne : i + 1 ≠ coin.unspentind := by
    rw [h.unspentind]
    omega
  rw [Coin.uvalue, Coin.uvalue, Coin.setUnspent]
  dsimp only
  rw [Function.update_of_ne hne]

/-- What neither an output nor a spend changes: the transactions, and which addresses there are. -/
private structure SameAddrs (coin coin' : Coin) : Prop where
  addrind : coin'.addrind = coin.addrind
  addrDB : coin'.addrDB = coin.addrDB
  coinaddr : ∀ b, (coin'.addrinfos b).coinaddr = (coin.addrinfos b).coinaddr
  txidind : coin'.txidind = coin.txidind
  firstvout : coin'.firstvout = coin.firstvout
  txidDB : coin'.txidDB = coin.txidDB
  txoffsets : coin'.txoffsets = coin.txoffsets

private theorem SameAddrs.lists {coin'' : Coin} (h : SameAddrs coin coin') (hlists : ListsOnly coin' coin'') :
    SameAddrs coin coin'' where
  addrind := hlists.same.addrind.trans h.addrind
  addrDB := hlists.same.addrDB.trans h.addrDB
  coinaddr b := (hlists.records b).1.trans (h.coinaddr b)
  txidind := hlists.same.txidind.trans h.txidind
  firstvout := hlists.same.firstvout.trans h.firstvout
  txidDB := hlists.same.txidDB.trans h.txidDB
  txoffsets := hlists.same.txoffsets.trans h.txoffsets

private theorem Refines.of_sameAddrs {book' : Book} (h : Refines coin book) (hsame : SameAddrs coin coin')
    (htxs : book'.txs = book.txs) (hfirst : book'.first = book.first)
    (hunspentind : coin'.unspentind = book'.outputs.length + 1) (hnumspends : coin'.numspends = book'.spends.length + 1)
    (hunspents : ∀ i o, book'.outputs[i]? = some o → (coin'.unspents (i + 1)).value = o.value ∧
      coin.addrDB o.coinaddr = some (coin'.unspents (i + 1)).addrind)
    (hlisted : ∀ b, 1 ≤ b → b < coin.addrind → Listed coin' book' b)
    (hapart : ∀ b c, 1 ≤ b → b < coin.addrind → 1 ≤ c → c < coin.addrind → b ≠ c →
      Apart (coin'.ledger b) (coin'.ledger c)) : Refines coin' book' where
  unspentind := hunspentind
  numspends := hnumspends
  txidind := by rw [hsame.txidind, h.txidind, htxs]
  firstvout := by rw [hsame.firstvout, h.firstvout, hfirst]
  addrind := hsame.addrind ▸ h.addrind
  unspents i o ho := by
    rw [hsame.addrDB]
    exact hunspents i o ho
  addrs s b hsb := by
    rw [hsame.addrDB] at hsb
    rw [hsame.addrind, hsame.coinaddr]
    exact h.addrs s b hsb
  known b hb hlt := by
    rw [hsame.addrind] at hlt
    rw [hsame.coinaddr, hsame.addrDB]
    exact h.known b hb hlt
  txs i t hit := by
    rw [htxs] at hit
    rw [hsame.txidDB, hsame.txoffsets]
    exact h.txs i t hit
  listed b hb hlt := hlisted b hb (hsame.addrind ▸ hlt)
  apart b c hb hlt hc hlt' := hapart b c hb (hsame.addrind ▸ hlt) hc (hsame.addrind ▸ hlt')

private theorem Refines.vout {coinaddr : List Char} (scriptstr : List Char) {value : UInt64} {U : UnspentInfo} {m : Nat}
    {coin₂ : Coin} (h : Refines coin book) (hb : book.Sound) (hdb : coin.addrDB coinaddr = some a)
    (hvalue : U.value = value) (haddr : U.addrind = a)
    (hup : (coin.setUnspent coin.unspentind U).updateAddrinfo a coin.unspentind value 0 m = some coin₂) :
    Refines { coin₂ with unspentind := coin₂.unspentind + 1 } (book.step (.vout coinaddr scriptstr value)) ∧
      coin₂.addrinfosSum coin₂.addrind = coin.addrinfosSum coin.addrind + value ∧
      coin₂.credits = coin.credits ∧ coin₂.debits = coin.debits := by
  obtain ⟨ha, hlt, hcoinaddr⟩ := h.addrs coinaddr a hdb
  obtain ⟨-, hplaced, hentries, hbalance⟩ := h.listed a ha hlt
  have hsums := setUnspent_sum h U
  have hother : ∀ u ≠ coin.unspentind, (coin.setUnspent coin.unspentind U).unspents u = coin.unspents u :=
    fun u hu => Function.update_of_ne hu _ _
  have hself : (coin.setUnspent coin.unspentind U).unspents coin.unspentind = U := Function.update_self ..
  have hsame : (coin.setUnspent coin.unspentind U).entries a (coin.ledger a) = coin.entries a (coin.ledger a) :=
    entries_records rfl rfl _
  generalize hset : coin.setUnspent coin.unspentind U = coin₁ at *
  have hledger : coin₁.ledger = coin.ledger := by rw [← hset]; rfl
  have hbalance₁ : (coin₁.ledger a).balance = coin₁.unspentSum (coin₁.entries a (coin₁.ledger a)) := by
    rw [hledger, hsame, hentries, hsums, ← hentries, hbalance]
  have hplaced₁ : Placed coin₁.totaladdrtx (coin₁.ledger a) := by
    rw [hledger, ← hset]
    exact hplaced
  have huvalue : coin₁.uvalue coin.unspentind = value := by rw [Coin.uvalue, hself, hvalue]
  obtain ⟨hkept, hplaced', hothers, hentries', hbalance'⟩ := updateAddrinfo_vout hplaced₁ hbalance₁ huvalue hup
  rw [hledger] at hkept hentries' hbalance'
  have hrest := hkept.lists.same
  have hbook : coin₂.entries a (coin₂.ledger a) = (book.step (.vout coinaddr scriptstr value)).entries coinaddr := by
    rw [hentries', hsame, hentries, hcoinaddr, Book.entries_vout hb, h.unspentind]
    by_cases hzero : value ≠ 0
    · rw [if_pos hzero, if_pos ⟨rfl, hzero⟩]
    · rw [if_neg hzero, if_neg fun hc => hzero hc.2]
  have hvalueSum : coin₂.unspentSum (if value ≠ 0 then [⟨coin.unspentind, 0⟩] else []) = value := by
    by_cases hzero : value ≠ 0
    · rw [if_pos hzero, unspentSum_cons, if_pos rfl, hrest.uvalue, huvalue]
      exact UInt64.add_zero value
    · rw [if_neg hzero, not_not.mp hzero]
      rfl
  obtain ⟨hlisted, hapart, hsum⟩ := Refines.listed_step coin₁ coin₂
    (book.step (.vout coinaddr scriptstr value)) h ha hlt (by rw [← hset]; rfl) (by rw [← hset]; rfl) hledger
    (by rw [← hset]; rfl) hkept hplaced' hothers
    (fun s hs => by
      rw [Book.entries_vout hb, if_neg fun hc => hs (hc.1.symm.trans hcoinaddr.symm), List.append_nil])
    (fun s => by rw [hrest.unspentSum, hsums]) (by rw [hcoinaddr, hbook])
    (by
      rw [hcoinaddr, ← hbook, hentries', hsame, unspentSum_append, hvalueSum, hbalance', hrest.unspentSum, hentries,
        hsums, ← hentries, hbalance])
  have haddrs : SameAddrs coin coin₂ := by
    refine SameAddrs.lists ?_ hkept.lists
    rw [← hset]
    exact ⟨rfl, rfl, fun _ => rfl, rfl, rfl, rfl, rfl⟩
  refine ⟨h.of_sameAddrs ⟨haddrs.addrind, haddrs.addrDB, haddrs.coinaddr, haddrs.txidind, haddrs.firstvout, haddrs.txidDB,
    haddrs.txoffsets⟩ rfl rfl ?outputs ?spends ?unspents (fun b hb' hltb => ?listed) hapart, ?sum, ?credits, ?debits⟩
  case outputs =>
    have hu : coin₂.unspentind = coin.unspentind := by
      rw [hrest.unspentind, ← hset]
      rfl
    rw [Book.step, List.length_append, List.length_singleton, ← h.unspentind, ← hu]
  case spends =>
    rw [hrest.numspends, ← hset]
    exact h.numspends
  case unspents =>
    intro i o ho
    rw [hrest.unspents]
    rcases Nat.lt_or_ge i book.outputs.length with hi | hi
    · have hne : i + 1 ≠ coin.unspentind := by
        rw [h.unspentind]
        omega
      rw [Book.step, List.getElem?_append_left hi] at ho
      rw [hother _ hne]
      exact h.unspents i o ho
    · have hlast : i = book.outputs.length := by
        have hlen := (List.getElem?_eq_some_iff.mp ho).1
        rw [Book.step, List.length_append, List.length_singleton] at hlen
        omega
      rw [Book.step, hlast, List.getElem?_append_right (Nat.le_refl _), Nat.sub_self] at ho
      cases ho
      rw [hlast, ← h.unspentind, hself]
      exact ⟨hvalue, haddr ▸ hdb⟩
  case listed =>
    obtain ⟨hh, hp, he, hbal⟩ := hlisted b hb' hltb
    exact ⟨hh, hp, he, hbal⟩
  case sum =>
    rw [haddrs.addrind]
    rw [hbalance'] at hsum
    have hcancel : coin₂.addrinfosSum coin.addrind + (coin.ledger a).balance =
        coin.addrinfosSum coin.addrind + value + (coin.ledger a).balance := by
      rw [hsum, UInt64.add_comm (coin.ledger a).balance, UInt64.add_assoc]
    exact add_right_cancel hcancel
  case credits =>
    rw [hrest.credits, ← hset]
    rfl
  case debits =>
    rw [hrest.debits, ← hset]
    rfl

private theorem entries_spend_other {u : Nat} {o : Output} {s : List Char} (hu : u + 1 ∉ book.spends)
    (ho : book.outputs[u]? = some o) (hs : o.value ≠ 0 → o.coinaddr ≠ s) :
    ({ book with spends := book.spends ++ [u + 1] } : Book).entries s = book.entries s := by
  refine (Book.entries_spend hu).trans ?_
  refine (List.map_congr_left fun e he => if_neg ?_).trans (List.map_id' _)
  rintro heq
  obtain ⟨i, o', ho', haddr, hvalue, rfl⟩ := Book.mem_entries.mp he
  obtain rfl : i = u := Nat.succ_injective heq
  rw [ho] at ho'
  cases ho'
  exact hs hvalue haddr

private theorem Refines.spend {u : Nat} {o : Output} {S : SpendInfo} {m : Nat} (h : Refines coin book)
    (hu : u + 1 ∉ book.spends) (ho : book.outputs[u]? = some o) (hpos : o.value ≠ 0) :
    ∃ coin₂, ({ coin.setSpend coin.numspends S with debits := coin.debits + o.value } : Coin).updateAddrinfo
        (coin.unspents (u + 1)).addrind (u + 1) o.value coin.numspends m = some coin₂ ∧
      Refines { coin₂ with numspends := coin₂.numspends + 1 } { book with spends := book.spends ++ [u + 1] } ∧
      coin₂.addrinfosSum coin₂.addrind + o.value = coin.addrinfosSum coin.addrind ∧
      coin₂.credits = coin.credits ∧ coin₂.debits = coin.debits + o.value := by
  obtain ⟨hvalue, hdb⟩ := h.unspents u o ho
  generalize (coin.unspents (u + 1)).addrind = a at *
  obtain ⟨ha, hlt, hcoinaddr⟩ := h.addrs o.coinaddr a hdb
  obtain ⟨-, hplaced, hentries, hbalance⟩ := h.listed a ha hlt
  generalize hset : ({ coin.setSpend coin.numspends S with debits := coin.debits + o.value } : Coin) = coin₁
  have hledger : coin₁.ledger = coin.ledger := by rw [← hset]; rfl
  have hsame : coin₁.entries a (coin.ledger a) = coin.entries a (coin.ledger a) := by
    rw [← hset]
    exact entries_records rfl rfl _
  have huvalue : coin₁.uvalue = coin.uvalue := by rw [← hset]; rfl
  have hbooked : coin₁.entries a (coin₁.ledger a) = book.entries o.coinaddr := by
    rw [hledger, hsame, hentries, hcoinaddr]
  have hmem : (⟨u + 1, 0⟩ : AddrtxInfo) ∈ book.entries o.coinaddr :=
    Book.mem_entries.mpr ⟨u, o, ho, rfl, hpos, by rw [Book.spendOf_eq_zero.mpr hu]⟩
  have hspends : coin.numspends ≠ 0 := by
    rw [h.numspends]
    exact Nat.succ_ne_zero _
  obtain ⟨coin₂, hup, hkept, hplaced', hothers, hentries', hbalance'⟩ := updateAddrinfo_spend coin₁ a
    (u + 1) coin.numspends o.value hspends (by rw [hledger, ← hset]; exact hplaced)
    (by rw [hbooked]; exact Book.entries_increasing book o.coinaddr) ⟨_, by rw [hbooked]; exact hmem, rfl⟩
    (by rw [huvalue, Coin.uvalue, hvalue]) hpos m
  have hrest := hkept.lists.same
  have hmark : coin₂.entries a (coin₂.ledger a) =
      ({ book with spends := book.spends ++ [u + 1] } : Book).entries o.coinaddr := by
    rw [hentries', hbooked, Book.entries_spend hu, h.numspends]
  have hsums : ∀ es, coin₂.unspentSum es = coin.unspentSum es := by
    intro es
    rw [hrest.unspentSum, Coin.unspentSum, huvalue, Coin.unspentSum]
  have hmarked := unspentSum_mark coin hspends (Book.entries_increasing book o.coinaddr) hmem
  have huv : coin.uvalue (u + 1) = o.value := hvalue
  rw [hledger] at hkept hbalance'
  obtain ⟨hlisted, hapart, hsum⟩ := Refines.listed_step coin₁ coin₂
    { book with spends := book.spends ++ [u + 1] } h ha hlt (by rw [← hset]; rfl) (by rw [← hset]; rfl) hledger
    (by rw [← hset]; rfl) hkept hplaced' hothers
    (fun s hs => entries_spend_other hu ho fun _ haddr => hs (haddr.symm.trans hcoinaddr.symm))
    (fun s => hsums _) (by rw [hcoinaddr, hmark])
    (by
      rw [hcoinaddr, hsums, Book.entries_spend hu, ← h.numspends, hbalance', hbalance, hentries, hcoinaddr, ← hmarked,
        huv]
      exact add_sub_cancel_right _ _)
  have haddrs : SameAddrs coin coin₂ := by
    refine SameAddrs.lists ?_ hkept.lists
    rw [← hset]
    exact ⟨rfl, rfl, fun _ => rfl, rfl, rfl, rfl, rfl⟩
  refine ⟨coin₂, hup, h.of_sameAddrs ⟨haddrs.addrind, haddrs.addrDB, haddrs.coinaddr, haddrs.txidind, haddrs.firstvout,
    haddrs.txidDB, haddrs.txoffsets⟩ rfl rfl ?outputs ?spends ?unspents (fun b hb' hltb => ?listed) hapart, ?sum,
    ?credits, ?debits⟩
  case outputs =>
    rw [hrest.unspentind, ← hset]
    exact h.unspentind
  case spends =>
    have hnum : coin₂.numspends = coin.numspends := by
      rw [hrest.numspends, ← hset]
      rfl
    rw [List.length_append, List.length_singleton, ← h.numspends, ← hnum]
  case unspents =>
    intro i o' ho'
    rw [hrest.unspents, ← hset]
    exact h.unspents i o' ho'
  case listed =>
    obtain ⟨hh, hp, he, hbal⟩ := hlisted b hb' hltb
    exact ⟨hh, hp, he, hbal⟩
  case sum =>
    rw [haddrs.addrind]
    rw [hbalance'] at hsum
    have hcancel : coin₂.addrinfosSum coin.addrind + o.value + (coin.ledger a).balance =
        coin.addrinfosSum coin.addrind + (coin.ledger a).balance := by
      rw [UInt64.add_assoc, UInt64.add_comm o.value, ← UInt64.add_assoc, hsum, UInt64.add_assoc]
      exact congrArg _ (sub_add_cancel _ _)
    exact add_right_cancel hcancel
  case credits =>
    rw [hrest.credits, ← hset]
    rfl
  case debits =>
    rw [hrest.debits, ← hset]

private theorem Refines.spend_zero {u : Nat} {o : Output} (h : Refines coin book) (hu : u + 1 ∉ book.spends)
    (ho : book.outputs[u]? = some o) (hzero : o.value = 0) :
    Refines { coin with numspends := coin.numspends + 1 } { book with spends := book.spends ++ [u + 1] } := by
  have hentries : ∀ s, ({ book with spends := book.spends ++ [u + 1] } : Book).entries s = book.entries s :=
    fun s => entries_spend_other hu ho fun hpos => absurd hzero hpos
  refine ⟨h.unspentind, ?_, h.txidind, h.firstvout, h.addrind, h.unspents, h.addrs, h.known, h.txs, fun a ha hlt => ?_,
    h.apart⟩
  · rw [List.length_append, List.length_singleton, ← h.numspends]
  · obtain ⟨hhome, hplaced, hlist, hbalance⟩ := h.listed a ha hlt
    exact ⟨hhome, hplaced, hlist.trans (hentries _).symm, hbalance⟩

private theorem Refines.tx {txidstr : List Char} (h : Refines coin book) (hc : book.Accepts (.tx txidstr)) {m : Nat}
    (hcall : coin.call m (.tx txidstr) = some coin') : Refines coin' (book.step (.tx txidstr)) := by
  rw [Coin.call] at hcall
  cases hcall
  refine ⟨h.unspentind, h.numspends, ?_, h.unspentind, h.addrind, h.unspents, h.addrs, h.known, fun i t hit => ?_,
    fun a ha hlt => ?_, h.apart⟩
  · rw [Book.step, List.length_append, List.length_singleton, ← h.txidind]
    rfl
  · dsimp only [Coin.addtx]
    rcases Nat.lt_or_ge i book.txs.length with hi | hi
    · rw [Book.step, List.getElem?_append_left hi] at hit
      obtain ⟨htxid, hfirst⟩ := h.txs i t hit
      have hne : t.txid ≠ decodeTxid txidstr := hc.2 t (List.mem_of_getElem? hit)
      have hi1 : i + 1 ≠ coin.txidind := by
        rw [h.txidind]
        omega
      have hi2 : i + 1 ≠ coin.txidind + 1 := by
        rw [h.txidind]
        omega
      rw [Function.update_of_ne hne, Function.update_of_ne hi2, Function.update_of_ne hi1]
      exact ⟨htxid, hfirst⟩
    · have hlast : i = book.txs.length := by
        have hlen := (List.getElem?_eq_some_iff.mp hit).1
        rw [Book.step, List.length_append, List.length_singleton] at hlen
        omega
      rw [Book.step, hlast, List.getElem?_append_right (Nat.le_refl _), Nat.sub_self] at hit
      cases hit
      have hind : i + 1 = coin.txidind := by rw [hlast, h.txidind]
      rw [hind, Function.update_self, Function.update_of_ne (Nat.ne_of_lt (Nat.lt_succ_self _)), Function.update_self]
      exact ⟨rfl, h.firstvout⟩
  · obtain ⟨hhome, hplaced, hlist, hbalance⟩ := h.listed a ha hlt
    exact ⟨hhome, hplaced, hlist, hbalance⟩

private theorem spentInd_spec {txidstr : List Char} {vout : Nat} (h : Refines coin book) (hb : book.Sound)
    (hc : book.Accepts (.vin txidstr vout)) (hplain : vout < 2^15) :
    ∃ txidind u o, coin.txidDB (decodeTxid txidstr) = some txidind ∧ txidind ≠ 0 ∧ txidind ≤ coin.txidind ∧
      coin.spentInd txidind vout = u + 1 ∧ book.outpoint txidstr vout = u + 1 ∧ book.outputs[u]? = some o ∧
      u + 1 ∉ book.spends := by
  obtain ⟨i, t, hit, htxid, hout, hfirst, hlast, hspent⟩ := Book.outpoint_spec hb hc
  obtain ⟨hdb, hoff⟩ := h.txs i t hit
  have hi : i < book.txs.length := (List.getElem?_eq_some_iff.mp hit).1
  obtain ⟨u, hu⟩ : ∃ u, t.first + vout = u + 1 := ⟨t.first + vout - 1, by omega⟩
  have hulen : u < book.outputs.length := by omega
  refine ⟨i + 1, u, book.outputs[u], htxid ▸ hdb, Nat.succ_ne_zero i, ?_, ?_, hout.trans hu,
    List.getElem?_eq_getElem hulen, hu ▸ hspent⟩
  · rw [h.txidind]
    omega
  · have hsigned : signed 16 vout = vout := signed_of_bounds (by omega) (by omega)
    have hbound := hb.outputs
    rw [Coin.spentInd, hoff, hsigned, ← Nat.cast_add, hu]
    exact unsigned_of_lt (by omega)

theorem vin_returns {txidstr : List Char} {vout : Nat} (h : Refines coin book) (hb : book.Sound)
    (hc : book.Accepts (.vin txidstr vout)) (hplain : vout < 2^15) (m : Nat) :
    ∃ coin', coin.call m (.vin txidstr vout) = some coin' := by
  obtain ⟨txidind, u, o, hdb, hpos, hle, hind, -, ho, hu⟩ := spentInd_spec h hb hc hplain
  obtain ⟨hvalue, -⟩ := h.unspents u o ho
  rw [Coin.call, Coin.addvin, hdb, Option.getD_some]
  dsimp only
  rw [if_neg hpos, if_neg (Nat.not_lt_of_le hle), hind, hvalue]
  by_cases hzero : o.value = 0
  · rw [if_pos hzero]
    exact ⟨_, rfl⟩
  · obtain ⟨coin₂, hup, -⟩ := h.spend (m := m)
      (S := ⟨u + 1, (coin.unspents (u + 1)).addrind, coin.txidind, (coin.numspends - coin.firstvin) % 2^16⟩)
      hu ho hzero
    rw [if_neg hzero]
    dsimp only [Coin.setSpend, Coin.vupdate] at hup ⊢
    rw [hup]
    exact ⟨_, rfl⟩

/-- One call of a valid chain keeps the tables to the book and the sum of the balances to the supply. -/
theorem call_refines {c : Call} {m : Nat} (h : Refines coin book) (hb : book.Sound) (hc : book.Accepts c)
    (hplain : Plain c) (hcall : coin.call m c = some coin') :
    Refines coin' (book.step c) ∧ (Balanced coin → Balanced coin') := by
  cases c with
  | vout coinaddr scriptstr value =>
    rw [Coin.call, Coin.addvout] at hcall
    obtain ⟨coin₀, a, flag, haddr, hrefines, hsum, hdb, hcredits, hdebits⟩ :=
      voutAddr_spec h m scriptstr value hplain
    rw [haddr] at hcall
    dsimp only [Option.bind_eq_bind, Option.bind_some] at hcall
    cases hscript : coin₀.voutScript m a flag (decodeScript scriptstr) value with
    | none =>
      rw [hscript] at hcall
      cases hcall
    | some coin₁ =>
      rw [hscript, Option.bind_some] at hcall
      obtain ⟨scriptDB, scriptind, U, hvalue, hind, rfl⟩ := voutScript_eq hscript
      have hscripted := hrefines.scripts scriptDB scriptind
      cases hup : (({ coin₀ with scriptDB := scriptDB, scriptind := scriptind } : Coin).setUnspent coin₀.unspentind
          U).updateAddrinfo a coin₀.unspentind value 0 m with
      | none =>
        have hfail := hcall
        dsimp only [Coin.setUnspent, Coin.vupdate] at hup hfail
        rw [hup] at hfail
        cases hfail
      | some coin₂ =>
        have hdone := hcall
        dsimp only [Coin.setUnspent, Coin.vupdate] at hup hdone
        rw [hup] at hdone
        cases hdone
        obtain ⟨hbook, hsum', hcredits', hdebits'⟩ := hscripted.vout scriptstr hb hdb hvalue hind hup
        refine ⟨hbook, fun hbalanced => ?_⟩
        rw [Balanced] at hbalanced ⊢
        have hmid : ({ coin₀ with scriptDB := scriptDB, scriptind := scriptind } : Coin).addrinfosSum coin₀.addrind =
          coin.addrinfosSum coin.addrind := hsum
        refine hsum'.trans ?_
        have hc1 : coin₂.credits = coin.credits + value := hcredits'.trans hcredits
        have hd1 : coin₂.debits = coin.debits := hdebits'.trans hdebits
        have hgoal : coin.addrinfosSum coin.addrind + value = coin₂.credits - coin₂.debits := by
          rw [hbalanced, hc1, hd1, sub_add_eq_add_sub]
        exact (congrArg (· + value) hmid).trans hgoal
  | vin txidstr vout =>
    obtain ⟨txidind, u, o, hdb, hpos, hle, hind, hout, ho, hu⟩ := spentInd_spec h hb hc hplain
    obtain ⟨hvalue, -⟩ := h.unspents u o ho
    have hstep : book.step (.vin txidstr vout) = { book with spends := book.spends ++ [u + 1] } := by
      rw [Book.step, hout]
    rw [Coin.call, Coin.addvin, hdb, Option.getD_some] at hcall
    dsimp only at hcall
    rw [if_neg hpos, if_neg (Nat.not_lt_of_le hle), hind, hvalue] at hcall
    by_cases hzero : o.value = 0
    · rw [if_pos hzero] at hcall
      cases hcall
      rw [hstep]
      exact ⟨h.spend_zero hu ho hzero, id⟩
    · obtain ⟨coin₂, hup, hbook, hsum, hcredits, hdebits⟩ := h.spend (m := m)
        (S := ⟨u + 1, (coin.unspents (u + 1)).addrind, coin.txidind, (coin.numspends - coin.firstvin) % 2^16⟩)
        hu ho hzero
      rw [if_neg hzero] at hcall
      dsimp only [Coin.setSpend, Coin.vupdate] at hup hcall
      rw [hup] at hcall
      cases hcall
      rw [hstep]
      refine ⟨hbook, fun hbalanced => ?_⟩
      rw [Balanced] at hbalanced ⊢
      have hgoal : coin₂.addrinfosSum coin₂.addrind = coin₂.credits - coin₂.debits := by
        rw [hcredits, hdebits, ← sub_sub, ← hbalanced, ← hsum, add_sub_cancel_right]
      exact hgoal
  | tx txidstr =>
    refine ⟨h.tx hc hcall, fun hbalanced => ?_⟩
    rw [Coin.call] at hcall
    cases hcall
    exact hbalanced

end SuperNet.Coins.Coin777
