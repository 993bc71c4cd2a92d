import SuperNet.Coins.Coin777

/-! The lists of outputs: what a write to one changes, that growth keeps the entries, and that
coin777_bsearch finds them. -/
namespace SuperNet.Coins.Coin777
open Lib.Words Lib.Bytes

variable {coin coin' : Coin} {a b i j : Nat} {L L' : Lentry} {atx : AddrtxInfo}

/-- Two ramchains that differ in the addresses, their lists, the ledger and the running hashes other than that of the
blocks only. -/
structure SameTables (coin coin' : Coin) : Prop where
  txidDB : coin'.txidDB = coin.txidDB
  addrDB : coin'.addrDB = coin.addrDB
  scriptDB : coin'.scriptDB = coin.scriptDB
  txoffsets : coin'.txoffsets = coin.txoffsets
  unspents : coin'.unspents = coin.unspents
  spends : coin'.spends = coin.spends
  credits : coin'.credits = coin.credits
  debits : coin'.debits = coin.debits
  txidind : coin'.txidind = coin.txidind
  unspentind : coin'.unspentind = coin.unspentind
  numspends : coin'.numspends = coin.numspends
  addrind : coin'.addrind = coin.addrind
  scriptind : coin'.scriptind = coin.scriptind
  firstvout : coin'.firstvout = coin.firstvout
  firstvin : coin'.firstvin = coin.firstvin
  blocks : coin'.blocks = coin.blocks
  fedBlocks : coin'.fed .blocks = coin.fed .blocks

def SameRecords (coin coin' : Coin) : Prop := ∀ a, (coin'.addrinfos a).coinaddr = (coin.addrinfos a).coinaddr ∧
  (coin'.addrinfos a).script = (coin.addrinfos a).script

theorem SameRecords.refl (coin : Coin) : SameRecords coin coin := fun _ => ⟨rfl, rfl⟩

theorem SameRecords.trans {coin'' : Coin} (h : SameRecords coin coin') (h' : SameRecords coin' coin'') :
    SameRecords coin coin'' := fun a => ⟨(h' a).1.trans (h a).1, (h' a).2.trans (h a).2⟩

theorem SameTables.refl (coin : Coin) : SameTables coin coin :=
  ⟨rfl, rfl, rfl, rfl, rfl, rfl, rfl, rfl, rfl, rfl, rfl, rfl, rfl, rfl, rfl, rfl, rfl⟩

theorem SameTables.trans {coin'' : Coin} (h : SameTables coin coin') (h' : SameTables coin' coin'') :
    SameTables coin coin'' where
  txidDB := h'.txidDB.trans h.txidDB
  addrDB := h'.addrDB.trans h.addrDB
  scriptDB := h'.scriptDB.trans h.scriptDB
  txoffsets := h'.txoffsets.trans h.txoffsets
  unspents := h'.unspents.trans h.unspents
  spends := h'.spends.trans h.spends
  credits := h'.credits.trans h.credits
  debits := h'.debits.trans h.debits
  txidind := h'.txidind.trans h.txidind
  unspentind := h'.unspentind.trans h.unspentind
  numspends := h'.numspends.trans h.numspends
  addrind := h'.addrind.trans h.addrind
  scriptind := h'.scriptind.trans h.scriptind
  firstvout := h'.firstvout.trans h.firstvout
  firstvin := h'.firstvin.trans h.firstvin
  blocks := h'.blocks.trans h.blocks
  fedBlocks := h'.fedBlocks.trans h.fedBlocks

theorem SameTables.uvalue (h : SameTables coin coin') : coin'.uvalue = coin.uvalue := by
  funext u
  rw [Coin.uvalue, h.unspents, Coin.uvalue]

theorem SameTables.unspentSum (h : SameTables coin coin') (atxs : List AddrtxInfo) :
    coin'.unspentSum atxs = coin.unspentSum atxs := by
  rw [Coin.unspentSum, h.uvalue, Coin.unspentSum]

theorem sameTables_vupdate {t : Table} (ht : Table.blocks ≠ t) (bytes : List UInt8) :
    SameTables coin (coin.vupdate t bytes) :=
  ⟨rfl, rfl, rfl, rfl, rfl, rfl, rfl, rfl, rfl, rfl, rfl, rfl, rfl, rfl, rfl, rfl, Function.update_of_ne ht _ _⟩

theorem sameTables_setLedger (a : Nat) (L : Lentry) : SameTables coin (coin.setLedger a L) :=
  ⟨rfl, rfl, rfl, rfl, rfl, rfl, rfl, rfl, rfl, rfl, rfl, rfl, rfl, rfl, rfl, rfl, rfl⟩

theorem sameTables_writeAddrtx (a : Nat) (atx : AddrtxInfo) (L : Lentry) (i : Nat) :
    SameTables coin (coin.writeAddrtx a atx L i) := by
  rw [Coin.writeAddrtx]
  split
  · split
    · exact ⟨rfl, rfl, rfl, rfl, rfl, rfl, rfl, rfl, rfl, rfl, rfl, rfl, rfl, rfl, rfl, rfl, rfl⟩
    · exact SameTables.refl coin
  · exact ⟨rfl, rfl, rfl, rfl, rfl, rfl, rfl, rfl, rfl, rfl, rfl, rfl, rfl, rfl, rfl, rfl, rfl⟩

theorem sameRecords_writeAddrtx (a : Nat) (atx : AddrtxInfo) (L : Lentry) (i : Nat) :
    SameRecords coin (coin.writeAddrtx a atx L i) := by
  rw [Coin.writeAddrtx]
  split
  · split
    · intro x
      dsimp only
      rcases eq_or_ne x a with rfl | hne
      · rw [Function.update_self]
        exact ⟨rfl, rfl⟩
      · rw [Function.update_of_ne hne]
        exact ⟨rfl, rfl⟩
    · exact SameRecords.refl coin
  · exact SameRecords.refl coin

theorem sameTables_addrtxalloc (L : Lentry) (newmax : Nat) : SameTables coin (coin.addrtxalloc L newmax).1 :=
  ⟨rfl, rfl, rfl, rfl, rfl, rfl, rfl, rfl, rfl, rfl, rfl, rfl, rfl, rfl, rfl, rfl, rfl⟩

/-- The place of a list: it has room for its entries, and lies in the record of its address or below
`totaladdrtx`. -/
structure Placed (totaladdrtx : Nat) (L : Lentry) : Prop where
  room : L.numaddrtx ≤ L.maxaddrtx
  inside : L.insideA = true → L.firstAddrtxi + addrtxSize * L.maxaddrtx ≤ addrinfoSize
  outside : L.insideA = false → L.firstAddrtxi + L.maxaddrtx < totaladdrtx

/-- The lists of two addresses, with the entry behind each that links to the next block. -/
def Apart (L L' : Lentry) : Prop := L.insideA = false → L'.insideA = false →
  L.firstAddrtxi + L.maxaddrtx < L'.firstAddrtxi ∨ L'.firstAddrtxi + L'.maxaddrtx < L.firstAddrtxi

theorem Apart.symm (h : Apart L L') : Apart L' L := fun h1 h2 => (h h2 h1).symm

theorem Placed.holds {n : Nat} (hL : Placed n L) (hi : i < L.maxaddrtx) : L.holds i = true := by
  rw [Lentry.holds]
  cases hinside : L.insideA with
  | true =>
    have hroom := hL.inside hinside
    refine decide_eq_true (Nat.le_trans ?_ hroom)
    exact Nat.add_le_add_left (Nat.mul_le_mul_left _ hi) _
  | false => rfl

private theorem embeds_of_lt {n : Nat} (hL : Placed n L) (hinside : L.insideA = true) (hi : i < L.maxaddrtx) :
    L.embeds i = true := by
  have hholds := hL.holds hi
  rwa [Lentry.holds, hinside] at hholds

theorem readAddrtx_writeAddrtx_self {n : Nat} (hL : Placed n L) (hi : i < L.maxaddrtx) :
    (coin.writeAddrtx a atx L i).readAddrtx a L i = atx := by
  rw [Coin.writeAddrtx]
  cases hinside : L.insideA with
  | true =>
    rw [if_pos rfl, if_pos (embeds_of_lt hL hinside hi), Coin.readAddrtx, if_pos hinside,
      if_pos (embeds_of_lt hL hinside hi)]
    dsimp only
    rw [Function.update_self, Addrinfo.setSlot]
    exact Function.update_self ..
  | false =>
    rw [if_neg Bool.false_ne_true, Coin.readAddrtx, if_neg (by rw [hinside]; exact Bool.false_ne_true)]
    exact Function.update_self ..

theorem readAddrtx_writeAddrtx_ne (hij : j ≠ i) :
    (coin.writeAddrtx a atx L i).readAddrtx a L j = coin.readAddrtx a L j := by
  rw [Coin.writeAddrtx, Coin.readAddrtx, Coin.readAddrtx]
  cases hinside : L.insideA with
  | true =>
    rw [if_pos rfl, if_pos rfl, if_pos rfl]
    by_cases hembeds : L.embeds i = true
    · rw [if_pos hembeds]
      dsimp only
      rw [Function.update_self, Addrinfo.setSlot]
      dsimp only
      rw [Function.update_of_ne hij]
    · rw [if_neg hembeds]
  | false =>
    rw [if_neg Bool.false_ne_true, if_neg Bool.false_ne_true, if_neg Bool.false_ne_true]
    dsimp only
    rw [Function.update_of_ne (by omega)]

theorem readAddrtx_writeAddrtx_apart (hab : b ≠ a) (hL : Apart L L') (hi : i ≤ L.maxaddrtx) (hj : j ≤ L'.maxaddrtx) :
    (coin.writeAddrtx a atx L i).readAddrtx b L' j = coin.readAddrtx b L' j := by
  rw [Coin.writeAddrtx, Coin.readAddrtx, Coin.readAddrtx]
  cases hinside : L.insideA with
  | true =>
    rw [if_pos rfl]
    by_cases hembeds : L.embeds i = true
    · rw [if_pos hembeds]
      dsimp only
      rw [Function.update_of_ne hab]
    · rw [if_neg hembeds]
  | false =>
    rw [if_neg Bool.false_ne_true]
    cases hinside' : L'.insideA with
    | true => rw [if_pos rfl, if_pos rfl]
    | false =>
      rw [if_neg Bool.false_ne_true, if_neg Bool.false_ne_true]
      have hne : L'.firstAddrtxi + j ≠ L.firstAddrtxi + i := by
        rcases hL hinside hinside' with h | h
        · omega
        · omega
      dsimp only
      rw [Function.update_of_ne hne]

theorem entries_length (coin : Coin) (a : Nat) (L : Lentry) : (coin.entries a L).length = L.numaddrtx := by
  rw [Coin.entries, List.length_map, List.length_range]

theorem entries_getElem? (coin : Coin) (a : Nat) (L : Lentry) (hi : i < L.numaddrtx) :
    (coin.entries a L)[i]? = some (coin.readAddrtx a L i) := by
  rw [Coin.entries, List.getElem?_map, List.getElem?_range hi]
  rfl

private theorem entries_congr (h : ∀ j < L.numaddrtx, coin'.readAddrtx a L j = coin.readAddrtx a L j) :
    coin'.entries a L = coin.entries a L := by
  rw [Coin.entries, Coin.entries]
  exact List.map_congr_left fun j hj => h j (List.mem_range.mp hj)

theorem entries_writeAddrtx_apart {n : Nat} (hab : b ≠ a) (hL : Apart L L') (hL' : Placed n L')
    (hi : i ≤ L.maxaddrtx) : (coin.writeAddrtx a atx L i).entries b L' = coin.entries b L' := by
  refine entries_congr fun j hj => ?_
  exact readAddrtx_writeAddrtx_apart hab hL hi (Nat.le_trans (Nat.le_of_lt hj) hL'.room)

theorem entries_writeAddrtx_behind (hi : L.numaddrtx ≤ i) :
    (coin.writeAddrtx a atx L i).entries a L = coin.entries a L :=
  entries_congr fun _ hj => readAddrtx_writeAddrtx_ne (Nat.ne_of_lt (Nat.lt_of_lt_of_le hj hi))

/-- Only the record of the address and the table of the lists are read. -/
theorem entries_records (haddrinfos : coin'.addrinfos b = coin.addrinfos b) (haddrtx : coin'.addrtx = coin.addrtx)
    (L : Lentry) : coin'.entries b L = coin.entries b L :=
  entries_congr fun j _ => by rw [Coin.readAddrtx, Coin.readAddrtx, haddrinfos, haddrtx]

private theorem readAddrtx_place (hfirst : L'.firstAddrtxi = L.firstAddrtxi) (hinside : L'.insideA = L.insideA) :
    coin.readAddrtx a L' j = coin.readAddrtx a L j := by
  rw [Coin.readAddrtx, Coin.readAddrtx, Lentry.embeds, Lentry.embeds, hfirst, hinside]

theorem entries_place (hfirst : L'.firstAddrtxi = L.firstAddrtxi) (hinside : L'.insideA = L.insideA)
    (hnum : L'.numaddrtx = L.numaddrtx) : coin.entries a L' = coin.entries a L := by
  rw [Coin.entries, Coin.entries, hnum]
  exact List.map_congr_left fun j _ => readAddrtx_place hfirst hinside

theorem entries_addrtxalloc (b newmax : Nat) (hL : Placed coin.totaladdrtx L) (oldL : Lentry) :
    (coin.addrtxalloc oldL newmax).1.entries b L = coin.entries b L := by
  refine entries_congr fun j hj => ?_
  rw [Coin.readAddrtx, Coin.readAddrtx, Coin.addrtxalloc]
  cases hinside : L.insideA with
  | true => rw [if_pos rfl, if_pos rfl]
  | false =>
    have hroom := hL.room
    have hbelow := hL.outside hinside
    have hout : ¬(coin.totaladdrtx ≤ L.firstAddrtxi + j ∧ L.firstAddrtxi + j ≤ coin.totaladdrtx + newmax) := by omega
    rw [if_neg Bool.false_ne_true, if_neg Bool.false_ne_true]
    dsimp only
    rw [if_neg hout]

theorem writeAddrtx_totaladdrtx (coin : Coin) (a : Nat) (atx : AddrtxInfo) (L : Lentry) (i : Nat) :
    (coin.writeAddrtx a atx L i).totaladdrtx = coin.totaladdrtx := by
  rw [Coin.writeAddrtx]
  split
  · split <;> rfl
  · rfl

theorem writeAddrtx_ledger (coin : Coin) (a : Nat) (atx : AddrtxInfo) (L : Lentry) (i : Nat) :
    (coin.writeAddrtx a atx L i).ledger = coin.ledger := by
  rw [Coin.writeAddrtx]
  split
  · split <;> rfl
  · rfl

/-- The lists of outputs are all that a step changes, of the tables and of the records. -/
structure ListsOnly (coin coin' : Coin) : Prop where
  same : SameTables coin coin'
  records : SameRecords coin coin'

theorem ListsOnly.refl (coin : Coin) : ListsOnly coin coin := ⟨SameTables.refl coin, SameRecords.refl coin⟩

theorem ListsOnly.trans {coin'' : Coin} (h : ListsOnly coin coin') (h' : ListsOnly coin' coin'') :
    ListsOnly coin coin'' := ⟨h.same.trans h'.same, h.records.trans h'.records⟩

theorem listsOnly_writeAddrtx (coin : Coin) (a : Nat) (atx : AddrtxInfo) (L : Lentry) (i : Nat) :
    ListsOnly coin (coin.writeAddrtx a atx L i) := ⟨sameTables_writeAddrtx a atx L i, sameRecords_writeAddrtx a atx L i⟩

theorem listsOnly_setLedger (coin : Coin) (a : Nat) (L : Lentry) : ListsOnly coin (coin.setLedger a L) :=
  ⟨sameTables_setLedger a L, SameRecords.refl coin⟩

theorem listsOnly_vupdate {t : Table} (ht : Table.blocks ≠ t) (coin : Coin) (bytes : List UInt8) :
    ListsOnly coin (coin.vupdate t bytes) := ⟨sameTables_vupdate ht bytes, SameRecords.refl coin⟩

theorem listsOnly_addrtxalloc (coin : Coin) (L : Lentry) (newmax : Nat) :
    ListsOnly coin (coin.addrtxalloc L newmax).1 := ⟨sameTables_addrtxalloc L newmax, SameRecords.refl coin⟩

theorem listsOnly_copyActives (coin : Coin) (a : Nat) (L : Lentry) (actives : List AddrtxInfo) :
    ListsOnly coin (coin.copyActives a L actives) := by
  rw [Coin.copyActives]
  induction List.range actives.length generalizing coin with
  | nil => exact ListsOnly.refl coin
  | cons i is ih =>
    rw [List.foldl_cons]
    exact (listsOnly_writeAddrtx coin a _ L i).trans (ih _)

theorem listsOnly_growAddrtx (coin : Coin) (a : Nat) (L : Lentry) (m : Nat) :
    ListsOnly coin (coin.growAddrtx a L m).1 := by
  have hlink : ListsOnly coin (if L.firstAddrtxi ≠ 0 then coin.writeAddrtx a ⟨coin.totaladdrtx, m⟩ L L.maxaddrtx
      else coin) := by
    split
    · exact listsOnly_writeAddrtx ..
    · exact ListsOnly.refl coin
  rw [Coin.growAddrtx]
  generalize (if L.firstAddrtxi ≠ 0 then coin.writeAddrtx a ⟨coin.totaladdrtx, m⟩ L L.maxaddrtx else coin) = linked
    at hlink ⊢
  generalize (if 2 * L.maxaddrtx > 16 then 2 * L.maxaddrtx else 16) = incr
  dsimp only
  split
  · split
    · exact hlink.trans (listsOnly_addrtxalloc _ L _)
    · exact (hlink.trans (listsOnly_addrtxalloc _ L _)).trans (listsOnly_copyActives ..)
  · exact hlink.trans (listsOnly_addrtxalloc _ L _)

theorem listsOnly_addAddrtx (coin : Coin) (a : Nat) (atx : AddrtxInfo) (L : Lentry) (m : Nat) :
    ListsOnly coin (coin.addAddrtx a atx L m) := by
  rw [Coin.addAddrtx]
  generalize hroom : (if L.numaddrtx ≥ L.maxaddrtx then coin.growAddrtx a L m else (coin, L)) = room
  have hgrown : ListsOnly coin room.1 := by
    rw [← hroom]
    split
    · exact listsOnly_growAddrtx coin a L m
    · exact ListsOnly.refl coin
  obtain ⟨coin', L'⟩ := room
  dsimp only
  refine (hgrown.trans (listsOnly_writeAddrtx coin' a atx L' L'.numaddrtx)).trans ?_
  refine ((listsOnly_setLedger _ a _).trans (listsOnly_vupdate (by decide) _ _)).trans
    (listsOnly_vupdate (by decide) _ _)

theorem listsOnly_updateAddrinfo {u s m : Nat} {value : UInt64} (h : coin.updateAddrinfo a u value s m = some coin') :
    ListsOnly coin coin' := by
  rw [Coin.updateAddrinfo] at h
  dsimp only at h
  split at h
  case isTrue =>
    cases h
    exact ListsOnly.refl coin
  case isFalse =>
    split at h
    case isTrue =>
      split at h
      · split at h
        · cases h
          exact (listsOnly_writeAddrtx coin a _ _ _).trans (listsOnly_setLedger _ a _)
        · cases h
      · cases h
    case isFalse =>
      split at h
      · cases h
        exact listsOnly_addAddrtx coin a _ _ m
      · cases h

private theorem copyActives_spec (coin : Coin) (a : Nat) {n : Nat} {actives : List AddrtxInfo} (hL : Placed n L)
    (hlen : actives.length ≤ L.maxaddrtx) :
    (coin.copyActives a L actives).totaladdrtx = coin.totaladdrtx ∧
      (coin.copyActives a L actives).ledger = coin.ledger ∧
      (∀ i < actives.length, (coin.copyActives a L actives).readAddrtx a L i = actives.getD i AddrtxInfo.zero) ∧
      ∀ b L', b ≠ a → Apart L L' → Placed n L' → (coin.copyActives a L actives).entries b L' = coin.entries b L' := by
  have hrounds : ∀ k ≤ actives.length,
      let done := (List.range k).foldl (fun coin i => coin.writeAddrtx a (actives.getD i AddrtxInfo.zero) L i) coin
      done.totaladdrtx = coin.totaladdrtx ∧ done.ledger = coin.ledger ∧
        (∀ i < k, done.readAddrtx a L i = actives.getD i AddrtxInfo.zero) ∧
        ∀ b L', b ≠ a → Apart L L' → Placed n L' → done.entries b L' = coin.entries b L' := by
    intro k hk
    induction k with
    | zero => exact ⟨rfl, rfl, fun i hi => absurd hi (Nat.not_lt_zero i), fun _ _ _ _ _ => rfl⟩
    | succ k ih =>
      obtain ⟨htotal, hledger, hread, hother⟩ := ih (by omega)
      rw [List.range_succ, List.foldl_append, List.foldl_cons, List.foldl_nil]
      refine ⟨?_, ?_, ?_, ?_⟩
      · rw [writeAddrtx_totaladdrtx, htotal]
      · rw [writeAddrtx_ledger, hledger]
      · intro i hi
        rcases Nat.lt_succ_iff_lt_or_eq.mp hi with hi | rfl
        · rw [readAddrtx_writeAddrtx_ne (Nat.ne_of_lt hi), hread i hi]
        · exact readAddrtx_writeAddrtx_self hL (Nat.lt_of_lt_of_le hk hlen)
      · intro b L' hb hapart hplaced
        rw [entries_writeAddrtx_apart hb hapart hplaced (by omega), hother b L' hb hapart hplaced]
  exact hrounds actives.length (Nat.le_refl _)

/-- What a step on the list of the address `a` keeps: the other tables, the lists of other addresses, and that
these lie apart. A list that is in the record then was at the same place there. -/
structure Kept (coin coin' : Coin) (a : Nat) (L L' : Lentry) : Prop where
  lists : ListsOnly coin coin'
  total : coin.totaladdrtx ≤ coin'.totaladdrtx
  others : ∀ b M, b ≠ a → Apart L M → Placed coin.totaladdrtx M →
    coin'.entries b M = coin.entries b M ∧ Apart L' M
  home : L'.insideA = true → L.insideA = true ∧ L'.firstAddrtxi = L.firstAddrtxi ∧ L'.maxaddrtx = L.maxaddrtx

theorem Kept.refl (coin : Coin) (a : Nat) (L : Lentry) : Kept coin coin a L L :=
  ⟨ListsOnly.refl coin, Nat.le_refl _, fun _ _ _ hapart _ => ⟨rfl, hapart⟩, fun h => ⟨h, rfl, rfl⟩⟩

theorem Kept.trans {coin'' : Coin} {L'' : Lentry} (h : Kept coin coin' a L L') (h' : Kept coin' coin'' a L' L'') :
    Kept coin coin'' a L L'' where
  lists := h.lists.trans h'.lists
  total := Nat.le_trans h.total h'.total
  others b M hb hapart hplaced := by
    obtain ⟨hentries, hapart'⟩ := h.others b M hb hapart hplaced
    have hplaced' : Placed coin'.totaladdrtx M :=
      ⟨hplaced.room, hplaced.inside, fun hinside => Nat.lt_of_lt_of_le (hplaced.outside hinside) h.total⟩
    obtain ⟨hentries', hapart''⟩ := h'.others b M hb hapart' hplaced'
    exact ⟨hentries'.trans hentries, hapart''⟩
  home hinside := by
    obtain ⟨hinside', hfirst', hmax'⟩ := h'.home hinside
    obtain ⟨hold, hfirst, hmax⟩ := h.home hinside'
    exact ⟨hold, hfirst'.trans hfirst, hmax'.trans hmax⟩

theorem kept_writeAddrtx (hi : i ≤ L.maxaddrtx) : Kept coin (coin.writeAddrtx a atx L i) a L L where
  lists := listsOnly_writeAddrtx coin a atx L i
  total := Nat.le_of_eq (writeAddrtx_totaladdrtx coin a atx L i).symm
  others _ _ hb hapart hplaced := ⟨entries_writeAddrtx_apart hb hapart hplaced hi, hapart⟩
  home h := ⟨h, rfl, rfl⟩

theorem kept_addrtxalloc {newmax : Nat} (oldL : Lentry) :
    Kept coin (coin.addrtxalloc oldL newmax).1 a L (coin.addrtxalloc oldL newmax).2 where
  lists := listsOnly_addrtxalloc coin oldL newmax
  total := Nat.le_add_right _ _
  others _ _ _ _ hplaced := by
    refine ⟨entries_addrtxalloc _ _ hplaced oldL, fun _ hinside => Or.inr ?_⟩
    exact hplaced.outside hinside
  home h := absurd h Bool.false_ne_true

theorem Kept.place {M : Lentry} (h : Kept coin coin' a L L') (hfirst : M.firstAddrtxi = L'.firstAddrtxi)
    (hmax : M.maxaddrtx = L'.maxaddrtx) (hinside : M.insideA = L'.insideA) : Kept coin coin' a L M where
  lists := h.lists
  total := h.total
  others b N hb hapart hplaced := by
    obtain ⟨hentries, hapart'⟩ := h.others b N hb hapart hplaced
    refine ⟨hentries, fun h1 h2 => ?_⟩
    rw [hfirst, hmax]
    exact hapart' (hinside ▸ h1) h2
  home hM := by
    obtain ⟨hold, hfirst', hmax'⟩ := h.home (hinside ▸ hM)
    exact ⟨hold, hfirst.trans hfirst', hmax.trans hmax'⟩

theorem kept_tables (hsame : SameTables coin coin') (htotal : coin'.totaladdrtx = coin.totaladdrtx)
    (haddrinfos : coin'.addrinfos = coin.addrinfos) (haddrtx : coin'.addrtx = coin.addrtx) : Kept coin coin' a L L where
  lists := ⟨hsame, fun a => by rw [haddrinfos]; exact ⟨rfl, rfl⟩⟩
  total := Nat.le_of_eq htotal.symm
  others b M _ hapart _ := ⟨entries_records (congrFun haddrinfos b) haddrtx M, hapart⟩
  home h := ⟨h, rfl, rfl⟩

/-- A full list is moved with its entries and balance, and has room then. -/
theorem growAddrtx_spec (hL : Placed coin.totaladdrtx L) (hbalance : L.balance = coin.unspentSum (coin.entries a L))
    (m : Nat) (hgrow : coin.growAddrtx a L m = (coin', L')) :
    Kept coin coin' a L L' ∧ Placed coin'.totaladdrtx L' ∧ L'.numaddrtx < L'.maxaddrtx ∧
      L'.balance = L.balance ∧ coin'.ledger = coin.ledger ∧ coin'.entries a L' = coin.entries a L := by
  have hroom := hL.room
  rw [Coin.growAddrtx] at hgrow
  generalize hincr : (if 2 * L.maxaddrtx > 16 then 2 * L.maxaddrtx else 16) = incr at hgrow
  have hbig : L.numaddrtx < incr := by
    rw [← hincr]
    split
    · omega
    · omega
  generalize hlink : (if L.firstAddrtxi ≠ 0 then coin.writeAddrtx a ⟨coin.totaladdrtx, m⟩ L L.maxaddrtx else coin) =
    linked at hgrow
  have hlinked : Kept coin linked a L L ∧ linked.ledger = coin.ledger ∧ linked.totaladdrtx = coin.totaladdrtx ∧
      linked.entries a L = coin.entries a L := by
    rw [← hlink]
    split
    · exact ⟨kept_writeAddrtx (Nat.le_refl _), writeAddrtx_ledger .., writeAddrtx_totaladdrtx ..,
        entries_writeAddrtx_behind hroom⟩
    · exact ⟨Kept.refl coin a L, rfl, rfl, rfl⟩
  obtain ⟨hkept, hledger, htotal, hentries⟩ := hlinked
  dsimp only at hgrow
  generalize halloc : (linked.addrtxalloc L incr).1 = fresh at hgrow
  have hfresh : Kept coin fresh a L (linked.addrtxalloc L incr).2 := by
    rw [← halloc]
    exact hkept.trans (kept_addrtxalloc L)
  have hfreshTotal : fresh.totaladdrtx = coin.totaladdrtx + (incr + 1) := by
    rw [← halloc, ← htotal]
    rfl
  have hfreshEntries : fresh.entries a L = coin.entries a L := by
    rw [← halloc, entries_addrtxalloc _ _ (by rw [htotal]; exact hL), hentries]
  have hfreshLedger : fresh.ledger = coin.ledger := by
    rw [← halloc, ← hledger]
    rfl
  have hplace : (linked.addrtxalloc L incr).2 = { L with
      firstAddrtxi := coin.totaladdrtx, maxaddrtx := incr, insideA := false } := by
    rw [← htotal]
    rfl
  rw [hplace] at hgrow hfresh
  split at hgrow
  case isFalse hnone =>
    obtain ⟨rfl, rfl⟩ := Prod.mk.inj hgrow
    have hzero : L.numaddrtx = 0 := Nat.eq_zero_of_not_pos hnone
    refine ⟨hfresh.place rfl rfl rfl, ⟨Nat.zero_le _, fun h => absurd h Bool.false_ne_true, fun _ => ?_⟩, ?_, rfl,
      hfreshLedger, ?_⟩
    · rw [hfreshTotal]
      exact Nat.add_lt_add_left (Nat.lt_succ_self incr) _
    · exact Nat.lt_of_le_of_lt (Nat.zero_le _) hbig
    · rw [Coin.entries, Coin.entries, hzero]
      rfl
  case isTrue =>
    have hcompact : fresh.compact false a L = (coin.entries a L, L.balance) := by
      have hall : (fresh.entries a L).filter (fun atx => !false || decide (atx.spendind = 0)) = fresh.entries a L :=
        List.filter_eq_self.mpr fun _ _ => rfl
      rw [Coin.compact, hall, hfreshEntries, hfresh.lists.same.unspentSum, hbalance]
    rw [hcompact] at hgrow
    dsimp only at hgrow
    rw [if_neg (not_not.mpr rfl), entries_length] at hgrow
    obtain ⟨rfl, rfl⟩ := Prod.mk.inj hgrow
    generalize hM : (⟨L.balance, coin.totaladdrtx, L.numaddrtx, incr, false⟩ : Lentry) = M
    have hplaced : Placed fresh.totaladdrtx M := by
      rw [← hM]
      refine ⟨Nat.le_of_lt hbig, fun h => absurd h Bool.false_ne_true, fun _ => ?_⟩
      rw [hfreshTotal]
      exact Nat.add_lt_add_left (Nat.lt_succ_self incr) _
    have hlen : (coin.entries a L).length ≤ M.maxaddrtx := by
      rw [entries_length, ← hM]
      exact Nat.le_of_lt hbig
    obtain ⟨hcopyTotal, hcopyLedger, hread, hother⟩ :=
      copyActives_spec fresh a hplaced hlen
    have hcopied : Kept fresh (fresh.copyActives a M (coin.entries a L)) a M M :=
      ⟨listsOnly_copyActives .., Nat.le_of_eq hcopyTotal.symm, fun b N hb hapart hN => ⟨hother b N hb hapart hN, hapart⟩,
        fun h => ⟨h, rfl, rfl⟩⟩
    refine ⟨(hfresh.place (M := M) ?_ ?_ ?_).trans hcopied, ?_, ?_, ?_, hcopyLedger.trans hfreshLedger, ?_⟩
    · rw [← hM]
    · rw [← hM]
    · rw [← hM]
    · rw [hcopyTotal]
      exact hplaced
    · rw [← hM]
      exact hbig
    · rw [← hM]
    · have hnum : M.numaddrtx = L.numaddrtx := by rw [← hM]
      refine List.ext_getElem? fun i => ?_
      by_cases hi : i < L.numaddrtx
      · rw [entries_getElem? _ _ _ (hnum ▸ hi), hread i (by rw [entries_length]; exact hi),
          List.getD_eq_getElem?_getD, entries_getElem? _ _ _ hi, Option.getD_some]
      · rw [List.getElem?_eq_none (by rw [entries_length, hnum]; exact Nat.le_of_not_lt hi),
          List.getElem?_eq_none (by rw [entries_length]; exact Nat.le_of_not_lt hi)]

private theorem entries_writeAddrtx_last {n : Nat} (hL : Placed n L) (hroom : L.numaddrtx < L.maxaddrtx)
    {M : Lentry} (hfirst : M.firstAddrtxi = L.firstAddrtxi) (hinside : M.insideA = L.insideA)
    (hnum : M.numaddrtx = L.numaddrtx + 1) :
    (coin.writeAddrtx a atx L L.numaddrtx).entries a M = coin.entries a L ++ [atx] := by
  have hlast : (coin.writeAddrtx a atx L L.numaddrtx).readAddrtx a M L.numaddrtx = atx := by
    rw [readAddrtx_place hfirst hinside]
    exact readAddrtx_writeAddrtx_self hL hroom
  have hold : (List.range L.numaddrtx).map ((coin.writeAddrtx a atx L L.numaddrtx).readAddrtx a M) =
      coin.entries a L := by
    rw [Coin.entries]
    refine List.map_congr_left fun j hj => ?_
    rw [readAddrtx_place hfirst hinside]
    exact readAddrtx_writeAddrtx_ne (Nat.ne_of_lt (List.mem_range.mp hj))
  rw [Coin.entries, hnum, List.range_succ, List.map_append, hold, List.map_singleton, hlast]

/-- An output is put behind the entries of its address, wherever these are kept. -/
theorem addAddrtx_spec (hL : Placed coin.totaladdrtx L) (hbalance : L.balance = coin.unspentSum (coin.entries a L))
    (atx : AddrtxInfo) (m : Nat) :
    Kept coin (coin.addAddrtx a atx L m) a L ((coin.addAddrtx a atx L m).ledger a) ∧
      Placed (coin.addAddrtx a atx L m).totaladdrtx ((coin.addAddrtx a atx L m).ledger a) ∧
      (∀ b ≠ a, (coin.addAddrtx a atx L m).ledger b = coin.ledger b) ∧
      (coin.addAddrtx a atx L m).entries a ((coin.addAddrtx a atx L m).ledger a) = coin.entries a L ++ [atx] ∧
      ((coin.addAddrtx a atx L m).ledger a).balance = L.balance + coin.uvalue atx.unspentind := by
  generalize hroom : (if L.numaddrtx ≥ L.maxaddrtx then coin.growAddrtx a L m else (coin, L)) = room
  obtain ⟨coin', L'⟩ := room
  have hgrown : Kept coin coin' a L L' ∧ Placed coin'.totaladdrtx L' ∧ L'.numaddrtx < L'.maxaddrtx ∧
      L'.balance = L.balance ∧ coin'.ledger = coin.ledger ∧ coin'.entries a L' = coin.entries a L := by
    split at hroom
    case isTrue => exact growAddrtx_spec hL hbalance m hroom
    case isFalse hlt =>
      obtain ⟨rfl, rfl⟩ := Prod.mk.inj hroom
      exact ⟨Kept.refl coin a L, hL, Nat.lt_of_not_ge hlt, rfl, rfl, rfl⟩
  obtain ⟨hkept, hplaced, hlt, hbal, hledger, hentries⟩ := hgrown
  generalize hM : ({ L' with
    numaddrtx := L'.numaddrtx + 1, balance := L'.balance + coin'.uvalue atx.unspentind } : Lentry) = M
  have hwritten : (coin'.writeAddrtx a atx L' L'.numaddrtx).uvalue atx.unspentind = coin'.uvalue atx.unspentind := by
    rw [(sameTables_writeAddrtx a atx L' L'.numaddrtx).uvalue]
  have hadd : coin.addAddrtx a atx L m =
      (((coin'.writeAddrtx a atx L' L'.numaddrtx).setLedger a M).vupdate .ledger
        (ledgerBytes (coin'.uvalue atx.unspentind) a m)).vupdate .addrtx atx.bytes := by
    rw [Coin.addAddrtx, hroom]
    dsimp only
    rw [hwritten, hM]
  have hself : (coin.addAddrtx a atx L m).ledger a = M := by
    rw [hadd]
    exact Function.update_self ..
  have hwrite : Kept coin (coin'.writeAddrtx a atx L' L'.numaddrtx) a L L' :=
    hkept.trans (kept_writeAddrtx (Nat.le_of_lt hlt))
  have hrest : Kept (coin'.writeAddrtx a atx L' L'.numaddrtx) (coin.addAddrtx a atx L m) a L' L' := by
    rw [hadd]
    exact kept_tables (((sameTables_setLedger a M).trans (sameTables_vupdate (by decide) _)).trans
      (sameTables_vupdate (by decide) _))
      rfl rfl rfl
  rw [hself]
  refine ⟨(hwrite.trans hrest).place ?_ ?_ ?_, ?_, ?_, ?_, ?_⟩
  · rw [← hM]
  · rw [← hM]
  · rw [← hM]
  · have htotal : (coin.addAddrtx a atx L m).totaladdrtx = coin'.totaladdrtx := by
      rw [hadd]
      exact writeAddrtx_totaladdrtx ..
    rw [htotal, ← hM]
    exact ⟨hlt, hplaced.inside, hplaced.outside⟩
  · intro b hb
    rw [hadd]
    have hother : ((coin'.writeAddrtx a atx L' L'.numaddrtx).setLedger a M).ledger b = coin.ledger b := by
      rw [Coin.setLedger]
      dsimp only
      rw [Function.update_of_ne hb, writeAddrtx_ledger, hledger]
    exact hother
  · have htables : (coin.addAddrtx a atx L m).entries a M = (coin'.writeAddrtx a atx L' L'.numaddrtx).entries a M := by
      rw [hadd]
      exact entries_records rfl rfl M
    rw [htables, entries_writeAddrtx_last hplaced hlt (by rw [← hM]) (by rw [← hM]) (by rw [← hM]), hentries]
  · rw [← hM]
    dsimp only
    rw [hbal, hkept.lists.same.uvalue]

theorem writeAddrtx_entries {n : Nat} (hL : Placed n L) (hi : i < L.numaddrtx) :
    (coin.writeAddrtx a atx L i).entries a L = (coin.entries a L).set i atx := by
  refine List.ext_getElem? fun j => ?_
  rw [List.getElem?_set, entries_length]
  by_cases hj : j < L.numaddrtx
  · rw [entries_getElem? _ _ _ hj, entries_getElem? _ _ _ hj]
    split
    case isTrue heq => rw [← heq, readAddrtx_writeAddrtx_self hL (Nat.lt_of_lt_of_le hi hL.room)]
    case isFalse hne => rw [readAddrtx_writeAddrtx_ne (Ne.symm hne)]
  · have hne : i ≠ j := fun heq => hj (heq ▸ hi)
    rw [if_neg hne, List.getElem?_eq_none (by rw [entries_length]; exact Nat.le_of_not_lt hj),
      List.getElem?_eq_none (by rw [entries_length]; exact Nat.le_of_not_lt hj)]

section search
variable {read : Nat → AddrtxInfo} {uvalue : Nat → UInt64} {u : Nat} {v : UInt64}

private theorem probe_le {floor ceiling : Nat} (last : Option Nat) (hlt : floor < ceiling) :
    (if some ((floor + ceiling) / 2) = last then (floor + ceiling) / 2 + 1 else (floor + ceiling) / 2) ≤ ceiling := by
  split
  · omega
  · omega

/-- Wherever the probes of the binary search go, a probe that it returns is the entry that is looked for. -/
theorem bsearchLoop_found {n floor ceiling k : Nat} {last : Option Nat}
    (h : bsearchLoop read uvalue u v n floor ceiling last = .inl k) :
    (read k).unspentind = u ∧ uvalue u = v ∧ k ≤ ceiling := by
  induction n generalizing floor ceiling last with
  | zero => cases h
  | succ n ih =>
    rw [bsearchLoop] at h
    split at h
    case isFalse => cases h
    case isTrue hlt =>
      dsimp only at h
      generalize hprobe : (if some ((floor + ceiling) / 2) = last then (floor + ceiling) / 2 + 1
        else (floor + ceiling) / 2) = probe at h
      have hle : probe ≤ ceiling := hprobe ▸ probe_le last hlt
      split at h
      case isTrue =>
        obtain ⟨hu, hv, hk⟩ := ih h
        exact ⟨hu, hv, Nat.le_trans hk hle⟩
      case isFalse hge =>
        split at h
        case isTrue => exact ih h
        case isFalse hle' =>
          split at h
          case isTrue hv =>
            cases h
            have hu := Nat.le_antisymm (Nat.le_of_not_lt hge) (Nat.le_of_not_lt hle')
            exact ⟨hu, by rw [← hu]; exact hv, hle⟩
          case isFalse => cases h

theorem bsearchLoop_bounds {n floor ceiling f c : Nat} {last : Option Nat}
    (h : bsearchLoop read uvalue u v n floor ceiling last = .inr (f, c)) : c ≤ ceiling := by
  induction n generalizing floor ceiling last with
  | zero =>
    cases h
    exact Nat.le_refl _
  | succ n ih =>
    rw [bsearchLoop] at h
    split at h
    case isFalse =>
      cases h
      exact Nat.le_refl _
    case isTrue hlt =>
      dsimp only at h
      generalize hprobe : (if some ((floor + ceiling) / 2) = last then (floor + ceiling) / 2 + 1
        else (floor + ceiling) / 2) = probe at h
      have hle : probe ≤ ceiling := hprobe ▸ probe_le last hlt
      split at h
      case isTrue => exact Nat.le_trans (ih h) hle
      case isFalse =>
        split at h
        case isTrue => exact ih h
        case isFalse =>
          split at h
          case isTrue => cases h
          case isFalse =>
            cases h
            exact Nat.le_refl _

theorem linearSearch_found {n start k : Nat} (h : linearSearch read uvalue u v n start = some k) :
    (read k).unspentind = u ∧ uvalue u = v ∧ start ≤ k ∧ k < start + n := by
  induction n generalizing start with
  | zero => cases h
  | succ n ih =>
    rw [linearSearch] at h
    split at h
    case isTrue heq =>
      split at h
      case isTrue => cases h
      case isFalse hv =>
        cases h
        exact ⟨heq.symm, by rw [heq]; exact not_not.mp hv, by omega⟩
    case isFalse =>
      obtain ⟨hu, hv, hstart, hk⟩ := ih h
      exact ⟨hu, hv, by omega⟩

theorem linearSearch_complete {n start i : Nat} (hi : start ≤ i) (hn : i < start + n)
    (hread : (read i).unspentind = u) (hv : uvalue u = v) : ∃ k, linearSearch read uvalue u v n start = some k := by
  induction n generalizing start with
  | zero => omega
  | succ n ih =>
    rw [linearSearch]
    split
    case isTrue heq => exact ⟨start, by rw [if_neg (not_not.mpr (by rw [← heq]; exact hv))]⟩
    case isFalse hne =>
      have hstart : start ≠ i := fun heq => hne (heq ▸ hread.symm)
      exact ih (by omega) (by omega)

end search

theorem bsearch_spec {u : Nat} {v : UInt64} (hi : i < L.numaddrtx) (hread : (coin.readAddrtx a L i).unspentind = u)
    (hv : coin.uvalue u = v) :
    ∃ k < L.numaddrtx, coin.bsearch a L u v = some k ∧ (coin.readAddrtx a L k).unspentind = u := by
  have hnum : L.numaddrtx ≠ 0 := Nat.ne_of_gt (Nat.zero_lt_of_lt hi)
  rw [Coin.bsearch, if_neg hnum]
  cases hloop : bsearchLoop (coin.readAddrtx a L) coin.uvalue u v 30 0 (L.numaddrtx - 1) none with
  | inl k =>
    obtain ⟨hu, -, hk⟩ := bsearchLoop_found hloop
    exact ⟨k, by omega, rfl, hu⟩
  | inr bounds =>
    obtain ⟨floor, ceiling⟩ := bounds
    have hceiling := bsearchLoop_bounds hloop
    dsimp only
    cases hnear : linearSearch (coin.readAddrtx a L) coin.uvalue u v (ceiling + 1 - floor) floor with
    | some k =>
      obtain ⟨hu, -, hstart, hk⟩ := linearSearch_found hnear
      exact ⟨k, by omega, rfl, hu⟩
    | none =>
      obtain ⟨k, hall⟩ : ∃ k, linearSearch (coin.readAddrtx a L) coin.uvalue u v L.numaddrtx 0 = some k :=
        linearSearch_complete (Nat.zero_le i) (by omega) hread hv
      obtain ⟨hu, -, hstart, hk⟩ := linearSearch_found hall
      exact ⟨k, by omega, by rw [hall]; rfl, hu⟩

end SuperNet.Coins.Coin777
