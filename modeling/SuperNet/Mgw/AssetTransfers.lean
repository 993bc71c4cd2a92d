import SuperNet.Mgw.MgwStatus

/-! The index of an asset's transfers: NXT_txidstr, NXT_assettransfers and update_NXT_assettransfers
of MGW_main.c. -/
namespace SuperNet.Mgw.AssetTransfers
open MgwStatus

/-- `DB_NXTtxids`, by txid and by index, and `DB_MGW`. -/
structure Store where
  txids : Nat → Option (List Char)
  rev : Assettxids
  db : StatusDB

/-- What is done with the text of a transaction: the fields that vary are deleted before it is stored, and
`process_assettransfer` reads the rest. It returns no fields for a text that does not parse. -/
structure Reader where
  assetidbits : Nat
  normalize : List Char → List Char
  processAssettransfer : List Char → Option ExtraInfo

structure Poll where
  history : List Nat
  getTransaction : Nat → Option (List Char)
  redeemed : ExtraInfo → Bool
  nodup : history.Nodup
  nonzero : 0 ∉ history

variable (m : Reader) (p : Poll)

def nxtSetRevassettxid (s : Store) (ind : Nat) (extra : ExtraInfo) : Store :=
  { s with rev := Function.update s.rev ind (some extra) }

def nxtAddAssettxid (s : Store) (txidbits : Nat) (value : List Char) (ind : Nat) (extra : ExtraInfo) : Store :=
  nxtSetRevassettxid { s with txids := Function.update s.txids txidbits (some value) } ind
    { extra with assetidbits := m.assetidbits, txidbits := txidbits, ind := ind }

def recordTransfer (s : Store) (txid : Nat) (text : List Char) (ind : Nat) : Store :=
  match m.processAssettransfer text with
  | none => nxtAddAssettxid m s txid text ind { ExtraInfo.zero with vout := -1 }
  | some extra =>
    let db := if extra.vout ≥ 0 then mgwMarkunspent s.db extra.coindata extra.vout.toNat mgwDepositdone else s.db
    nxtAddAssettxid m { s with db := db } txid text ind extra

/-- `NXT_txidstr`. Nothing is written for a text that is stored already. -/
def nxtTxidstr (s : Store) (txid : Nat) (writeflag : Bool) (ind : Nat) : Store :=
  match p.getTransaction txid with
  | none => s
  | some json =>
    let text := m.normalize json
    let flag := if s.txids txid = some text then false else writeflag
    if flag then recordTransfer m s txid text ind else s

/-- The loop of `NXT_assettransfers` over the full list, newest first. -/
def reloadLoop : List Nat → Nat → Store → Store
  | [], _, s => s
  | txid :: rest, ind, s =>
    reloadLoop rest (ind - 1) (if txid ≠ 0 then nxtTxidstr m p s txid true ind else s)

/-- `NXT_assettransfers(mgw,txids,max,-1,-1)`. -/
def nxtAssettransfers (s : Store) : Store × Nat :=
  (reloadLoop m p p.history.reverse p.history.length s, p.history.length)

/-- The round of the loop over the last 100 transfers that meets the most recent stored one. -/
def findRecent (mostrecent : Nat) : Option Nat :=
  (List.range 100).find? fun i => p.history.reverse[i]? = some mostrecent

/-- `while ( i-- > 0 )`. -/
def backfill : Nat → Nat → Store → Store × Nat
  | 0, count, s => (s, count)
  | i + 1, count, s => backfill i (count + 1) (nxtTxidstr m p s (p.history.reverse.getD i 0) true (count + 1))

/-- The loop that looks for withdraws that are done, `n` entries to go. -/
def redeemLoop : Nat → Nat → Store → Store
  | 0, _, s => s
  | n + 1, i, s =>
    let extra := nxtRevassettxid s.rev i
    redeemLoop n (i + 1)
      (if extra.flags &&& mgwPendingredeem ≠ 0 ∧ extra.flags &&& mgwWithdrawdone = 0 ∧ p.redeemed extra then
        nxtSetRevassettxid s i { extra with flags := extra.flags ||| mgwWithdrawdone }
      else s)

/-- The part of `update_NXT_assettransfers` for a table with a count: what is new is added, and a count of
0 says that it was not found. -/
def addNew (s : Store) (count : Nat) : Store × Nat :=
  let s := redeemLoop p count 1 s
  match findRecent p (nxtRevassettxid s.rev count).txidbits with
  | some i => backfill m p i count s
  | none => (s, 0)

def updateNXTAssettransfers (s : Store) : Store :=
  let (s, count) := match s.rev 0 with
    | some extra => addNew m p s extra.ind.toNat
    | none => (s, 0)
  let (s, count) := if count = 0 then nxtAssettransfers m p s else (s, count)
  if s.rev 0 = none ∨ (nxtRevassettxid s.rev 0).ind ≠ count then
    nxtSetRevassettxid s 0 { ExtraInfo.zero with ind := count }
  else s

def run (polls : List Poll) : Store :=
  polls.foldl (fun s p => updateNXTAssettransfers m p s) ⟨fun _ => none, fun _ => none, fun _ => none⟩

/-- The list of transfers only grows between polls. -/
def Growing (polls : List Poll) : Prop := polls.IsChain fun p q => p.history <+: q.history

/-- The entries from 1 on are the transfers in chronological order, and the count is their number. -/
structure Complete (s : Store) (history : List Nat) : Prop where
  count : ∃ extra, s.rev 0 = some extra ∧ extra.ind = history.length
  entries : ∀ i, (s.rev (i + 1)).map ExtraInfo.txidbits = history[i]?

def counted (s : Store) : Nat := (nxtRevassettxid s.rev 0).ind.toNat

/-- Before the poll the table has no gap, or the poll loads the full list: the newest entry is missing, or
there are at least 100 new transfers. -/
def Recovers (s : Store) : Prop :=
  (∀ i < counted s, s.rev (i + 1) ≠ none) ∨ s.rev (counted s) = none ∨ counted s + 100 ≤ p.history.length

/-- Each entry from 1 on is the transfer of its place in `history`, and a transaction that is stored has its
entry. -/
structure Placed (s : Store) (history : List Nat) : Prop where
  placed : ∀ i extra, s.rev (i + 1) = some extra → history[i]? = some extra.txidbits
  stored : ∀ (i : Nat) txid, history[i]? = some txid → s.txids txid ≠ none → s.rev (i + 1) ≠ none
  known : ∀ txid, s.txids txid ≠ none → txid ∈ history

/-- From `s` to `t` the entries of the places in `I` are written as far as their transactions are answered,
and no others. -/
structure Fills (s t : Store) (I : Set Nat) : Prop where
  placed : Placed t p.history
  zero : t.rev 0 = s.rev 0
  others : ∀ i, i ∉ I → t.rev (i + 1) = s.rev (i + 1)
  filled : ∀ i ∈ I, (∀ txid ∈ p.history, p.getTransaction txid ≠ none) → t.rev (i + 1) ≠ none

structure Indexed (s : Store) (history : List Nat) : Prop extends Placed s history where
  count : (nxtRevassettxid s.rev 0).ind = history.length
  zero : (nxtRevassettxid s.rev 0).txidbits = 0

variable {m p} {s t u : Store} {H history : List Nat} {I J : Set Nat}

private theorem nodup_place {i j txid : Nat} (h : H.Nodup) (hi : H[i]? = some txid) (hj : H[j]? = some txid) : i = j := by
  obtain ⟨hlt, hget⟩ := List.getElem?_eq_some_iff.mp hi
  obtain ⟨hlt', hget'⟩ := List.getElem?_eq_some_iff.mp hj
  exact (List.Nodup.getElem_inj_iff h).mp (hget.trans hget'.symm)

theorem Placed.grow (h : Placed s H) (hpre : H <+: history) (hnodup : history.Nodup) : Placed s history where
  placed i extra hi := by
    obtain ⟨hlt, hget⟩ := List.getElem?_eq_some_iff.mp (h.placed i extra hi)
    rw [← hget]
    exact List.getElem?_eq_some_iff.mpr ⟨hlt.trans_le hpre.length_le, (hpre.getElem hlt).symm⟩
  stored i txid hi hstored := by
    obtain ⟨j, hlt, hget⟩ := List.mem_iff_getElem.mp (h.known txid hstored)
    have hj : H[j]? = some txid := List.getElem?_eq_some_iff.mpr ⟨hlt, hget⟩
    have hj' : history[j]? = some txid :=
      List.getElem?_eq_some_iff.mpr ⟨hlt.trans_le hpre.length_le, (hpre.getElem hlt).symm.trans hget⟩
    rw [nodup_place hnodup hi hj']
    exact h.stored j txid hj hstored
  known txid hstored := hpre.subset (h.known txid hstored)

theorem recordTransfer_store (s : Store) (txid : Nat) (text : List Char) (ind : Nat) :
    ∃ extra : ExtraInfo, extra.txidbits = txid ∧
      (recordTransfer m s txid text ind).rev = Function.update s.rev ind (some extra) ∧
      (recordTransfer m s txid text ind).txids = Function.update s.txids txid (some text) := by
  rw [recordTransfer]
  split <;> exact ⟨_, rfl, rfl, rfl⟩

/-- `NXT_txidstr` leaves the store alone when the call fails or the text is there, and else writes the entry. -/
theorem txidstr_cases (s : Store) (txid ind : Nat) :
    nxtTxidstr m p s txid true ind = s ∧ (p.getTransaction txid ≠ none → s.txids txid ≠ none) ∨
      ∃ (extra : ExtraInfo) (text : List Char), extra.txidbits = txid ∧
        (nxtTxidstr m p s txid true ind).rev = Function.update s.rev ind (some extra) ∧
        (nxtTxidstr m p s txid true ind).txids = Function.update s.txids txid (some text) := by
  rw [nxtTxidstr]
  split
  case h_1 hnone => exact Or.inl ⟨rfl, fun h => absurd hnone h⟩
  case h_2 json _ =>
    dsimp only
    by_cases htext : s.txids txid = some (m.normalize json)
    · rw [if_pos htext, if_neg Bool.false_ne_true]
      exact Or.inl ⟨rfl, fun _ => htext ▸ Option.some_ne_none _⟩
    · rw [if_neg htext, if_pos rfl]
      obtain ⟨extra, hid, hrev, htxids⟩ := recordTransfer_store (m := m) s txid (m.normalize json) ind
      exact Or.inr ⟨extra, _, hid, hrev, htxids⟩

theorem fills_write {i txid : Nat} (h : Placed s p.history) (hi : p.history[i]? = some txid) :
    Fills p s (nxtTxidstr m p s txid true (i + 1)) {i} := by
  rcases txidstr_cases (m := m) (p := p) s txid (i + 1) with ⟨hsame, hanswered⟩ | ⟨extra, text, hid, hrev, htxids⟩
  · rw [hsame]
    refine ⟨h, rfl, fun _ _ => rfl, ?_⟩
    rintro _ rfl hall
    exact h.stored _ txid hi (hanswered (hall txid (List.mem_of_getElem? hi)))
  · have hother : ∀ j, j ≠ i → (nxtTxidstr m p s txid true (i + 1)).rev (j + 1) = s.rev (j + 1) := by
      intro j hj
      rw [hrev, Function.update_of_ne fun h => hj (Nat.succ_injective h)]
    have hhere : (nxtTxidstr m p s txid true (i + 1)).rev (i + 1) = some extra := by rw [hrev, Function.update_self]
    refine ⟨⟨fun j e hj => ?_, fun j txid' hj hstored => ?_, fun txid' hstored => ?_⟩, ?_, hother, ?_⟩
    · by_cases hji : j = i
      · rw [hji, hhere] at hj
        rw [hji, ← Option.some.inj hj, hid]
        exact hi
      · exact h.placed j e (hother j hji ▸ hj)
    · by_cases hji : j = i
      · rw [hji, hhere]
        exact Option.some_ne_none _
      · rw [hother j hji]
        refine h.stored j txid' hj ?_
        rwa [htxids, Function.update_of_ne] at hstored
        rintro rfl
        exact hji (nodup_place p.nodup hj hi)
    · by_cases hid' : txid' = txid
      · exact hid' ▸ List.mem_of_getElem? hi
      · rw [htxids, Function.update_of_ne hid'] at hstored
        exact h.known txid' hstored
    · rw [hrev, Function.update_of_ne (Nat.succ_ne_zero i).symm]
    · rintro _ rfl -
      rw [hhere]
      exact Option.some_ne_none _

theorem Fills.refl (h : Placed s p.history) : Fills p s s ∅ :=
  ⟨h, rfl, fun _ _ => rfl, fun _ hi => absurd hi (Set.notMem_empty _)⟩

theorem Fills.trans (h : Fills p s t I) (h' : Fills p t u J) : Fills p s u (I ∪ J) where
  placed := h'.placed
  zero := h'.zero.trans h.zero
  others i hi := by
    rw [Set.mem_union, not_or] at hi
    rw [h'.others i hi.2, h.others i hi.1]
  filled i hi hall := by
    by_cases hJ : i ∈ J
    · exact h'.filled i hJ hall
    · rw [h'.others i hJ]
      exact h.filled i (hi.resolve_right hJ) hall

theorem Fills.congr (h : Fills p s t I) (hIJ : ∀ i, i ∈ I ↔ i ∈ J) : Fills p s t J := by
  rwa [← Set.ext hIJ]

/-- The loop over the full list writes every place up to the first one of the list. -/
theorem fills_reload (n : Nat) (hn : n ≤ p.history.length) (h : Placed s p.history) :
    Fills p s (reloadLoop m p (p.history.take n).reverse n s) {i | i < n} := by
  induction n generalizing s with
  | zero => exact (Fills.refl h).congr fun i => by simp
  | succ n ih =>
    have hget : p.history[n]? = some p.history[n] := List.getElem?_eq_getElem hn
    have hlist : (p.history.take (n + 1)).reverse = p.history[n] :: (p.history.take n).reverse := by
      rw [← List.take_append_getElem hn, List.reverse_append]
      rfl
    have hid : p.history[n] ≠ 0 := fun hzero => p.nonzero (hzero ▸ List.getElem_mem hn)
    rw [hlist, reloadLoop, if_pos hid, Nat.add_sub_cancel]
    have hwrite := fills_write (m := m) h hget
    refine (hwrite.trans (ih (Nat.le_of_succ_le hn) hwrite.placed)).congr fun i => ?_
    rw [Set.mem_union, Set.mem_singleton_iff, Set.mem_ofPred_eq, Set.mem_ofPred_eq]
    omega

/-- The loop over the new transfers writes the places behind `count`. -/
theorem fills_backfill (k count : Nat) (hk : count + k = p.history.length) (h : Placed s p.history) :
    Fills p s (backfill m p k count s).1 {i | count ≤ i ∧ i < p.history.length} ∧
      (backfill m p k count s).2 = p.history.length := by
  induction k generalizing s count with
  | zero =>
    refine ⟨(Fills.refl h).congr fun i => ?_, hk⟩
    rw [Set.mem_ofPred_eq]
    exact ⟨fun hi => absurd hi (Set.notMem_empty i), fun hi => by omega⟩
  | succ k ih =>
    have hlt : count < p.history.length := by omega
    have hget : p.history.reverse.getD k 0 = p.history[count] := by
      rw [List.getD_eq_getElem?_getD, List.getElem?_reverse (by omega), show p.history.length - 1 - k = count by omega,
        List.getElem?_eq_getElem hlt, Option.getD_some]
    rw [backfill, hget]
    have hwrite := fills_write (m := m) h (List.getElem?_eq_getElem hlt)
    obtain ⟨hfills, hcount⟩ := ih (count + 1) (by omega) hwrite.placed
    refine ⟨(hwrite.trans hfills).congr fun i => ?_, hcount⟩
    rw [Set.mem_union, Set.mem_singleton_iff, Set.mem_ofPred_eq, Set.mem_ofPred_eq]
    omega

/-- The loop finds the stored transfer of a place behind which fewer than 100 follow. -/
theorem findRecent_place {c x : Nat} (hc : p.history[c]? = some x) :
    findRecent p x = if p.history.length < c + 1 + 100 then some (p.history.length - 1 - c) else none := by
  have hlt : c < p.history.length := (List.getElem?_eq_some_iff.mp hc).1
  have hiff : ∀ i, (p.history.reverse[i]? = some x) ↔ i = p.history.length - 1 - c := by
    intro i
    constructor
    · intro hi
      have hi' : i < p.history.length := by
        have := (List.getElem?_eq_some_iff.mp hi).1
        rwa [List.length_reverse] at this
      rw [List.getElem?_reverse hi'] at hi
      have := nodup_place p.nodup hi hc
      omega
    · rintro rfl
      rw [List.getElem?_reverse (by omega), show p.history.length - 1 - (p.history.length - 1 - c) = c by omega, hc]
  rw [findRecent]
  split
  · rw [List.find?_range_eq_some]
    refine ⟨decide_eq_true ((hiff _).mpr rfl), List.mem_range.mpr (by omega), fun j hj => ?_⟩
    rw [Bool.not_eq_true', decide_eq_false_iff_not, hiff]
    omega
  · rw [List.find?_range_eq_none]
    intro i hi
    rw [Bool.not_eq_true', decide_eq_false_iff_not, hiff]
    omega

theorem findRecent_zero : findRecent p 0 = none := by
  rw [findRecent, List.find?_range_eq_none]
  intro i _
  rw [Bool.not_eq_true', decide_eq_false_iff_not]
  intro hi
  exact p.nonzero (List.mem_reverse.mp (List.mem_of_getElem? hi))

theorem setRevassettxid_rev (s : Store) (ind : Nat) (extra : ExtraInfo) :
    (nxtSetRevassettxid s ind extra).rev = Function.update s.rev ind (some extra) := rfl

/-- Marking withdraws as done keeps the transactions and the ids of the entries. -/
theorem redeemLoop_keeps (n i : Nat) (s : Store) :
    (redeemLoop p n i s).txids = s.txids ∧
      (∀ j, ((redeemLoop p n i s).rev j).map ExtraInfo.txidbits = (s.rev j).map ExtraInfo.txidbits) ∧
      (1 ≤ i → (redeemLoop p n i s).rev 0 = s.rev 0) := by
  induction n generalizing i s with
  | zero => exact ⟨rfl, fun _ => rfl, fun _ => rfl⟩
  | succ n ih =>
    rw [redeemLoop]
    split
    case isFalse =>
      obtain ⟨htxids, hrev, hzero⟩ := ih (i + 1) s
      exact ⟨htxids, hrev, fun hi => hzero (Nat.le_succ_of_le hi)⟩
    case isTrue hpending =>
      obtain ⟨htxids, hrev, hzero⟩ := ih (i + 1) (nxtSetRevassettxid s i _)
      refine ⟨htxids, fun j => (hrev j).trans ?_, fun hi => (hzero (Nat.le_succ_of_le hi)).trans ?_⟩
      · rw [setRevassettxid_rev]
        by_cases hj : j = i
        · rw [hj, Function.update_self]
          cases hentry : s.rev i with
          | none =>
            rw [nxtRevassettxid, hentry] at hpending
            exact absurd rfl hpending.1
          | some extra =>
            rw [nxtRevassettxid, hentry]
            rfl
        · rw [Function.update_of_ne hj]
      · rw [setRevassettxid_rev, Function.update_of_ne (by omega)]

theorem Placed.congr (h : Placed s H) (htxids : t.txids = s.txids)
    (hrev : ∀ j, (t.rev j).map ExtraInfo.txidbits = (s.rev j).map ExtraInfo.txidbits) : Placed t H where
  placed i extra hi := by
    have hmap := hrev (i + 1)
    rw [hi, Option.map_some] at hmap
    obtain ⟨extra', hi', hid⟩ := Option.map_eq_some_iff.mp hmap.symm
    rw [h.placed i extra' hi', hid]
  stored i txid hi hstored hnone := by
    have hmap := hrev (i + 1)
    rw [hnone, Option.map_none] at hmap
    exact h.stored i txid hi (htxids ▸ hstored) (Option.map_eq_none_iff.mp hmap.symm)
  known txid hstored := h.known txid (htxids ▸ hstored)

/-- The poll loads the full list. -/
def Reloads (p : Poll) (s : Store) : Prop :=
  counted s = 0 ∨ s.rev (counted s) = none ∨ counted s + 100 ≤ p.history.length

/-- The search for the newest entry fails exactly when the full list is loaded. -/
theorem findRecent_newest {r : Store} (h : Indexed s H) (hr : Placed r p.history) (hr0 : r.rev 0 = s.rev 0)
    (hrev : ∀ j, (r.rev j).map ExtraInfo.txidbits = (s.rev j).map ExtraInfo.txidbits) :
    (Reloads p s → findRecent p (nxtRevassettxid r.rev (counted s)).txidbits = none) ∧
      (¬ Reloads p s → findRecent p (nxtRevassettxid r.rev (counted s)).txidbits =
        some (p.history.length - counted s) ∧ counted s ≤ p.history.length) := by
  cases hc : counted s with
  | zero =>
    refine ⟨fun _ => ?_, fun hnot => absurd (Or.inl hc) hnot⟩
    rw [nxtRevassettxid, hr0]
    have hid := h.zero
    rw [nxtRevassettxid] at hid
    rw [hid, findRecent_zero]
  | succ c =>
    cases hentry : r.rev (c + 1) with
    | none =>
      have hmissing : s.rev (c + 1) = none := by
        have hmap := hrev (c + 1)
        rw [hentry, Option.map_none] at hmap
        exact Option.map_eq_none_iff.mp hmap.symm
      refine ⟨fun _ => ?_, fun hnot => absurd (Or.inr (Or.inl (by rwa [hc]))) hnot⟩
      rw [nxtRevassettxid, hentry]
      exact findRecent_zero
    | some extra =>
      have hplace := hr.placed c extra hentry
      have hlt : c < p.history.length := (List.getElem?_eq_some_iff.mp hplace).1
      have hstored : s.rev (c + 1) ≠ none := by
        intro hnone
        have hmap := hrev (c + 1)
        rw [hentry, hnone] at hmap
        exact absurd hmap (Option.some_ne_none _)
      rw [nxtRevassettxid, hentry, Option.getD_some, findRecent_place hplace]
      constructor
      · rintro (hzero | hnone | hmany)
        · omega
        · rw [hc] at hnone
          exact absurd hnone hstored
        · rw [hc] at hmany
          exact if_neg (by omega)
      · intro hnot
        have hfew : p.history.length < c + 1 + 100 := by
          by_contra hmany
          refine hnot (Or.inr (Or.inr ?_))
          rw [hc]
          omega
        rw [if_pos hfew, Nat.sub_sub, Nat.add_comm 1 c]
        exact ⟨rfl, hlt⟩

/-- `update_NXT_assettransfers` as one walk over the places it writes, and the count. -/
theorem update_fills (h : Indexed s H) (hpre : H <+: p.history) :
    ∃ r u : Store, (∀ j, (r.rev j).map ExtraInfo.txidbits = (s.rev j).map ExtraInfo.txidbits) ∧
      r.rev 0 = s.rev 0 ∧ Fills p r u {i | i < p.history.length ∧ (Reloads p s ∨ counted s ≤ i)} ∧
      updateNXTAssettransfers m p s =
        if u.rev 0 = none ∨ (nxtRevassettxid u.rev 0).ind ≠ p.history.length then
          nxtSetRevassettxid u 0 { ExtraInfo.zero with ind := p.history.length }
        else u := by
  have hplaced := h.toPlaced.grow hpre p.nodup
  have hreload : ∀ {r : Store}, Placed r p.history → Reloads p s →
      Fills p r (nxtAssettransfers m p r).1 {i | i < p.history.length ∧ (Reloads p s ∨ counted s ≤ i)} := by
    intro r hr hloads
    have hall := fills_reload (m := m) p.history.length le_rfl hr
    rw [List.take_length] at hall
    exact hall.congr fun i => ⟨fun hi => ⟨hi, Or.inl hloads⟩, And.left⟩
  rw [updateNXTAssettransfers]
  cases hzero : s.rev 0 with
  | none =>
    refine ⟨s, _, fun _ => rfl, hzero, hreload hplaced (Or.inl ?_), rfl⟩
    rw [counted, nxtRevassettxid, hzero]
    rfl
  | some extra =>
    have hcounted : counted s = extra.ind.toNat := by rw [counted, nxtRevassettxid, hzero, Option.getD_some]
    dsimp only
    rw [addNew, ← hcounted]
    obtain ⟨htxids, hrev, hrev0⟩ := redeemLoop_keeps (p := p) (counted s) 1 s
    generalize redeemLoop p (counted s) 1 s = r at htxids hrev hrev0 ⊢
    have hr := hplaced.congr htxids hrev
    have hcount := h.count
    have hr0 := (hrev0 le_rfl).trans hzero
    obtain ⟨hnotfound, hfound⟩ := findRecent_newest h hr ((hrev0 le_rfl)) hrev
    by_cases hloads : Reloads p s
    · rw [hnotfound hloads]
      exact ⟨r, _, hrev, hr0, hreload hr hloads, rfl⟩
    · obtain ⟨hfind, hle⟩ := hfound hloads
      rw [hfind]
      obtain ⟨hfills, hcount⟩ := fills_backfill (m := m) (p.history.length - counted s) (counted s)
        (Nat.add_sub_cancel' hle) hr
      have hpos : p.history.length ≠ 0 := fun hzero => hloads (Or.inl (Nat.le_zero.mp (hzero ▸ hle)))
      refine ⟨r, _, hrev, hr0, hfills.congr fun i => ?_, ?_⟩
      · rw [Set.mem_ofPred_eq, Set.mem_ofPred_eq]
        exact ⟨fun hi => ⟨hi.2, Or.inr hi.1⟩, fun hi => ⟨hi.2.resolve_left hloads, hi.1⟩⟩
      · dsimp only
        rw [hcount, if_neg hpos]

/-- A poll keeps the entries in their places and counts all transfers, and adds the entries it can. -/
theorem update_spec (h : Indexed s H) (hpre : H <+: p.history) :
    Indexed (updateNXTAssettransfers m p s) p.history ∧
      (updateNXTAssettransfers m p s).rev 0 ≠ none ∧
      (∀ i, ¬ Reloads p s → i < counted s →
        ((updateNXTAssettransfers m p s).rev (i + 1)).map ExtraInfo.txidbits = (s.rev (i + 1)).map ExtraInfo.txidbits) ∧
      (∀ i < p.history.length, Reloads p s ∨ counted s ≤ i →
        (∀ txid ∈ p.history, p.getTransaction txid ≠ none) → (updateNXTAssettransfers m p s).rev (i + 1) ≠ none) := by
  obtain ⟨r, u, hrev, hr0, hfills, hupdate⟩ := update_fills (m := m) h hpre
  have hentries : ∀ i, (updateNXTAssettransfers m p s).rev (i + 1) = u.rev (i + 1) := by
    intro i
    rw [hupdate]
    split
    · rw [setRevassettxid_rev, Function.update_of_ne (Nat.succ_ne_zero i)]
    · rfl
  have htxids : (updateNXTAssettransfers m p s).txids = u.txids := by
    rw [hupdate]
    split <;> rfl
  refine ⟨⟨?_, ?_, ?_⟩, ?_, fun i hnot hi => ?_, fun i hi hwritten hall => ?_⟩
  · refine ⟨fun i extra hi => ?_, fun i txid hi hstored => ?_, fun txid hstored => ?_⟩
    · exact hfills.placed.placed i extra (hentries i ▸ hi)
    · rw [hentries]
      exact hfills.placed.stored i txid hi (htxids ▸ hstored)
    · exact hfills.placed.known txid (htxids ▸ hstored)
  · rw [hupdate]
    split
    · rw [nxtRevassettxid, setRevassettxid_rev, Function.update_self]
      rfl
    · next hkeep => exact not_not.mp fun hne => hkeep (Or.inr hne)
  · rw [hupdate]
    split
    · rw [nxtRevassettxid, setRevassettxid_rev, Function.update_self]
      rfl
    · rw [nxtRevassettxid, hfills.zero, hr0]
      exact h.zero
  · rw [hupdate]
    split
    · rw [setRevassettxid_rev, Function.update_self]
      exact Option.some_ne_none _
    · next hkeep => exact fun hnone => hkeep (Or.inl hnone)
  · rw [hentries, hfills.others i fun hI => hI.2.elim hnot (Nat.not_le_of_lt hi), hrev]
  · rw [hentries]
    exact hfills.filled i ⟨hi, hwritten⟩ hall

theorem start_indexed : Indexed ⟨fun _ => none, fun _ => none, fun _ => none⟩ [] where
  placed _ _ hnone := absurd hnone.symm (Option.some_ne_none _)
  stored _ _ _ hstored := absurd rfl hstored
  known _ hstored := absurd rfl hstored
  count := rfl
  zero := rfl

theorem Growing.last {polls : List Poll} (h : Growing (polls ++ [p])) :
    Growing polls ∧ ((polls.getLast?.map Poll.history).getD []) <+: p.history := by
  obtain ⟨hpolls, -, hlast⟩ := List.isChain_append.mp h
  refine ⟨hpolls, ?_⟩
  cases hq : polls.getLast? with
  | none => exact List.nil_prefix
  | some q => exact hlast q (Option.mem_def.mpr hq) p rfl

/-- After a run the table is indexed by the transfers of its last poll. -/
theorem run_indexed (polls : List Poll) (hgrow : Growing polls) :
    Indexed (run m polls) ((polls.getLast?.map Poll.history).getD []) := by
  induction polls using List.reverseRecOn with
  | nil => exact start_indexed
  | append_singleton polls p ih =>
    rw [run, List.foldl_append, List.getLast?_concat]
    exact (update_spec (ih hgrow.last.1) hgrow.last.2).1

/-- A poll in which all calls succeed leaves the table complete exactly when the table before it has no gap,
or the poll loads the full list. -/
theorem assettransfers_complete_iff (m : Reader) (polls : List Poll) (p : Poll) (hgrow : Growing (polls ++ [p]))
    (hall : ∀ txid ∈ p.history, p.getTransaction txid ≠ none) :
    Complete (run m (polls ++ [p])) p.history ↔ Recovers p (run m polls) := by
  obtain ⟨hpolls, hpre⟩ := hgrow.last
  have hbefore := run_indexed (m := m) polls hpolls
  have hlen : counted (run m polls) ≤ p.history.length := by
    rw [counted, hbefore.count]
    exact hpre.length_le
  rw [run, List.foldl_append]
  change Complete (updateNXTAssettransfers m p (run m polls)) p.history ↔ _
  obtain ⟨hindexed, hzero, hkept, hwritten⟩ := update_spec (m := m) hbefore hpre
  constructor
  · intro hcomplete
    by_cases hloads : Reloads p (run m polls)
    · rcases hloads with hnothing | hmissing | hmany
      · exact Or.inl fun i hi => absurd hi (hnothing ▸ Nat.not_lt_zero i)
      · exact Or.inr (Or.inl hmissing)
      · exact Or.inr (Or.inr hmany)
    · refine Or.inl fun i hi hnone => ?_
      have hentry := hcomplete.entries i
      rw [hkept i hloads hi, hnone, List.getElem?_eq_getElem (hi.trans_le hlen)] at hentry
      exact absurd hentry.symm (Option.some_ne_none _)
  · intro hrecovers
    have hpresent : ∀ i < p.history.length, (updateNXTAssettransfers m p (run m polls)).rev (i + 1) ≠ none := by
      intro i hi
      by_cases hloads : Reloads p (run m polls)
      · exact hwritten i hi (Or.inl hloads) hall
      · rcases Nat.lt_or_ge i (counted (run m polls)) with hold | hnew
        · intro hnone
          have hmap := hkept i hloads hold
          rw [hnone, Option.map_none] at hmap
          exact hrecovers.resolve_right (fun hrest => hloads (Or.inr hrest)) i hold (Option.map_eq_none_iff.mp hmap.symm)
        · exact hwritten i hi (Or.inr hnew) hall
    refine ⟨?_, fun i => ?_⟩
    · obtain ⟨extra, hextra⟩ := Option.ne_none_iff_exists'.mp hzero
      have hcount := hindexed.count
      rw [nxtRevassettxid, hextra] at hcount
      exact ⟨extra, hextra, hcount⟩
    · cases hentry : (updateNXTAssettransfers m p (run m polls)).rev (i + 1) with
      | none =>
        have hge : p.history.length ≤ i := not_lt.mp fun hi => hpresent i hi hentry
        rw [List.getElem?_eq_none hge]
        rfl
      | some extra => exact (hindexed.placed i extra hentry).symm

/-- A reader that stores the texts as they come and finds no deposits in them. -/
def plainReader : Reader := ⟨77, id, fun _ => none⟩

/-- Two transfers, with the calls for those in `failed` failing. -/
def twoTransfers (failed : List Nat) : Poll where
  history := [5, 7]
  getTransaction txid := if txid ∈ failed then none else some ['t']
  redeemed _ := false
  nodup := by decide
  nonzero := by decide

/-- The older of two transfers fails once and is never asked for again. -/
theorem failed_transfer_skipped :
    ¬ Complete (run plainReader [twoTransfers [5], twoTransfers [], twoTransfers []]) [5, 7] := by
  intro h
  have hmissing : (run plainReader [twoTransfers [5], twoTransfers [], twoTransfers []]).rev 1 = none := by rfl
  have hentry := h.entries 0
  rw [hmissing] at hentry
  exact absurd hentry.symm (Option.some_ne_none _)

/-- When the newer one fails the next poll loads the full list. -/
theorem failed_newest_recovered : Complete (run plainReader ([twoTransfers [7]] ++ [twoTransfers []])) [5, 7] := by
  refine (assettransfers_complete_iff plainReader [twoTransfers [7]] (twoTransfers []) ?_ ?_).mpr (Or.inr (Or.inl rfl))
  · exact List.isChain_pair.mpr (List.prefix_refl _)
  · intro txid _
    exact Option.some_ne_none _

end SuperNet.Mgw.AssetTransfers
