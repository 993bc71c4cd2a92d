import SuperNet.Coins.Coin777Addrtx
import SuperNet.Coins.Coin777Book

/-! The scripts of a ramchain: the script in the record of an address, the index of the others, and what is read
back of an output. -/
namespace SuperNet.Coins.Coin777
open Lib.Words Lib.Bytes Utils.Hex

variable {s : List Char} {coin coin' : Coin} {outputs : List Output} {o : Output} {a m n : Nat}

/-- The script in the record of an address: that of its first output, when it fits. -/
def keptScript (outputs : List Output) (coinaddr : List Char) : List UInt8 :=
  match outputs.find? fun o => o.coinaddr = coinaddr with
  | some o => if scriptFits coinaddr (decodeScript o.scriptstr) then decodeScript o.scriptstr else []
  | none => []

def InRecord (outputs : List Output) (o : Output) : Prop :=
  decodeScript o.scriptstr ≠ [] ∧ keptScript outputs o.coinaddr = decodeScript o.scriptstr

/-- An output that parse_block can pass: its strings fit their buffers, and its script is a hex string. -/
def Output.Valid (o : Output) : Prop := o.coinaddr.length + 1 ≤ coinaddrSize ∧
  ∃ script : List UInt8, script.length ≤ 4096 ∧ o.scriptstr = initHexbytesNoT script

def paidTo (outputs : List Output) (coinaddr : List Char) : Nat :=
  outputs.countP fun o => o.coinaddr = coinaddr ∧ o.value ≠ 0

/-- Whether the list of an address stays in its record as long as it is there: it starts in the table, its link lies in
the record, or the outputs do not fill it. -/
def RoomFor (outputs : List Output) (coinaddr : List Char) : Prop :=
  let room := embeddedRoom (coinaddr.length + 1 + (keptScript outputs coinaddr).length)
  room.2 = 0 ∨ room.1 + addrtxSize * (room.2 + 1) ≤ addrinfoSize ∨ paidTo outputs coinaddr ≤ room.2

instance (outputs : List Output) (coinaddr : List Char) : Decidable (RoomFor outputs coinaddr) :=
  inferInstanceAs (Decidable (_ ∨ _ ∨ _))

def Output.call (o : Output) : Call := .vout o.coinaddr o.scriptstr o.value

theorem keptScript_append (hknown : ∃ o' ∈ outputs, o'.coinaddr = s) (more : List Output) :
    keptScript (outputs ++ more) s = keptScript outputs s := by
  obtain ⟨o', ho', haddr⟩ := hknown
  rw [keptScript, keptScript, List.find?_append]
  cases hfind : outputs.find? fun o => o.coinaddr = s with
  | some first => rfl
  | none => exact absurd (decide_eq_true haddr) (List.find?_eq_none.mp hfind o' ho')

theorem keptScript_first (hnew : ∀ o' ∈ outputs, o'.coinaddr ≠ o.coinaddr) :
    keptScript (outputs ++ [o]) o.coinaddr =
      if scriptFits o.coinaddr (decodeScript o.scriptstr) then decodeScript o.scriptstr else [] := by
  have hnone : outputs.find? (fun o' => o'.coinaddr = o.coinaddr) = none :=
    List.find?_eq_none.mpr fun o' ho' h => hnew o' ho' (of_decide_eq_true h)
  rw [keptScript, List.find?_append, hnone, Option.none_or, List.find?_singleton, if_pos (decide_eq_true rfl)]

theorem inRecord_append (ho : o ∈ outputs) (more : List Output) :
    InRecord (outputs ++ more) o ↔ InRecord outputs o := by
  rw [InRecord, InRecord, keptScript_append ⟨o, ho, rfl⟩]

theorem roomFor_of_append (hknown : ∃ o' ∈ outputs, o'.coinaddr = s) {more : List Output} (h : RoomFor (outputs ++ more) s) :
    RoomFor outputs s := by
  rw [RoomFor, keptScript_append hknown, paidTo, List.countP_append] at h
  rcases h with hnone | hlink | hpaid
  · exact .inl hnone
  · exact .inr (.inl hlink)
  · exact .inr (.inr (Nat.le_trans (Nat.le_add_right _ _) hpaid))

/-! ### The index of the scripts -/

/-- A script that is not as long as an index has one, below the next, that leads back to it. -/
structure Indexed (coin : Coin) (n : Nat) : Prop where
  pos : 1 ≤ coin.scriptind
  le : coin.scriptind ≤ n
  scripts : ∀ s v, s.length ≠ 4 → coin.scriptDB s = some v →
    ∃ i, 1 ≤ i ∧ i < coin.scriptind ∧ v = leBytes 4 i ∧ coin.scriptDB (leBytes 4 i) = some s

theorem leBytes_injective {i j : Nat} (hi : i < 2^32) (hj : j < 2^32) (h : leBytes 4 i = leBytes 4 j) : i = j := by
  rw [← leValue_leBytes_of_lt (w := 4) (x := i) hi, h, leValue_leBytes_of_lt hj]

theorem Indexed.mono {n' : Nat} (h : Indexed coin n) (hn : n ≤ n') : Indexed coin n' :=
  ⟨h.pos, Nat.le_trans h.le hn, h.scripts⟩

theorem Indexed.congr (h : Indexed coin n) (hDB : coin'.scriptDB = coin.scriptDB)
    (hind : coin'.scriptind = coin.scriptind) : Indexed coin' n := by
  refine ⟨?_, ?_, ?_⟩
  · rw [hind]
    exact h.pos
  · rw [hind]
    exact h.le
  · rw [hind, hDB]
    exact h.scripts

theorem indexed_addscript {script : List UInt8} (h : Indexed coin n) (hn : n < 2^32) (hlen : script.length ≠ 4) :
    Indexed (coin.addscript script).1 (n + 1) := by
  have hkey : ∀ {s : List UInt8} {i : Nat}, s.length ≠ 4 → s ≠ leBytes 4 i := by
    rintro s i hs rfl
    exact hs (leBytes_length 4 i)
  have hle := h.le
  refine ⟨Nat.le_succ_of_le h.pos, Nat.succ_le_succ h.le, fun s v hs hsv => ?_⟩
  rw [Coin.addscript] at hsv ⊢
  dsimp only at hsv ⊢
  rw [Function.update_of_ne (hkey hs)] at hsv
  by_cases heq : s = script
  · rw [heq, Function.update_self] at hsv
    cases hsv
    refine ⟨coin.scriptind, h.pos, Nat.lt_succ_self _, rfl, ?_⟩
    rw [Function.update_self, heq]
  · rw [Function.update_of_ne heq] at hsv
    obtain ⟨i, hi, hlt, hv, hback⟩ := h.scripts s v hs hsv
    have hne : leBytes 4 i ≠ leBytes 4 coin.scriptind :=
      fun hii => absurd (leBytes_injective (by omega) (by omega) hii) (Nat.ne_of_lt hlt)
    refine ⟨i, hi, Nat.lt_succ_of_lt hlt, hv, ?_⟩
    rw [Function.update_of_ne hne, Function.update_of_ne (Ne.symm (hkey hlen))]
    exact hback

/-- What the index of a script is: none, or one that leads back to it. -/
theorem Indexed.scriptDBind {s : List UInt8} (h : Indexed coin n) (hn : n ≤ 2^32) (hs : s.length ≠ 4) :
    coin.scriptDB s = none ∧ coin.scriptDBind s = 0 ∨
      1 ≤ coin.scriptDBind s ∧ coin.scriptDBind s < coin.scriptind ∧
        coin.scriptDB (leBytes 4 (coin.scriptDBind s)) = some s := by
  cases hv : coin.scriptDB s with
  | none =>
    left
    rw [Coin.scriptDBind, hv]
    exact ⟨rfl, rfl⟩
  | some v =>
    right
    have hle := h.le
    obtain ⟨i, hi, hlt, hvi, hback⟩ := h.scripts s v hs hv
    have hind : coin.scriptDBind s = i := by
      rw [Coin.scriptDBind, hv, Option.map_some, Option.getD_some, hvi,
        List.take_of_length_le (Nat.le_of_eq (leBytes_length 4 i))]
      exact leValue_leBytes_of_lt (Nat.lt_of_lt_of_le hlt (Nat.le_trans hle hn))
    rw [hind]
    exact ⟨hi, hlt, hback⟩

theorem Indexed.injective {s s' : List UInt8} (h : Indexed coin n) (hn : n ≤ 2^32) (hs : s.length ≠ 4)
    (hs' : s'.length ≠ 4) (hne : coin.scriptDBind s ≠ 0) (heq : coin.scriptDBind s = coin.scriptDBind s') : s = s' := by
  rcases h.scriptDBind hn hs with ⟨-, hzero⟩ | ⟨-, -, hback⟩
  · exact absurd hzero hne
  rcases h.scriptDBind hn hs' with ⟨-, hzero⟩ | ⟨-, -, hback'⟩
  · exact absurd (heq.trans hzero) hne
  rw [heq, hback'] at hback
  exact (Option.some.inj hback).symm

/-- The search for the index of a script does not stop, and leaves it with one. -/
theorem indexScript_spec {script : List UInt8} (hn : n < 2^32) (hlen : script.length ≠ 4)
    (h : Indexed coin n ∨ Indexed coin (n + 1) ∧ coin.scriptDB script ≠ none) :
    ∃ coin' i scriptDB scriptind, coin.indexScript script = some (coin', i) ∧
      coin' = { coin with scriptDB := scriptDB, scriptind := scriptind } ∧ Indexed coin' (n + 1) ∧
      coin'.scriptDBind script ≠ 0 := by
  have hindexed : Indexed coin (n + 1) := h.elim (fun h => h.mono (Nat.le_succ n)) fun h => h.1
  have hshort : ¬ ((coin.scriptDB script).any fun value => 4 < value.length) = true := by
    rw [Option.any_eq_true]
    rintro ⟨v, hv, hlong⟩
    obtain ⟨i, -, -, rfl, -⟩ := hindexed.scripts script v hlen hv
    rw [leBytes_length] at hlong
    exact absurd hlong (by decide)
  rw [Coin.indexScript, if_neg hshort]
  rcases hindexed.scriptDBind hn hlen with ⟨hnone, hzero⟩ | ⟨hpos, hlt, -⟩
  · have hroom : Indexed coin n := h.elim id fun h => absurd hnone h.2
    have hadd := indexed_addscript hroom hn hlen
    refine ⟨(coin.addscript script).1, coin.scriptind, _, _, if_pos hzero, rfl, hadd, ?_⟩
    rcases hadd.scriptDBind hn hlen with ⟨hnone', -⟩ | ⟨hpos', -, -⟩
    · have hne : script ≠ leBytes 4 coin.scriptind := by
        rintro rfl
        exact hlen (leBytes_length 4 _)
      rw [Coin.addscript] at hnone'
      dsimp only at hnone'
      rw [Function.update_of_ne hne, Function.update_self] at hnone'
      cases hnone'
    · exact Nat.ne_of_gt hpos'
  · refine ⟨coin, coin.scriptDBind script, coin.scriptDB, coin.scriptind, ?_, rfl, hindexed, Nat.ne_of_gt hpos⟩
    rw [if_neg (Nat.ne_of_gt hpos), if_neg (Nat.ne_of_lt hlt), if_neg (Nat.not_lt_of_gt hlt)]

/-! ### The records of the addresses -/

/-- Every address of an output has a record with the script of its first output. -/
structure Recorded (coin : Coin) (outputs : List Output) : Prop where
  addrind : 1 ≤ coin.addrind
  addrs : ∀ s a, coin.addrDB s = some a → 1 ≤ a ∧ a < coin.addrind ∧
    (coin.addrinfos a).script = keptScript outputs s ∧ ∃ o ∈ outputs, o.coinaddr = s

theorem Recorded.congr (h : Recorded coin outputs) (haddrs : coin'.addrDB = coin.addrDB)
    (hind : coin'.addrind = coin.addrind) (hrecords : SameRecords coin coin') : Recorded coin' outputs := by
  refine ⟨?_, fun s a hs => ?_⟩
  · rw [hind]
    exact h.addrind
  · rw [haddrs] at hs
    rw [hind, (hrecords a).2]
    exact h.addrs s a hs

theorem addAddrinfo_record (coin : Coin) (a : Nat) (coinaddr : List Char) (script : List UInt8) (m : Nat) :
    SameTables coin (coin.addAddrinfo a coinaddr script m).1 ∧
      (∀ b ≠ a, (coin.addAddrinfo a coinaddr script m).1.addrinfos b = coin.addrinfos b) ∧
      ((coin.addAddrinfo a coinaddr script m).1.addrinfos a).script =
        (if scriptFits coinaddr script then script else []) ∧
      ((coin.addAddrinfo a coinaddr script m).2 = true ↔ (if scriptFits coinaddr script then script else []) ≠ []) := by
  rw [Coin.addAddrinfo]
  generalize (if scriptFits coinaddr script then script else []) = kept
  dsimp only
  generalize embeddedRoom (coinaddr.length + 1 + kept.length) = room
  obtain ⟨offset, max⟩ := room
  dsimp only
  split
  case isTrue =>
    refine ⟨⟨rfl, rfl, rfl, rfl, rfl, rfl, rfl, rfl, rfl, rfl, rfl, rfl, rfl, rfl, rfl, rfl, rfl⟩, ?_, ?_, decide_eq_true_iff⟩
    · exact fun b hb => Function.update_of_ne hb _ _
    · dsimp only
      rw [Function.update_self]
  case isFalse =>
    refine ⟨⟨rfl, rfl, rfl, rfl, rfl, rfl, rfl, rfl, rfl, rfl, rfl, rfl, rfl, rfl, rfl, rfl, rfl⟩, ?_, ?_, decide_eq_true_iff⟩
    · exact fun b hb => Function.update_of_ne hb _ _
    · dsimp only
      rw [Function.update_self]

/-- What the first part of `coin777_addvout` leaves for the second. -/
structure Addressed (coin coin' : Coin) (outputs : List Output) (o : Output) (a : Nat) (flag : Bool) : Prop where
  unspents : coin'.unspents = coin.unspents
  unspentind : coin'.unspentind = coin.unspentind
  recorded : Recorded coin' (outputs ++ [o])
  known : coin'.addrDB o.coinaddr = some a
  addrs : ∀ s b, coin.addrDB s = some b → coin'.addrDB s = some b
  flag : flag = true → InRecord (outputs ++ [o]) o

private theorem Addressed.scripts {flag : Bool} (h : Addressed coin coin' outputs o a flag)
    (scriptDB : List UInt8 → Option (List UInt8)) (scriptind : Nat) :
    Addressed coin { coin' with scriptDB := scriptDB, scriptind := scriptind } outputs o a flag :=
  ⟨h.unspents, h.unspentind, ⟨h.recorded.addrind, h.recorded.addrs⟩, h.known, h.addrs, h.flag⟩

private theorem newAddr_addressed (h : Recorded coin outputs) (hnew : coin.addrDB o.coinaddr = none)
    (hoff : ∀ o' ∈ outputs, o'.coinaddr ≠ o.coinaddr) (m : Nat) :
    ∃ coin' flag, (coin.newAddr o.coinaddr).addAddrinfo coin.addrind o.coinaddr (decodeScript o.scriptstr) m =
        (coin', flag) ∧ Addressed coin coin' outputs o coin.addrind flag ∧ coin'.scriptDB = coin.scriptDB ∧
      coin'.scriptind = coin.scriptind ∧ (flag = false → ¬ InRecord (outputs ++ [o]) o) := by
  obtain ⟨hsame, hothers, hscript, hflag⟩ :=
    addAddrinfo_record (coin.newAddr o.coinaddr) coin.addrind o.coinaddr (decodeScript o.scriptstr) m
  generalize (coin.newAddr o.coinaddr).addAddrinfo coin.addrind o.coinaddr (decodeScript o.scriptstr) m = opened at *
  obtain ⟨coin', flag⟩ := opened
  dsimp only at hsame hothers hscript hflag
  have hkept := keptScript_first hoff
  have hind : coin'.addrind = coin.addrind + 1 := hsame.addrind
  have hDB : coin'.addrDB = Function.update coin.addrDB o.coinaddr (some coin.addrind) := hsame.addrDB
  refine ⟨coin', flag, rfl, ⟨hsame.unspents, hsame.unspentind, ⟨?_, ?_⟩, ?_, ?_, ?_⟩, hsame.scriptDB, hsame.scriptind,
    ?_⟩
  · rw [hind]
    exact Nat.le_add_left 1 _
  · intro s a hs
    rw [hDB] at hs
    rw [hind]
    by_cases heq : s = o.coinaddr
    · rw [heq, Function.update_self] at hs
      cases hs
      rw [heq, hscript, hkept]
      exact ⟨h.addrind, Nat.lt_succ_self _, rfl, o, List.mem_append_right _ (List.mem_singleton_self o), rfl⟩
    · rw [Function.update_of_ne heq] at hs
      obtain ⟨hpos, hlt, hold, o', ho', haddr⟩ := h.addrs s a hs
      rw [hothers a (Nat.ne_of_lt hlt), keptScript_append ⟨o', ho', haddr⟩]
      exact ⟨hpos, Nat.lt_succ_of_lt hlt, hold, o', List.mem_append_left _ ho', haddr⟩
  · rw [hDB, Function.update_self]
  · intro s b hs
    have hne : s ≠ o.coinaddr := by
      rintro rfl
      rw [hnew] at hs
      cases hs
    rw [hDB, Function.update_of_ne hne]
    exact hs
  · intro hf
    have hne := hflag.mp hf
    rw [InRecord, hkept]
    split at hne
    case isTrue hfits => exact ⟨hne, if_pos hfits⟩
    case isFalse => exact absurd rfl hne
  · rintro hf ⟨hne, heq⟩
    rw [hkept] at heq
    rw [heq, hf] at hflag
    exact absurd (hflag.mpr hne) Bool.false_ne_true

theorem voutAddr_addressed (h : Recorded coin outputs) (hind : Indexed coin n) (hn : n < 2^32)
    (hknown : ∀ o' ∈ outputs, coin.addrDB o'.coinaddr ≠ none)
    (hlen : ¬ InRecord (outputs ++ [o]) o → (decodeScript o.scriptstr).length ≠ 4) (m : Nat) :
    ∃ coin' a flag, coin.voutAddr m o.coinaddr o.scriptstr o.value = some (coin', a, flag) ∧
      Addressed coin coin' outputs o a flag ∧
      (Indexed coin' n ∨ Indexed coin' (n + 1) ∧ coin'.scriptDB (decodeScript o.scriptstr) ≠ none) := by
  have hcredit : Recorded (coin.credit o.scriptstr o.value) outputs := h.congr rfl rfl fun _ => ⟨rfl, rfl⟩
  have hindexed : Indexed (coin.credit o.scriptstr o.value) n := hind.congr rfl rfl
  have hDB : (coin.credit o.scriptstr o.value).addrDB = coin.addrDB := rfl
  have hunspents : (coin.credit o.scriptstr o.value).unspents = coin.unspents := rfl
  have hu : (coin.credit o.scriptstr o.value).unspentind = coin.unspentind := rfl
  rw [Coin.voutAddr]
  generalize coin.credit o.scriptstr o.value = fed at *
  have hback : ∀ {coin' a flag}, Addressed fed coin' outputs o a flag → Addressed coin coin' outputs o a flag :=
    fun h => ⟨h.unspents.trans hunspents, h.unspentind.trans hu, h.recorded, h.known,
      fun s b hs => h.addrs s b (by rw [hDB]; exact hs), h.flag⟩
  cases hdb : fed.addrDB o.coinaddr with
  | some a =>
    obtain ⟨hpos, hlt, hscript, o', ho', haddr⟩ := hcredit.addrs o.coinaddr a hdb
    refine ⟨fed, a, false, ?_, hback ⟨rfl, rfl, ⟨hcredit.addrind, fun s b hs => ?_⟩, hdb, fun _ _ => id, ?_⟩,
      Or.inl hindexed⟩
    · have hadd : fed.addAddr o.coinaddr = some (fed, a, false) := by
        rw [Coin.addAddr, hdb, Option.getD_some]
        dsimp only
        rw [if_neg (Nat.ne_of_gt hpos), if_neg (Nat.ne_of_lt hlt), if_neg (Nat.not_lt_of_gt hlt)]
      rw [hadd]
      rfl
    · obtain ⟨hpos', hlt', hscript', o'', ho'', haddr'⟩ := hcredit.addrs s b hs
      rw [keptScript_append ⟨o'', ho'', haddr'⟩]
      exact ⟨hpos', hlt', hscript', o'', List.mem_append_left _ ho'', haddr'⟩
    · exact fun hf => absurd hf Bool.false_ne_true
  | none =>
    have hoff : ∀ o' ∈ outputs, o'.coinaddr ≠ o.coinaddr := by
      intro o' ho' heq
      rw [hDB] at hdb
      exact hknown o' ho' (heq ▸ hdb)
    obtain ⟨coin', flag, hopen, haddressed, hscriptDB, hscriptind, hout⟩ := newAddr_addressed hcredit hdb hoff m
    have hadd : fed.addAddr o.coinaddr = some (fed.newAddr o.coinaddr, fed.addrind, true) := by
      rw [Coin.addAddr, hdb]
      rfl
    have hindexed' : Indexed coin' n := hindexed.congr hscriptDB hscriptind
    rw [hadd]
    dsimp only [Option.bind_eq_bind, Option.bind_some, Coin.addRecord]
    rw [if_pos rfl, hopen]
    cases flag with
    | true => exact ⟨coin', fed.addrind, true, rfl, hback haddressed, Or.inl hindexed'⟩
    | false =>
      have hlen4 := hlen (hout rfl)
      refine ⟨(coin'.addscript (decodeScript o.scriptstr)).1, fed.addrind, false, rfl,
        hback (haddressed.scripts _ _), Or.inr ⟨indexed_addscript hindexed' hn hlen4, ?_⟩⟩
      have hne : decodeScript o.scriptstr ≠ leBytes 4 coin'.scriptind := by
        intro heq
        rw [heq] at hlen4
        exact hlen4 (leBytes_length 4 _)
      rw [Coin.addscript]
      dsimp only
      rw [Function.update_of_ne hne, Function.update_self]
      exact Option.some_ne_none _

/-! ### The run -/

structure Scripted (coin : Coin) (outputs : List Output) : Prop where
  unspentind : coin.unspentind = outputs.length + 1
  recorded : Recorded coin outputs
  indexed : Indexed coin (outputs.length + 1)
  unspents : ∀ i o, outputs[i]? = some o → coin.addrDB o.coinaddr = some (coin.unspents (i + 1)).addrind ∧
    (InRecord outputs o → (coin.unspents (i + 1)).rawindOrBlocknum = 0)

theorem scripted_genesis : Scripted Coin.genesis [] where
  unspentind := rfl
  recorded := ⟨Nat.le_refl 1, fun _ _ h => by cases h⟩
  indexed := ⟨Nat.le_refl 1, Nat.le_refl 1, fun _ _ _ h => by cases h⟩
  unspents _ _ h := by cases h

theorem Scripted.known (h : Scripted coin outputs) (ho : o ∈ outputs) : coin.addrDB o.coinaddr ≠ none := by
  obtain ⟨i, hi⟩ := List.getElem?_of_mem ho
  rw [(h.unspents i o hi).1]
  exact Option.some_ne_none _

private theorem script0_iff (h : Recorded coin (outputs ++ [o])) (hdb : coin.addrDB o.coinaddr = some a) :
    coin.script0 a (decodeScript o.scriptstr) = true ↔ InRecord (outputs ++ [o]) o := by
  obtain ⟨-, -, hscript, -⟩ := h.addrs o.coinaddr a hdb
  rw [Coin.script0, hscript, decide_eq_true_iff, InRecord]
  constructor
  · rintro ⟨hne, heq⟩
    exact ⟨heq ▸ hne, heq⟩
  · rintro ⟨hne, heq⟩
    exact ⟨heq ▸ hne, heq⟩

/-- The second part of `coin777_addvout` does not stop, and gives an output with the script of its record no
index. -/
private theorem voutScript_scripted {coin₀ : Coin} {flag : Bool} (h : Addressed coin coin₀ outputs o a flag)
    (hn : n < 2^32) (hind : Indexed coin₀ n ∨ Indexed coin₀ (n + 1) ∧ coin₀.scriptDB (decodeScript o.scriptstr) ≠ none)
    (hlen : ¬ InRecord (outputs ++ [o]) o → (decodeScript o.scriptstr).length ≠ 4) (m : Nat) :
    ∃ coin₁ scriptDB scriptind U, coin₁ = { coin₀ with scriptDB := scriptDB, scriptind := scriptind } ∧
      coin₀.voutScript m a flag (decodeScript o.scriptstr) o.value =
        some (coin₁.setUnspent coin₁.unspentind U) ∧
      U.addrind = a ∧ (InRecord (outputs ++ [o]) o → U.rawindOrBlocknum = 0) ∧ Indexed coin₁ (n + 1) := by
  have hscript0 := script0_iff h.recorded h.known
  have hflag : (flag || coin₀.script0 a (decodeScript o.scriptstr)) = true ↔ InRecord (outputs ++ [o]) o := by
    rw [Bool.or_eq_true, hscript0]
    exact ⟨fun hor => hor.elim h.flag id, Or.inr⟩
  rw [Coin.voutScript]
  dsimp only
  generalize (flag || coin₀.script0 a (decodeScript o.scriptstr)) = kept at hflag ⊢
  cases kept with
  | true =>
    refine ⟨coin₀, coin₀.scriptDB, coin₀.scriptind, ⟨o.value, a, 0, false⟩, rfl, rfl, rfl, fun _ => rfl, ?_⟩
    exact hind.elim (fun h => h.mono (Nat.le_succ n)) fun h => h.1
  | false =>
    have hout : ¬ InRecord (outputs ++ [o]) o := fun hin => absurd (hflag.mpr hin) Bool.false_ne_true
    obtain ⟨coin', i, scriptDB, scriptind, hindex, heq, hindexed, -⟩ := indexScript_spec hn (hlen hout) hind
    refine ⟨coin', scriptDB, scriptind, ⟨o.value, a, m % 2^31, true⟩, heq, ?_, rfl, fun hin => absurd hin hout,
      hindexed⟩
    rw [if_neg Bool.false_ne_true, hindex]
    rfl

private theorem updateAddrinfo_output {u : Nat} {value : UInt64}
    (hholds : value ≠ 0 → (coin.ledger a).holds (min (coin.ledger a).numaddrtx (coin.ledger a).maxaddrtx) = true) (m : Nat) :
    ∃ coin', coin.updateAddrinfo a u value 0 m = some coin' := by
  rw [Coin.updateAddrinfo]
  dsimp only
  by_cases hzero : value = 0
  · exact ⟨coin, if_pos hzero⟩
  · refine ⟨coin.addAddrtx a ⟨u, 0⟩ (coin.ledger a) m, ?_⟩
    rw [if_neg hzero, if_neg (not_not.mpr rfl), if_pos (hholds hzero)]

theorem Scripted.vout (h : Scripted coin outputs) (hroom : outputs.length + 1 < 2^32)
    (hlen : ¬ InRecord (outputs ++ [o]) o → (decodeScript o.scriptstr).length ≠ 4) (m : Nat)
    (hholds : ∀ coin₀ a flag, coin.voutAddr m o.coinaddr o.scriptstr o.value = some (coin₀, a, flag) →
      Recorded coin₀ (outputs ++ [o]) → coin₀.addrDB o.coinaddr = some a → o.value ≠ 0 →
      (coin₀.ledger a).holds (min (coin₀.ledger a).numaddrtx (coin₀.ledger a).maxaddrtx) = true) :
    ∃ coin', coin.call m o.call = some coin' ∧ Scripted coin' (outputs ++ [o]) := by
  obtain ⟨coin₀, a, flag, haddr, haddressed, hindexed⟩ :=
    voutAddr_addressed h.recorded h.indexed hroom (fun o' ho' => h.known ho') hlen m
  obtain ⟨coin₁, scriptDB, scriptind, U, heq, hscript, hU, hraw, hindexed'⟩ :=
    voutScript_scripted haddressed hroom hindexed hlen m
  have haddressed₁ := haddressed.scripts scriptDB scriptind
  rw [← heq] at haddressed₁
  have hrecorded := haddressed₁.recorded
  have hunspents := haddressed₁.unspents
  have hu : coin₁.unspentind = outputs.length + 1 := haddressed₁.unspentind.trans h.unspentind
  rw [hu] at hscript
  have hledger : (coin₁.setUnspent (outputs.length + 1) U).ledger = coin₀.ledger := by
    rw [heq]
    rfl
  have hroomFor : o.value ≠ 0 → ((coin₁.setUnspent (outputs.length + 1) U).ledger a).holds
      (min ((coin₁.setUnspent (outputs.length + 1) U).ledger a).numaddrtx
        ((coin₁.setUnspent (outputs.length + 1) U).ledger a).maxaddrtx) = true := by
    rw [hledger]
    exact hholds coin₀ a flag haddr haddressed.recorded haddressed.known
  obtain ⟨coin₂, hup⟩ := updateAddrinfo_output (u := outputs.length + 1) hroomFor m
  have hlists := listsOnly_updateAddrinfo hup
  have hsame := hlists.same
  have hcall : coin.call m o.call = some { coin₂ with unspentind := coin₂.unspentind + 1 } := by
    rw [Output.call, Coin.call, Coin.addvout, haddr]
    dsimp only [Option.bind_eq_bind, Option.bind_some]
    rw [hscript]
    dsimp only [Option.bind_some]
    have hset : (coin₁.setUnspent (outputs.length + 1) U).unspentind = outputs.length + 1 := hu
    rw [hset, hup]
    rfl
  refine ⟨_, hcall, ⟨?_, ?_, ?_, ?_⟩⟩
  · have hset : coin₂.unspentind = outputs.length + 1 := hsame.unspentind.trans hu
    rw [List.length_append, List.length_singleton, ← hset]
  · exact hrecorded.congr hsame.addrDB hsame.addrind hlists.records
  · rw [List.length_append, List.length_singleton]
    exact hindexed'.congr hsame.scriptDB hsame.scriptind
  · have hset : coin₂.unspents = Function.update coin.unspents (outputs.length + 1) U :=
      hsame.unspents.trans (congrArg (Function.update · _ _) hunspents)
    intro i o' ho'
    dsimp only
    rw [hsame.addrDB, hset]
    rcases Nat.lt_or_ge i outputs.length with hi | hi
    · rw [List.getElem?_append_left hi] at ho'
      obtain ⟨hold, hzero⟩ := h.unspents i o' ho'
      rw [Function.update_of_ne (by omega), inRecord_append (List.mem_of_getElem? ho')]
      exact ⟨haddressed₁.addrs _ _ hold, hzero⟩
    · have hlast : i = outputs.length := by
        have hlt := (List.getElem?_eq_some_iff.mp ho').1
        rw [List.length_append, List.length_singleton] at hlt
        omega
      rw [hlast, List.getElem?_append_right (Nat.le_refl _), Nat.sub_self] at ho'
      cases ho'
      rw [hlast, Function.update_self, hU]
      exact ⟨haddressed₁.known, hraw⟩

theorem decodeScript_initHexbytesNoT (script : List UInt8) : decodeScript (initHexbytesNoT script) = script := by
  have hlen : (initHexbytesNoT script).length / 2 = script.length := by
    rw [initHexbytesNoT_length, Nat.mul_div_cancel_left _ Nat.two_pos]
  rw [decodeScript, hlen]
  cases script with
  | nil => rfl
  | cons b script =>
    rw [decodeHex_even (isHexstr_initHexbytesNoT (List.cons_ne_nil b script)) (initHexbytesNoT_length _),
      hexLoop_initHexbytesNoT, List.take_length]

/-- The scripts that can be read back in every state: those in the records of their addresses. -/
theorem Scripted.scriptstr (h : Scripted coin outputs) {i : Nat} (ho : outputs[i]? = some o) (hvalid : o.Valid)
    (hin : InRecord outputs o) (max : Nat) :
    coin.scriptstr max (coin.unspents (i + 1)).rawindOrBlocknum (coin.unspents (i + 1)).addrind = o.scriptstr := by
  obtain ⟨hdb, hzero⟩ := h.unspents i o ho
  obtain ⟨-, -, hscript, -⟩ := h.recorded.addrs _ _ hdb
  obtain ⟨-, script, -, hhex⟩ := hvalid
  rw [Coin.scriptstr, hzero hin, if_neg (not_not.mpr rfl), hscript, hin.2, hhex, decodeScript_initHexbytesNoT]

/-- The outputs whose script the ramchain keeps apart from the index entries. -/
def Output.Indexable (o : Output) : Prop :=
  o.coinaddr.length + 1 ≤ 153 ∧ (decodeScript o.scriptstr).length ≠ 4

end SuperNet.Coins.Coin777
