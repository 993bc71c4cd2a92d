import Mathlib.Data.List.TakeWhile
import SuperNet.Peggy.Serdes777Stream

/-! When `serdes777_deserialize` gives back what `serdes777_serialize` was given. -/
namespace SuperNet.Peggy.Serdes777
open Lib.Words Lib.Bytes Lib.BitCodec Utils.Huffstream

/-- The same address, in the member that the type selects. -/
def SameAddr (type : BitVec 8) (a b : PeggyAddr) : Prop :=
  match AddrKind.ofType type with
  | some .btcd => a.bytes.take 28 = b.bytes.take 28
  | some .nxt => a.nxt64bits = b.nxt64bits
  | _ => a = b

structure SameInput (a b : PeggyInput) : Prop where
  type : b.type = a.type
  chainlen : b.chainlen = a.chainlen
  src : SameAddr a.type a.src b.src
  amount : b.amount = a.amount

structure SameOutput (a b : PeggyOutput) : Prop where
  type : b.type = a.type
  vin : b.vin = a.vin
  dest : SameAddr a.type a.dest b.dest
  ratio : b.ratio = a.ratio

structure SamePrices (a b : TxPrices) : Prop where
  num : b.num = a.num
  maxlockdays : b.maxlockdays = a.maxlockdays
  timestamp : b.timestamp = a.timestamp
  feed : used a.num.toNat b.feed = used a.num.toNat a.feed

/-- The same details, in the member and the entries that the header selects. -/
def SameDetails (a b : PeggyTx) : Prop :=
  match a.kind with
  | .bet => used a.numdetails.toNat b.details.bets = used a.numdetails.toNat a.details.bets
  | .prices => SamePrices a.details.price b.details.price
  | .tune => used a.numdetails.toNat b.details.tune = used a.numdetails.toNat a.details.tune
  | .micropay => used a.numdetails.toNat b.details.micropays = used a.numdetails.toNat a.details.micropays
  | .normal => True

structure SameTx (a b : PeggyTx) : Prop where
  hdr : b.toPeggyHdr = a.toPeggyHdr
  funding : a.hasFunding = true → SameInput a.funding b.funding
  inputs : List.Forall₂ SameInput (used a.numinputs.toNat a.inputs) (used a.numinputs.toNat b.inputs)
  outputs : List.Forall₂ SameOutput (used a.numoutputs.toNat a.outputs) (used a.numoutputs.toNat b.outputs)
  details : SameDetails a b

/-- The address types that come back and are counted in full. A created unit comes back without
`redemptiongapdays` and `extralockdays`. -/
def PeggyAddr.Carried (addr : PeggyAddr) (type : BitVec 8) : Prop :=
  match AddrKind.ofType type with
  | some .nxt | some .sam777 => True
  | some .create => addr.newlock.redemptiongapdays = 0 ∧ addr.newlock.extralockdays = 0
  | _ => False

/-- The details that come back: bets and micropayments hold strings, and tunings are not written. -/
def PeggyTx.DetailsCarried (tx : PeggyTx) : Prop :=
  match tx.kind with
  | .bet | .micropay => tx.numdetails = 0
  | .tune => ∀ x ∈ used tx.numdetails.toNat tx.details.tune, x = default
  | _ => True

def PeggyTx.stamped (tx : PeggyTx) (timestamp : BitVec 32) : PeggyTx :=
  if tx.timestamp = 0 then { tx with timestamp := timestamp } else tx

/-- The encoding in front of the signatures. -/
def PeggyTx.unsignedBytes (stack : Stack) (tx : PeggyTx) : List UInt8 := ((encode stack tx).map Prod.snd).getD []

/-- The signatures that go with a transaction: its own and the one that is added. -/
def PeggyTx.carriedSigs (c : Crypto) (stack : Stack) (tx : PeggyTx) (privkey : BitVec 256) : List AcctSig :=
  tx.signed ++ newsig c tx privkey (tx.unsignedBytes stack ++ tx.signed.flatMap AcctSig.bytes)

/-- When a serialized transaction comes back. Signatures are checked against the encoding in
front of them all, while a countersignature is made over the encoding and the signatures before it. -/
structure Returns (c : Crypto) (stack : Stack) (tx : PeggyTx) (blocktimestamp : BitVec 32) (privkey : BitVec 256) : Prop where
  addrs : ∀ a ∈ tx.addrs, a.2.Carried a.1
  details : tx.DetailsCarried
  message : tx.msglen = 0
  timestamp : checktimestamp blocktimestamp tx.timestamp = true
  sigs : tx.signed.length < 16
  valid : ∀ s ∈ tx.carriedSigs c stack privkey, s.inUse = true →
    acct777Validate c s tx.timestamp (tx.unsignedBytes stack) ≠ 0

theorem used_map {α β : Type} [Inhabited α] [Inhabited β] (n : Nat) (xs : List α) (f : α → β) :
    used n ((used n xs).map f) = (used n xs).map f := by
  apply List.ext_getElem
  · simp
  · intro i h h'
    simp only [used, List.length_map, List.length_range] at h
    simp [used, h]

theorem used_used {α : Type} [Inhabited α] (n : Nat) (xs : List α) : used n (used n xs) = used n xs := by
  have h := used_map n xs id
  rwa [List.map_id] at h

theorem used_nil_eq {α : Type} [Inhabited α] (n : Nat) (xs : List α) :
    used n [] = used n xs ↔ ∀ x ∈ used n xs, x = default := by
  have hnil : used n ([] : List α) = List.replicate n default := by
    simp [used, List.map_const']
  rw [hnil, eq_comm, List.eq_replicate_iff, used_length]
  simp

theorem sameAddr_readback {type : BitVec 8} {addr : PeggyAddr} (hk : AddrKind.ofType type ≠ some .btcd) :
    SameAddr type addr (addr.readback type) ↔
      (AddrKind.ofType type = some .create → addr.newlock.redemptiongapdays = 0 ∧ addr.newlock.extralockdays = 0) := by
  rw [SameAddr, PeggyAddr.readback]
  cases hkind : AddrKind.ofType type with
  | none => simp
  | some kind =>
    cases kind with
    | btcd => exact absurd hkind hk
    | nxt =>
      simp only [reduceCtorEq, false_implies, iff_true, Option.some.injEq]
      apply BitVec.eq_of_toNat_eq
      have hlt : addr.nxt64bits.toNat < 2^64 := addr.nxt64bits.isLt
      simp only [PeggyAddr.nxt64bits, BitVec.toNat_setWidth, BitVec.toNat_ofNat] at hlt ⊢
      omega
    | create =>
      simp only [forall_const]
      obtain ⟨sha, lock⟩ := addr
      obtain ⟨peg, denom, minl, maxl, clone, mix, gap, extra, margin⟩ := lock
      simp
    | unit => simp
    | pubkey => simp
    | sam777 => simp

/-- No address of the transaction is a created unit with one of the two dropped fields. -/
def PeggyTx.LocksCarried (tx : PeggyTx) : Prop :=
  ∀ a ∈ tx.addrs, AddrKind.ofType a.1 = some .create →
    a.2.newlock.redemptiongapdays = 0 ∧ a.2.newlock.extralockdays = 0

theorem forall_addrs {tx : PeggyTx} {P : BitVec 8 × PeggyAddr → Prop} :
    (∀ a ∈ tx.addrs, P a) ↔ (tx.hasFunding = true → P (tx.funding.type, tx.funding.src)) ∧
      (∀ inp ∈ used tx.numinputs.toNat tx.inputs, P (inp.type, inp.src)) ∧
      ∀ out ∈ used tx.numoutputs.toNat tx.outputs, P (out.type, out.dest) := by
  simp only [PeggyTx.addrs, List.forall_mem_append, List.forall_mem_map]
  refine and_congr ?_ Iff.rfl
  by_cases h : tx.hasFunding = true <;> simp [h]

private theorem sameInput_readback {inp : PeggyInput} (hk : AddrKind.ofType inp.type ≠ some .btcd) :
    SameInput inp inp.readback ↔ (AddrKind.ofType inp.type = some .create →
      inp.src.newlock.redemptiongapdays = 0 ∧ inp.src.newlock.extralockdays = 0) := by
  rw [← sameAddr_readback hk]
  exact ⟨fun h => h.src, fun h => ⟨rfl, rfl, h, rfl⟩⟩

private theorem sameOutput_readback {out : PeggyOutput} (hk : AddrKind.ofType out.type ≠ some .btcd) :
    SameOutput out out.readback ↔ (AddrKind.ofType out.type = some .create →
      out.dest.newlock.redemptiongapdays = 0 ∧ out.dest.newlock.extralockdays = 0) := by
  rw [← sameAddr_readback hk]
  exact ⟨fun h => h.dest, fun h => ⟨rfl, rfl, h, rfl⟩⟩

private theorem sameDetails_back {tx : PeggyTx} (hs : tx.Stringless) (sigs sigs' : List AcctSig) :
    SameDetails { tx with sigs := sigs } { tx.back with sigs := sigs' } ↔ tx.DetailsCarried := by
  have hkind : (PeggyTx.toPeggyHdr { tx with sigs := sigs }).kind = tx.kind := rfl
  have hdet : (PeggyTx.details { tx.back with sigs := sigs' }) = tx.kindBack := rfl
  rw [SameDetails, PeggyTx.DetailsCarried, hkind, hdet, PeggyTx.kindBack]
  cases hk : tx.kind with
  | bet => simp [hs.bets hk, used]
  | micropay => simp [hs.micropays hk, used]
  | prices =>
    simp only [iff_true]
    exact ⟨rfl, rfl, rfl, used_used _ _⟩
  | tune => exact used_nil_eq _ _
  | normal => simp

/-- What is lost of a transaction without strings: fields of created units, and tunings. -/
theorem sameTx_back {tx : PeggyTx} (hs : tx.Stringless) (sigs sigs' : List AcctSig) :
    SameTx { tx with sigs := sigs } { tx.back with sigs := sigs' } ↔ tx.LocksCarried ∧ tx.DetailsCarried := by
  obtain ⟨hkf, hki, hko⟩ := forall_addrs.mp hs.addrs
  have hin : List.Forall₂ SameInput (used tx.numinputs.toNat tx.inputs) (used tx.numinputs.toNat tx.back.inputs) ↔
      ∀ inp ∈ used tx.numinputs.toNat tx.inputs, SameInput inp inp.readback := by
    change List.Forall₂ SameInput _ (used _ ((used tx.numinputs.toNat tx.inputs).map PeggyInput.readback)) ↔ _
    rw [used_map, List.forall₂_map_right_iff, List.forall₂_same]
  have hout : List.Forall₂ SameOutput (used tx.numoutputs.toNat tx.outputs) (used tx.numoutputs.toNat tx.back.outputs) ↔
      ∀ out ∈ used tx.numoutputs.toNat tx.outputs, SameOutput out out.readback := by
    change List.Forall₂ SameOutput _ (used _ ((used tx.numoutputs.toNat tx.outputs).map PeggyOutput.readback)) ↔ _
    rw [used_map, List.forall₂_map_right_iff, List.forall₂_same]
  have hfund (hf : tx.hasFunding = true) : tx.back.funding = tx.funding.readback := by
    change (if tx.hasFunding = true then _ else _) = _
    rw [if_pos hf]
  rw [PeggyTx.LocksCarried, forall_addrs]
  constructor
  · intro h
    refine ⟨⟨?_, ?_, ?_⟩, (sameDetails_back hs sigs sigs').mp h.details⟩
    · intro hf
      have hsame := h.funding hf
      rw [hfund hf] at hsame
      exact (sameInput_readback (hkf hf)).mp hsame
    · intro inp hm
      exact (sameInput_readback (hki inp hm)).mp (hin.mp h.inputs inp hm)
    · intro out hm
      exact (sameOutput_readback (hko out hm)).mp (hout.mp h.outputs out hm)
  · rintro ⟨⟨hf, hi, ho⟩, hd⟩
    refine ⟨rfl, ?_, ?_, ?_, (sameDetails_back hs sigs sigs').mpr hd⟩
    · intro hflag
      rw [hfund hflag]
      exact (sameInput_readback (hkf hflag)).mpr (hf hflag)
    · exact hin.mpr fun inp hm => (sameInput_readback (hki inp hm)).mpr (hi inp hm)
    · exact hout.mpr fun out hm => (sameOutput_readback (hko out hm)).mpr (ho out hm)

theorem items_mem {α : Type} {put : α → Option (List Call)} {xs : List α} {cs : List Call}
    (h : Put.items put xs = some cs) {x : α} (hx : x ∈ xs) : ∃ ds, put x = some ds := by
  induction xs generalizing cs with
  | nil => exact absurd hx List.not_mem_nil
  | cons y ys ih =>
    obtain ⟨ds, es, hds, hes, -⟩ := items_cons h
    rcases List.mem_cons.mp hx with rfl | hx
    · exact ⟨ds, hds⟩
    · exact ih hes hx

theorem rwinouts_known {stack : Stack} {tx : PeggyTx} {cs : List Call} (h : Put.rwinouts stack tx = some cs) :
    ∀ a ∈ tx.addrs, AddrKind.ofType a.1 ≠ none := by
  have hknown {type link : BitVec 8} {addr : PeggyAddr} {size : Size} {tail : Nat} {ds : List Call}
      (hds : Put.rwinout stack type link addr size tail = some ds) : AddrKind.ofType type ≠ none := by
    simp only [Put.rwinout, Option.bind_eq_bind, Option.bind_eq_some_iff] at hds
    obtain ⟨a, -, b, -, c, hc, -⟩ := hds
    intro hnone
    rw [Put.rwaddr, hnone] at hc
    exact absurd hc (by simp)
  simp only [Put.rwinouts, Option.bind_eq_bind, Option.bind_eq_some_iff, Option.some.injEq] at h
  obtain ⟨f, hf, xs, hxs, i, hi, ys, hys, o, ho, -⟩ := h
  obtain ⟨-, rfl⟩ := entries_some hxs
  obtain ⟨-, rfl⟩ := entries_some hys
  refine forall_addrs.mpr ⟨?_, ?_, ?_⟩
  · intro hflag
    rw [Put.rwfunding, if_pos hflag] at hf
    exact hknown hf
  · intro inp hm
    obtain ⟨ds, hds⟩ := items_mem hi hm
    exact hknown hds
  · intro out hm
    obtain ⟨ds, hds⟩ := items_mem ho hm
    exact hknown hds

theorem addr_lost_pos {a : BitVec 8 × PeggyAddr} (h : AddrKind.ofType a.1 = some .unit ∨ AddrKind.ofType a.1 = some .pubkey) :
    256 ≤ a.2.lost a.1 := by
  rw [PeggyAddr.lost]
  rcases h with h | h <;> rw [h] <;> exact Nat.le_add_right _ _

/-- Either every address is counted in full, or at least 256 bits are missing. -/
theorem lost_cases (tx : PeggyTx) :
    (tx.lost = 0 ∧ ∀ a ∈ tx.addrs, AddrKind.ofType a.1 ≠ some .unit ∧ AddrKind.ofType a.1 ≠ some .pubkey) ∨
    (256 ≤ tx.lost ∧ ∃ a ∈ tx.addrs, AddrKind.ofType a.1 = some .unit ∨ AddrKind.ofType a.1 = some .pubkey) := by
  by_cases h : ∃ a ∈ tx.addrs, AddrKind.ofType a.1 = some .unit ∨ AddrKind.ofType a.1 = some .pubkey
  · right
    obtain ⟨a, ha, hk⟩ := h
    refine ⟨?_, a, ha, hk⟩
    have hle : a.2.lost a.1 ≤ tx.lost := List.single_le_sum (by simp) _ (List.mem_map_of_mem ha)
    exact (addr_lost_pos hk).trans hle
  · left
    push Not at h
    refine ⟨?_, h⟩
    apply List.sum_eq_zero
    intro n hn
    obtain ⟨a, ha, rfl⟩ := List.mem_map.mp hn
    obtain ⟨hu, hp⟩ := h a ha
    rw [PeggyAddr.lost]
    split
    · next hk => exact absurd hk hu
    · next hk => exact absurd hk hp
    · rfl

theorem carried_iff {tx : PeggyTx} (hknown : ∀ a ∈ tx.addrs, AddrKind.ofType a.1 ≠ none) :
    (∀ a ∈ tx.addrs, a.2.Carried a.1) ↔ (∀ a ∈ tx.addrs, AddrKind.ofType a.1 ≠ some .btcd) ∧
      (∀ a ∈ tx.addrs, AddrKind.ofType a.1 ≠ some .unit ∧ AddrKind.ofType a.1 ≠ some .pubkey) ∧ tx.LocksCarried := by
  have hone (a : BitVec 8 × PeggyAddr) (ha : a ∈ tx.addrs) : a.2.Carried a.1 ↔ AddrKind.ofType a.1 ≠ some .btcd ∧
      (AddrKind.ofType a.1 ≠ some .unit ∧ AddrKind.ofType a.1 ≠ some .pubkey) ∧ (AddrKind.ofType a.1 = some .create →
        a.2.newlock.redemptiongapdays = 0 ∧ a.2.newlock.extralockdays = 0) := by
    have hk := hknown a ha
    rw [PeggyAddr.Carried]
    cases hkind : AddrKind.ofType a.1 with
    | none => exact absurd hkind hk
    | some kind => cases kind <;> simp
  constructor
  · intro h
    exact ⟨fun a ha => ((hone a ha).mp (h a ha)).1, fun a ha => ((hone a ha).mp (h a ha)).2.1,
      fun a ha => ((hone a ha).mp (h a ha)).2.2⟩
  · rintro ⟨hb, hu, hl⟩ a ha
    exact (hone a ha).mpr ⟨hb a ha, hu a ha, hl a ha⟩

/-- What the bytes keep of a signature. -/
def AcctSig.plain (sig : AcctSig) : AcctSig := { sig with signer64bits := 0, timestamp := 0 }

theorem sigbytes_length (sigs : List AcctSig) : (sigs.flatMap AcctSig.bytes).length = 64 * sigs.length := by
  induction sigs with
  | nil => rfl
  | cons sig sigs ih =>
    rw [List.flatMap_cons, List.length_append, ih, List.length_cons, AcctSig.bytes, List.length_append, leBytes_length,
      leBytes_length]
    ring

theorem blocks_bytes (sigs : List AcctSig) :
    blocks (2 * sigs.length) (sigs.flatMap AcctSig.bytes) = sigs.map AcctSig.plain := by
  induction sigs with
  | nil => rfl
  | cons sig sigs ih =>
    have hval (x : BitVec 256) : BitVec.ofNat 256 (leValue (leBytes 32 x.toNat)) = x := by
      rw [leValue_leBytes_of_lt (by exact x.isLt), BitVec.ofNat_toNat, BitVec.setWidth_eq]
    have hsplit : (sig :: sigs).flatMap AcctSig.bytes =
        leBytes 32 sig.sigbits.toNat ++ (leBytes 32 sig.pubkey.toNat ++ sigs.flatMap AcctSig.bytes) := by
      rw [List.flatMap_cons, AcctSig.bytes, List.append_assoc]
    have hone := leBytes_length 32 sig.sigbits.toNat
    have htwo := leBytes_length 32 sig.pubkey.toNat
    have hn : 2 * (sig :: sigs).length = 2 * sigs.length + 2 := by
      rw [List.length_cons]
      omega
    rw [hn, hsplit, blocks, List.take_left' hone, List.drop_left' hone, List.take_left' htwo, hval, hval, List.map_cons,
      ← List.append_assoc, List.drop_left' (by rw [List.length_append, hone, htwo]), ih]
    rfl

/-- The check of the signatures: it stops at a zero one and must not reach the end of the array. -/
theorem validates_isSome (c : Crypto) (timestamp : BitVec 32) (data : List UInt8) (n room : Nat) (sigs : List AcctSig)
    (hn : sigs.length < n) :
    (validates c timestamp data n room sigs).isSome ↔
      (sigs.takeWhile AcctSig.inUse).length < room ∧
      ∀ s ∈ sigs.takeWhile AcctSig.inUse, acct777Validate c s timestamp data ≠ 0 := by
  induction sigs generalizing n room with
  | nil =>
    obtain ⟨n, rfl⟩ := Nat.exists_eq_succ_of_ne_zero (by omega : n ≠ 0)
    cases room <;> simp [validates]
  | cons sig sigs ih =>
    obtain ⟨n, rfl⟩ := Nat.exists_eq_succ_of_ne_zero (by omega : n ≠ 0)
    rw [List.length_cons] at hn
    cases room with
    | zero => simp [validates]
    | succ room =>
      have ih := ih n room (by omega)
      by_cases h0 : sig.inUse = true
      · rw [validates, if_neg (by simp [h0]), List.takeWhile_cons_of_pos h0, List.forall_mem_cons, List.length_cons]
        by_cases hv : acct777Validate c sig timestamp data = 0
        · rw [if_pos hv]
          simp [hv]
        · rw [if_neg hv, Option.isSome_map, ih, Nat.add_lt_add_iff_right]
          exact ⟨fun h => ⟨h.1, hv, h.2⟩, fun h => ⟨h.1, h.2.2⟩⟩
      · rw [validates, if_pos (by simpa using h0), List.takeWhile_cons_of_neg h0]
        simp

private theorem append_some {data bytes data' : List UInt8} (h : append data bytes = some data') :
    data' = data ++ bytes ∧ data'.length ≤ 4096 := by
  rw [append] at h
  split at h
  · next hle =>
    obtain rfl := Option.some.inj h
    exact ⟨rfl, by rwa [List.length_append]⟩
  · exact absurd h (by simp)

private theorem countersign_some {c : Crypto} {timestamp : BitVec 32} {sigs : List AcctSig} {data data' : List UInt8}
    (h : countersign c timestamp sigs data = some data') : data' = data ++ sigs.flatMap AcctSig.bytes := by
  induction sigs generalizing data with
  | nil =>
    obtain rfl := Option.some.inj h
    simp
  | cons sig sigs ih =>
    rw [countersign] at h
    split at h
    · exact absurd h (by simp)
    · rw [Option.bind_eq_bind, Option.bind_eq_some_iff] at h
      obtain ⟨d, hd, h⟩ := h
      obtain ⟨rfl, -⟩ := append_some hd
      rw [ih h, List.append_assoc, List.flatMap_cons]

/-- The bytes produced: the encoding of the stamped transaction, then its signatures. -/
theorem serialize_some {c : Crypto} {stack : Stack} {tx tx' : PeggyTx} {blocktimestamp timestamp : BitVec 32}
    {privkey : BitVec 256} {bytes : List UInt8}
    (h : serialize c stack tx blocktimestamp timestamp privkey = some (tx', bytes)) :
    ∃ tx₁ data sigs, encode stack (tx.stamped timestamp) = some (tx₁, data) ∧
      bytes = data ++ ((tx.stamped timestamp).carriedSigs c stack privkey).flatMap AcctSig.bytes ∧
      bytes.length ≤ 4096 ∧ tx' = { tx₁ with sigs := sigs } ∧
      sigs = (tx.stamped timestamp).carriedSigs c stack privkey ++
        tx.sigs.drop ((tx.stamped timestamp).carriedSigs c stack privkey).length := by
  simp only [serialize, Option.bind_eq_bind, Option.bind_eq_some_iff, Option.some.injEq, Prod.mk.injEq] at h
  obtain ⟨tx₀, hstamp, ⟨tx₁, data⟩, henc, data₁, hsig, data₂, happ, rfl, rfl⟩ := h
  have h₀ : tx₀ = tx.stamped timestamp := by
    rw [stamp] at hstamp
    rw [PeggyTx.stamped]
    split at hstamp
    · next h0 => rw [if_pos h0, Option.some.inj hstamp]
    · next h0 =>
      split at hstamp
      · exact absurd hstamp (by simp)
      · rw [if_neg h0, Option.some.inj hstamp]
  subst h₀
  obtain ⟨-, -, -, -, htx, -⟩ := encode_begins henc
  obtain rfl := countersign_some hsig
  obtain ⟨rfl, hlen⟩ := append_some happ
  have hsigned : tx₁.signed = (tx.stamped timestamp).signed := by rw [htx]; rfl
  have hunsigned : (tx.stamped timestamp).unsignedBytes stack = data := by rw [PeggyTx.unsignedBytes, henc]; rfl
  have hnew (d : List UInt8) : newsig c tx₁ privkey d = newsig c (tx.stamped timestamp) privkey d := by rw [htx]; rfl
  have hsigs : tx₁.sigs = tx.sigs := by
    rw [htx, PeggyTx.stamped]
    split <;> rfl
  refine ⟨tx₁, data, _, henc, ?_, hlen, rfl, ?_⟩
  · rw [PeggyTx.carriedSigs, List.flatMap_append, hunsigned, hnew, hsigned, List.append_assoc]
  · rw [PeggyTx.carriedSigs, hunsigned, hnew, hsigned, hsigs, List.length_append]

/-- The check behind the walk, when the walk has counted every bit. -/
theorem checksigs_eq {c : Crypto} {tx : PeggyTx} {n : Nat} {data : List UInt8} {sigs : List AcctSig}
    (hlen : hconvBitlen n = data.length) (hsigs : sigs.length ≤ 16) :
    checksigs c tx n (data ++ sigs.flatMap AcctSig.bytes) =
      (validates c tx.timestamp data (2 * sigs.length) 16 (sigs.map AcctSig.plain)).map fun r =>
        ⟨{ tx with datalen := BitVec.ofNat 16 data.length, sigs := r.2 },
          (data ++ sigs.flatMap AcctSig.bytes).length, r.1⟩ := by
  have hall : (data ++ sigs.flatMap AcctSig.bytes).length = data.length + 64 * sigs.length := by
    rw [List.length_append, sigbytes_length]
  have hn : (data.length + 64 * sigs.length - data.length) / 32 = 2 * sigs.length := by omega
  have hodd : ¬ 2 * sigs.length = 1 := by omega
  have hok : ¬ (data.length + 64 * sigs.length < data.length ∨
      (data.length + 64 * sigs.length - data.length) % 32 ≠ 0 ∨ 32 < 2 * sigs.length) := by omega
  have hsum : data.length + 32 * (2 * sigs.length) = data.length + 64 * sigs.length := by omega
  simp only [checksigs, hlen, hall, hn, hodd, and_false, if_false, if_neg hok, List.drop_left, List.take_left, blocks_bytes,
    hsum]

private theorem deserialize_of_walk {c : Crypto} {stack : Stack} {blocktimestamp : BitVec 32} {data : List UInt8}
    {tx : PeggyTx} {n : Nat} {bs : List Bool} (hlen : data.length ≤ 4096) (hb : Begins data bs)
    (hp : Parses Huff.Ahead (Get.rwtx stack) bs (tx, n)) :
    deserialize c stack blocktimestamp data =
      if checktimestamp blocktimestamp tx.timestamp = false then none else checksigs c tx n data := by
  obtain ⟨rest, hahead⟩ := hb.ahead hlen
  obtain ⟨hp', hwalk, -⟩ := hp _ rest hahead
  rw [deserialize, dif_pos hlen, hwalk]
  rfl

private theorem deserialize_rejected {c : Crypto} {stack : Stack} {blocktimestamp : BitVec 32} {data : List UInt8}
    {bs : List Bool} (hlen : data.length ≤ 4096) (hb : Begins data bs) (hr : Rejects Huff.Ahead (Get.rwtx stack) bs) :
    deserialize c stack blocktimestamp data = none := by
  obtain ⟨rest, hahead⟩ := hb.ahead hlen
  rw [deserialize, dif_pos hlen, hr _ rest hahead]
  rfl

private theorem mem_takeWhile_append {p : AcctSig → Bool} {old new : List AcctSig} (hold : ∀ s ∈ old, p s = true)
    (hnew : new.length ≤ 1) (s : AcctSig) : s ∈ (old ++ new).takeWhile p ↔ s ∈ old ++ new ∧ p s = true := by
  constructor
  · intro hs
    exact ⟨List.takeWhile_subset p hs, List.mem_takeWhile_imp hs⟩
  · rintro ⟨hs, hp⟩
    rw [List.takeWhile_append_of_pos hold]
    rcases List.mem_append.mp hs with hs | hs
    · exact List.mem_append_left _ hs
    · obtain ⟨t, rfl⟩ := List.length_eq_one_iff.mp (le_antisymm hnew (List.length_pos_of_mem hs))
      obtain rfl := List.mem_singleton.mp hs
      rw [List.takeWhile_cons_of_pos hp]
      exact List.mem_append_right _ List.mem_cons_self

private theorem newsig_length (c : Crypto) (tx : PeggyTx) (privkey : BitVec 256) (data : List UInt8) :
    (newsig c tx privkey data).length ≤ 1 ∧ (newsig c tx privkey data ≠ [] → tx.signed.length < 15) := by
  rw [newsig]
  split
  · next h => exact ⟨le_rfl, fun _ => h.1⟩
  · exact ⟨Nat.zero_le 1, fun h => absurd rfl h⟩

private theorem carriedSigs_checked (c : Crypto) (stack : Stack) (tx : PeggyTx) (privkey : BitVec 256) :
    (tx.carriedSigs c stack privkey).length ≤ 16 ∧
    ((((tx.carriedSigs c stack privkey).takeWhile AcctSig.inUse).length < 16 ∧
      ∀ s ∈ (tx.carriedSigs c stack privkey).takeWhile AcctSig.inUse,
        acct777Validate c s tx.timestamp (tx.unsignedBytes stack) ≠ 0) ↔
    (tx.signed.length < 16 ∧ ∀ s ∈ tx.carriedSigs c stack privkey, s.inUse = true →
        acct777Validate c s tx.timestamp (tx.unsignedBytes stack) ≠ 0)) := by
  have hold : ∀ s ∈ tx.signed, s.inUse = true := fun s hs => List.mem_takeWhile_imp hs
  have hlen : tx.signed.length ≤ 16 := by
    have hsub : tx.signed.length ≤ (tx.sigs.take 16).length := (List.takeWhile_sublist AcctSig.inUse).length_le
    rw [List.length_take] at hsub
    exact hsub.trans (min_le_left _ _)
  obtain ⟨hone, hroom⟩ := newsig_length c tx privkey (tx.unsignedBytes stack ++ tx.signed.flatMap AcctSig.bytes)
  rw [PeggyTx.carriedSigs]
  generalize newsig c tx privkey (tx.unsignedBytes stack ++ tx.signed.flatMap AcctSig.bytes) = new at hone hroom
  have hcount : (tx.signed ++ new).length ≤ 16 ∧
      (((tx.signed ++ new).takeWhile AcctSig.inUse).length < 16 ↔ tx.signed.length < 16) := by
    rw [List.takeWhile_append_of_pos hold, List.length_append, List.length_append]
    have hsub : (new.takeWhile AcctSig.inUse).length ≤ new.length := (List.takeWhile_sublist AcctSig.inUse).length_le
    by_cases hnil : new = []
    · subst hnil
      simpa using hlen
    · have := hroom hnil
      omega
  refine ⟨hcount.1, and_congr hcount.2 ?_⟩
  constructor
  · intro h s hs h0
    exact h s ((mem_takeWhile_append hold hone s).mpr ⟨hs, h0⟩)
  · intro h s hs
    obtain ⟨hs, h0⟩ := (mem_takeWhile_append hold hone s).mp hs
    exact h s hs h0

theorem validates_carried (c : Crypto) (stack : Stack) (tx : PeggyTx) (privkey : BitVec 256) :
    (validates c tx.timestamp (tx.unsignedBytes stack) (2 * (tx.carriedSigs c stack privkey).length) 16
      ((tx.carriedSigs c stack privkey).map AcctSig.plain)).isSome ↔
    (tx.signed.length < 16 ∧ ∀ s ∈ tx.carriedSigs c stack privkey, s.inUse = true →
      acct777Validate c s tx.timestamp (tx.unsignedBytes stack) ≠ 0) := by
  rw [← (carriedSigs_checked c stack tx privkey).2]
  generalize tx.carriedSigs c stack privkey = sigs
  cases sigs with
  | nil => simp [validates]
  | cons sig sigs =>
    have hwhile : ((sig :: sigs).map AcctSig.plain).takeWhile AcctSig.inUse =
        ((sig :: sigs).takeWhile AcctSig.inUse).map AcctSig.plain := by
      rw [List.takeWhile_map]
      rfl
    rw [validates_isSome _ _ _ _ _ _ (by simp), hwhile, List.length_map, List.forall_mem_map]
    rfl

theorem validates_count {c : Crypto} {timestamp : BitVec 32} {data : List UInt8} {sigs : List AcctSig} {n room : Nat}
    {v : Nat × List AcctSig} (hn : sigs.length ≤ n)
    (h : validates c timestamp data n room (sigs.map AcctSig.plain) = some v) :
    v.1 = (sigs.takeWhile AcctSig.inUse).length := by
  induction sigs generalizing n room v with
  | nil =>
    cases n <;> cases room <;> simp [validates] at h <;> rw [← h] <;> rfl
  | cons sig sigs ih =>
    rw [List.length_cons] at hn
    obtain ⟨n, rfl⟩ := Nat.exists_eq_succ_of_ne_zero (by omega : n ≠ 0)
    cases room with
    | zero => simp [validates] at h
    | succ room =>
      have huse : sig.plain.inUse = sig.inUse := rfl
      rw [List.map_cons, validates, huse] at h
      by_cases h0 : sig.inUse = true
      · rw [if_neg (by simp [h0])] at h
        split at h
        · exact absurd h (by simp)
        · obtain ⟨w, hw, rfl⟩ := Option.map_eq_some_iff.mp h
          rw [List.takeWhile_cons_of_pos h0, List.length_cons, ih (by omega) hw]
      · rw [if_pos (by simpa using h0)] at h
        rw [← Option.some.inj h, List.takeWhile_cons_of_neg h0]
        rfl

private theorem checksigs_datalen {c : Crypto} {tx : PeggyTx} {n : Nat} {data : List UInt8} {r : Deserialized}
    (h : checksigs c tx n data = some r) : r.tx.datalen = BitVec.ofNat 16 (hconvBitlen n) ∧ hconvBitlen n ≤ data.length := by
  rw [checksigs] at h
  split at h
  · exact absurd h (by simp)
  · next hok =>
    rw [Option.map_eq_some_iff] at h
    obtain ⟨s, -, rfl⟩ := h
    exact ⟨rfl, by omega⟩

section RoundTrip

variable {c : Crypto} {stack : Stack} {tx : PeggyTx} {blocktimestamp : BitVec 32} {privkey : BitVec 256}

private theorem lost_differs {n m lost : Nat} (hlost : 256 ≤ lost) (hn : n + lost = m) (hm : hconvBitlen m ≤ 4096) :
    BitVec.ofNat 16 (hconvBitlen n) ≠ BitVec.ofNat 16 (hconvBitlen m) := by
  intro h
  have h := congrArg BitVec.toNat h
  have hlt : hconvBitlen n < hconvBitlen m := by
    rw [hconvBitlen, hconvBitlen]
    split <;> split <;> omega
  rw [BitVec.toNat_ofNat, BitVec.toNat_ofNat, Nat.mod_eq_of_lt (by omega), Nat.mod_eq_of_lt (by omega)] at h
  omega

theorem Returns.stringless (h : Returns c stack tx blocktimestamp privkey) : tx.Stringless := by
  have hdet := h.details
  rw [PeggyTx.DetailsCarried] at hdet
  refine ⟨?_, ?_, ?_, h.message⟩
  · intro a ha hk
    have hcar := h.addrs a ha
    rw [PeggyAddr.Carried, hk] at hcar
    exact hcar
  · intro hk
    rw [hk] at hdet
    exact hdet
  · intro hk
    rw [hk] at hdet
    exact hdet

theorem Returns.counted (h : Returns c stack tx blocktimestamp privkey) :
    ¬ ∃ a ∈ tx.addrs, AddrKind.ofType a.1 = some .unit ∨ AddrKind.ofType a.1 = some .pubkey := by
  rintro ⟨a, ha, hk⟩
  have hcar := h.addrs a ha
  rw [PeggyAddr.Carried] at hcar
  rcases hk with hk | hk <;> rw [hk] at hcar <;> exact hcar

private theorem deserialize_counted (c : Crypto) (blocktimestamp : BitVec 32) {tx₁ : PeggyTx} {stack' : Stack} {data : List UInt8} {n : Nat} {bs : List Bool}
    {sigs : List AcctSig} (hlen : (data ++ sigs.flatMap AcctSig.bytes).length ≤ 4096) (hsigs : sigs.length ≤ 16)
    (hb : Begins data bs) (hp : Parses Huff.Ahead (Get.rwtx stack') bs (tx₁.back, n)) (hn : hconvBitlen n = data.length)
    (hdl : tx₁.datalen = BitVec.ofNat 16 data.length) :
    deserialize c stack' blocktimestamp (data ++ sigs.flatMap AcctSig.bytes) =
      if checktimestamp blocktimestamp tx₁.timestamp = false then none
      else (validates c tx₁.timestamp data (2 * sigs.length) 16 (sigs.map AcctSig.plain)).map fun r =>
        ⟨{ tx₁.back with sigs := r.2 }, (data ++ sigs.flatMap AcctSig.bytes).length, r.1⟩ := by
  rw [deserialize_of_walk hlen (hb.append _) hp, checksigs_eq hn hsigs, ← hdl]
  rfl

theorem unsignedBytes_of_encode {tx' : PeggyTx} {data : List UInt8} (h : encode stack tx = some (tx', data)) :
    tx.unsignedBytes stack = data := by
  rw [PeggyTx.unsignedBytes, h]
  rfl

/-- What `serdes777_deserialize` does with a serialized transaction without strings, units and
public keys: the walk comes back to the signatures, and these decide. -/
private theorem deserialize_serialized {tx' : PeggyTx} {timestamp : BitVec 32} {bytes : List UInt8}
    (h : serialize c stack tx blocktimestamp timestamp privkey = some (tx', bytes)) (hs : (tx.stamped timestamp).Stringless)
    (hcount : (tx.stamped timestamp).lost = 0) (now : BitVec 32) (stack' : Stack) :
    deserialize c stack' now bytes =
      if checktimestamp now (tx.stamped timestamp).timestamp = false then none
      else (validates c (tx.stamped timestamp).timestamp ((tx.stamped timestamp).unsignedBytes stack)
        (2 * ((tx.stamped timestamp).carriedSigs c stack privkey).length) 16
        (((tx.stamped timestamp).carriedSigs c stack privkey).map AcctSig.plain)).map fun r =>
          ⟨{ tx'.back with sigs := r.2 }, bytes.length, r.1⟩ := by
  obtain ⟨tx₁, data, sigs, henc, hbytes, hlen, rfl, -⟩ := serialize_some h
  generalize tx.stamped timestamp = tx₀ at henc hbytes hs hcount
  obtain ⟨hdr, inouts, details, hparts, htx, hdlen, hpre, hfull⟩ := encode_begins henc
  have hs₁ : tx₁.Stringless := by
    rw [htx]
    exact ⟨hs.addrs, hs.bets, hs.micropays, hs.message⟩
  have hlost : tx₁.lost = 0 := by
    rw [htx]
    exact hcount
  have hstamp : tx₁.timestamp = tx₀.timestamp := by rw [htx]
  have hdl : tx₁.datalen = BitVec.ofNat 16 data.length := by rw [htx]
  obtain ⟨hbegins, hdata⟩ := hfull (rwdetails_parses stack hs₁ hparts.details).2
  obtain ⟨n, hn, hp⟩ := rwtx_parses stack' hs₁ hparts.hdr hparts.inouts hparts.details
  rw [hlost, add_zero] at hn
  rw [← hn] at hdata
  subst hbytes
  rw [deserialize_counted c now hlen (carriedSigs_checked c stack tx₀ privkey).1 hbegins hp hdata.symm hdl, hstamp,
    unsignedBytes_of_encode henc]
  rfl

private theorem stringless_of_accepted {tx' : PeggyTx} {timestamp : BitVec 32} {bytes : List UInt8} {now : BitVec 32}
    (h : serialize c stack tx blocktimestamp timestamp privkey = some (tx', bytes))
    (hall : ∀ stack', ∃ r, deserialize c stack' now bytes = some r ∧ SameTx tx' r.tx) :
    (tx.stamped timestamp).Stringless ∧ (tx.stamped timestamp).lost = 0 ∧
      ∀ a ∈ (tx.stamped timestamp).addrs, AddrKind.ofType a.1 ≠ none ∧ AddrKind.ofType a.1 ≠ some .unit ∧
        AddrKind.ofType a.1 ≠ some .pubkey := by
  obtain ⟨tx₁, data, sigs, henc, hbytes, hlen, rfl, -⟩ := serialize_some h
  generalize tx.stamped timestamp = tx₀ at henc hbytes
  obtain ⟨hdr, inouts, details, hparts, htx, hdlen, hpre, hfull⟩ := encode_begins henc
  have haddrs : tx₁.addrs = tx₀.addrs := by rw [htx]; rfl
  have hs : tx₁.Stringless := by
    by_contra hs
    obtain ⟨r, hr, -⟩ := hall overrun
    have hb : Begins bytes (bits (hdr ++ inouts)) := hbytes ▸ hpre.append _
    rw [deserialize_rejected hlen hb (rwtx_rejects hs hparts.hdr hparts.inouts)] at hr
    exact absurd hr (by simp)
  have hs₀ : tx₀.Stringless := by
    rw [htx] at hs
    exact ⟨hs.addrs, hs.bets, hs.micropays, hs.message⟩
  have hknown := rwinouts_known hparts.inouts
  rw [haddrs] at hknown
  rcases lost_cases tx₀ with ⟨hlost, hcount⟩ | ⟨hlost, -⟩
  · exact ⟨hs₀, hlost, fun a ha => ⟨hknown a ha, hcount a ha⟩⟩
  · obtain ⟨hbegins, hdata⟩ := hfull (rwdetails_parses stack hs hparts.details).2
    have hb : Begins bytes (bits (hdr ++ (inouts ++ details))) := hbytes ▸ hbegins.append _
    obtain ⟨r, hr, hsame⟩ := hall stack
    obtain ⟨n, hn, hp⟩ := rwtx_parses stack hs hparts.hdr hparts.inouts hparts.details
    rw [deserialize_of_walk hlen hb hp] at hr
    split at hr
    · exact absurd hr (by simp)
    · obtain ⟨hdl, -⟩ := checksigs_datalen hr
      have hhdr : r.tx.datalen = tx₁.datalen := congrArg PeggyHdr.datalen hsame.hdr
      have hdl₁ : tx₁.datalen = BitVec.ofNat 16 data.length := by rw [htx]
      have hlost₁ : tx₁.lost = tx₀.lost := by rw [htx]; rfl
      rw [hdl, hdl₁, hdata] at hhdr
      exact absurd hhdr (lost_differs hlost (hlost₁ ▸ hn) (hdata ▸ hdlen))

private theorem sameTx_serialized {tx' : PeggyTx} {timestamp : BitVec 32} {bytes : List UInt8}
    (h : serialize c stack tx blocktimestamp timestamp privkey = some (tx', bytes)) (hs : (tx.stamped timestamp).Stringless)
    (sigs : List AcctSig) : SameTx tx' { tx'.back with sigs := sigs } ↔
      (tx.stamped timestamp).LocksCarried ∧ (tx.stamped timestamp).DetailsCarried := by
  obtain ⟨tx₁, data, sigs', henc, -, -, rfl, -⟩ := serialize_some h
  obtain ⟨-, -, -, -, htx, -⟩ := encode_begins henc
  have hs₁ : tx₁.Stringless := by
    rw [htx]
    exact ⟨hs.addrs, hs.bets, hs.micropays, hs.message⟩
  have hlocks : tx₁.LocksCarried ↔ (tx.stamped timestamp).LocksCarried := by rw [htx]; rfl
  have hdetails : tx₁.DetailsCarried ↔ (tx.stamped timestamp).DetailsCarried := by rw [htx]; rfl
  rw [← hlocks, ← hdetails]
  exact sameTx_back hs₁ sigs' sigs

/-- A transaction that is accepted as what it was has everything that `Returns` asks for. -/
theorem returns_of_accepted {tx' : PeggyTx} {timestamp now : BitVec 32} {bytes : List UInt8}
    (h : serialize c stack tx blocktimestamp timestamp privkey = some (tx', bytes))
    (hall : ∀ stack', ∃ r, deserialize c stack' now bytes = some r ∧ SameTx tx' r.tx) :
    Returns c stack (tx.stamped timestamp) now privkey := by
  obtain ⟨hs, hlost, hkinds⟩ := stringless_of_accepted h hall
  obtain ⟨r, hr, hsame⟩ := hall stack
  rw [deserialize_serialized h hs hlost] at hr
  split at hr
  · exact absurd hr (by simp)
  · next hts =>
    obtain ⟨v, hv, rfl⟩ := Option.map_eq_some_iff.mp hr
    obtain ⟨hroom, hok⟩ := (validates_carried c stack (tx.stamped timestamp) privkey).mp (by rw [hv]; rfl)
    obtain ⟨hlocks, hdetails⟩ := (sameTx_serialized h hs v.2).mp hsame
    refine ⟨?_, hdetails, hs.message, by simpa using hts, hroom, hok⟩
    exact (carried_iff fun a ha => (hkinds a ha).1).mpr ⟨hs.addrs, fun a ha => (hkinds a ha).2, hlocks⟩

/-- Whatever `Returns` holds of is accepted as what it was, with every signature in use counted. -/
theorem Returns.accepted {tx' : PeggyTx} {timestamp now : BitVec 32} {bytes : List UInt8}
    (hret : Returns c stack (tx.stamped timestamp) now privkey)
    (h : serialize c stack tx blocktimestamp timestamp privkey = some (tx', bytes)) (stack' : Stack) :
    ∃ r, deserialize c stack' now bytes = some r ∧ SameTx tx' r.tx ∧ r.len = bytes.length ∧
      r.signedcount = (((tx.stamped timestamp).carriedSigs c stack privkey).takeWhile AcctSig.inUse).length := by
  have hs := hret.stringless
  have hknown : ∀ a ∈ (tx.stamped timestamp).addrs, AddrKind.ofType a.1 ≠ none := by
    intro a ha hnone
    have hcar := hret.addrs a ha
    rw [PeggyAddr.Carried, hnone] at hcar
    exact hcar
  have hlost : (tx.stamped timestamp).lost = 0 := by
    rcases lost_cases (tx.stamped timestamp) with ⟨hlost, -⟩ | ⟨-, hunit⟩
    · exact hlost
    · exact absurd hunit hret.counted
  obtain ⟨v, hv⟩ := Option.isSome_iff_exists.mp
    ((validates_carried c stack (tx.stamped timestamp) privkey).mpr ⟨hret.sigs, hret.valid⟩)
  refine ⟨⟨{ tx'.back with sigs := v.2 }, _, v.1⟩, ?_, ?_, rfl, ?_⟩
  · rw [deserialize_serialized h hs hlost, hret.timestamp, if_neg (by simp), hv]
    rfl
  · exact (sameTx_serialized h hs v.2).mpr ⟨((carried_iff hknown).mp hret.addrs).2.2, hret.details⟩
  · exact validates_count (by omega) hv

/-- `serdes777_deserialize` gives back every transaction that `serdes777_serialize` accepts, whatever
the stack holds, exactly when `Returns` holds of it. -/
theorem deserialize_serialize_iff {tx' : PeggyTx} {timestamp : BitVec 32} {bytes : List UInt8}
    (h : serialize c stack tx blocktimestamp timestamp privkey = some (tx', bytes)) :
    (∀ stack', ∃ r, deserialize c stack' blocktimestamp bytes = some r ∧ SameTx tx' r.tx ∧ r.len = bytes.length) ↔
      Returns c stack (tx.stamped timestamp) blocktimestamp privkey := by
  constructor
  · intro hall
    apply returns_of_accepted h
    intro stack'
    obtain ⟨r, hr, hsame, -⟩ := hall stack'
    exact ⟨r, hr, hsame⟩
  · intro hret stack'
    obtain ⟨r, hr, hsame, hlen, -⟩ := hret.accepted h stack'
    exact ⟨r, hr, hsame, hlen⟩

end RoundTrip

/-- A first signature is checked over the bytes it was made over, so it is accepted when the two
sides of the key exchange agree. -/
theorem validate_signtx (c : Crypto) (privkey : BitVec 256) (timestamp : BitVec 32) (data : List UInt8)
    (hdh : c.curve25519 c.genesisPrivkey (c.pubkey privkey) = c.curve25519 privkey c.genesisPubkey) :
    acct777Validate c (acct777Signtx c privkey timestamp data) timestamp data = c.nxt64bits (c.pubkey privkey) := by
  have hsame : (acct777Sign c c.genesisPrivkey (acct777Signtx c privkey timestamp data).pubkey timestamp data).sigbits =
      (acct777Signtx c privkey timestamp data).sigbits := by
    change c.sha256cat (_ ++ leBytes 32 (c.curve25519 c.genesisPrivkey (c.pubkey privkey)).toNat) data = _
    rw [hdh]
    rfl
  rw [acct777Validate, if_neg (not_not.mpr hsame)]
  rfl

/-- Stands in where no signature is made or checked. -/
def unsignedCrypto : Crypto := ⟨fun _ _ => 0, fun _ _ => 0, id, fun _ => 0, 0, 0⟩

def clearStack : Stack := ⟨0, fun _ => 0⟩

/-- One input of the given address type, one output to an NXT account. -/
def payment (type : BitVec 8) : PeggyTx := { (default : PeggyTx) with
  numinputs := 1
  numoutputs := 1
  inputs := [⟨type, 2, ⟨12345, { (default : PeggyLock) with peg := 7, minlockdays := 30 }⟩, 1000⟩]
  outputs := [⟨2, 0, ⟨77, default⟩, 5⟩] }

theorem deserialize_serialize_iff_payment : ∃ tx' bytes,
    serialize unsignedCrypto clearStack (payment 5) 0 100 0 = some (tx', bytes) ∧
    ((∀ stack', ∃ r, deserialize unsignedCrypto stack' 0 bytes = some r ∧ SameTx tx' r.tx ∧ r.len = bytes.length) ↔
      Returns unsignedCrypto clearStack ((payment 5).stamped 100) 0 0) := by
  obtain ⟨⟨tx', bytes⟩, h⟩ := Option.isSome_iff_exists.mp
    (show (serialize unsignedCrypto clearStack (payment 5) 0 100 0).isSome = true by decide +kernel)
  exact ⟨tx', bytes, h, deserialize_serialize_iff h⟩

/-- A unit as input: the bits of its hash, peg and lock time are written, read, and not counted. -/
theorem unit_payment_rejected : ¬ ∀ tx' bytes,
    serialize unsignedCrypto clearStack (payment 3) 0 100 0 = some (tx', bytes) →
    ∀ stack', ∃ r, deserialize unsignedCrypto stack' 0 bytes = some r ∧ SameTx tx' r.tx ∧ r.len = bytes.length := by
  intro hall
  have hser : (serialize unsignedCrypto clearStack (payment 3) 0 100 0).isSome = true := by decide +kernel
  obtain ⟨⟨tx', bytes⟩, h⟩ := Option.isSome_iff_exists.mp hser
  have hret : Returns unsignedCrypto clearStack ((payment 3).stamped 100) 0 0 := by
    apply returns_of_accepted h
    intro stack'
    obtain ⟨r, hr, hsame, -⟩ := hall tx' bytes h stack'
    exact ⟨r, hr, hsame⟩
  apply hret.counted
  exact ⟨_, List.mem_cons_self, .inl rfl⟩

end SuperNet.Peggy.Serdes777
