import SuperNet.Peggy.Serdes777RoundTrip

/-! Transactions that several signers sign in turn. -/
namespace SuperNet.Peggy.Serdes777
open Lib.Bytes

/-- What a signer calls `serdes777_serialize` with. -/
structure Signer where
  privkey : BitVec 256
  blocktimestamp : BitVec 32
  timestamp : BitVec 32
  deriving DecidableEq

/-- `acct777_validate` accepts what `acct777_signtx` makes over the same bytes, and names the signer. -/
def Crypto.Correct (c : Crypto) : Prop :=
  ∀ privkey timestamp data, acct777Validate c (acct777Signtx c privkey timestamp data) timestamp data =
    c.nxt64bits (c.pubkey privkey) ∧ c.nxt64bits (c.pubkey privkey) ≠ 0

/-- A call of `serdes777_serialize` that adds one signature to those in use. -/
def cosign (c : Crypto) (stack : Stack) (tx : PeggyTx) (signer : Signer) : Option (PeggyTx × List UInt8) :=
  (serialize c stack tx signer.blocktimestamp signer.timestamp signer.privkey).filter fun r =>
    r.1.signed.length = tx.signed.length + 1

/-- One signer after the other; the bytes are those of the last call. -/
def cosigns (c : Crypto) (stack : Stack) : PeggyTx → Signer → List Signer → Option (PeggyTx × List UInt8)
  | tx, signer, [] => cosign c stack tx signer
  | tx, signer, next :: rest => do
    let (tx, _) ← cosign c stack tx signer
    cosigns c stack tx next rest

/-- The signatures made in turn behind `data` and the signatures `sigs`. -/
def signatures (c : Crypto) (timestamp : BitVec 32) (data : List UInt8) : List AcctSig → List (BitVec 256) → List AcctSig
  | _, [] => []
  | sigs, privkey :: privkeys =>
    let sig := acct777Signtx c privkey timestamp (data ++ sigs.flatMap AcctSig.bytes)
    sig :: signatures c timestamp data (sigs ++ [sig]) privkeys

/-- Every signature is the first one, or has the same hash as one over `data` alone. -/
def OverData (c : Crypto) (timestamp : BitVec 32) (data : List UInt8) : List AcctSig → List (BitVec 256) → Prop
  | _, [] => True
  | sigs, privkey :: privkeys =>
    let sig := acct777Signtx c privkey timestamp (data ++ sigs.flatMap AcctSig.bytes)
    (sigs = [] ∨ sig.sigbits = (acct777Signtx c privkey timestamp data).sigbits) ∧
      OverData c timestamp data (sigs ++ [sig]) privkeys

/-- When a transaction signed in turn comes back with all its signatures. -/
structure Cosigned (c : Crypto) (stack : Stack) (tx : PeggyTx) (now : BitVec 32) (privkeys : List (BitVec 256)) : Prop where
  addrs : ∀ a ∈ tx.addrs, a.2.Carried a.1
  details : tx.DetailsCarried
  message : tx.msglen = 0
  timestamp : checktimestamp now tx.timestamp = true
  present : ∀ s ∈ tx.signed, acct777Validate c s tx.timestamp (tx.unsignedBytes stack) ≠ 0
  added : OverData c tx.timestamp (tx.unsignedBytes stack) tx.signed privkeys

/-- A signature over more than `data` is valid for `data` when the two hashes are the same. -/
theorem Crypto.Correct.validate_iff {c : Crypto} (hc : c.Correct) (privkey : BitVec 256) (timestamp : BitVec 32)
    (data more : List UInt8) : acct777Validate c (acct777Signtx c privkey timestamp more) timestamp data ≠ 0 ↔
      (acct777Signtx c privkey timestamp more).sigbits = (acct777Signtx c privkey timestamp data).sigbits := by
  obtain ⟨hval, hid⟩ := hc privkey timestamp data
  rw [acct777Validate] at hval
  split at hval
  · exact absurd hval.symm hid
  · next hsame =>
    have hsame := not_not.mp hsame
    have hpub : (acct777Signtx c privkey timestamp more).pubkey = (acct777Signtx c privkey timestamp data).pubkey := rfl
    rw [acct777Validate, hpub, hsame]
    constructor
    · intro h
      by_contra hne
      exact h (if_pos fun heq => hne heq.symm)
    · intro h
      rw [if_neg (not_not.mpr h.symm)]
      exact hid

theorem signatures_length (c : Crypto) (timestamp : BitVec 32) (data : List UInt8) (sigs : List AcctSig)
    (privkeys : List (BitVec 256)) : (signatures c timestamp data sigs privkeys).length = privkeys.length := by
  induction privkeys generalizing sigs with
  | nil => rfl
  | cons privkey privkeys ih => rw [signatures, List.length_cons, ih, List.length_cons]

theorem overData_iff {c : Crypto} (hc : c.Correct) (timestamp : BitVec 32) (data : List UInt8) (sigs : List AcctSig)
    (privkeys : List (BitVec 256)) : OverData c timestamp data sigs privkeys ↔
      ∀ s ∈ signatures c timestamp data sigs privkeys, acct777Validate c s timestamp data ≠ 0 := by
  induction privkeys generalizing sigs with
  | nil => simp [OverData, signatures]
  | cons privkey privkeys ih =>
    rw [OverData, signatures, List.forall_mem_cons, ih, hc.validate_iff]
    refine and_congr_left fun _ => or_iff_right_of_imp ?_
    rintro rfl
    rw [List.flatMap_nil, List.append_nil]

private theorem signed_append {old new rest : List AcctSig} (hold : ∀ s ∈ old, s.inUse = true)
    (hroom : old.length + new.length ≤ 16) (hone : new.length ≤ 1)
    (hlen : (((old ++ new ++ rest).take 16).takeWhile AcctSig.inUse).length = old.length + 1) (hnew : new ≠ []) :
    ((old ++ new ++ rest).take 16).takeWhile AcctSig.inUse = old ++ new ∧ ∀ s ∈ new, s.inUse = true := by
  obtain ⟨sig, rfl⟩ := List.length_eq_one_iff.mp (le_antisymm hone (List.length_pos_iff.mpr hnew))
  have htake : (old ++ [sig] ++ rest).take 16 = old ++ (sig :: rest.take (16 - (old.length + 1))) := by
    rw [List.take_append, List.take_of_length_le (by simpa using hroom), List.length_append, List.append_assoc]
    rfl
  rw [htake, List.takeWhile_append_of_pos hold] at hlen ⊢
  by_cases huse : sig.inUse = true
  · rw [List.takeWhile_cons_of_pos huse] at hlen ⊢
    rw [List.length_append, List.length_cons] at hlen
    have hnil : (rest.take (16 - (old.length + 1))).takeWhile AcctSig.inUse = [] := List.length_eq_zero_iff.mp (by omega)
    rw [hnil]
    exact ⟨rfl, by simpa using huse⟩
  · rw [List.takeWhile_cons_of_neg huse, List.append_nil] at hlen
    omega

section Turns

variable {c : Crypto} {stack : Stack} {tx tx' : PeggyTx} {bytes : List UInt8}

@[simp] theorem stamped_signed (tx : PeggyTx) (timestamp : BitVec 32) : (tx.stamped timestamp).signed = tx.signed := by
  rw [PeggyTx.stamped]
  split <;> rfl

theorem signed_length_le (tx : PeggyTx) : tx.signed.length ≤ 16 := by
  have hsub : tx.signed.length ≤ (tx.sigs.take 16).length := (List.takeWhile_sublist AcctSig.inUse).length_le
  rw [List.length_take] at hsub
  exact hsub.trans (min_le_left _ _)

/-- A turn: the transaction keeps all but `datalen`, and has the signer's signature behind the others. -/
theorem cosign_some {signer : Signer} (h : cosign c stack tx signer = some (tx', bytes)) :
    ∃ sig, sig = acct777Signtx c signer.privkey (tx.stamped signer.timestamp).timestamp
        ((tx.stamped signer.timestamp).unsignedBytes stack ++ tx.signed.flatMap AcctSig.bytes) ∧
      (tx.stamped signer.timestamp).timestamp ≠ 0 ∧ sig.inUse = true ∧
      (tx.stamped signer.timestamp).carriedSigs c stack signer.privkey = tx.signed ++ [sig] ∧
      tx'.signed = tx.signed ++ [sig] ∧
      ∃ d sigs, tx' = { tx.stamped signer.timestamp with datalen := d, sigs := sigs } := by
  obtain ⟨hser, hlen⟩ := Option.filter_eq_some_iff.mp h
  have hlen : tx'.signed.length = tx.signed.length + 1 := of_decide_eq_true hlen
  obtain ⟨tx₁, data, sigs, henc, -, -, rfl, hsigs⟩ := serialize_some hser
  obtain ⟨-, -, -, -, htx, -⟩ := encode_begins henc
  have hold : ∀ s ∈ tx.signed, s.inUse = true := fun s hs => List.mem_takeWhile_imp hs
  have hcarried : (tx.stamped signer.timestamp).carriedSigs c stack signer.privkey =
      tx.signed ++ newsig c (tx.stamped signer.timestamp) signer.privkey
        ((tx.stamped signer.timestamp).unsignedBytes stack ++ tx.signed.flatMap AcctSig.bytes) := by
    rw [PeggyTx.carriedSigs, stamped_signed]
  rw [hcarried] at hsigs ⊢
  have hsigned : PeggyTx.signed { tx₁ with sigs := sigs } = (sigs.take 16).takeWhile AcctSig.inUse := rfl
  rw [hsigned, hsigs] at hlen
  rw [newsig, stamped_signed] at hlen hsigs ⊢
  split at hlen
  · next hsign =>
    rw [if_pos hsign] at hsigs ⊢
    obtain ⟨hall, huse⟩ := signed_append hold (by rw [List.length_singleton]; omega) le_rfl hlen (by simp)
    refine ⟨_, rfl, hsign.2.1, huse _ List.mem_cons_self, rfl, ?_, BitVec.ofNat 16 data.length, sigs, ?_⟩
    · rw [hsigned, hsigs]
      exact hall
    · rw [htx]
  · have hprefix : tx.signed <+: tx.sigs := (List.takeWhile_prefix _).trans (List.take_prefix _ _)
    have hsame : (((tx.signed ++ tx.sigs.drop tx.signed.length).take 16).takeWhile AcctSig.inUse).length =
        tx.signed.length := by
      rw [List.prefix_iff_eq_append.mp hprefix]
      rfl
    rw [List.append_nil] at hlen
    omega

/-- A signed transaction has a timestamp, which a later turn does not change. -/
theorem stamped_of_ne {tx : PeggyTx} (h : tx.timestamp ≠ 0) (timestamp : BitVec 32) : tx.stamped timestamp = tx := if_neg h

/-- The encoding in front of the signatures does not depend on them. -/
theorem unsignedBytes_update (stack : Stack) (tx : PeggyTx) (d : BitVec 16) (sigs : List AcctSig) :
    PeggyTx.unsignedBytes stack { tx with datalen := d, sigs := sigs } = tx.unsignedBytes stack := by
  have hsigs (t : PeggyTx) : PeggyTx.unsignedBytes stack { t with sigs := sigs } = t.unsignedBytes stack := by
    have hwalk : Put.rwtx stack { t with sigs := sigs } = Put.rwtx stack t := rfl
    rw [PeggyTx.unsignedBytes, PeggyTx.unsignedBytes, encode, encode, hwalk]
    simp only [Option.bind_eq_bind, Option.map_bind, Function.comp_def, Option.map_some]
  have hdatalen := congrArg (fun r => (r.map Prod.snd).getD []) (encode_datalen stack tx d)
  exact (hsigs { tx with datalen := d }).trans hdatalen

/-- All turns: the last call is one on the same transaction, with the signatures made before it. -/
theorem cosigns_some {signer : Signer} {rest : List Signer} (h : cosigns c stack tx signer rest = some (tx', bytes)) :
    ∃ (txl : PeggyTx) (last : Signer) (d : BitVec 16) (sigs : List AcctSig), serialize c stack txl last.blocktimestamp last.timestamp last.privkey = some (tx', bytes) ∧
      txl.stamped last.timestamp = { tx.stamped signer.timestamp with datalen := d, sigs := sigs } ∧
      (txl.stamped last.timestamp).signed.length < 16 ∧
      (txl.stamped last.timestamp).carriedSigs c stack last.privkey = tx.signed ++
        signatures c (tx.stamped signer.timestamp).timestamp ((tx.stamped signer.timestamp).unsignedBytes stack) tx.signed
          ((signer :: rest).map Signer.privkey) ∧
      (∀ s ∈ (txl.stamped last.timestamp).carriedSigs c stack last.privkey, s.inUse = true) := by
  induction rest generalizing tx signer with
  | nil =>
    obtain ⟨sig, hsig, -, huse, hcarried, hsigned, -⟩ := cosign_some h
    obtain ⟨hser, -⟩ := Option.filter_eq_some_iff.mp h
    have hcount := signed_length_le tx'
    rw [hsigned, List.length_append, List.length_singleton] at hcount
    refine ⟨tx, signer, (tx.stamped signer.timestamp).datalen, (tx.stamped signer.timestamp).sigs, hser, rfl, ?_, ?_, ?_⟩
    · rw [stamped_signed]
      omega
    · rw [hcarried, hsig]
      rfl
    · rw [hcarried]
      intro s hs
      rcases List.mem_append.mp hs with hs | hs
      · exact List.mem_takeWhile_imp hs
      · rwa [List.mem_singleton.mp hs]
  | cons next rest ih =>
    rw [cosigns, Option.bind_eq_bind, Option.bind_eq_some_iff] at h
    obtain ⟨⟨tx₂, bytes₂⟩, hfirst, hrest⟩ := h
    obtain ⟨sig, hsig, hts, -, -, hsigned, d, sigs, htx⟩ := cosign_some hfirst
    have hts₂ : tx₂.timestamp ≠ 0 := by rwa [htx]
    obtain ⟨txl, last, d', sigs', hser, hlast, hroom, hcarried, huse⟩ := ih hrest
    have hbytes : tx₂.unsignedBytes stack = (tx.stamped signer.timestamp).unsignedBytes stack := by
      rw [htx, unsignedBytes_update]
    have htime : tx₂.timestamp = (tx.stamped signer.timestamp).timestamp := by rw [htx]
    rw [stamped_of_ne hts₂] at hlast hcarried
    refine ⟨txl, last, d', sigs', hser, ?_, hroom, ?_, huse⟩
    · rw [hlast, htx]
    · rw [hcarried, hbytes, htime, hsigned, hsig, List.append_assoc]
      rfl

/-- `serdes777_deserialize` accepts a transaction signed in turn, with every signature, exactly when
`Cosigned` holds of it. -/
theorem deserialize_cosigns_iff (hc : c.Correct) {signer : Signer} {rest : List Signer} {now : BitVec 32}
    (h : cosigns c stack tx signer rest = some (tx', bytes)) :
    (∀ stack', ∃ r, deserialize c stack' now bytes = some r ∧ SameTx tx' r.tx ∧ r.len = bytes.length ∧
      r.signedcount = tx.signed.length + (rest.length + 1)) ↔
    Cosigned c stack (tx.stamped signer.timestamp) now ((signer :: rest).map Signer.privkey) := by
  obtain ⟨txl, last, d, sigs, hser, hlast, hroom, hcarried, huse⟩ := cosigns_some h
  have htime : (txl.stamped last.timestamp).timestamp = (tx.stamped signer.timestamp).timestamp := by rw [hlast]
  have hbytes : (txl.stamped last.timestamp).unsignedBytes stack = (tx.stamped signer.timestamp).unsignedBytes stack := by
    rw [hlast, unsignedBytes_update]
  have haddrs : (txl.stamped last.timestamp).addrs = (tx.stamped signer.timestamp).addrs := by rw [hlast]; rfl
  have hdetails : (txl.stamped last.timestamp).DetailsCarried ↔ (tx.stamped signer.timestamp).DetailsCarried := by
    rw [hlast]
    rfl
  have hmessage : (txl.stamped last.timestamp).msglen = (tx.stamped signer.timestamp).msglen := by rw [hlast]
  have hover := overData_iff hc (tx.stamped signer.timestamp).timestamp ((tx.stamped signer.timestamp).unsignedBytes stack)
    (tx.stamped signer.timestamp).signed ((signer :: rest).map Signer.privkey)
  rw [stamped_signed] at hover
  constructor
  · intro hall
    have hret : Returns c stack (txl.stamped last.timestamp) now last.privkey := by
      apply returns_of_accepted hser
      intro stack'
      obtain ⟨r, hr, hsame, -⟩ := hall stack'
      exact ⟨r, hr, hsame⟩
    have hvalid : ∀ s ∈ (txl.stamped last.timestamp).carriedSigs c stack last.privkey,
        acct777Validate c s (tx.stamped signer.timestamp).timestamp
          ((tx.stamped signer.timestamp).unsignedBytes stack) ≠ 0 := by
      intro s hs
      rw [← htime, ← hbytes]
      exact hret.valid s hs (huse s hs)
    rw [hcarried, List.forall_mem_append] at hvalid
    refine ⟨haddrs ▸ hret.addrs, hdetails.mp hret.details, hmessage ▸ hret.message, htime ▸ hret.timestamp, ?_, ?_⟩
    · rw [stamped_signed]
      exact hvalid.1
    · rw [stamped_signed]
      exact hover.mpr hvalid.2
  · intro hco stack'
    have hret : Returns c stack (txl.stamped last.timestamp) now last.privkey := by
      refine ⟨haddrs.symm ▸ hco.addrs, hdetails.mpr hco.details, hmessage.trans hco.message, htime.symm ▸ hco.timestamp,
        hroom, ?_⟩
      intro s hs _
      rw [htime, hbytes]
      rw [hcarried] at hs
      rcases List.mem_append.mp hs with hs | hs
      · exact hco.present s (by rwa [stamped_signed])
      · have hadded := hco.added
        rw [stamped_signed] at hadded
        exact hover.mp hadded s hs
    obtain ⟨r, hr, hsame, hlen, hcount⟩ := hret.accepted hser stack'
    refine ⟨r, hr, hsame, hlen, ?_⟩
    rw [hcount, List.takeWhile_eq_self_iff.mpr huse, hcarried, List.length_append, signatures_length, List.length_map,
      List.length_cons]

end Turns

/-- A toy key exchange with base point 9 and a hash of the key and the number of bytes. -/
def toyCrypto : Crypto where
  curve25519 a b := a * b
  sha256cat seed data := BitVec.ofNat 256 (2^16 * leValue seed + 2 * data.length + 1)
  pubkey p := p * 9
  nxt64bits pk := pk.setWidth 64 ||| 1
  genesisPrivkey := 3
  genesisPubkey := 27

theorem toyCrypto_correct : toyCrypto.Correct := by
  intro privkey timestamp data
  refine ⟨validate_signtx toyCrypto privkey timestamp data ?_, ?_⟩
  · change (3 : BitVec 256) * (privkey * 9) = privkey * 27
    rw [BitVec.mul_comm, BitVec.mul_assoc]
    rfl
  · intro h
    have hbit := congrArg (fun x : BitVec 64 => x.getLsbD 0) h
    simp [toyCrypto] at hbit

theorem deserialize_cosigns_iff_payment : toyCrypto.Correct ∧ ∃ tx' bytes,
    cosigns toyCrypto clearStack (payment 5) ⟨1001, 0, 100⟩ [] = some (tx', bytes) ∧
    ((∀ stack', ∃ r, deserialize toyCrypto stack' 0 bytes = some r ∧ SameTx tx' r.tx ∧ r.len = bytes.length ∧
      r.signedcount = (payment 5).signed.length + 1) ↔
    Cosigned toyCrypto clearStack ((payment 5).stamped 100) 0 [1001]) := by
  obtain ⟨⟨tx', bytes⟩, h⟩ := Option.isSome_iff_exists.mp
    (show (cosigns toyCrypto clearStack (payment 5) ⟨1001, 0, 100⟩ []).isSome = true by decide +kernel)
  exact ⟨toyCrypto_correct, tx', bytes, h, deserialize_cosigns_iff toyCrypto_correct h⟩

/-- The second of two signers signs the first signature too, which the reader leaves out. -/
theorem second_signer_rejected : ¬ ∀ (c : Crypto) (stack : Stack) (tx : PeggyTx) (signer : Signer) (rest : List Signer)
    (tx' : PeggyTx) (bytes : List UInt8), c.Correct → cosigns c stack tx signer rest = some (tx', bytes) →
    ∃ r, deserialize c stack 0 bytes = some r ∧ r.signedcount = tx.signed.length + (rest.length + 1) := by
  intro hall
  have hser : (cosigns toyCrypto clearStack (payment 5) ⟨1001, 0, 100⟩ [⟨1002, 0, 100⟩]).isSome = true := by decide +kernel
  have hdes : ((cosigns toyCrypto clearStack (payment 5) ⟨1001, 0, 100⟩ [⟨1002, 0, 100⟩]).bind fun p =>
      deserialize toyCrypto clearStack 0 p.2).isNone = true := by decide +kernel
  obtain ⟨⟨tx', bytes⟩, h⟩ := Option.isSome_iff_exists.mp hser
  obtain ⟨r, hr, -⟩ := hall _ _ _ _ _ tx' bytes toyCrypto_correct h
  rw [h, Option.bind_some, hr] at hdes
  exact absurd hdes (by simp)

end SuperNet.Peggy.Serdes777
