import SuperNet.Peggy.Serdes777Records

/-! The read walk over what the write walk has written: a transaction without strings comes
back, one with a string depends on uninitialised memory. -/
namespace SuperNet.Peggy.Serdes777
open Lib.Words Lib.BitCodec Utils.Huffstream

def PeggyTx.kindBack (tx : PeggyTx) : TxDetails :=
  match tx.kind with
  | .prices => { (default : TxDetails) with
      price := { tx.details.price with feed := used tx.details.price.num.toNat tx.details.price.feed } }
  | _ => default

/-- Nothing in the transaction goes through `serdes777_rwstr`. -/
structure PeggyTx.Stringless (tx : PeggyTx) : Prop where
  addrs : ∀ a ∈ tx.addrs, AddrKind.ofType a.1 ≠ some .btcd
  bets : tx.kind = .bet → tx.numdetails = 0
  micropays : tx.kind = .micropay → tx.numdetails = 0
  message : tx.msglen = 0

theorem rwprices_parses {price : TxPrices} {cs : List Call} (h : Put.rwprices price = some cs) :
    Parses Huff.Ahead Get.rwprices (bits cs) ({ price with feed := used price.num.toNat price.feed }, cs.length) := by
  simp only [Put.rwprices, Option.bind_eq_bind, Option.bind_eq_some_iff, Option.some.injEq] at h
  obtain ⟨a, ha, xs, hxs, b, hb, rfl⟩ := h
  obtain ⟨hroom, rfl⟩ := entries_some hxs
  obtain ⟨a₁, as₁, ha₁, has₁, rfl⟩ := codec_cons ha
  obtain ⟨a₂, as₂, ha₂, has₂, rfl⟩ := codec_cons has₁
  obtain ⟨a₃, as₃, ha₃, has₃, rfl⟩ := codec_cons has₂
  obtain rfl := Option.some.inj has₃
  have hitem (x : BitVec 32) (_ : x ∈ used price.num.toNat price.feed) (ds : List Call)
      (hds : Put.rw .int x.toNat = some ds) :
      ∃ n, n + 0 = ds.length ∧ Parses Huff.Ahead (Get.rw .int) (bits ds) (x.toNat, n) :=
    ⟨ds.length, rfl, rw_parses x.isLt hds⟩
  obtain ⟨n, hn, hp⟩ := items_parses 256 (Get.rw .int) (by rwa [used_length]) hitem hb
  rw [List.map_const', List.sum_replicate, smul_zero, add_zero] at hn
  rw [used_length] at hp
  subst hn
  have hfeed : ((used price.num.toNat price.feed).map fun x => x.toNat).map (BitVec.ofNat 32) =
      used price.num.toNat price.feed := by
    simp [Function.comp_def]
  have hlast := hp.map fun r => ((⟨price.num, price.maxlockdays, price.timestamp, r.1.map (BitVec.ofNat 32)⟩ : TxPrices),
    a₁.length + (a₂.length + (a₃.length + r.2)))
  rw [hfeed] at hlast
  have hall : Parses Huff.Ahead Get.rwprices (bits a₁ ++ (bits a₂ ++ (bits a₃ ++ bits b)))
      ({ price with feed := used price.num.toNat price.feed }, a₁.length + (a₂.length + (a₃.length + b.length))) := by
    refine (rw_parses price.num.isLt ha₁).bind ((rw_parses price.timestamp.isLt ha₂).bind
      ((rw_parses price.maxlockdays.isLt ha₃).bind ?_))
    simp only [BitVec.ofNat_toNat, BitVec.setWidth_eq]
    exact hlast
  simpa only [bits_append, List.append_nil, List.append_assoc, List.length_append, Nat.add_assoc] using hall

theorem rwprices_endsTested {price : TxPrices} {cs : List Call} (h : Put.rwprices price = some cs) : EndsTested cs := by
  simp only [Put.rwprices, Option.bind_eq_bind, Option.bind_eq_some_iff, Option.some.injEq] at h
  obtain ⟨a, ha, xs, -, b, hb, rfl⟩ := h
  have hhead := (codec_endsTested [_, _] (.inr (.inr rfl)) ha).1
  exact hhead.append (items_endsTested (fun x ds hds => rw_endsTested (by decide) hds) hb)

theorem rwdetails_parses (stack' : Stack) {stack : Stack} {tx : PeggyTx} {cs : List Call} (hs : tx.Stringless)
    (h : Put.rwdetails stack tx = some cs) :
    Parses Huff.Ahead (Get.rwdetails stack' tx.toPeggyHdr) (bits cs) ((tx.kindBack, 0), cs.length) ∧ EndsTested cs := by
  simp only [Put.rwdetails, Put.rwmessage, hs.message, ne_eq, not_true_eq_false, if_false, Option.bind_eq_bind,
    Option.bind_some, Option.bind_eq_some_iff, Option.some.injEq, List.append_nil, exists_eq_right] at h
  have hmsg : Parses Huff.Ahead (Get.rwmessage stack' tx.toPeggyHdr) [] (0, 0) := by
    rw [Get.rwmessage, if_neg (not_not.mpr hs.message)]
    exact Parses.pure _
  suffices hkind : Parses Huff.Ahead (Get.rwkind stack' tx.toPeggyHdr) (bits cs) (tx.kindBack, cs.length) ∧ EndsTested cs by
    refine ⟨?_, hkind.2⟩
    rw [← List.append_nil (bits cs)]
    exact hkind.1.bind (hmsg.map fun m => ((tx.kindBack, m.1), cs.length + m.2))
  rw [Put.rwkind] at h
  rw [Get.rwkind, PeggyTx.kindBack]
  cases hk : tx.kind with
  | bet =>
    simp only [hk, hs.bets hk] at h ⊢
    obtain rfl := Option.some.inj h
    exact ⟨Parses.pure _, EndsTested.nil⟩
  | micropay =>
    simp only [hk, hs.micropays hk] at h ⊢
    obtain rfl := Option.some.inj h
    exact ⟨Parses.pure _, EndsTested.nil⟩
  | prices =>
    simp only [hk] at h ⊢
    exact ⟨(rwprices_parses h).map fun r => ({ (default : TxDetails) with price := r.1 }, r.2), rwprices_endsTested h⟩
  | tune =>
    simp only [hk] at h ⊢
    obtain rfl := Option.some.inj h
    exact ⟨Parses.pure _, EndsTested.nil⟩
  | normal =>
    simp only [hk] at h ⊢
    obtain rfl := Option.some.inj h
    exact ⟨Parses.pure _, EndsTested.nil⟩

/-- The header and the table of its sizes belong together. -/
theorem hdr_parses {hdr : PeggyHdr} {cs : List Call} (h : Put.codec (hdrtokens hdr) = some cs) :
    Parses Huff.Ahead (Get.codec hdrsizes) (bits cs) ((hdrtokens hdr).map Prod.snd, cs.length) :=
  codec_parses (hdrtokens_fits hdr) h

theorem hdr_endsTested {hdr : PeggyHdr} {cs : List Call} (h : Put.codec (hdrtokens hdr) = some cs) : EndsTested cs :=
  (codec_endsTested [_, _, _, _, _, _, _, _, _] (.inr (.inl rfl)) h).1

/-- A stack on which every string read runs out of its array. -/
def overrun : Stack := ⟨2^15, fun _ => 0⟩

private theorem rwvarstr_overrun {room : Nat} (hroom : room ≤ bufsize) (hp : Huff) :
    Get.rwvarstr overrun room hp = none := by
  apply bind_none
  intro c hp
  have hc := Nat.mod_lt c.1 (show 0 < 256 by decide)
  have hn : signed 32 ((256 * overrun.len + c.1 % 256 : Nat) : Int) = ((256 * 2^15 + c.1 % 256 : Nat) : Int) := by
    apply signed_of_bounds <;> simp only [overrun] <;> push_cast <;> omega
  rw [bufsize] at hroom
  simp only [hn, Int.toNat_natCast]
  rw [if_pos (by omega)]

private theorem rwstr_overrun {room encoding : Nat} (hroom : room ≤ bufsize) (hp : Huff) :
    Get.rwstr overrun room encoding hp = none := by
  rw [Get.rwstr]
  split
  · exact rwvarstr_overrun hroom hp
  · exact none_bind (rwvarstr_overrun le_rfl hp)

private theorem items_overrun {α : Type} {get : Rd (α × Nat)} (room : Nat) {n : Nat} (hn : n ≠ 0)
    (hget : ∀ hp, get hp = none) (hp : Huff) : Get.items room n get hp = none := by
  rw [Get.items]
  split
  · rfl
  · obtain ⟨m, rfl⟩ := Nat.exists_eq_succ_of_ne_zero hn
    exact none_bind (none_bind (hget hp))

private theorem rwbet_overrun (hp : Huff) : Get.rwbet overrun hp = none :=
  bind_none (fun _ _ => none_bind (rwstr_overrun (by decide) _)) hp

private theorem rwmicropay_overrun (hp : Huff) : Get.rwmicropay overrun hp = none :=
  none_bind (rwstr_overrun (by decide) hp)

private theorem rwaddr_overrun {type : BitVec 8} (hk : AddrKind.ofType type = some .btcd) (hp : Huff) :
    Get.rwaddr overrun type hp = none := by
  rw [Get.rwaddr, hk]
  exact none_bind (rwstr_overrun (by decide) hp)

private theorem numdetails_ne {hdr : PeggyHdr} (h : hdr.numdetails ≠ 0) : hdr.numdetails.toNat ≠ 0 := by
  intro h0
  exact h (BitVec.eq_of_toNat_eq h0)

private theorem rwdetails_overrun {tx : PeggyTx} (haddr : ∀ a ∈ tx.addrs, AddrKind.ofType a.1 ≠ some .btcd)
    (hs : ¬ tx.Stringless) (hp : Huff) : Get.rwdetails overrun tx.toPeggyHdr hp = none := by
  by_cases hmsg : tx.msglen = 0
  · apply none_bind
    rw [Get.rwkind]
    by_cases hbet : tx.kind = .bet ∧ tx.numdetails ≠ 0
    · rw [hbet.1]
      exact none_bind (items_overrun 64 (numdetails_ne hbet.2) rwbet_overrun hp)
    · by_cases hpay : tx.kind = .micropay ∧ tx.numdetails ≠ 0
      · rw [hpay.1]
        exact none_bind (items_overrun 16 (numdetails_ne hpay.2) rwmicropay_overrun hp)
      · refine absurd ⟨haddr, ?_, ?_, hmsg⟩ hs
        · intro hk
          by_contra hne
          exact hbet ⟨hk, hne⟩
        · intro hk
          by_contra hne
          exact hpay ⟨hk, hne⟩
  · apply bind_none
    intro k hp
    apply none_bind
    rw [Get.rwmessage, if_pos hmsg]
    exact none_bind (rwstr_overrun (by decide) hp)

private theorem rwinout_rejects {stack : Stack} {type link : BitVec 8} {addr : PeggyAddr} {size : Size} {tail : Nat}
    {cs : List Call} (hk : AddrKind.ofType type = some .btcd) (h : Put.rwinout stack type link addr size tail = some cs) :
    Rejects Huff.Ahead (Get.rwinout overrun size) (bits cs) := by
  simp only [Put.rwinout, Option.bind_eq_bind, Option.bind_eq_some_iff, Option.some.injEq] at h
  obtain ⟨a, ha, b, hb, c, hc, d, hd, rfl⟩ := h
  rw [bits_append, bits_append]
  refine (rw_parses type.isLt ha).bind_rejects ((rw_parses link.isLt hb).bind_rejects (Rejects.of_none ?_))
  intro hp
  apply none_bind
  simp only [BitVec.ofNat_toNat, BitVec.setWidth_eq]
  exact rwaddr_overrun hk hp

private theorem rwinput_rejects {stack : Stack} {inp : PeggyInput} {cs : List Call}
    (hk : AddrKind.ofType inp.type = some .btcd) (h : Put.rwinput stack inp = some cs) :
    Rejects Huff.Ahead (Get.rwinput overrun) (bits cs) := by
  rw [← List.append_nil (bits cs)]
  exact (rwinout_rejects hk h).bind

private theorem rwoutput_rejects {stack : Stack} {out : PeggyOutput} {cs : List Call}
    (hk : AddrKind.ofType out.type = some .btcd) (h : Put.rwoutput stack out = some cs) :
    Rejects Huff.Ahead (Get.rwoutput overrun) (bits cs) := by
  rw [← List.append_nil (bits cs)]
  exact (rwinout_rejects hk h).bind

private theorem rwinouts_rejects {stack : Stack} {tx : PeggyTx} {cs : List Call}
    (hbad : ∃ a ∈ tx.addrs, AddrKind.ofType a.1 = some .btcd) (h : Put.rwinouts stack tx = some cs) :
    Rejects Huff.Ahead (Get.rwinouts overrun tx.toPeggyHdr) (bits cs) := by
  simp only [Put.rwinouts, Option.bind_eq_bind, Option.bind_eq_some_iff, Option.some.injEq] at h
  obtain ⟨f, hf, xs, hxs, i, hi, ys, hys, o, ho, rfl⟩ := h
  obtain ⟨hroom, rfl⟩ := entries_some hxs
  obtain ⟨-, rfl⟩ := entries_some hys
  rw [bits_append, bits_append]
  by_cases hfund : tx.hasFunding = true ∧ AddrKind.ofType tx.funding.type = some .btcd
  · refine Rejects.bind ?_
    rw [Put.rwfunding, if_pos hfund.1] at hf
    rw [Get.rwfunding, if_pos hfund.1]
    exact rwinput_rejects hfund.2 hf
  obtain ⟨n, -, hp⟩ := rwfunding_parses overrun (fun hh hb => hfund ⟨hh, hb⟩) hf
  refine hp.bind_rejects ?_
  by_cases hin : ∃ inp ∈ used tx.numinputs.toNat tx.inputs, AddrKind.ofType inp.type = some .btcd
  · obtain ⟨inp, hm, hk⟩ := hin
    refine Rejects.bind ?_
    have := items_rejects 15 (Get.rwinput overrun) (fun x _ ds hds => ?_) ⟨inp, hm, fun ds hds => rwinput_rejects hk hds⟩ hi
    · rwa [used_length] at this
    · by_cases hx : AddrKind.ofType x.type = some .btcd
      · exact .inr (rwinput_rejects hx hds)
      · obtain ⟨n, -, hpx⟩ := rwinput_parses hx hds
        exact .inl ⟨_, hpx⟩
  push Not at hin
  obtain ⟨n, -, hp⟩ := items_parses 15 (Get.rwinput overrun) (by rwa [used_length])
    (fun inp hm ds hds => rwinput_parses (hin inp hm) hds) hi
  rw [used_length] at hp
  refine hp.bind_rejects ?_
  have hout : ∃ out ∈ used tx.numoutputs.toNat tx.outputs, AddrKind.ofType out.type = some .btcd := by
    obtain ⟨a, ha, hk⟩ := hbad
    rcases List.mem_append.mp ha with ha | ha
    · split at ha
      · next hh =>
        obtain rfl := List.mem_singleton.mp ha
        exact absurd ⟨hh, hk⟩ hfund
      · exact absurd ha List.not_mem_nil
    · rcases List.mem_append.mp ha with ha | ha
      · obtain ⟨inp, hm, rfl⟩ := List.mem_map.mp ha
        exact absurd hk (hin inp hm)
      · obtain ⟨out, hm, rfl⟩ := List.mem_map.mp ha
        exact ⟨out, hm, hk⟩
  obtain ⟨out, hm, hk⟩ := hout
  rw [← List.append_nil (bits o)]
  refine Rejects.bind ?_
  have := items_rejects 16 (Get.rwoutput overrun) (fun x _ ds hds => ?_) ⟨out, hm, fun ds hds => rwoutput_rejects hk hds⟩ ho
  · rwa [used_length] at this
  · by_cases hx : AddrKind.ofType x.type = some .btcd
    · exact .inr (rwoutput_rejects hx hds)
    · obtain ⟨n, -, hpx⟩ := rwoutput_parses hx hds
      exact .inl ⟨_, hpx⟩

/-- A transaction that uses a string is not read back on every stack. -/
theorem rwtx_rejects {stack : Stack} {tx : PeggyTx} {hdr inouts : List Call} (hs : ¬ tx.Stringless)
    (hh : Put.codec (hdrtokens tx.toPeggyHdr) = some hdr) (hi : Put.rwinouts stack tx = some inouts) :
    Rejects Huff.Ahead (Get.rwtx overrun) (bits (hdr ++ inouts)) := by
  rw [bits_append]
  refine (hdr_parses hh).bind_rejects ?_
  simp only [hdrOf_hdrtokens]
  by_cases haddr : ∀ a ∈ tx.addrs, AddrKind.ofType a.1 ≠ some .btcd
  · refine Rejects.of_none (bind_none fun x hp => ?_)
    exact none_bind (rwdetails_overrun haddr hs hp)
  · push Not at haddr
    rw [← List.append_nil (bits inouts)]
    exact (rwinouts_rejects haddr hi).bind

/-- What comes back of a transaction without strings. -/
def PeggyTx.back (tx : PeggyTx) : PeggyTx :=
  ⟨tx.toPeggyHdr, tx.inoutsBack.2.1, tx.inoutsBack.1, tx.inoutsBack.2.2, tx.kindBack, 0, []⟩

theorem rwtx_parses (stack' : Stack) {stack : Stack} {tx : PeggyTx} {hdr inouts details : List Call} (hs : tx.Stringless)
    (hh : Put.codec (hdrtokens tx.toPeggyHdr) = some hdr) (hi : Put.rwinouts stack tx = some inouts)
    (hd : Put.rwdetails stack tx = some details) :
    ∃ n, n + tx.lost = (hdr ++ (inouts ++ details)).length ∧
      Parses Huff.Ahead (Get.rwtx stack') (bits (hdr ++ (inouts ++ details))) (tx.back, n) := by
  obtain ⟨n, hn, hp⟩ := rwinouts_parses stack' hs.addrs hi
  obtain ⟨hdet, -⟩ := rwdetails_parses stack' hs hd
  refine ⟨hdr.length + (n + details.length), ?_, ?_⟩
  · simp only [List.length_append]
    omega
  · rw [bits_append, bits_append]
    refine (hdr_parses hh).bind ?_
    simp only [hdrOf_hdrtokens]
    exact hp.bind (hdet.map fun d => ((⟨tx.toPeggyHdr, tx.inoutsBack.2.1, tx.inoutsBack.1, tx.inoutsBack.2.2, d.1.1, d.1.2,
      []⟩ : PeggyTx), hdr.length + (n + d.2)))

end SuperNet.Peggy.Serdes777
