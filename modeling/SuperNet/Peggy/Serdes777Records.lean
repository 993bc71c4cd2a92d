import SuperNet.Peggy.Serdes777Fields
import SuperNet.Peggy.Serdes777Tx

/-! What comes back of each record: addresses, inputs and outputs, details. -/
namespace SuperNet.Peggy.Serdes777
open Lib.Words Lib.BitCodec Utils.Huffstream

/-- Writers end in tested bits, except for single bytes. -/
theorem rw_endsTested {size : Size} {x : Nat} {cs : List Call} (hs : size ≠ .char) (h : Put.rw size x = some cs) :
    EndsTested cs := by
  have hbits (n x : Nat) : EndsTested (Put.rwbits n x) := by
    intro c hc
    obtain ⟨b, -, rfl⟩ := List.mem_map.mp (List.mem_of_getLast? hc)
    rfl
  have hsize (s : Nat) (hs : s ≠ 3) (h : Put.rwsizebits s x = some cs) : EndsTested cs := by
    rw [Put.rwsizebits, if_neg hs] at h
    split at h
    · exact absurd h (by simp)
    · obtain rfl := Option.some.inj h
      exact (hbits _ _).append (hbits _ _)
  cases size with
  | raw n =>
    obtain rfl := Option.some.inj h
    exact hbits _ _
  | char => exact absurd rfl hs
  | short => exact hsize 4 (by decide) h
  | int => exact hsize 5 (by decide) h
  | long => exact hsize 6 (by decide) h

theorem rw_ne_nil {size : Size} {x : Nat} {cs : List Call} (hs : size = .long ∨ size = .int ∨ size = .short)
    (h : Put.rw size x = some cs) : cs ≠ [] := by
  have hsize (s : Nat) (hs : 3 < s) (h : Put.rwsizebits s x = some cs) : cs ≠ [] := by
    have hlen := congrArg List.length (put_sizebits (by omega) h).2
    rw [bits_length, List.length_append, leBits_length] at hlen
    exact List.ne_nil_of_length_pos (by omega)
  rcases hs with rfl | rfl | rfl
  · exact hsize 6 (by decide) h
  · exact hsize 5 (by decide) h
  · exact hsize 4 (by decide) h

/-- A table that ends in a number of more than one byte. -/
theorem codec_endsTested (tokens : List (Size × Nat)) {size : Size} {x : Nat} {cs : List Call}
    (hs : size = .long ∨ size = .int ∨ size = .short) (h : Put.codec (tokens ++ [(size, x)]) = some cs) :
    EndsTested cs ∧ cs ≠ [] := by
  induction tokens generalizing cs with
  | nil =>
    obtain ⟨ds, es, hds, hes, rfl⟩ := codec_cons h
    obtain rfl := Option.some.inj hes
    rw [List.append_nil]
    have hchar : size ≠ .char := by
      rcases hs with rfl | rfl | rfl <;> decide
    exact ⟨rw_endsTested hchar hds, rw_ne_nil hs hds⟩
  | cons t tokens ih =>
    obtain ⟨ds, es, -, hes, rfl⟩ := codec_cons h
    obtain ⟨hend, hne⟩ := ih hes
    exact ⟨hend.of_ne_nil ds hne, by simp [hne]⟩

/-- The address that comes back. -/
def PeggyAddr.readback (addr : PeggyAddr) (type : BitVec 8) : PeggyAddr :=
  match AddrKind.ofType type with
  | some .nxt => ⟨BitVec.ofNat 256 addr.nxt64bits.toNat, default⟩
  | some .create => ⟨addr.sha256, { addr.newlock with redemptiongapdays := 0, extralockdays := 0 }⟩
  | _ => addr

/-- The bits of an address that `serdes777_rwaddr` reads and does not count. -/
def PeggyAddr.lost (addr : PeggyAddr) (type : BitVec 8) : Nat :=
  match AddrKind.ofType type with
  | some .unit | some .pubkey => 256 + (((Put.rw .short addr.newlock.peg.toNat).getD []).length +
      ((Put.rw .short addr.newlock.minlockdays.toNat).getD []).length)
  | _ => 0

theorem saMbits_fits (addr : PeggyAddr) : Fits addr.saMbits := by
  intro t ht
  fin_cases ht <;> exact BitVec.isLt _

theorem locktokens_fits (lock : PeggyLock) : Fits (locktokens lock) := by
  intro t ht
  fin_cases ht <;> exact BitVec.isLt _

theorem hdrtokens_fits (hdr : PeggyHdr) : Fits (hdrtokens hdr) := by
  intro t ht
  fin_cases ht <;> exact BitVec.isLt _

theorem ofSaM_saMbits (addr : PeggyAddr) : PeggyAddr.ofSaM (addr.saMbits.map Prod.snd) = addr := by
  simp [PeggyAddr.saMbits, PeggyAddr.ofSaM]

theorem lockOf_locktokens (lock : PeggyLock) :
    lockOf ((locktokens lock).map Prod.snd) = { lock with redemptiongapdays := 0, extralockdays := 0 } := by
  simp [locktokens, lockOf]

theorem hdrOf_hdrtokens (hdr : PeggyHdr) : hdrOf ((hdrtokens hdr).map Prod.snd) = hdr := by
  simp [hdrtokens, hdrOf]

private theorem unitaddr_parses {addr : PeggyAddr} {cs : List Call}
    (h : (do
      let sha ← Put.rw (.raw 32) addr.sha256.toNat
      let peg ← Put.rw .short addr.newlock.peg.toNat
      let minlockdays ← Put.rw .short addr.newlock.minlockdays.toNat
      let sam ← Put.codec addr.saMbits
      some (sha ++ (peg ++ (minlockdays ++ sam)))) = some cs) :
    ∃ n, n + (256 + (((Put.rw .short addr.newlock.peg.toNat).getD []).length +
      ((Put.rw .short addr.newlock.minlockdays.toNat).getD []).length)) = cs.length ∧
    Parses Huff.Ahead (do
      let _ ← Get.rw (.raw 32)
      let _ ← Get.rw .short
      let _ ← Get.rw .short
      let sam ← Get.codec saMsizes
      pure (PeggyAddr.ofSaM sam.1, sam.2)) (bits cs) (addr, n) := by
  simp only [Option.bind_eq_bind, Option.bind_eq_some_iff, Option.some.injEq] at h
  obtain ⟨sha, hsha, peg, hpeg, mld, hmld, sam, hsam, rfl⟩ := h
  have hlen : sha.length = 256 := by
    obtain rfl := Option.some.inj hsha
    exact rwbits_length _ _
  have hback := (codec_parses (saMbits_fits addr) hsam).map fun r => (PeggyAddr.ofSaM r.1, r.2)
  rw [ofSaM_saMbits] at hback
  refine ⟨sam.length, ?_, ?_⟩
  · rw [hpeg, hmld]
    simp only [Option.getD_some, List.length_append, hlen]
    omega
  · rw [bits_append, bits_append, bits_append]
    exact (rw_parses addr.sha256.isLt hsha).bind ((rw_parses addr.newlock.peg.isLt hpeg).bind
      ((rw_parses addr.newlock.minlockdays.isLt hmld).bind hback))

theorem rwaddr_parses {stack stack' : Stack} {addr : PeggyAddr} {type : BitVec 8} {cs : List Call}
    (hk : AddrKind.ofType type ≠ some .btcd) (h : Put.rwaddr stack addr type = some cs) :
    ∃ n, n + addr.lost type = cs.length ∧
      Parses Huff.Ahead (Get.rwaddr stack' type) (bits cs) (addr.readback type, n) := by
  rw [Put.rwaddr] at h
  rw [Get.rwaddr, PeggyAddr.lost, PeggyAddr.readback]
  cases hkind : AddrKind.ofType type with
  | none =>
    rw [hkind] at h
    exact absurd h (by simp)
  | some kind =>
    rw [hkind] at h
    cases kind with
    | btcd => exact absurd hkind hk
    | nxt =>
      have hp := rw_parses addr.nxt64bits.isLt h
      exact ⟨cs.length, rfl, hp.map fun r => ((⟨BitVec.ofNat 256 r.1, default⟩ : PeggyAddr), r.2)⟩
    | create =>
      simp only [Option.bind_eq_bind, Option.bind_eq_some_iff, Option.some.injEq] at h
      obtain ⟨sha, hsha, lock, hlock, rfl⟩ := h
      have hback := (codec_parses (locktokens_fits addr.newlock) hlock).map fun r =>
        ((⟨BitVec.ofNat 256 addr.sha256.toNat, lockOf r.1⟩ : PeggyAddr), sha.length + r.2)
      rw [lockOf_locktokens] at hback
      refine ⟨(sha ++ lock).length, rfl, ?_⟩
      rw [bits_append, List.length_append]
      refine (rw_parses addr.sha256.isLt hsha).bind ?_
      simp only [BitVec.ofNat_toNat, BitVec.setWidth_eq] at hback ⊢
      exact hback
    | unit => exact unitaddr_parses h
    | pubkey => exact unitaddr_parses h
    | sam777 =>
      have hback := (codec_parses (saMbits_fits addr) h).map fun r => (PeggyAddr.ofSaM r.1, r.2)
      rw [ofSaM_saMbits] at hback
      exact ⟨cs.length, rfl, hback⟩

theorem rwinout_parses {stack stack' : Stack} {type link : BitVec 8} {addr : PeggyAddr} {size : Size} {tail : Nat}
    {cs : List Call} (hk : AddrKind.ofType type ≠ some .btcd) (htail : tail < 2^size.bits)
    (h : Put.rwinout stack type link addr size tail = some cs) :
    ∃ n, n + addr.lost type = cs.length ∧
      Parses Huff.Ahead (Get.rwinout stack' size) (bits cs) (⟨type, link, addr.readback type, tail⟩, n) := by
  simp only [Put.rwinout, Option.bind_eq_bind, Option.bind_eq_some_iff, Option.some.injEq] at h
  obtain ⟨a, ha, b, hb, c, hc, d, hd, rfl⟩ := h
  obtain ⟨n, hn, hcp⟩ := rwaddr_parses hk hc
  refine ⟨a.length + (b.length + (n + d.length)), ?_, ?_⟩
  · simp only [List.length_append]
    omega
  · have hdp := (rw_parses htail hd).map fun r =>
      ((⟨type, link, addr.readback type, r.1⟩ : Get.InOut), a.length + (b.length + (n + r.2)))
    rw [bits_append, bits_append, bits_append]
    refine (rw_parses type.isLt ha).bind ((rw_parses link.isLt hb).bind ?_)
    simp only [BitVec.ofNat_toNat, BitVec.setWidth_eq]
    exact hcp.bind hdp

def PeggyInput.readback (inp : PeggyInput) : PeggyInput := { inp with src := inp.src.readback inp.type }
def PeggyOutput.readback (out : PeggyOutput) : PeggyOutput := { out with dest := out.dest.readback out.type }

theorem rwinput_parses {stack stack' : Stack} {inp : PeggyInput} {cs : List Call}
    (hk : AddrKind.ofType inp.type ≠ some .btcd) (h : Put.rwinput stack inp = some cs) :
    ∃ n, n + inp.src.lost inp.type = cs.length ∧
      Parses Huff.Ahead (Get.rwinput stack') (bits cs) (inp.readback, n) := by
  obtain ⟨n, hn, hp⟩ := rwinout_parses hk inp.amount.isLt h
  refine ⟨n, hn, ?_⟩
  have := hp.map fun r => ((⟨r.1.type, r.1.link, r.1.addr, BitVec.ofNat 64 r.1.tail⟩ : PeggyInput), r.2)
  simp only [BitVec.ofNat_toNat, BitVec.setWidth_eq] at this
  exact this

theorem rwoutput_parses {stack stack' : Stack} {out : PeggyOutput} {cs : List Call}
    (hk : AddrKind.ofType out.type ≠ some .btcd) (h : Put.rwoutput stack out = some cs) :
    ∃ n, n + out.dest.lost out.type = cs.length ∧
      Parses Huff.Ahead (Get.rwoutput stack') (bits cs) (out.readback, n) := by
  obtain ⟨n, hn, hp⟩ := rwinout_parses hk out.ratio.isLt h
  refine ⟨n, hn, ?_⟩
  have := hp.map fun r => ((⟨r.1.type, r.1.link, r.1.addr, BitVec.ofNat 32 r.1.tail⟩ : PeggyOutput), r.2)
  simp only [BitVec.ofNat_toNat, BitVec.setWidth_eq] at this
  exact this

theorem items_cons {α : Type} {put : α → Option (List Call)} {x : α} {xs : List α} {cs : List Call}
    (h : Put.items put (x :: xs) = some cs) :
    ∃ ds es, put x = some ds ∧ Put.items put xs = some es ∧ cs = ds ++ es := by
  simp only [Put.items, Option.bind_eq_bind, Option.bind_eq_some_iff, Option.some.injEq] at h
  obtain ⟨ds, hds, es, hes, rfl⟩ := h
  exact ⟨ds, es, hds, hes, rfl⟩

theorem items_endsTested {α : Type} {put : α → Option (List Call)} {xs : List α} {cs : List Call}
    (hx : ∀ x ds, put x = some ds → EndsTested ds) (h : Put.items put xs = some cs) : EndsTested cs := by
  induction xs generalizing cs with
  | nil =>
    obtain rfl := Option.some.inj h
    exact EndsTested.nil
  | cons x xs ih =>
    obtain ⟨ds, es, hds, hes, rfl⟩ := items_cons h
    exact (hx x ds hds).append (ih hes)

section Items

variable {α β : Type} {put : α → Option (List Call)} {get : Rd (β × Nat)} {back : α → β} {lost : α → Nat}
  {xs : List α} {cs : List Call}

private theorem times_parses (hx : ∀ x ∈ xs, ∀ ds, put x = some ds →
      ∃ n, n + lost x = ds.length ∧ Parses Huff.Ahead get (bits ds) (back x, n)) (h : Put.items put xs = some cs) :
    ∃ ys : List (β × Nat), ys.map Prod.fst = xs.map back ∧ (ys.map Prod.snd).sum + (xs.map lost).sum = cs.length ∧
      Parses Huff.Ahead (times get xs.length) (bits cs) ys := by
  induction xs generalizing cs with
  | nil =>
    obtain rfl := Option.some.inj h
    exact ⟨[], rfl, rfl, Parses.pure []⟩
  | cons x xs ih =>
    obtain ⟨ds, es, hds, hes, rfl⟩ := items_cons h
    obtain ⟨n, hn, hp⟩ := hx x List.mem_cons_self ds hds
    obtain ⟨ys, hfst, hsum, hps⟩ := ih (fun y hy => hx y (List.mem_cons_of_mem x hy)) hes
    refine ⟨(back x, n) :: ys, ?_, ?_, ?_⟩
    · rw [List.map_cons, List.map_cons, hfst]
    · simp only [List.map_cons, List.sum_cons, List.length_append]
      omega
    · rw [bits_append, List.length_cons]
      exact hp.times_succ hps

/-- A counted array whose items come back comes back, and the uncounted bits add up. -/
theorem items_parses (room : Nat) (get : Rd (β × Nat)) (hroom : xs.length ≤ room) (hx : ∀ x ∈ xs, ∀ ds, put x = some ds →
      ∃ n, n + lost x = ds.length ∧ Parses Huff.Ahead get (bits ds) (back x, n)) (h : Put.items put xs = some cs) :
    ∃ n, n + (xs.map lost).sum = cs.length ∧
      Parses Huff.Ahead (Get.items room xs.length get) (bits cs) (xs.map back, n) := by
  obtain ⟨ys, hfst, hsum, hps⟩ := times_parses hx h
  refine ⟨(ys.map Prod.snd).sum, hsum, ?_⟩
  rw [Get.items, if_neg (not_lt.mpr hroom), ← hfst]
  exact hps.map fun ys => (ys.map Prod.fst, (ys.map Prod.snd).sum)

theorem items_rejects (room : Nat) (get : Rd (β × Nat)) (hx : ∀ x ∈ xs, ∀ ds, put x = some ds →
      (∃ y, Parses Huff.Ahead get (bits ds) y) ∨ Rejects Huff.Ahead get (bits ds))
    (hbad : ∃ x ∈ xs, ∀ ds, put x = some ds → Rejects Huff.Ahead get (bits ds)) (h : Put.items put xs = some cs) :
    Rejects Huff.Ahead (Get.items room xs.length get) (bits cs) := by
  have htimes : Rejects Huff.Ahead (times get xs.length) (bits cs) := by
    induction xs generalizing cs with
    | nil =>
      obtain ⟨x, hx, -⟩ := hbad
      exact absurd hx List.not_mem_nil
    | cons x xs ih =>
      obtain ⟨ds, es, hds, hes, rfl⟩ := items_cons h
      rw [bits_append, List.length_cons]
      rcases hx x List.mem_cons_self ds hds with ⟨y, hp⟩ | hr
      · obtain ⟨z, hz, hzr⟩ := hbad
        rcases List.mem_cons.mp hz with rfl | hz
        · exact (hzr ds hds).times_succ
        · exact hp.times_succ_rejects (ih (fun u hu => hx u (List.mem_cons_of_mem x hu)) ⟨z, hz, hzr⟩ hes)
      · exact hr.times_succ
  rw [Get.items]
  split
  · exact Rejects.of_none fun _ => rfl
  · have hrest : Rejects Huff.Ahead (times get xs.length >>= fun ys => pure (ys.map Prod.fst, (ys.map Prod.snd).sum))
        (bits cs ++ []) := htimes.bind
    rwa [List.append_nil] at hrest

end Items

/-- The values of an array's used entries, when they are inside the array. -/
def used {α : Type} [Inhabited α] (n : Nat) (xs : List α) : List α := (List.range n).map fun i => xs.getD i default

theorem entries_some {α : Type} [Inhabited α] {room n : Nat} {xs ys : List α} (h : entries room n xs = some ys) :
    n ≤ room ∧ ys = used n xs := by
  rw [entries] at h
  split at h
  · exact absurd h (by simp)
  · exact ⟨by omega, (Option.some.inj h).symm⟩

@[simp] theorem used_length {α : Type} [Inhabited α] (n : Nat) (xs : List α) : (used n xs).length = n := by
  simp [used]

theorem rwinout_endsTested {stack : Stack} {type link : BitVec 8} {addr : PeggyAddr} {size : Size} {tail : Nat}
    {cs : List Call} (hs : size = .long ∨ size = .int ∨ size = .short)
    (h : Put.rwinout stack type link addr size tail = some cs) : EndsTested cs := by
  simp only [Put.rwinout, Option.bind_eq_bind, Option.bind_eq_some_iff, Option.some.injEq] at h
  obtain ⟨a, -, b, -, c, -, d, hd, rfl⟩ := h
  have hchar : size ≠ .char := by
    rcases hs with rfl | rfl | rfl <;> decide
  rw [← List.append_assoc, ← List.append_assoc]
  exact (rw_endsTested hchar hd).of_ne_nil _ (rw_ne_nil hs hd)

/-- Inputs, outputs and funding never end in an untested bit, whatever their addresses. -/
theorem rwinouts_endsTested {stack : Stack} {tx : PeggyTx} {cs : List Call} (h : Put.rwinouts stack tx = some cs) :
    EndsTested cs := by
  simp only [Put.rwinouts, Option.bind_eq_bind, Option.bind_eq_some_iff, Option.some.injEq] at h
  obtain ⟨f, hf, xs, -, i, hi, ys, -, o, ho, rfl⟩ := h
  have hfund : EndsTested f := by
    rw [Put.rwfunding] at hf
    split at hf
    · exact rwinout_endsTested (.inl rfl) hf
    · obtain rfl := Option.some.inj hf
      exact EndsTested.nil
  have hin := items_endsTested (fun x ds hx => rwinout_endsTested (.inl rfl) hx) hi
  have hout := items_endsTested (fun x ds hx => rwinout_endsTested (.inr (.inl rfl)) hx) ho
  exact hfund.append (hin.append hout)

/-- The addresses that a transaction uses, each with its type. -/
def PeggyTx.addrs (tx : PeggyTx) : List (BitVec 8 × PeggyAddr) :=
  (if tx.hasFunding then [(tx.funding.type, tx.funding.src)] else []) ++
    ((used tx.numinputs.toNat tx.inputs).map (fun inp => (inp.type, inp.src)) ++
      (used tx.numoutputs.toNat tx.outputs).map fun out => (out.type, out.dest))

def PeggyTx.lost (tx : PeggyTx) : Nat := (tx.addrs.map fun a => a.2.lost a.1).sum

/-- What comes back of funding, inputs and outputs. -/
def PeggyTx.inoutsBack (tx : PeggyTx) : PeggyInput × List PeggyInput × List PeggyOutput :=
  (if tx.hasFunding then tx.funding.readback else default, (used tx.numinputs.toNat tx.inputs).map PeggyInput.readback,
    (used tx.numoutputs.toNat tx.outputs).map PeggyOutput.readback)

theorem rwfunding_parses (stack' : Stack) {stack : Stack} {tx : PeggyTx} {cs : List Call}
    (hk : tx.hasFunding = true → AddrKind.ofType tx.funding.type ≠ some .btcd) (h : Put.rwfunding stack tx = some cs) :
    ∃ n, n + ((if tx.hasFunding then [(tx.funding.type, tx.funding.src)] else []).map fun a => a.2.lost a.1).sum = cs.length ∧
      Parses Huff.Ahead (Get.rwfunding stack' tx.toPeggyHdr) (bits cs) (tx.inoutsBack.1, n) := by
  rw [Put.rwfunding] at h
  rw [Get.rwfunding, PeggyTx.inoutsBack]
  by_cases hf : tx.hasFunding = true
  · simp only [hf, if_true] at h ⊢
    exact rwinput_parses (hk hf) h
  · simp only [hf, Bool.false_eq_true, if_false] at h ⊢
    obtain rfl := Option.some.inj h
    exact ⟨0, rfl, Parses.pure _⟩

theorem rwinouts_parses (stack' : Stack) {stack : Stack} {tx : PeggyTx} {cs : List Call}
    (hk : ∀ a ∈ tx.addrs, AddrKind.ofType a.1 ≠ some .btcd) (h : Put.rwinouts stack tx = some cs) :
    ∃ n, n + tx.lost = cs.length ∧
      Parses Huff.Ahead (Get.rwinouts stack' tx.toPeggyHdr) (bits cs) (tx.inoutsBack, n) := by
  simp only [Put.rwinouts, Option.bind_eq_bind, Option.bind_eq_some_iff, Option.some.injEq] at h
  obtain ⟨f, hf, xs, hxs, i, hi, ys, hys, o, ho, rfl⟩ := h
  obtain ⟨hroom, rfl⟩ := entries_some hxs
  obtain ⟨hroom', rfl⟩ := entries_some hys
  have hkf : tx.hasFunding = true → AddrKind.ofType tx.funding.type ≠ some .btcd := by
    intro hfund
    exact hk (tx.funding.type, tx.funding.src) (by simp [PeggyTx.addrs, hfund])
  have hki (inp : PeggyInput) (hm : inp ∈ used tx.numinputs.toNat tx.inputs) : AddrKind.ofType inp.type ≠ some .btcd := by
    refine hk (inp.type, inp.src) ?_
    exact List.mem_append_right _ (List.mem_append_left _ (List.mem_map_of_mem hm))
  have hko (out : PeggyOutput) (hm : out ∈ used tx.numoutputs.toNat tx.outputs) : AddrKind.ofType out.type ≠ some .btcd := by
    refine hk (out.type, out.dest) ?_
    exact List.mem_append_right _ (List.mem_append_right _ (List.mem_map_of_mem hm))
  obtain ⟨n₁, hn₁, hp₁⟩ := rwfunding_parses stack' hkf hf
  obtain ⟨n₂, hn₂, hp₂⟩ := items_parses 15 (Get.rwinput stack') (by rwa [used_length])
    (fun inp hm ds hds => rwinput_parses (hki inp hm) hds) hi
  obtain ⟨n₃, hn₃, hp₃⟩ := items_parses 16 (Get.rwoutput stack') (by rwa [used_length])
    (fun out hm ds hds => rwoutput_parses (hko out hm) hds) ho
  rw [used_length] at hp₂ hp₃
  refine ⟨n₁ + (n₂ + n₃), ?_, ?_⟩
  · rw [PeggyTx.lost, PeggyTx.addrs, List.map_append, List.map_append, List.sum_append, List.sum_append, List.map_map,
      List.map_map, List.length_append, List.length_append, ← hn₁, ← hn₂, ← hn₃]
    simp only [Function.comp_def]
    omega
  · rw [bits_append, bits_append]
    exact hp₁.bind (hp₂.bind (hp₃.map fun r => ((tx.inoutsBack.1, tx.inoutsBack.2.1, r.1), n₁ + (n₂ + r.2))))

end SuperNet.Peggy.Serdes777
