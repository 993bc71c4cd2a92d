import SuperNet.Peggy.Serdes777Walk

/-! The bytes that `serdes777_serialize` produces, as the bits of the walk. -/
namespace SuperNet.Peggy.Serdes777
open Lib.Words Lib.BitCodec Utils.Huffstream

structure Begins (data : List UInt8) (bs : List Bool) : Prop where
  length : bs.length ≤ 8 * data.length
  bits : ∀ i (h : i < bs.length), (data.getD (i/8) 0).toNat.testBit (i%8) = bs.get ⟨i, h⟩

theorem Begins.append {data : List UInt8} {bs : List Bool} (h : Begins data bs) (more : List UInt8) :
    Begins (data ++ more) bs := by
  have hlen := h.length
  refine ⟨?_, ?_⟩
  · rw [List.length_append]
    omega
  · intro i hi
    rw [List.getD_append _ _ _ _ (by omega)]
    exact h.bits i hi

theorem Begins.ahead {data : List UInt8} {bs : List Bool} (h : Begins data bs) (hlen : data.length ≤ 4096) :
    ∃ rest, (givenHuff data hlen).Ahead (bs ++ rest) := by
  have hbs := h.length
  refine ⟨(List.range (8 * data.length - bs.length)).map fun j => (givenHuff data hlen).bitAt (bs.length + j), ?_⟩
  refine ⟨(Nat.zero_div 8).symm, (Nat.zero_mod 8).symm, ?_, ?_, ?_⟩
  · change 8 * data.length < 2^32
    omega
  · change 0 + _ = 8 * data.length
    simp only [List.length_append, List.length_map, List.length_range]
    omega
  · intro i hi
    change (givenHuff data hlen).bitAt (0 + i) = _
    rw [zero_add, List.get_eq_getElem]
    by_cases hib : i < bs.length
    · rw [List.getElem_append_left hib]
      exact h.bits i hib
    · rw [List.getElem_append_right (not_lt.mp hib), List.getElem_map, List.getElem_range]
      congr 1
      exact (Nat.add_sub_cancel' (not_lt.mp hib)).symm

/-- The parts of a written transaction. -/
structure Parts (stack : Stack) (tx : PeggyTx) (hdr inouts details : List Call) : Prop where
  hdr : Put.codec (hdrtokens tx.toPeggyHdr) = some hdr
  inouts : Put.rwinouts stack tx = some inouts
  details : Put.rwdetails stack tx = some details

theorem rwtx_parts {stack : Stack} {tx : PeggyTx} {cs : List Call} (h : Put.rwtx stack tx = some cs) :
    ∃ hdr inouts details, Parts stack tx hdr inouts details ∧ cs = hdr ++ (inouts ++ details) := by
  simp only [Put.rwtx, Option.bind_eq_bind, Option.bind_eq_some_iff, Option.some.injEq] at h
  obtain ⟨hdr, hh, inouts, hi, details, hd, rfl⟩ := h
  exact ⟨hdr, inouts, details, ⟨hh, hi, hd⟩, rfl⟩

/-- Writing another `datalen` changes the first 16 bits and nothing else. -/
theorem Parts.datalen {stack : Stack} {tx : PeggyTx} {hdr inouts details : List Call}
    (h : Parts stack tx hdr inouts details) (d : BitVec 16) :
    ∃ tail, hdr = Put.rwbits 16 tx.datalen.toNat ++ tail ∧
      Parts stack { tx with datalen := d } (Put.rwbits 16 d.toNat ++ tail) inouts details := by
  obtain ⟨first, tail, hfirst, htail, rfl⟩ := codec_cons h.hdr
  obtain rfl := Option.some.inj hfirst
  refine ⟨tail, rfl, ⟨?_, h.inouts, h.details⟩⟩
  change (Put.rw (.raw 2) d.toNat >>= fun cs => Put.codec _ >>= fun rest => some (cs ++ rest)) = _
  rw [htail]
  rfl

theorem le_hconvBitlen (n : Nat) : n ≤ 8 * hconvBitlen n := by
  rw [hconvBitlen]
  split <;> omega

private theorem dataHuff_synced : dataHuff.Synced :=
  ⟨(Nat.zero_div 8).symm, (Nat.zero_mod 8).symm, Nat.zero_le _⟩

private theorem rwbits_endsTested (n x : Nat) : EndsTested (Put.rwbits n x) := by
  intro c hc
  obtain ⟨b, -, rfl⟩ := List.mem_map.mp (List.mem_of_getLast? hc)
  rfl

private theorem getD_bits (cs : List Call) (i : Nat) (h : i < cs.length) :
    (cs.getD i ⟨false, false⟩).bit = (bits cs).get ⟨i, by rwa [bits_length]⟩ := by
  simp [bits, h]

private theorem rewritten_begins {hp hp' : Huff} {tail : List Call} (post : List Call) {old new : Nat}
    (hend : EndsTested (Put.rwbits 16 old ++ tail)) (h : hputcalls dataHuff ((Put.rwbits 16 old ++ tail) ++ post) = some hp)
    (h' : hputcalls (hrewind hp) (Put.rwbits 16 new) = some hp') :
    hp.Synced ∧ hp.allocsize = 4096 ∧ hp'.allocsize = 4096 ∧ 16 + tail.length ≤ hp.bitoffset ∧
    (post = [] → hp.bitoffset = 16 + tail.length) ∧
    Begins (hp'.buf.take (hconvBitlen hp.bitoffset)) (bits (Put.rwbits 16 new ++ tail)) := by
  rw [hputcalls_append, Option.bind_eq_some_iff] at h
  obtain ⟨hp₁, h₁, hpost⟩ := h
  obtain ⟨hs₁, hoff₁, halloc₁, hbit₁⟩ := hputcalls_spec dataHuff_synced hend h₁
  obtain ⟨hs, hle, halloc, hbelow⟩ := hputcalls_below hs₁ hpost
  obtain ⟨hsr, hoffr, -, hbufr⟩ := hrewind_synced hp
  obtain ⟨-, -, halloc', hbit'⟩ := hputcalls_spec hsr (rwbits_endsTested 16 new) h'
  have hoff : hp₁.bitoffset = 16 + tail.length := by
    rw [hoff₁, List.length_append, rwbits_length]
    exact Nat.zero_add _
  have hallocr : (hrewind hp).allocsize = hp.allocsize := rfl
  have hsize : hp'.allocsize = 4096 := by
    rw [halloc', hallocr, halloc, halloc₁]
    rfl
  have hin := hs.inside
  rw [halloc, halloc₁] at hin
  change hp.bitoffset ≤ 8 * 4096 at hin
  have hround := le_hconvBitlen hp.bitoffset
  have hbuf := hp'.buf_length
  have hcap : hconvBitlen hp.bitoffset ≤ 4096 := by
    rw [hconvBitlen]
    split <;> omega
  refine ⟨hs, halloc.trans halloc₁, hsize, by omega, ?_, ?_, ?_⟩
  · rintro rfl
    obtain rfl := Option.some.inj hpost
    exact hoff
  · rw [bits_length, List.length_append, rwbits_length, List.length_take]
    omega
  · intro i hi
    rw [bits_length, List.length_append, rwbits_length] at hi
    have hbyte : (hp'.buf.take (hconvBitlen hp.bitoffset)).getD (i/8) 0 = hp'.buf.getD (i/8) 0 := by
      rw [List.getD_eq_getElem?_getD, List.getD_eq_getElem?_getD, List.getElem?_take_of_lt (by omega)]
    have hcall : hp'.bitAt i = ((Put.rwbits 16 new ++ tail).getD i ⟨false, false⟩).bit := by
      rw [hbit' i, hoffr, rwbits_length]
      by_cases hi16 : i < 16
      · rw [if_pos (by omega), Nat.sub_zero, List.getD_append _ _ _ _ (by rwa [rwbits_length])]
      · rw [if_neg (by omega), hrewind_bitAt, hbelow i (by omega), hbit₁ i]
        have hzero : dataHuff.bitoffset = 0 := rfl
        rw [hzero, if_pos ⟨Nat.zero_le i, by simpa using hi⟩, Nat.sub_zero,
          List.getD_append_right _ _ _ _ (by rw [rwbits_length]; omega),
          List.getD_append_right _ _ _ _ (by rw [rwbits_length]; omega), rwbits_length, rwbits_length]
    rw [hbyte, ← getD_bits _ _ (by rwa [List.length_append, rwbits_length]), ← hcall]
    rfl

theorem encode_begins {stack : Stack} {tx tx' : PeggyTx} {data : List UInt8} (h : encode stack tx = some (tx', data)) :
    ∃ hdr inouts details, Parts stack tx' hdr inouts details ∧
      tx' = { tx with datalen := BitVec.ofNat 16 data.length } ∧ data.length ≤ 4096 ∧
      Begins data (bits (hdr ++ inouts)) ∧
      (EndsTested details → Begins data (bits (hdr ++ (inouts ++ details))) ∧
        data.length = hconvBitlen (hdr ++ (inouts ++ details)).length) := by
  simp only [encode, Option.bind_eq_bind, Option.bind_eq_some_iff, Option.some.injEq, Prod.mk.injEq] at h
  obtain ⟨cs, hcs, hp, hput, hp', hput', rfl, rfl⟩ := h
  obtain ⟨hdr, inouts, details, hparts, rfl⟩ := rwtx_parts hcs
  obtain ⟨tail, rfl, hparts'⟩ := hparts.datalen (BitVec.ofNat 16 (hconvBitlen hp.bitoffset))
  have hend : EndsTested (Put.rwbits 16 tx.datalen.toNat ++ (tail ++ inouts)) := by
    rw [← List.append_assoc]
    exact (hdr_endsTested hparts.hdr).append (rwinouts_endsTested hparts.inouts)
  obtain ⟨hs, halloc, halloc', -, -, hbegins⟩ :=
    rewritten_begins details hend (by simpa only [List.append_assoc] using hput) hput'
  have hlen : (hp'.buf.take (hconvBitlen hp.bitoffset)).length = hconvBitlen hp.bitoffset := by
    have hin := hs.inside
    have hbuf := hp'.buf_length
    rw [List.length_take, hbuf, halloc', hconvBitlen]
    split <;> omega
  refine ⟨_, inouts, details, hparts', ?_, ?_, ?_, ?_⟩
  · rw [hlen]
  · rw [List.length_take, hp'.buf_length, halloc']
    exact min_le_right _ _
  · rw [List.append_assoc]
    exact hbegins
  · intro hdet
    have hend' : EndsTested (Put.rwbits 16 tx.datalen.toNat ++ (tail ++ (inouts ++ details))) := by
      rw [← List.append_assoc tail, ← List.append_assoc]
      exact hend.append hdet
    obtain ⟨-, -, -, -, hexact, hbegins'⟩ := rewritten_begins [] hend'
      (by simpa only [List.append_assoc, List.append_nil] using hput) hput'
    rw [List.append_assoc]
    refine ⟨hbegins', ?_⟩
    have hall := hexact rfl
    rw [hlen]
    congr 1
    simpa only [List.length_append, rwbits_length] using hall

theorem rwtx_datalen (stack : Stack) (tx : PeggyTx) :
    ∃ rest : Option (List Call), ∀ d, Put.rwtx stack { tx with datalen := d } = rest.map (Put.rwbits 16 d.toNat ++ ·) := by
  refine ⟨do
    let tail ← Put.codec (hdrtokens tx.toPeggyHdr).tail
    let inouts ← Put.rwinouts stack tx
    let details ← Put.rwdetails stack tx
    some (tail ++ (inouts ++ details)), ?_⟩
  intro d
  change ((Put.codec (hdrtokens tx.toPeggyHdr).tail).bind fun tail => some (Put.rwbits 16 d.toNat ++ tail)).bind
    (fun hdr => (Put.rwinouts stack tx).bind fun inouts => (Put.rwdetails stack tx).bind fun details =>
      some (hdr ++ (inouts ++ details))) = _
  cases Put.codec (hdrtokens tx.toPeggyHdr).tail with
  | none => rfl
  | some tail =>
    cases Put.rwinouts stack tx with
    | none => rfl
    | some inouts =>
      cases Put.rwdetails stack tx with
      | none => rfl
      | some details => simp

private theorem rwbits_tested (n x y : Nat) :
    List.Forall₂ (fun c d => c.tested = d.tested) (Put.rwbits n x) (Put.rwbits n y) := by
  apply List.forall₂_of_length_eq_of_get
  · rw [rwbits_length, rwbits_length]
  · intro i h h'
    simp [Put.rwbits]

private theorem rel_bind {α β γ δ : Type} {r : α → β → Prop} {s : γ → δ → Prop} {x : Option α} {y : Option β}
    {f : α → Option γ} {g : β → Option δ} (h : Option.Rel r x y) (hf : ∀ a b, r a b → Option.Rel s (f a) (g b)) :
    Option.Rel s (x.bind f) (y.bind g) := by
  cases h with
  | some h => exact hf _ _ h
  | none => exact .none

private theorem eq_of_rel {α : Type} {x y : Option α} (h : Option.Rel (· = ·) x y) : x = y := by
  cases h with
  | some h => rw [h]
  | none => rfl

private theorem walk_alike (old old' : Nat) (rest : List Call) :
    Option.Rel (fun hp hq => hp.Synced ∧ Huff.Alike 16 hp hq) (hputcalls dataHuff (Put.rwbits 16 old ++ rest))
      (hputcalls dataHuff (Put.rwbits 16 old' ++ rest)) := by
  rw [hputcalls_append, hputcalls_append]
  refine rel_bind ((Huff.Alike.refl 16 dataHuff).hputcalls dataHuff_synced (rwbits_tested 16 old old')
    (.inr (by rw [rwbits_length]; rfl))) ?_
  intro hp hq h
  exact h.2.hputcalls h.1 (List.forall₂_same.mpr fun _ _ => rfl) (.inl rfl)

private theorem rewritten_buf {hp hq : Huff} (h : Huff.Alike 16 hp hq) (new : Nat) :
    Option.Rel (fun a b => a.buf = b.buf) (hputcalls (hrewind hp) (Put.rwbits 16 new))
      (hputcalls (hrewind hq) (Put.rwbits 16 new)) := by
  obtain ⟨hs, hoff, -⟩ := hrewind_synced hp
  obtain ⟨hs', hoff', -⟩ := hrewind_synced hq
  have hrel := h.hrewind.hputcalls hs (rwbits_tested 16 new new) (.inl rfl)
  cases hp' : hputcalls (hrewind hp) (Put.rwbits 16 new) <;> cases hq' : hputcalls (hrewind hq) (Put.rwbits 16 new) <;>
    rw [hp', hq'] at hrel
  · exact .none
  · cases hrel
  · cases hrel
  · cases hrel with
    | some hdone =>
      refine .some (Huff.buf_eq hdone.2.allocsize ?_)
      intro i
      by_cases hi : 16 ≤ i
      · exact hdone.2.bits i hi
      · have hbit := (hputcalls_spec hs (rwbits_endsTested 16 new) hp').2.2.2 i
        have hbit' := (hputcalls_spec hs' (rwbits_endsTested 16 new) hq').2.2.2 i
        rw [hoff, rwbits_length, if_pos (by omega)] at hbit
        rw [hoff', rwbits_length, if_pos (by omega)] at hbit'
        rw [hbit, hbit']

/-- The `datalen` that a transaction comes with has no part in its encoding. -/
theorem encode_datalen (stack : Stack) (tx : PeggyTx) (d : BitVec 16) :
    encode stack { tx with datalen := d } = encode stack tx := by
  obtain ⟨rest, hrest⟩ := rwtx_datalen stack tx
  have htx : Put.rwtx stack tx = rest.map (Put.rwbits 16 tx.datalen.toNat ++ ·) := hrest tx.datalen
  rw [encode, encode, hrest d, htx]
  cases rest with
  | none => rfl
  | some rest =>
    simp only [Option.map_some, Option.bind_eq_bind, Option.bind_some]
    apply eq_of_rel
    refine rel_bind (walk_alike d.toNat tx.datalen.toNat rest) ?_
    intro hp hq h
    rw [h.2.bitoffset]
    refine rel_bind (rewritten_buf h.2 _) ?_
    intro hp' hq' hbuf
    rw [hbuf]
    exact .some rfl

end SuperNet.Peggy.Serdes777
