import Mathlib.Data.List.GetD
import SuperNet.Utils.Vsha256Compress

/-! The hashes of curve25519.c are SHA-256, in one piece, in two and in any number. -/
namespace SuperNet.Utils.Vsha256
open SuperNet.Lib SuperNet.Lib.IteratedHash

theorem ch_eq (x y z : UInt32) : ch x y z = Sha256.ch x y z := by
  apply UInt32.toBitVec_inj.mp
  rw [ch, Sha256.ch]
  apply BitVec.eq_of_getLsbD_eq
  intro i hi
  simp [hi]
  cases x.toBitVec[i] <;> cases y.toBitVec[i] <;> cases z.toBitVec[i] <;> rfl

theorem maj_eq (x y z : UInt32) : maj x y z = Sha256.maj x y z := by
  apply UInt32.toBitVec_inj.mp
  rw [maj, Sha256.maj]
  apply BitVec.eq_of_getLsbD_eq
  intro i hi
  simp [hi]
  cases x.toBitVec[i] <;> cases y.toBitVec[i] <;> cases z.toBitVec[i] <;> rfl

theorem load32H_eq (y : List UInt8) : load32H y = Sha256.beWord y := by
  rw [load32H, Sha256.beWord]
  generalize y.getD 0 0 = b0
  generalize y.getD 1 0 = b1
  generalize y.getD 2 0 = b2
  generalize y.getD 3 0 = b3
  have h0 := b0.toNat_lt
  have h1 := b1.toNat_lt
  have h2 := b2.toNat_lt
  have h3 := b3.toNat_lt
  have hlow : 2^8 * b2.toNat + b3.toNat < 2^16 := by omega
  have hmid : 2^16 * b1.toNat + (2^8 * b2.toNat + b3.toNat) < 2^24 := by omega
  have e24 : UInt32.toNat 24 % 32 = 24 := rfl
  have e16 : UInt32.toNat 16 % 32 = 16 := rfl
  have e8 : UInt32.toNat 8 % 32 = 8 := rfl
  apply UInt32.toNat_inj.mp
  simp only [UInt32.toNat_or, UInt32.toNat_shiftLeft, UInt8.toNat_toUInt32, UInt32.toNat_ofNat', e24, e16, e8,
    Nat.shiftLeft_eq]
  rw [Nat.mod_eq_of_lt (by omega), Nat.mod_eq_of_lt (by omega), Nat.mod_eq_of_lt (by omega), Nat.mul_comm _ (2^24),
    Nat.mul_comm _ (2^16), Nat.mul_comm _ (2^8), Nat.or_assoc, Nat.or_assoc, ← Nat.two_pow_add_eq_or_of_lt h3,
    ← Nat.two_pow_add_eq_or_of_lt hlow, ← Nat.two_pow_add_eq_or_of_lt hmid, Nat.mod_eq_of_lt (by omega), Nat.add_assoc,
    Nat.add_assoc]

theorem length_fillW (buf : List UInt8) (n : Nat) : (fillW buf n).length = n + 16 := by
  induction n with
  | zero => rw [fillW, List.length_map, List.length_range]
  | succ n ih =>
    rw [fillW, List.length_append, ih, List.length_singleton, Nat.succ_add]

theorem getD_fillW (buf : List UInt8) {n t : Nat} (ht : t < n + 16) :
    (fillW buf n).getD t 0 = Sha256.word (fun t => Sha256.beWord (buf.drop (4 * t))) t := by
  induction n generalizing t with
  | zero =>
    rw [Sha256.word, if_pos (by omega), fillW, List.getD_eq_getElem?_getD, List.getElem?_map,
      List.getElem?_range (by omega), Option.map_some, Option.getD_some, load32H_eq]
  | succ n ih =>
    rw [fillW]
    by_cases hlast : t < n + 16
    · rw [List.getD_append _ _ _ _ (by rwa [length_fillW]), ih hlast]
    · obtain rfl : t = n + 16 := by omega
      rw [List.getD_append_right _ _ _ _ (length_fillW buf n).le, length_fillW, Nat.sub_self, List.getD_cons_zero,
        ih (by omega), ih (by omega), ih (by omega), ih (by omega), Sha256.word_add]
      rfl

theorem rnd_eq (a b c d e f g h wi ki : UInt32) :
    rnd a b c d e f g h wi ki =
      ((Sha256.step ⟨a, b, c, d, e, f, g, h⟩ ki wi).e, (Sha256.step ⟨a, b, c, d, e, f, g, h⟩ ki wi).a) := by
  rw [rnd, ch_eq, maj_eq]
  rfl

/-- Eight rounds with the names moved instead of the registers. -/
theorem rndEight_eq (W : List UInt32) (S : Sha256.Registers) (i : Nat) :
    rndEight W S i =
      (List.range' i 8).foldl (fun R t => Sha256.step R (Sha256.constants.getD t 0) (W.getD t 0)) S := by
  simp only [rndEight, rnd_eq, List.range', List.foldl_cons, List.foldl_nil]
  rfl

/-- A loop in rounds of `c` turns each. -/
theorem foldl_rounds {β : Type} (f : β → Nat → β) (c n : Nat) (b : β) :
    (List.range n).foldl (fun b k => (List.range' (c * k) c).foldl f b) b = (List.range (c * n)).foldl f b := by
  induction n with
  | zero => rfl
  | succ n ih =>
    have hsplit : List.range (c * (n + 1)) = List.range (c * n) ++ List.range' (c * n) c := by
      have happend := List.range'_append_1 (s := 0) (m := c * n) (n := c)
      rw [Nat.zero_add] at happend
      rw [List.range_eq_range', List.range_eq_range', happend, Nat.mul_succ]
    rw [List.range_succ, List.foldl_append, ih, hsplit, List.foldl_append, List.foldl_cons, List.foldl_nil]

theorem vcompress_eq : vcompress = Sha256.compress := by
  funext state buf
  have hwords : ∀ (l : List Nat) (S : Sha256.Registers), (∀ t ∈ l, t < 64) →
      l.foldl (fun R t => Sha256.step R (Sha256.constants.getD t 0) ((fillW buf 48).getD t 0)) S =
        l.foldl (fun R t => Sha256.step R (Sha256.constants.getD t 0)
          (Sha256.word (fun t => Sha256.beWord (buf.drop (4 * t))) t)) S := by
    intro l S hl
    apply List.foldl_ext
    intro R t ht
    rw [getD_fillW buf (hl t ht)]
  rw [vcompress, Sha256.compress, Sha256.rounds, ← hwords _ _ fun t ht => List.mem_range.mp ht, ← foldl_rounds _ 8 8]
  simp only [rndEight_eq]
  rfl

section Fed
variable {compress : List UInt32 → List UInt8 → List UInt32} {md : Vstate} {bytes : List UInt8}

/-- A state whose words are those of the whole blocks and whose buffer starts with the rest. -/
structure Keeps (compress : List UInt32 → List UInt8 → List UInt32) (md : Vstate) (bytes : List UInt8) : Prop where
  short : md.curlen < 64
  size : md.buf.length = 64
  fed : Fed compress 64 Sha256.initial bytes md.state (md.buf.take md.curlen)

/-- A state that has been fed some bytes. -/
structure Holds (compress : List UInt32 → List UInt8 → List UInt32) (md : Vstate) (bytes : List UInt8) : Prop
    extends Keeps compress md bytes where
  bits : md.bits = UInt64.ofNat (8 * bytes.length)

theorem vinit_holds : Holds compress vinit [] where
  short := Nat.zero_lt_succ 63
  size := List.length_replicate
  fed := fed_nil (Nat.zero_lt_succ 63) Sha256.initial
  bits := rfl

theorem Keeps.length_take (h : Keeps compress md bytes) : (md.buf.take md.curlen).length = md.curlen := by
  rw [List.length_take, h.size, Nat.min_eq_left h.short.le]

/-- The bytes that a turn of the loop lays behind those of the buffer. -/
theorem take_buffered {buf piece : List UInt8} {m k : Nat} (hk : piece.length = k) (hm : m + k ≤ buf.length) :
    (buf.take m ++ piece ++ buf.drop (m + k)).length = buf.length ∧
      (buf.take m ++ piece ++ buf.drop (m + k)).take (m + k) = buf.take m ++ piece := by
  have hlen : (buf.take m ++ piece).length = m + k := by
    rw [List.length_append, List.length_take, hk, Nat.min_eq_left (by omega)]
  constructor
  · rw [List.length_append, hlen, List.length_drop]
    omega
  · rw [List.take_append_of_le_length hlen.ge, List.take_of_length_le hlen.le]

theorem vprocessLoop_keeps {n : Nat} {piece : List UInt8} (hn : piece.length ≤ n) (h : Keeps compress md bytes) :
    Keeps compress (vprocessLoop compress n md piece) (bytes ++ piece) := by
  induction n generalizing md bytes piece with
  | zero =>
    rw [List.length_eq_zero_iff.mp (Nat.le_zero.mp hn), List.append_nil]
    exact h
  | succ n ih =>
    rw [vprocessLoop]
    by_cases hnil : piece = []
    · rw [if_pos hnil, hnil, List.append_nil]
      exact h
    rw [if_neg hnil]
    have hpos : 0 < piece.length := List.length_pos_of_ne_nil hnil
    have hshort := h.short
    by_cases hblock : md.curlen = 0 ∧ piece.length ≥ 64
    · -- a whole block goes from the input into the state
      have hfed := h.fed
      rw [hblock.1, List.take_zero] at hfed
      have hlen : ([] : List UInt8).length + (piece.take 64).length = 64 := by
        rw [List.length_nil, List.length_take]
        omega
      have hdrop : (piece.drop 64).length ≤ n := by
        rw [List.length_drop]
        omega
      have hfull := hfed.fill hlen
      have hnext : Keeps compress { md with state := compress md.state (piece.take 64), length := md.length + 64 * 8 }
          (bytes ++ piece.take 64) := by
        refine ⟨hshort, h.size, ?_⟩
        rw [hblock.1, List.take_zero]
        exact hfull
      have hrec := ih hdrop hnext
      rw [if_pos hblock]
      rwa [List.append_assoc, List.take_append_drop] at hrec
    rw [if_neg hblock]
    dsimp only
    generalize hk : min piece.length (64 - md.curlen) = k
    have htake : (piece.take k).length = k := by
      rw [List.length_take]
      omega
    have hdrop : (piece.drop k).length ≤ n := by
      rw [List.length_drop]
      omega
    have hroom : md.curlen + k ≤ md.buf.length := by
      rw [h.size]
      omega
    obtain ⟨hsize, hbuf⟩ := take_buffered htake hroom
    generalize md.buf.take md.curlen ++ piece.take k ++ md.buf.drop (md.curlen + k) = buf at hsize hbuf
    rw [h.size] at hsize
    by_cases hfull : md.curlen + k = 64
    · -- the buffer is full
      have hlen : (md.buf.take md.curlen).length + (piece.take k).length = 64 := by rw [h.length_take, htake, hfull]
      have hblock := h.fed.fill hlen
      rw [← hbuf, hfull, List.take_of_length_le hsize.le] at hblock
      have hnext : Keeps compress ⟨md.length + 8 * 64, compress md.state buf, 0, buf⟩ (bytes ++ piece.take k) :=
        ⟨Nat.zero_lt_succ 63, hsize, hblock⟩
      have hrec := ih hdrop hnext
      rw [if_pos hfull]
      rwa [List.append_assoc, List.take_append_drop] at hrec
    · have hmore : md.curlen + k < 64 := by omega
      have hlen : (md.buf.take md.curlen).length + (piece.take k).length < 64 := by rwa [h.length_take, htake]
      have hkept := h.fed.keep hlen
      rw [← hbuf] at hkept
      have hnext : Keeps compress { md with curlen := md.curlen + k, buf := buf } (bytes ++ piece.take k) :=
        ⟨hmore, hsize, hkept⟩
      have hrec := ih hdrop hnext
      rw [if_neg hfull]
      rwa [List.append_assoc, List.take_append_drop] at hrec

theorem Holds.vprocess (h : Holds compress md bytes) (piece : List UInt8) :
    Holds compress (vprocess compress md piece) (bytes ++ piece) := by
  have hshort := h.short
  rw [Vsha256.vprocess, if_neg (by omega)]
  refine ⟨vprocessLoop_keeps le_rfl h.toKeeps, ?_⟩
  rw [vprocessLoop_bits compress hshort le_rfl, h.bits, List.length_append, Nat.mul_add, UInt64.ofNat_add]

theorem vhash_holds (bytes : List UInt8) : Holds compress (vhash compress bytes) bytes :=
  vinit_holds.vprocess bytes

end Fed

theorem byte32 (x : UInt32) {i : Nat} (hi : i < 4) :
    (x >>> UInt32.ofNat (8 * i)).toUInt8 = UInt8.ofNat (x.toNat / 256^i) := by
  have hshift : (UInt32.ofNat (8 * i)).toNat % 32 = 8 * i := by
    rw [UInt32.toNat_ofNat_of_lt' (Nat.lt_of_lt_of_le (by omega : 8 * i < 32) (by decide))]
    omega
  apply UInt8.toNat_inj.mp
  rw [UInt32.toNat_toUInt8, UInt32.toNat_shiftRight, hshift, Nat.shiftRight_eq_div_pow, UInt8.toNat_ofNat', Nat.pow_mul]

/-- A byte of a number, however often it has wrapped. -/
theorem byte64 (n : Nat) {i : Nat} (hi : i < 8) :
    (UInt64.ofNat n >>> UInt64.ofNat (8 * i)).toUInt8 = UInt8.ofNat (n / 256^i) := by
  have hshift : (UInt64.ofNat (8 * i)).toNat % 64 = 8 * i := by
    rw [UInt64.toNat_ofNat_of_lt' (Nat.lt_of_lt_of_le (by omega : 8 * i < 64) (by decide))]
    omega
  have hpow : 2^64 = 2^(8 * i) * 2^(64 - 8 * i) := by
    rw [← Nat.pow_add]
    congr 1
    omega
  apply UInt8.toNat_inj.mp
  rw [UInt64.toNat_toUInt8, UInt64.toNat_shiftRight, hshift, UInt64.toNat_ofNat', Nat.shiftRight_eq_div_pow, hpow,
    Nat.mod_mul_right_div_self, UInt8.toNat_ofNat', Nat.mod_mod_of_dvd _ (Nat.pow_dvd_pow 2 (by omega)), Nat.pow_mul]

theorem store32H_eq (x : UInt32) : store32H x = Sha256.beBytes 4 x.toNat := by
  rw [Sha256.beBytes, List.map_congr_left fun i hi => (byte32 x (List.mem_range.mp hi)).symm]
  simp [store32H, List.range_succ]

theorem store64H_eq (n : Nat) : store64H (UInt64.ofNat n) = Sha256.beBytes 8 n := by
  rw [Sha256.beBytes, List.map_congr_left fun i hi => (byte64 n (List.mem_range.mp hi)).symm]
  simp [store64H, List.range_succ]

theorem take_set_succ (buf : List UInt8) {m : Nat} (hm : m < buf.length) (a : UInt8) :
    (buf.set m a).take (m + 1) = buf.take m ++ [a] := by
  have hlen : (buf.take m ++ [a]).length = m + 1 := by
    rw [List.length_append, List.length_take, List.length_singleton, Nat.min_eq_left hm.le]
  rw [List.set_eq_take_append_cons_drop, if_pos hm, List.append_cons, List.take_append_of_le_length hlen.ge,
    List.take_of_length_le hlen.le]

/-- The state at the end of the padded bytes is that of the last block of `sha256_vdone`. -/
theorem sha256_of_fed {bytes padding : List UInt8} {state : List UInt32}
    (hfed : Fed Sha256.compress 64 Sha256.initial (bytes ++ padding) state []) (hpad : Sha256.pad bytes = bytes ++ padding) :
    state.flatMap store32H = Sha256.sha256 bytes := by
  rw [Sha256.sha256, hpad, ← hfed.state_eq]
  exact List.flatMap_congr fun x _ => store32H_eq x

theorem vdone_holds {md : Vstate} {bytes : List UInt8} (h : Holds Sha256.compress md bytes) :
    vdone md = some (Sha256.sha256 bytes) := by
  have hshort := h.short
  have hrest : bytes.length % 64 = md.curlen := by rw [← h.length_take, h.fed.length_rest]
  have hlength : md.length + UInt64.ofNat (md.curlen * 8) = UInt64.ofNat (8 * bytes.length) := by
    rw [← h.bits, Vstate.bits, Nat.mul_comm]
  have hmark := take_set_succ md.buf (h.size ▸ hshort) 0x80
  have hbytes := Sha256.length_beBytes 8 (8 * bytes.length)
  rw [vdone, if_neg (by omega), vcompress_eq, hlength]
  dsimp only
  by_cases hlate : md.curlen + 1 > 56
  · -- the number of bits has a block of its own
    have hlen : (md.buf.take md.curlen).length + (0x80 :: List.replicate (63 - md.curlen) (0 : UInt8)).length = 64 := by
      rw [h.length_take, List.length_cons, List.length_replicate]
      omega
    have hlen56 : ([] : List UInt8).length +
        (List.replicate 56 (0 : UInt8) ++ Sha256.beBytes 8 (8 * bytes.length)).length = 64 := by
      rw [List.length_append, hbytes, List.length_replicate, List.length_nil]
    have hlast := (h.fed.fill hlen).fill hlen56
    have hzeros : (119 - md.curlen) % 64 = 63 - md.curlen + 56 := by omega
    have hpad : Sha256.pad bytes = bytes ++
        (0x80 :: List.replicate (63 - md.curlen) 0 ++ (List.replicate 56 0 ++ Sha256.beBytes 8 (8 * bytes.length))) := by
      rw [Sha256.pad, hrest, hzeros, List.replicate_add]
      simp
    rw [List.append_assoc] at hlast
    rw [if_pos hlate, ← sha256_of_fed hlast hpad]
    dsimp only
    rw [hmark, List.take_zero, store64H_eq, List.append_assoc, List.nil_append, List.nil_append, List.singleton_append,
      Nat.sub_zero, Nat.add_comm, ← Nat.sub_sub]
  · have hlen : (md.buf.take md.curlen).length +
        (0x80 :: List.replicate (55 - md.curlen) (0 : UInt8) ++ Sha256.beBytes 8 (8 * bytes.length)).length = 64 := by
      rw [h.length_take, List.length_append, hbytes, List.length_cons, List.length_replicate]
      omega
    have hlast := h.fed.fill hlen
    have hzeros : (119 - md.curlen) % 64 = 55 - md.curlen := by omega
    have hpad : Sha256.pad bytes = bytes ++
        (0x80 :: List.replicate (55 - md.curlen) 0 ++ Sha256.beBytes 8 (8 * bytes.length)) := by
      rw [Sha256.pad, hrest, hzeros, List.append_assoc]
    rw [if_neg hlate, ← sha256_of_fed hlast hpad]
    dsimp only
    rw [hmark, store64H_eq, List.append_assoc, List.append_assoc, List.singleton_append, Nat.add_comm, ← Nat.sub_sub]
    rfl

theorem vdone_vprocess (src : List UInt8) : vdone (vprocess vcompress vinit src) = some (Sha256.sha256 src) := by
  rw [vcompress_eq]
  exact vdone_holds (vhash_holds src)

theorem vcalcSha256_eq (src : List UInt8) : vcalcSha256 src = Sha256.sha256 src := by
  rw [vcalcSha256, vdone_vprocess, Option.getD_some]

/-- A call that starts afresh, whatever the state was, and one for each piece. -/
def vupdates (state : Vstate) (pieces : List (List UInt8)) : List UInt8 × Vstate :=
  pieces.foldl (fun update piece => vupdateSha256 update.2 (some piece)) (vupdateSha256 state none)

theorem vupdates_holds (state : Vstate) (pieces : List (List UInt8)) :
    (vupdates state pieces).1 = Sha256.sha256 pieces.flatten ∧
      Holds Sha256.compress (vupdates state pieces).2 pieces.flatten := by
  induction pieces using List.reverseRecOn with
  | nil =>
    rw [vupdates, List.foldl_nil, vupdateSha256, List.flatten_nil]
    dsimp only
    rw [vdone_holds vinit_holds]
    exact ⟨rfl, vinit_holds⟩
  | append_singleton pieces piece ih =>
    have hnext := ih.2.vprocess piece
    have hflat : (pieces ++ [piece]).flatten = pieces.flatten ++ piece := by simp
    have hlast : vupdates state (pieces ++ [piece]) = vupdateSha256 (vupdates state pieces).2 (some piece) := by
      rw [vupdates, List.foldl_append, List.foldl_cons, List.foldl_nil, vupdates]
    rw [hlast, hflat, vupdateSha256, vcompress_eq]
    dsimp only
    rw [vdone_holds hnext]
    exact ⟨rfl, hnext⟩

end SuperNet.Utils.Vsha256
