import SuperNet.Peggy.Serdes777Fields
import SuperNet.Utils.HuffstreamBits

/-! Numbers of `serdes777_rw` written one after another and read back into fields that are zero. -/
namespace SuperNet.Peggy.Serdes777
open SuperNet.Lib.BitCodec SuperNet.Utils.Huffstream

/-- `SETBIT` and `CLEARBIT`. -/
def assignBit {w : Nat} (x : BitVec w) (i : Nat) (b : Bool) : BitVec w := if b then x ||| 1#w <<< i else x &&& ~~~(1#w <<< i)

namespace Read

/-- `serdes777_rwbits` to a place in memory, from bit `i` on. -/
def rwbits {w : Nat} (dest : BitVec w) (i : Nat) : Nat → Rd (BitVec w)
  | 0 => pure dest
  | n + 1 => do
    let b ← Get.bit
    rwbits (assignBit dest i b) (i + 1) n

/-- The two calls in `hgetbit(hp) + (hgetbit(hp) << 1)` are taken left to right. -/
def rwchar (dest : BitVec 8) : Rd (BitVec 8 × Nat) := do
  let flag ← getbit
  if Get.bitval flag = 0 then pure (0, 1)
  else
    let lo ← getbit
    let hi ← getbit
    if Get.bitval lo + 2 * Get.bitval hi < 3 then pure (BitVec.ofInt 8 (Get.bitval lo + 2 * Get.bitval hi), 3)
    else
      let x ← rwbits dest 0 8
      pure (x, 11)

def rwsizebits {w : Nat} (dest : BitVec w) (sizebits : Nat) : Rd (BitVec w × Nat) := do
  let numbits ← rwbits 0#32 0 sizebits
  let x ← rwbits dest 0 (numbits.toNat + 1)
  pure (x, numbits.toNat + 1 + sizebits)

def rw : (size : Size) → BitVec size.bits → Rd (BitVec size.bits × Nat)
  | .raw n, dest => do
    let x ← rwbits dest 0 (8 * n)
    pure (x, 8 * n)
  | .char, dest => rwchar dest
  | .short, dest => rwsizebits dest 4
  | .int, dest => rwsizebits dest 5
  | .long, dest => rwsizebits dest 6

end Read

structure Number where
  size : Size
  val : BitVec size.bits

/-- What `serdes777_rw` returns when it has written a number. -/
def Number.count (num : Number) : Nat :=
  let x := num.val.toNat
  match num.size with
  | .raw n => 8 * n
  | .char => if x = 0 then 1 else if x < 3 then 3 else 11
  | .short => hcalcBitsize x - 1 + 1 + 4
  | .int => hcalcBitsize x - 1 + 1 + 5
  | .long => hcalcBitsize x - 1 + 1 + 6

/-- `serdes777_rw` in write mode. -/
def Number.write (hp : Huff) (num : Number) : Option (Huff × Nat) := do
  let cs ← Put.rw num.size num.val.toNat
  let hp' ← hputcalls hp cs
  some (hp', num.count)

/-- `serdes777_rw` in read mode, to a field that is zero. -/
def Number.read (size : Size) : Rd (Number × Nat) := do
  let r ← Read.rw size 0
  pure (⟨size, r.1⟩, r.2)

/-- Numbers written one after another, each with the count returned and the bits that the cursor has moved. -/
def writes (hp : Huff) : List Number → Option (Huff × List ((Number × Nat) × Nat))
  | [] => some (hp, [])
  | num :: nums => do
    let r ← num.write hp
    let rest ← writes r.1 nums
    some (rest.1, ((num, r.2), r.1.bitoffset - hp.bitoffset) :: rest.2)

def reads (sizes : List Size) : Rd (List ((Number × Nat) × Nat)) := inTurn (sizes.map fun size => measured (Number.read size))

section Read
variable {w : Nat}

theorem assignBit_getLsbD (x : BitVec w) (b : Bool) {i j : Nat} (hj : j < w) :
    (assignBit x i b).getLsbD j = if j = i then b else x.getLsbD j := by
  have hone : (1#w <<< i).getLsbD j = decide (j = i) := by
    rw [BitVec.getLsbD_shiftLeft, BitVec.getLsbD_one]
    by_cases hi : j = i
    · subst hi
      simp [hj, Nat.zero_lt_of_lt hj]
    · by_cases hlt : j < i
      · simp [hi, hlt]
      · have hsub : j - i ≠ 0 := by omega
        simp [hi, hsub]
  rw [assignBit]
  cases b with
  | true =>
    rw [if_pos rfl, BitVec.getLsbD_or, hone]
    by_cases hi : j = i <;> simp [hi]
  | false =>
    rw [if_neg Bool.false_ne_true, BitVec.getLsbD_and, BitVec.getLsbD_not, hone]
    by_cases hi : j = i <;> simp [hi, hj]

private theorem assignBit_or {dest : BitVec w} {i : Nat} (hfree : ∀ j, i ≤ j → dest.getLsbD j = false) (b : Bool) (x : Nat) :
    assignBit dest i b ||| BitVec.ofNat w x <<< (i + 1) = dest ||| BitVec.ofNat w (b.toNat + 2 * x) <<< i := by
  apply BitVec.eq_of_getLsbD_eq
  intro j hj
  rw [BitVec.getLsbD_or, BitVec.getLsbD_or, assignBit_getLsbD _ _ hj, BitVec.getLsbD_shiftLeft, BitVec.getLsbD_shiftLeft,
    BitVec.getLsbD_ofNat, BitVec.getLsbD_ofNat]
  have hb := b.toNat_le
  rcases lt_trichotomy j i with hlt | rfl | hgt
  · simp [hlt, hlt.ne, Nat.lt_succ_of_lt hlt]
  · have hbit : (b.toNat + 2 * x).testBit 0 = b := by
      rw [Nat.testBit_zero, Nat.add_mul_mod_self_left]
      cases b <;> rfl
    rw [if_pos rfl, hfree j le_rfl, Nat.sub_self, hbit]
    simp [hj, Nat.zero_lt_of_lt hj]
  · obtain ⟨k, rfl⟩ : ∃ k, j = i + 1 + k := ⟨j - (i + 1), by omega⟩
    have hbit : (b.toNat + 2 * x).testBit (k + 1) = x.testBit k := by
      rw [Nat.testBit_succ, show (b.toNat + 2 * x) / 2 = x by omega]
    rw [if_neg (by omega), Nat.add_sub_cancel_left, show i + 1 + k - i = k + 1 by omega, hbit, hfree _ (by omega)]
    simp [hj, show k < w by omega, show k + 1 < w by omega, show ¬ i + 1 + k ≤ i by omega, show ¬ i + 1 + k < i by omega]

/-- Read to a place whose upper bits are free, the bits make the number that `Get.rwbits` makes of them. -/
theorem rwbits_get {dest : BitVec w} {i : Nat} (hfree : ∀ j, i ≤ j → dest.getLsbD j = false) (n : Nat) :
    Read.rwbits dest i n = Get.rwbits n >>= fun x => pure (dest ||| BitVec.ofNat w x <<< i) := by
  induction n generalizing dest i with
  | zero => rw [Read.rwbits, Get.rwbits, pure_bind, BitVec.zero_shiftLeft, BitVec.or_zero]
  | succ n ih =>
    rw [Read.rwbits, Get.rwbits, bind_assoc]
    congr 1
    funext b
    have hnext : ∀ j, i + 1 ≤ j → (assignBit dest i b).getLsbD j = false := by
      intro j hj
      by_cases hw : j < w
      · rw [assignBit_getLsbD _ _ hw, if_neg (by omega), hfree j (by omega)]
      · exact BitVec.getLsbD_of_ge _ _ (not_lt.mp hw)
    rw [ih hnext, bind_assoc]
    congr 1
    funext x
    rw [pure_bind, assignBit_or hfree]

theorem rwbits_zero (n : Nat) : Read.rwbits 0#w 0 n = Get.rwbits n >>= fun x => pure (BitVec.ofNat w x) := by
  rw [rwbits_get fun j _ => BitVec.getLsbD_zero]
  simp only [BitVec.shiftLeft_zero, BitVec.zero_or]

theorem rwbits_lt {n x : Nat} {s s' : Huff} (h : Get.rwbits n s = some (x, s')) : x < 2^n := by
  induction n generalizing x s s' with
  | zero =>
    obtain ⟨rfl, -⟩ := Prod.mk.inj (Option.some.inj h)
    exact Nat.one_pos
  | succ n ih =>
    obtain ⟨⟨b, s₁⟩, _, h⟩ := Option.bind_eq_some_iff.mp h
    obtain ⟨⟨y, s₂⟩, hy, h⟩ := Option.bind_eq_some_iff.mp h
    obtain ⟨rfl, -⟩ := Prod.mk.inj (Option.some.inj h)
    have hlt := ih hy
    have hb := b.toNat_le
    omega

theorem rwchar_zero : Read.rwchar 0 = Get.rwchar >>= fun r => pure (BitVec.ofNat 8 r.1, r.2) := by
  rw [Read.rwchar, Get.rwchar, bind_assoc]
  congr 1
  funext flag
  split
  · rfl
  · rw [bind_assoc]
    congr 1
    funext lo
    rw [bind_assoc]
    congr 1
    funext hi
    split
    · rw [pure_bind]
      congr 2
      apply BitVec.eq_of_toNat_eq
      rw [BitVec.toNat_ofInt, BitVec.toNat_ofNat, Nat.mod_eq_of_lt (Lib.Words.unsigned_lt 8 _)]
      rfl
    · have hbits := congrArg (· >>= fun x => (pure (x, 11) : Rd (BitVec 8 × Nat))) (rwbits_zero (w := 8) 8)
      rw [bind_assoc] at hbits ⊢
      exact hbits

theorem rwsizebits_zero {sizebits : Nat} (hs : sizebits ≤ 32) :
    Read.rwsizebits 0#w sizebits = Get.rwsizebits sizebits >>= fun r => pure (BitVec.ofNat w r.1, r.2) := by
  rw [Read.rwsizebits, Get.rwsizebits, rwbits_zero, bind_assoc, bind_assoc]
  funext s
  change (Get.rwbits sizebits s).bind _ = (Get.rwbits sizebits s).bind _
  cases hread : Get.rwbits sizebits s with
  | none => rfl
  | some r =>
    obtain ⟨numbits, s'⟩ := r
    have hword : (BitVec.ofNat 32 numbits).toNat = numbits :=
      BitVec.toNat_ofNat .. ▸ Nat.mod_eq_of_lt ((rwbits_lt hread).trans_le (Nat.pow_le_pow_right (by decide) hs))
    have hbits := congrArg (· >>= fun x => (pure (x, numbits + 1 + sizebits) : Rd (BitVec w × Nat)))
      (rwbits_zero (w := w) (numbits + 1))
    rw [Option.bind_some, Option.bind_some]
    dsimp only
    rw [bind_assoc] at hbits ⊢
    rw [pure_bind, hword]
    exact congrFun hbits s'

/-- To a field that is zero a number is read as a number alone is. -/
theorem rw_zero (size : Size) : Read.rw size 0 = Get.rw size >>= fun r => pure (BitVec.ofNat size.bits r.1, r.2) := by
  cases size with
  | raw n =>
    have hbits := congrArg (· >>= fun x => (pure (x, 8 * n) : Rd (BitVec (8 * n) × Nat))) (rwbits_zero (w := 8 * n) (8 * n))
    rw [bind_assoc] at hbits
    rw [Read.rw, Get.rw, bind_assoc]
    exact hbits
  | char => exact rwchar_zero
  | short => exact rwsizebits_zero (by decide)
  | int => exact rwsizebits_zero (by decide)
  | long => exact rwsizebits_zero (by decide)

theorem count_eq {num : Number} {cs : List Call} (h : Put.rw num.size num.val.toNat = some cs) : cs.length = num.count := by
  have hsizebits : ∀ {sizebits x : Nat}, sizebits ≠ 3 → Put.rwsizebits sizebits x = some cs →
      cs.length = hcalcBitsize x - 1 + 1 + sizebits := by
    intro sizebits x hs hput
    rw [← bits_length, (put_sizebits hs hput).2, List.length_append, leBits_length, leBits_length,
      Nat.sub_add_cancel (hcalcBitsize_pos x), Nat.add_comm]
  obtain ⟨size, val⟩ := num
  cases size with
  | raw n =>
    obtain rfl := Option.some.inj h
    exact rwbits_length _ _
  | char =>
    rw [Number.count, ← bits_length]
    dsimp only
    rcases put_char h with ⟨hx, hb⟩ | ⟨hx, hb⟩ | ⟨hx, hb⟩ | ⟨hx, hb⟩ <;> rw [hb]
    · rw [if_pos hx]
      rfl
    · rw [hx]
      rfl
    · rw [hx]
      rfl
    · change 3 ≤ val.toNat at hx
      rw [if_neg (by omega), if_neg (by omega), List.length_append, leBits_length]
      rfl
  | short => exact hsizebits (by decide) h
  | int => exact hsizebits (by decide) h
  | long => exact hsizebits (by decide) h

theorem read_parses (num : Number) {cs : List Call} (h : Put.rw num.size num.val.toNat = some cs) :
    Parses Huff.Ahead (Number.read num.size) (bits cs) (num, num.count) := by
  obtain ⟨size, val⟩ := num
  have hrw : Parses Huff.Ahead (Read.rw size 0) (bits cs) (val, cs.length) := by
    have hget := (rw_parses val.isLt h).map fun r => (BitVec.ofNat size.bits r.1, r.2)
    rwa [← rw_zero, BitVec.ofNat_toNat, BitVec.setWidth_eq] at hget
  rw [← count_eq h]
  exact hrw.map fun r => ((⟨size, r.1⟩ : Number), r.2)

end Read

section Keeps

theorem bit_keeps : Keeps Huff.endpos Get.bit :=
  getbit_keeps.bind fun b => by
    cases b with
    | some b => exact Keeps.pure b
    | none => exact Keeps.fail

theorem readbits_keeps {w : Nat} (dest : BitVec w) (i n : Nat) : Keeps Huff.endpos (Read.rwbits dest i n) := by
  induction n generalizing dest i with
  | zero => exact Keeps.pure dest
  | succ n ih => exact bit_keeps.bind fun b => ih (assignBit dest i b) (i + 1)

theorem readsizebits_keeps {w : Nat} (dest : BitVec w) (sizebits : Nat) :
    Keeps Huff.endpos (Read.rwsizebits dest sizebits) :=
  (readbits_keeps 0 0 sizebits).bind fun _ => (readbits_keeps dest 0 _).bind fun _ => Keeps.pure _

theorem read_keeps (size : Size) : Keeps Huff.endpos (Number.read size) := by
  have hrw : Keeps Huff.endpos (Read.rw size 0) := by
    cases size with
    | raw n => exact (readbits_keeps 0 0 (8 * n)).bind fun _ => Keeps.pure _
    | char =>
      apply getbit_keeps.bind
      intro flag
      split
      · exact Keeps.pure _
      · refine getbit_keeps.bind fun lo => getbit_keeps.bind fun hi => ?_
        split
        · exact Keeps.pure _
        · exact (readbits_keeps 0 0 8).bind fun _ => Keeps.pure _
    | short => exact readsizebits_keeps 0 4
    | int => exact readsizebits_keeps 0 5
    | long => exact readsizebits_keeps 0 6
  exact hrw.bind fun _ => Keeps.pure _

end Keeps

section Write

theorem hputcalls_room {hp : Huff} (hs : hp.Synced) (cs : List Call) (hroom : hp.bitoffset + cs.length < 8 * hp.allocsize) :
    hputcalls hp cs = some (hputs hp (bits cs)) := by
  induction cs generalizing hp with
  | nil => rfl
  | cons c cs ih =>
    rw [List.length_cons] at hroom
    have hfull : ¬ hp.Full := by
      rw [Huff.Full]
      omega
    have hok := hputbit_room hs hfull c.bit
    obtain ⟨hs', hoff, -, halloc, -⟩ := hputbit_spec hs hok
    rw [hputcalls, hok, if_neg (by simp), ih hs' (by rw [hoff, halloc]; omega)]
    rfl

def Number.bits (num : Number) : List Bool := ((Put.rw num.size num.val.toNat).map Serdes777.bits).getD []

theorem Number.bits_eq (num : Number) : ∃ cs, Put.rw num.size num.val.toNat = some cs ∧ num.bits = Serdes777.bits cs ∧
    cs.length = num.count := by
  obtain ⟨cs, hcs⟩ := Option.isSome_iff_exists.mp (@rw_isSome num.size num.val.toNat num.val.isLt)
  refine ⟨cs, hcs, ?_, count_eq hcs⟩
  rw [Number.bits, hcs, Option.map_some, Option.getD_some]

theorem Number.bits_length (num : Number) : num.bits.length = num.count := by
  obtain ⟨cs, -, hbits, hcount⟩ := num.bits_eq
  rw [hbits, Serdes777.bits_length, hcount]

theorem numbers_length (nums : List Number) : (nums.flatMap Number.bits).length = (nums.map Number.count).sum := by
  rw [List.length_flatMap]
  simp only [Number.bits_length]

theorem writes_eq {hp : Huff} (hs : hp.Synced) (nums : List Number)
    (hroom : hp.bitoffset + (nums.map Number.count).sum < 8 * hp.allocsize) :
    writes hp nums = some (hputs hp (nums.flatMap Number.bits), nums.map fun num => ((num, num.count), num.count)) := by
  induction nums generalizing hp with
  | nil => rfl
  | cons num nums ih =>
    rw [List.map_cons, List.sum_cons] at hroom
    obtain ⟨cs, hcs, hbits, hcount⟩ := num.bits_eq
    have hput := hputcalls_room hs cs (by omega)
    rw [← hbits] at hput
    have hlen := num.bits_length
    obtain ⟨hs', hoff, halloc, -⟩ := hputs_spec hs num.bits (by omega)
    have hrest := ih hs' (by rw [hoff, halloc]; omega)
    have hwrite : num.write hp = some (hputs hp num.bits, num.count) := by
      rw [Number.write, hcs, Option.bind_eq_bind, Option.bind_some, hput, Option.bind_eq_bind, Option.bind_some]
    rw [writes, hwrite, Option.bind_eq_bind, Option.bind_some, hrest, Option.bind_eq_bind, Option.bind_some, hoff, hlen,
      Nat.add_sub_cancel_left, List.flatMap_cons, hputs_append, List.map_cons]

end Write

/-- Numbers written where there is room for them, and read into zeros from where the first was written, come back each
with the count and the bits that its write has reported. -/
theorem reads_writes {hp : Huff} (hs : hp.Synced) (hend : hp.endpos < 2^32) (nums : List Number)
    (hroom : hp.bitoffset + (nums.map Number.count).sum < 8 * hp.allocsize) :
    ∃ written report read, writes hp nums = some (written, report) ∧
      reads (nums.map Number.size) (hseek written hp.bitoffset .set).1 = some (report, read) := by
  rw [writes_eq hs nums hroom]
  rw [← numbers_length] at hroom
  obtain ⟨rest, hahead⟩ := hputs_ahead hs hend (nums.flatMap Number.bits) hroom
  have hparses : Parses Huff.Ahead (reads (nums.map Number.size)) (nums.flatMap Number.bits)
      (nums.map fun num => ((num, num.count), num.count)) := by
    rw [reads, List.map_map]
    refine Parses.inTurn fun num _ => ?_
    obtain ⟨cs, hcs, hbits, -⟩ := num.bits_eq
    have hmeasured := parses_measured (read_parses num hcs) (read_keeps num.size)
    rw [← hbits, num.bits_length] at hmeasured
    exact hmeasured
  obtain ⟨read, hrun, -⟩ := hparses _ rest hahead
  exact ⟨_, _, read, rfl, hrun⟩

/-- A byte, an integer and a block of two bytes, in a new buffer of eight bytes. -/
def threeNumbers : List Number := [⟨.char, 2#8⟩, ⟨.int, 70000#32⟩, ⟨.raw 2, 513#16⟩]

theorem reads_writes_three : ∃ written report read,
    writes (.over (List.replicate 8 0) 0 (by decide)) threeNumbers = some (written, report) ∧
      reads [.char, .int, .raw 2] (hseek written 0 .set).1 = some (report, read) :=
  reads_writes ⟨rfl, rfl, by decide⟩ (by decide) threeNumbers (by decide)

end SuperNet.Peggy.Serdes777
