import SuperNet.Utils.LibgfshareField

/-! The M of N sharing of a player's blinding factors in cards777.c. -/
namespace SuperNet.Games.Cards777
open SuperNet.Lib.Memory SuperNet.Lib.Runs SuperNet.Lib.Sharing SuperNet.Utils.Libgfshare

/-- Bytes of the blinding factors: one of 32 bytes for each card and player. -/
def xoverzSize (numcards N : Nat) : Nat := N * 32 * numcards

/-- The array `allshares`; `myshares[j]` is its block `j`. -/
def cards777Calcmofn (rand allshares sharenrs : Nat → UInt8) (M : Nat) (xoverz : Nat → UInt8) (numcards N : Nat) :
    Nat → UInt8 :=
  calcShares rand allshares xoverz (xoverzSize numcards N) (xoverzSize numcards N) M N sharenrs

def myshares (allshares : Nat → UInt8) (numcards N j : Nat) : Nat → UInt8 :=
  fun k => allshares (j * xoverzSize numcards N + k)

/-- Share numbers of the shares that are there, zero for the others. -/
def recovernrs (shares : Nat → Option (Nat → UInt8)) (sharenrs : Nat → UInt8) (N : Nat) : Nat → UInt8 :=
  fun i => if i < N ∧ (shares i).isSome then sharenrs i else 0

def giveShares (ctx : GfshareCtx) (shares : Nat → Option (Nat → UInt8)) (N : Nat) : GfshareCtx :=
  rounds (fun ctx i => match shares i with
    | some share => gfshareCtxDecGiveshare ctx (UInt8.ofNat i) share
    | none => ctx) ctx N

/-- The buffer that `cards777_recover` returns; a share that is missing is a null pointer. -/
def cards777Recover (heap : Nat → UInt8) (shares : Nat → Option (Nat → UInt8)) (sharenrs : Nat → UInt8)
    (numcards N : Nat) : Nat → UInt8 :=
  let nrs := recovernrs shares sharenrs N
  let ctx := giveShares (gfshareCtxInitDec heap nrs N (xoverzSize numcards N)) shares N
  gfshareCtxDecExtract (gfshareCtxDecNewshares ctx nrs) fun _ => 0

/-- The shares of the players in `S`. -/
def sharesOf (allshares : Nat → UInt8) (numcards N : Nat) (S : Finset Nat) : Nat → Option (Nat → UInt8) :=
  fun i => if i ∈ S then some (myshares allshares numcards N i) else none

section Blocks
variable {size : Nat}

private theorem calcShare_inside (buffer share share' : Nat → UInt8) (M ilog : Nat) {k : Nat} (hk : k < size) :
    calcShare buffer size M ilog share k = calcShare buffer size M ilog share' k := by
  rw [calcShare, calcShare]
  generalize M - 1 = d
  induction d with
  | zero => simp [hk]
  | succ d ih => rw [rounds_succ, rounds_succ, if_pos hk, if_pos hk, ih]

theorem calcShares_block (rand shares secret sharenrs : Nat → UInt8) (M : Nat) {N i k : Nat} (hi : i < N)
    (hk : k < size) : calcShares rand shares secret size size M N sharenrs (i * size + k) =
      calcShare (sharesBuffer rand secret size M) size M (ctxLogs (sharenrs i)) (fun _ => 0) k := by
  rw [calcShares]
  exact rounds_atPtr _ (c := fun _ => True)
    (g := fun i => calcShare (sharesBuffer rand secret size M) size M (ctxLogs (sharenrs i)) fun _ => 0)
    (fun i d k _ hk => calcShare_inside _ _ _ _ _ hk) hi trivial hk

/-- The context after the shares have been given holds each in its block. -/
theorem giveShares_block (ctx : GfshareCtx) (shares : Nat → Option (Nat → UInt8)) {N : Nat} (hN : N ≤ 255) :
    (giveShares ctx shares N).size = ctx.size ∧ (giveShares ctx shares N).sharecount = ctx.sharecount ∧
      (giveShares ctx shares N).sharenrs = ctx.sharenrs ∧
      ∀ i share k, i < N → shares i = some share → k < ctx.size →
        (giveShares ctx shares N).buffer (i * ctx.size + k) = share k := by
  have hbuffer : ∀ n ≤ N, giveShares ctx shares n = { ctx with
      buffer := rounds (fun mem i => atPtr mem (i * ctx.size) fun dest k =>
        match shares i with
        | some share => if k < ctx.size then share k else dest k
        | none => dest k) ctx.buffer n } := by
    intro n hn
    induction n with
    | zero => rfl
    | succ n ih =>
      have hbyte : (UInt8.ofNat n).toNat = n := by
        rw [UInt8.toNat_ofNat', Nat.mod_eq_of_lt (by omega)]
      have hstep := ih (Nat.le_of_succ_le hn)
      rw [giveShares] at hstep
      rw [giveShares, rounds_succ, rounds_succ, hstep]
      cases hshare : shares n with
      | none =>
        dsimp only
        rw [atPtr_id]
      | some share =>
        dsimp only
        rw [gfshareCtxDecGiveshare, hbyte]
  rw [hbuffer N le_rfl]
  refine ⟨rfl, rfl, rfl, ?_⟩
  intro i share k hi hshare hk
  have hblock := rounds_atPtr ctx.buffer (c := fun i => (shares i).isSome)
    (f := fun i dest k => match shares i with
      | some share => if k < ctx.size then share k else dest k
      | none => dest k)
    (g := fun i => (shares i).getD fun _ => 0) (by
      intro i d k hc hk
      obtain ⟨share, hshare⟩ := Option.isSome_iff_exists.mp hc
      simp [hshare, hk]) hi (by rw [hshare]; rfl) hk
  rw [hshare] at hblock
  exact hblock

end Blocks

private theorem sharenrs_count {sharenrs : Nat → UInt8} {N : Nat} (hnz : ∀ i < N, sharenrs i ≠ 0)
    (hinj : ∀ i < N, ∀ j < N, sharenrs i = sharenrs j → i = j) : N ≤ 255 := by
  have h := Finset.card_le_card_of_injOn (s := Finset.range N) (t := Finset.Icc 1 255)
    (fun i => (sharenrs i).toNat) (by
      intro i hi
      have hlt := UInt8.toNat_lt (sharenrs i)
      have hpos : (sharenrs i).toNat ≠ 0 := fun h => hnz i (Finset.mem_range.mp hi) (UInt8.toNat_inj.mp h)
      simp only [Finset.coe_Icc, Set.mem_Icc]
      omega) (by
      intro i hi j hj h
      exact hinj i (by simpa using hi) j (by simpa using hj) (UInt8.toNat_inj.mp h))
  simpa using h

section Recover
variable {sharenrs : Nat → UInt8} {N numcards : Nat}

private theorem recovernrs_some {shares : Nat → Option (Nat → UInt8)} {i : Nat}
    (h : recovernrs shares sharenrs N i ≠ 0) :
    i < N ∧ (shares i).isSome ∧ recovernrs shares sharenrs N i = sharenrs i := by
  rw [recovernrs] at h ⊢
  split at h
  case isTrue hi => exact ⟨hi.1, hi.2, if_pos hi⟩
  case isFalse => exact absurd rfl h

/-- A recovered byte is the interpolation at zero of the bytes of the shares that are there. -/
theorem cards777Recover_eq (heap : Nat → UInt8) (shares : Nat → Option (Nat → UInt8)) (hN : N ≤ 255)
    (hinj : ∀ i < N, ∀ j < N, sharenrs i = sharenrs j → i = j) {k : Nat} (hk : k < xoverzSize numcards N) :
    (⟨cards777Recover heap shares sharenrs numcards N k⟩ : Gf) =
      ∑ i ∈ given (recovernrs shares sharenrs N) N,
        weight (given (recovernrs shares sharenrs N) N) (fun j => ⟨recovernrs shares sharenrs N j⟩) i *
          ⟨(shares i).getD (fun _ => 0) k⟩ := by
  obtain ⟨hsize, hcount, hctx, hblock⟩ := giveShares_block
    (gfshareCtxInitDec heap (recovernrs shares sharenrs N) N (xoverzSize numcards N)) shares hN
  rw [gfshareCtxInitDec] at hsize hcount hctx hblock
  dsimp only at hsize hcount hctx hblock
  rw [cards777Recover, gfshareCtxInitDec, gfshareCtxDecExtract, gfshareCtxDecNewshares]
  dsimp only
  rw [hsize, hcount, hctx]
  simp only [ite_self]
  rw [gfshareExtract_eq _ _ hk ?distinct]
  case distinct =>
    intro i hi j hj hsj hne h
    obtain ⟨-, -, hj'⟩ := recovernrs_some hsj
    obtain ⟨-, -, hi'⟩ := recovernrs_some (h ▸ hsj)
    exact hne (hinj j hj i hi (hj'.symm.trans (h.symm.trans hi')))
  apply Finset.sum_congr rfl
  intro i hi
  obtain ⟨hlt, hthere, -⟩ := recovernrs_some (Finset.mem_filter.mp hi).2
  obtain ⟨share, hshare⟩ := Option.isSome_iff_exists.mp hthere
  rw [Nat.mul_comm (xoverzSize numcards N) i, hblock i share k hlt hshare hk, hshare, Option.getD_some]

private theorem recovernrs_sharesOf (allshares : Nat → UInt8) {S : Finset Nat} (hS : S ⊆ Finset.range N) {i : Nat}
    (hi : i ∈ S) : recovernrs (sharesOf allshares numcards N S) sharenrs N i = sharenrs i := by
  rw [recovernrs, sharesOf, if_pos hi]
  exact if_pos ⟨Finset.mem_range.mp (hS hi), rfl⟩

private theorem given_sharesOf (allshares : Nat → UInt8) (hnz : ∀ i < N, sharenrs i ≠ 0) {S : Finset Nat}
    (hS : S ⊆ Finset.range N) : given (recovernrs (sharesOf allshares numcards N S) sharenrs N) N = S := by
  ext i
  rw [given, Finset.mem_filter]
  constructor
  · rintro ⟨-, h⟩
    obtain ⟨-, hthere, -⟩ := recovernrs_some h
    by_contra hi
    rw [sharesOf, if_neg hi] at hthere
    exact absurd hthere (by decide)
  · intro hi
    refine ⟨hS hi, ?_⟩
    rw [recovernrs_sharesOf allshares hS hi]
    exact hnz i (Finset.mem_range.mp (hS hi))

end Recover

/-- Any `M` of the shares recover the blinding factors. -/
theorem recover_calcmofn {N M numcards : Nat} (hM : 1 ≤ M) {sharenrs : Nat → UInt8} (hnz : ∀ i < N, sharenrs i ≠ 0)
    (hinj : ∀ i < N, ∀ j < N, sharenrs i = sharenrs j → i = j) (rand allshares xoverz heap : Nat → UInt8)
    {S : Finset Nat} (hS : S ⊆ Finset.range N) (hcard : M ≤ S.card) :
    slice (cards777Recover heap
        (sharesOf (cards777Calcmofn rand allshares sharenrs M xoverz numcards N) numcards N S) sharenrs numcards N)
      0 (xoverzSize numcards N) = slice xoverz 0 (xoverzSize numcards N) := by
  apply slice_congr
  intro k _ hk
  rw [Nat.zero_add] at hk
  have hmem {i : Nat} (hi : i ∈ S) : i < N := Finset.mem_range.mp (hS hi)
  -- the coefficients for byte `k`, the last one that of the secret
  let coeff (c : Nat) : Gf := ⟨sharesBuffer rand xoverz (xoverzSize numcards N) M (c * xoverzSize numcards N + k)⟩
  have hsecret : coeff (M - 1) = ⟨xoverz k⟩ := by
    apply Gf.ext_byte
    change sharesBuffer rand xoverz (xoverzSize numcards N) M ((M - 1) * xoverzSize numcards N + k) = xoverz k
    rw [sharesBuffer, if_neg (by omega), if_pos (by omega), Nat.add_sub_cancel_left]
  have hinjOn : Set.InjOn (fun j => (⟨sharenrs j⟩ : Gf)) S := by
    intro i hi j hj h
    exact hinj i (hmem hi) j (hmem hj) (congrArg Gf.byte h)
  apply Gf.mk.inj
  rw [cards777Recover_eq heap _ (sharenrs_count hnz hinj) hinj hk, given_sharesOf _ hnz hS, ← hsecret,
    ← horner_recover hinjOn coeff (by omega)]
  apply Finset.sum_congr rfl
  intro i hi
  congr 1
  · have hvals : ∀ j ∈ S, recovernrs (sharesOf (cards777Calcmofn rand allshares sharenrs M xoverz numcards N) numcards N S)
        sharenrs N j = sharenrs j := fun j hj => recovernrs_sharesOf _ hS hj
    rw [weight, weight, hvals i hi]
    congr 1
    · exact Finset.prod_congr rfl fun j hj => by rw [hvals j (Finset.mem_of_mem_erase hj)]
    · exact Finset.prod_congr rfl fun j hj => by rw [hvals j (Finset.mem_of_mem_erase hj)]
  · rw [sharesOf, if_pos hi, Option.getD_some, myshares, cards777Calcmofn, calcShares_block _ _ _ _ _ (hmem hi) hk]
    exact calcShare_eq _ _ M hk (hnz i (hmem hi))

theorem recover_calcmofn_two_of_three :
    slice (cards777Recover (fun _ => 0xaa)
        (sharesOf (cards777Calcmofn (fun k => UInt8.ofNat (7 * k)) (fun _ => 0) (fun i => UInt8.ofNat (i + 1)) 2
          (fun k => UInt8.ofNat k) 1 3) 1 3 {0, 2}) (fun i => UInt8.ofNat (i + 1)) 1 3)
      0 (xoverzSize 1 3) = slice (fun k => UInt8.ofNat k) 0 (xoverzSize 1 3) :=
  recover_calcmofn (by decide) (by decide) (by decide) _ _ _ _ (by decide) (by decide)

end SuperNet.Games.Cards777
