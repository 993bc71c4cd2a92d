import SuperNet.Lib.Memory
import SuperNet.Utils.Hex

/-! The zero-run packing of the preflop message. Memory is a function of the index, so that what lies
behind the buffer is part of the input. -/
namespace SuperNet.Games.Pangea
open SuperNet.Lib.Memory SuperNet.Utils.Hex

/-- The scan for the end of a zero run: the rounds left and the offset `j` reached. -/
def zbufScan (data : Nat → UInt8) (i : Nat) : Nat → Nat → Nat
  | 0, j => j
  | rounds+1, j => if data (i + j) ≠ 0 then j else zbufScan data i rounds (j + 1)

/-- Length of the zero run that `pangea_zbuf` writes for index `i`, at most 16. -/
def zbufRun (data : Nat → UInt8) (i : Nat) : Nat := zbufScan data i 15 1

/-- The loop of `pangea_zbuf` from index `i`: the characters written and the index it ends at. Each round
moves on by at least one byte, so `datalen` rounds are enough. -/
def zbufLoop (data : Nat → UInt8) (datalen : Nat) : Nat → Nat → List Char × Nat
  | 0, i => ([], i)
  | rounds+1, i =>
    if i < datalen then
      if data i ≠ 0 then
        let (zbuf, stop) := zbufLoop data datalen rounds (i + 1)
        (hexbyte ((data i).toNat >>> 4) :: hexbyte (data i).toNat :: zbuf, stop)
      else
        let j := zbufRun data i
        let (zbuf, stop) := zbufLoop data datalen rounds (i + j)
        ('Z' :: Char.ofNat ('A'.toNat + j) :: zbuf, stop)
    else ([], i)

def pangeaZbuf (data : Nat → UInt8) (datalen : Nat) : List Char := (zbufLoop data datalen datalen 0).1

/-- What `pangea_unzbuf` writes for one pair of characters. -/
def unzbufPair (hi lo : Char) : List UInt8 :=
  if hi = 'Z' then List.replicate (lo.toNat - 'A'.toNat) 0 else [decodeHexByte hi lo]

def unzbufLoop : Nat → List Char → List UInt8
  | 0, _ => []
  | n+1, hexstr => unzbufPair (charAt hexstr 0) (charAt hexstr 1) ++ unzbufLoop n (hexstr.drop 2)

/-- The bytes that `pangea_unzbuf` stores; it returns their number. -/
def pangeaUnzbuf (hexstr : List Char) (len : Nat) : List UInt8 := unzbufLoop ((len + 1) / 2) hexstr

/-- Size of the audits of a preflop message at a table of `N` players. -/
def preflopDatalen (N : Nat) : Nat := (2 * N) * (N * N * 32)

/-- The length check of `pangea_preflop`. -/
def preflopAccepts (N : Nat) (datalen : Nat) : Bool := datalen = preflopDatalen N

/-- Number of zero bytes at the end of the first `n`. -/
def zeroTail (data : Nat → UInt8) : Nat → Nat
  | 0 => 0
  | n+1 => if data n = 0 then zeroTail data n + 1 else 0

/-- The last zero run of the buffer fills whole groups of 16 or the byte behind it is not zero. -/
def EndsMarked (data : Nat → UInt8) (datalen : Nat) : Prop :=
  zeroTail data datalen % 16 = 0 ∨ data datalen ≠ 0

instance (data : Nat → UInt8) (datalen : Nat) : Decidable (EndsMarked data datalen) :=
  inferInstanceAs (Decidable (_ ∨ _))

/-- The packed buffer unpacks to itself and to its length, which the preflop check then accepts. -/
def Repacks (data : Nat → UInt8) (datalen : Nat) : Prop :=
  let unpacked := pangeaUnzbuf (pangeaZbuf data datalen) (pangeaZbuf data datalen).length
  unpacked = slice data 0 datalen ∧ unpacked.length = datalen ∧
    ∀ N, datalen = preflopDatalen N → preflopAccepts N unpacked.length

private theorem zbufScan_spec {data : Nat → UInt8} {i : Nat} (rounds j : Nat) (hz : ∀ k < j, data (i + k) = 0) :
    j ≤ zbufScan data i rounds j ∧ zbufScan data i rounds j ≤ j + rounds ∧
      (∀ k < zbufScan data i rounds j, data (i + k) = 0) ∧
      (zbufScan data i rounds j < j + rounds → data (i + zbufScan data i rounds j) ≠ 0) := by
  induction rounds generalizing j with
  | zero => exact ⟨le_rfl, le_rfl, hz, fun h => absurd h (lt_irrefl _)⟩
  | succ rounds ih =>
    rw [zbufScan]
    split
    case isTrue hne => exact ⟨le_rfl, by omega, hz, fun _ => hne⟩
    case isFalse heq =>
      have hz' : ∀ k < j + 1, data (i + k) = 0 := by
        intro k hk
        rcases Nat.lt_succ_iff_lt_or_eq.mp hk with hk | rfl
        · exact hz k hk
        · exact not_not.mp heq
      obtain ⟨hlo, hhi, hrun, hend⟩ := ih (j + 1) hz'
      exact ⟨by omega, by omega, hrun, fun h => hend (by omega)⟩

/-- The run written is one of zeros in memory, and only the limit of 16 ends it before a nonzero byte. -/
theorem zbufRun_spec {data : Nat → UInt8} {i : Nat} (hi : data i = 0) :
    1 ≤ zbufRun data i ∧ zbufRun data i ≤ 16 ∧ (∀ k < zbufRun data i, data (i + k) = 0) ∧
      (zbufRun data i < 16 → data (i + zbufRun data i) ≠ 0) := by
  apply zbufScan_spec 15 1
  intro k hk
  obtain rfl : k = 0 := by omega
  exact hi

private theorem zbufLoop_stop_ge (data : Nat → UInt8) (datalen rounds i : Nat) :
    i ≤ (zbufLoop data datalen rounds i).2 := by
  induction rounds generalizing i with
  | zero => exact le_rfl
  | succ rounds ih =>
    rw [zbufLoop]
    split
    · split
      · exact (Nat.le_succ i).trans (ih (i + 1))
      · exact (Nat.le_add_right i _).trans (ih (i + zbufRun data i))
    · exact le_rfl

private theorem unzbufPair_run {j : Nat} (h : j ≤ 16) :
    unzbufPair 'Z' (Char.ofNat ('A'.toNat + j)) = List.replicate j 0 := by
  have hall : ∀ j ≤ 16, unzbufPair 'Z' (Char.ofNat ('A'.toNat + j)) = List.replicate j 0 := by decide
  exact hall j h

private theorem unzbufPair_byte (b : UInt8) : unzbufPair (hexbyte (b.toNat >>> 4)) (hexbyte b.toNat) = [b] := by
  have hz : ∀ n < 16, hexbyte n ≠ 'Z' := by decide
  have hlt := UInt8.toNat_lt b
  have hhi : b.toNat >>> 4 < 16 := by
    rw [Nat.shiftRight_eq_div_pow]
    omega
  rw [unzbufPair, if_neg (hz _ hhi), decodeHexByte_hexbyte]

private theorem unzbuf_zbufLoop (data : Nat → UInt8) (datalen rounds i : Nat) :
    ∃ n, (zbufLoop data datalen rounds i).1.length = 2 * n ∧
      unzbufLoop n (zbufLoop data datalen rounds i).1 =
        slice data i ((zbufLoop data datalen rounds i).2 - i) := by
  induction rounds generalizing i with
  | zero => exact ⟨0, rfl, by simp [zbufLoop, unzbufLoop, slice]⟩
  | succ rounds ih =>
    rw [zbufLoop]
    split
    case isFalse => exact ⟨0, rfl, by simp [unzbufLoop, slice]⟩
    case isTrue =>
      split
      case isTrue =>
        obtain ⟨n, hlen, hdec⟩ := ih (i + 1)
        have hge := zbufLoop_stop_ge data datalen rounds (i + 1)
        refine ⟨n + 1, by simp [hlen]; omega, ?_⟩
        change unzbufPair (hexbyte ((data i).toNat >>> 4)) (hexbyte (data i).toNat) ++
          unzbufLoop n (zbufLoop data datalen rounds (i + 1)).1 =
            slice data i ((zbufLoop data datalen rounds (i + 1)).2 - i)
        rw [unzbufPair_byte, hdec, show (zbufLoop data datalen rounds (i + 1)).2 - i =
          1 + ((zbufLoop data datalen rounds (i + 1)).2 - (i + 1)) by omega, slice_append]
        rfl
      case isFalse hz =>
        obtain ⟨hlo, hhi, hrun, -⟩ := zbufRun_spec (not_not.mp hz)
        obtain ⟨n, hlen, hdec⟩ := ih (i + zbufRun data i)
        have hge := zbufLoop_stop_ge data datalen rounds (i + zbufRun data i)
        refine ⟨n + 1, by simp [hlen]; omega, ?_⟩
        change unzbufPair 'Z' (Char.ofNat ('A'.toNat + zbufRun data i)) ++
          unzbufLoop n (zbufLoop data datalen rounds (i + zbufRun data i)).1 =
            slice data i ((zbufLoop data datalen rounds (i + zbufRun data i)).2 - i)
        have hzero : slice data i (zbufRun data i) = List.replicate (zbufRun data i) 0 := by
          rw [slice, List.eq_replicate_iff]
          refine ⟨by simp, ?_⟩
          intro b hb
          obtain ⟨k, hk, rfl⟩ := List.mem_map.mp hb
          obtain ⟨d, hd, rfl⟩ := List.mem_range'.mp hk
          rw [one_mul]
          exact hrun d hd
        rw [unzbufPair_run hhi, hdec, ← hzero, show (zbufLoop data datalen rounds (i + zbufRun data i)).2 - i =
          zbufRun data i + ((zbufLoop data datalen rounds (i + zbufRun data i)).2 - (i + zbufRun data i)) by omega,
          slice_append]

theorem zeroTail_le (data : Nat → UInt8) (n : Nat) : zeroTail data n ≤ n := by
  induction n with
  | zero => exact le_rfl
  | succ n ih =>
    rw [zeroTail]
    split <;> omega

private theorem zeroTail_zero {data : Nat → UInt8} {n k : Nat} (hlo : n - zeroTail data n ≤ k) (hk : k < n) :
    data k = 0 := by
  induction n with
  | zero => exact absurd hk (Nat.not_lt_zero k)
  | succ n ih =>
    rw [zeroTail] at hlo
    split at hlo
    case isTrue hz =>
      rcases Nat.lt_succ_iff_lt_or_eq.mp hk with hk | rfl
      · exact ih (by omega) hk
      · exact hz
    case isFalse => omega

private theorem zeroTail_before {data : Nat → UInt8} {n : Nat} (h : zeroTail data n < n) :
    data (n - zeroTail data n - 1) ≠ 0 := by
  induction n with
  | zero => exact absurd h (Nat.not_lt_zero _)
  | succ n ih =>
    rw [zeroTail] at h ⊢
    split
    case isTrue hz =>
      rw [if_pos hz] at h
      have := ih (by omega)
      rwa [show n + 1 - (zeroTail data n + 1) - 1 = n - zeroTail data n - 1 by omega]
    case isFalse hz => simpa using hz

/-- Before the last zero run the loop stops at its start, inside it at whole groups of 16; so it ends
at `datalen` unless the rest of the run is not marked by a nonzero byte. -/
private theorem zbufLoop_stop {data : Nat → UInt8} {datalen : Nat} (rounds i : Nat) (hrounds : datalen ≤ i + rounds)
    (hi : i ≤ datalen) (hgroup : datalen - zeroTail data datalen ≤ i →
      (i - (datalen - zeroTail data datalen)) % 16 = 0) :
    (zbufLoop data datalen rounds i).2 = datalen ↔ EndsMarked data datalen := by
  have hle := zeroTail_le data datalen
  have hdone : datalen - zeroTail data datalen ≤ datalen := Nat.sub_le _ _
  induction rounds generalizing i with
  | zero =>
    have heq : i = datalen := by omega
    subst heq
    exact ⟨fun _ => .inl (by simpa [Nat.sub_sub_self hle] using hgroup hdone), fun _ => rfl⟩
  | succ rounds ih =>
    rw [zbufLoop]
    split
    case isFalse hend =>
      have heq : i = datalen := by omega
      subst heq
      exact ⟨fun _ => .inl (by simpa [Nat.sub_sub_self hle] using hgroup hdone), fun _ => rfl⟩
    case isTrue hlt =>
      split
      case isTrue hne =>
        have hbefore : i < datalen - zeroTail data datalen := by
          by_contra hin
          exact hne (zeroTail_zero (by omega) hlt)
        refine ih (i + 1) (by omega) (by omega) fun hs => ?_
        rw [show i + 1 - (datalen - zeroTail data datalen) = 0 by omega]
      case isFalse hz =>
        obtain ⟨hlo, hhi, hrun, hend⟩ := zbufRun_spec (not_not.mp hz)
        change (zbufLoop data datalen rounds (i + zbufRun data i)).2 = datalen ↔ _
        by_cases hbefore : i < datalen - zeroTail data datalen
        · have hnz : data (datalen - zeroTail data datalen - 1) ≠ 0 := zeroTail_before (by omega)
          have hstop : i + zbufRun data i < datalen - zeroTail data datalen := by
            by_contra hover
            apply hnz
            have := hrun (datalen - zeroTail data datalen - 1 - i) (by omega)
            rwa [show i + (datalen - zeroTail data datalen - 1 - i) = datalen - zeroTail data datalen - 1 by omega]
              at this
          exact ih _ (by omega) (by omega) fun hs => absurd hs (by omega)
        · have hmod := hgroup (by omega)
          by_cases hroom : i + 16 ≤ datalen
          · have hfull : zbufRun data i = 16 := by
              by_contra hshort
              exact hend (by omega) (zeroTail_zero (n := datalen) (by omega) (by omega))
            exact ih _ (by omega) (by omega) fun _ => by omega
          · have hpart : zeroTail data datalen % 16 ≠ 0 := by omega
            by_cases hmark : data datalen ≠ 0
            · have hexact : i + zbufRun data i = datalen := by
                rcases Nat.lt_trichotomy (i + zbufRun data i) datalen with h | h | h
                · exact absurd (zeroTail_zero (n := datalen) (by omega) h) (hend (by omega))
                · exact h
                · have := hrun (datalen - i) (by omega)
                  rw [show i + (datalen - i) = datalen by omega] at this
                  exact absurd this hmark
              have hstop : (zbufLoop data datalen rounds datalen).2 = datalen := by
                cases rounds with
                | zero => rfl
                | succ rounds => rw [zbufLoop, if_neg (lt_irrefl _)]
              rw [hexact]
              exact ⟨fun _ => .inr hmark, fun _ => hstop⟩
            · have hover : datalen < i + zbufRun data i := by
                by_contra hin
                have hne := hend (by omega)
                rcases Nat.lt_or_eq_of_le (not_lt.mp hin) with h | h
                · exact hne (zeroTail_zero (n := datalen) (by omega) h)
                · rw [h] at hne
                  exact hmark hne
              have hge := zbufLoop_stop_ge data datalen rounds (i + zbufRun data i)
              constructor
              · intro h
                omega
              · rintro (h | h)
                · exact absurd h hpart
                · exact absurd h hmark

private theorem repacks_iff_stop (data : Nat → UInt8) (datalen : Nat) :
    Repacks data datalen ↔ (zbufLoop data datalen datalen 0).2 = datalen := by
  obtain ⟨n, hlen, hdec⟩ := unzbuf_zbufLoop data datalen datalen 0
  have hunz : pangeaUnzbuf (pangeaZbuf data datalen) (pangeaZbuf data datalen).length =
      slice data 0 (zbufLoop data datalen datalen 0).2 := by
    rw [pangeaUnzbuf, pangeaZbuf, hlen, show (2 * n + 1) / 2 = n by omega, hdec, Nat.sub_zero]
  rw [Repacks, hunz]
  constructor
  · rintro ⟨-, h, -⟩
    rwa [slice_length] at h
  · intro h
    rw [h]
    exact ⟨rfl, slice_length _ _ _, fun N hN => by simp [preflopAccepts, ← hN]⟩

private theorem stop_iff_endsMarked (data : Nat → UInt8) (datalen : Nat) :
    (zbufLoop data datalen datalen 0).2 = datalen ↔ EndsMarked data datalen :=
  zbufLoop_stop datalen 0 (by omega) (Nat.zero_le _) fun _ => by rw [Nat.zero_sub]

/-- Packing and unpacking return the buffer and its length exactly if the end of the buffer is marked. -/
theorem repacks_iff_endsMarked (data : Nat → UInt8) (datalen : Nat) :
    Repacks data datalen ↔ EndsMarked data datalen :=
  (repacks_iff_stop data datalen).trans (stop_iff_endsMarked data datalen)

/-- The audits of a table of two players that end in one zero byte, with zeros behind them. -/
theorem zbuf_overruns : ¬ Repacks (fun i => if i < 511 then 1 else 0) (preflopDatalen 2) := by
  rw [repacks_iff_stop, stop_iff_endsMarked]
  decide

end SuperNet.Games.Pangea
