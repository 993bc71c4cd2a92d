import SuperNet.Peggy.PeggyReserves

/-! The lock of a new unit against the lock parameters of its peg. -/
namespace SuperNet.Peggy.Peggy777
open Serdes777 Accts777

def peggyMixrange : Nat := 7777

/-- The lock parameters of the peg, unless they are refused. -/
def peggyLockparms (peg : Nat) (lockparms : PeggyLock) : Option PeggyLock :=
  if lockparms.maxlockdays < lockparms.minlockdays then none
  else
    let leastdays := BitVec.ofNat 8 (peggyMinextradays * 2)
    some
      { lockparms with
        peg := BitVec.ofNat 16 peg
        mixrange := if lockparms.mixrange = 0 then BitVec.ofNat 16 peggyMixrange else lockparms.mixrange
        extralockdays := if lockparms.extralockdays < leastdays then leastdays else lockparms.extralockdays }

theorem peggyLockparms_ordered {peg : Nat} {lockparms parms : PeggyLock} (h : peggyLockparms peg lockparms = some parms) :
    parms.minlockdays ≤ parms.maxlockdays := by
  rw [peggyLockparms] at h
  split at h
  case isTrue => cases h
  case isFalse hrange =>
    obtain rfl := Option.some.inj h
    exact BitVec.not_lt.mp hrange

/-- A request that lies within the peg's limits. -/
structure Inside (parms lock : PeggyLock) : Prop where
  min : parms.minlockdays ≤ lock.minlockdays
  ordered : lock.minlockdays ≤ lock.maxlockdays
  max : lock.maxlockdays ≤ parms.maxlockdays
  clonesmear : lock.clonesmear ≤ parms.clonesmear
  mixrange : lock.mixrange ≤ parms.mixrange

/-- The stored lock keeps to the peg's limits, and to the request where that does. -/
structure Respects (parms lock stored : PeggyLock) : Prop where
  inside : Inside parms stored
  margin : stored.margin ≠ 0 → stored.maxlockdays.toNat ≤ peggyMarginlockdays
  unchanged : Inside parms lock → stored.minlockdays = lock.minlockdays ∧ stored.maxlockdays = lock.maxlockdays ∧
    stored.clonesmear = lock.clonesmear ∧ stored.mixrange = lock.mixrange

theorem peggySetunit_terms {entry entry' : PeggyEntry} {s : PeggyInfo} {now peg seed : Nat} {lock : PeggyLock}
    {U : PeggyUnit} {satoshis : Int} (h : peggySetunit entry s now peg seed lock = some (U, entry', satoshis)) :
    lockTerms entry (s.contracts peg) peg seed lock = some U.lock := by
  rw [peggySetunit] at h
  split at h
  · cases h
  · obtain ⟨terms, hterms, h⟩ := Option.bind_eq_some_iff.mp h
    simp only [Option.some.injEq, Prod.mk.injEq] at h
    rw [hterms, ← h.1]

/-- The stored maximum is the greater of the two, the stored minimum the smaller. -/
structure StoredLock (parms lock stored : PeggyLock) : Prop where
  maxlockdays : stored.maxlockdays.toNat = max lock.maxlockdays.toNat parms.maxlockdays.toNat
  minlockdays : stored.minlockdays.toNat = min lock.minlockdays.toNat parms.minlockdays.toNat
  clonesmear : stored.clonesmear.toNat = min lock.clonesmear.toNat parms.clonesmear.toNat
  mixrange : stored.mixrange.toNat = min lock.mixrange.toNat parms.mixrange.toNat
  margin : stored.margin = lock.margin
  checked : lock.margin ≠ 0 → lock.maxlockdays.toNat ≤ peggyMarginlockdays

theorem lockTerms_stored {entry : PeggyEntry} {PEG : PeggyContract} {peg seed : Nat} {lock stored : PeggyLock}
    (hparms : PEG.lockparms.minlockdays ≤ PEG.lockparms.maxlockdays) (h : lockTerms entry PEG peg seed lock = some stored) :
    StoredLock PEG.lockparms lock stored := by
  simp only [lockTerms] at h
  split at h
  case isTrue => cases h
  case isFalse hmargin =>
    obtain rfl := Option.some.inj h
    simp only [BitVec.le_def] at hparms
    -- The last clamp of the minimum does nothing, since the stored maximum is at least the peg's.
    refine ⟨?max, ?min, ?smear, ?mix, rfl, fun hused => ?_⟩
    case max => simp only [BitVec.le_def]; split <;> omega
    case min => simp only [BitVec.le_def, BitVec.lt_def]; split <;> split <;> split <;> omega
    case smear => simp only [BitVec.lt_def]; split <;> omega
    case mix => simp only [BitVec.lt_def]; split <;> omega
    by_contra hdays
    exact hmargin ⟨hused, .inl (Nat.lt_of_not_le hdays)⟩

theorem StoredLock.respects_iff {parms lock stored : PeggyLock} (h : StoredLock parms lock stored)
    (hparms : parms.minlockdays ≤ parms.maxlockdays) :
    Respects parms lock stored ↔
      parms.minlockdays ≤ lock.minlockdays ∧ lock.maxlockdays ≤ parms.maxlockdays ∧
        (lock.margin ≠ 0 → parms.maxlockdays.toNat ≤ peggyMarginlockdays) ∧
        (Inside parms lock → lock.minlockdays = parms.minlockdays ∧ lock.maxlockdays = parms.maxlockdays) := by
  obtain ⟨hmax, hmin, hsmear, hmix, hmargin, hchecked⟩ := h
  rw [BitVec.le_def] at hparms
  constructor
  · intro hrespects
    have hlow := BitVec.le_def.mp hrespects.inside.min
    have hhigh := BitVec.le_def.mp hrespects.inside.max
    refine ⟨BitVec.le_def.mpr (by omega), BitVec.le_def.mpr (by omega), fun hused => ?_, fun hinside => ?_⟩
    · have hdays := hrespects.margin (by rwa [hmargin])
      omega
    · obtain ⟨hmin', hmax', -⟩ := hrespects.unchanged hinside
      rw [← hmin', ← hmax']
      exact ⟨BitVec.eq_of_toNat_eq (by omega), BitVec.eq_of_toNat_eq (by omega)⟩
  · rintro ⟨hlow, hhigh, hused, hexact⟩
    rw [BitVec.le_def] at hlow hhigh
    refine ⟨?inside, fun hstored => ?margin, fun hinside => ?unchanged⟩
    case inside =>
      constructor <;> apply BitVec.le_def.mpr <;> omega
    case margin =>
      have hdays := hused (by rwa [← hmargin])
      omega
    case unchanged =>
      obtain ⟨hmin', hmax'⟩ := hexact hinside
      have hsmear' := BitVec.le_def.mp hinside.clonesmear
      have hmix' := BitVec.le_def.mp hinside.mixrange
      rw [hmin', hmax']
      refine ⟨?_, ?_, ?_, ?_⟩ <;> apply BitVec.eq_of_toNat_eq <;> omega

/-- The limits are kept by requests within the peg's days that either leave its range or ask for all of it. -/
theorem setunit_respects_iff {s : PeggyInfo} {peg : Nat} {parms : PeggyLock} {entry entry' : PeggyEntry} {now seed : Nat}
    {lock : PeggyLock} {U : PeggyUnit} {satoshis : Int} (hparms : peggyLockparms peg parms = some (s.contracts peg).lockparms)
    (hset : peggySetunit entry s now peg seed lock = some (U, entry', satoshis)) :
    Respects (s.contracts peg).lockparms lock U.lock ↔
      (s.contracts peg).lockparms.minlockdays ≤ lock.minlockdays ∧
        lock.maxlockdays ≤ (s.contracts peg).lockparms.maxlockdays ∧
        (lock.margin ≠ 0 → (s.contracts peg).lockparms.maxlockdays.toNat ≤ peggyMarginlockdays) ∧
        (Inside (s.contracts peg).lockparms lock →
          lock.minlockdays = (s.contracts peg).lockparms.minlockdays ∧
            lock.maxlockdays = (s.contracts peg).lockparms.maxlockdays) := by
  have hordered := peggyLockparms_ordered hparms
  exact (lockTerms_stored hordered (peggySetunit_terms hset)).respects_iff hordered

/-- The bank with the lock parameters that its pegs were given, 7 to 30 days. -/
def monthBank : PeggyInfo :=
  { newBank false with
    contracts := fun i => { (newBank false).contracts i with lockparms := { monthLock with peg := BitVec.ofNat 16 i } } }

def setFive (lock : PeggyLock) : Option (PeggyUnit × PeggyEntry × Int) :=
  peggySetunit (peggyFound (monthBank.contracts 1) 1) monthBank 0 1 0 lock

/-- Five units for all of the 7 to 30 days. -/
def wholeMonth : PeggyLock := { monthLock with peg := 1, denom := 5, margin := 0 }

private theorem setFive_stored (lock : PeggyLock) (days : Nat × Nat)
    (h : (setFive lock).map (fun x => (x.1.lock.minlockdays.toNat, x.1.lock.maxlockdays.toNat, x.2.2)) =
      some (days.1, days.2, 500000000)) :
    ∃ U entry, setFive lock = some (U, entry, 500000000) ∧ U.lock.minlockdays.toNat = days.1 ∧
      U.lock.maxlockdays.toNat = days.2 := by
  obtain ⟨⟨U, entry, satoshis⟩, hset, h⟩ := Option.map_eq_some_iff.mp h
  simp only [Prod.mk.injEq] at h
  obtain ⟨hmin, hmax, rfl⟩ := h
  exact ⟨U, entry, hset, hmin, hmax⟩

theorem setunit_respects_wholeMonth : ∃ U entry, setFive wholeMonth = some (U, entry, 500000000) ∧
    Respects (monthBank.contracts 1).lockparms wholeMonth U.lock := by
  obtain ⟨U, entry, hset, -⟩ := setFive_stored wholeMonth (7, 30) (by decide +kernel)
  have hparms : peggyLockparms 1 monthLock = some (monthBank.contracts 1).lockparms := by decide
  refine ⟨U, entry, hset, (setunit_respects_iff hparms hset).mpr ?_⟩
  exact ⟨by decide, by decide, fun h => absurd rfl h, fun _ => ⟨rfl, rfl⟩⟩

/-- Five units asked for 10 to 20 days are stored for 7 to 30. -/
theorem setunit_widened : ∃ U entry, setFive (fiveUnits 1 5).lock = some (U, entry, 500000000) ∧
    Inside (monthBank.contracts 1).lockparms (fiveUnits 1 5).lock ∧ U.lock.minlockdays = 7 ∧ U.lock.maxlockdays = 30 ∧
    ¬ ∀ (s : PeggyInfo) (peg : Nat) (parms : PeggyLock) (entry entry' : PeggyEntry) (now seed : Nat) (lock : PeggyLock)
      (U : PeggyUnit) (satoshis : Int), peggyLockparms peg parms = some (s.contracts peg).lockparms →
        peggySetunit entry s now peg seed lock = some (U, entry', satoshis) → satoshis ≠ 0 →
          Respects (s.contracts peg).lockparms lock U.lock := by
  obtain ⟨U, entry, hset, hmin, hmax⟩ := setFive_stored (fiveUnits 1 5).lock (7, 30) (by decide +kernel)
  have hinside : Inside (monthBank.contracts 1).lockparms (fiveUnits 1 5).lock := by
    constructor <;> decide
  have hlow : U.lock.minlockdays = 7 := BitVec.eq_of_toNat_eq hmin
  refine ⟨U, entry, hset, hinside, hlow, BitVec.eq_of_toNat_eq hmax, fun h => ?_⟩
  have hrespects := h monthBank 1 monthLock _ _ _ _ _ _ _ rfl hset (by decide)
  have hsame := (hrespects.unchanged hinside).1
  rw [hlow] at hsame
  exact absurd hsame (by decide)

end SuperNet.Peggy.Peggy777
