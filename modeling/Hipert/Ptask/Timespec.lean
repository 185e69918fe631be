import Hipert.Lib.MachineInt
import Hipert.Ptask.Time

/-!
# Time in machine integers

The operations on `timespec`s as the library computes them, on `long`s of 64 bits whose sums and
products wrap around. They give what the operations on integers give just if that is in the range of
a `long` (`timespec_arithmetic`, `clock_readings`).
-/

namespace Hipert.Ptask

/-! ## The operations -/

/-- `struct timespec`. -/
structure Timespec where
  tvSec : Int64
  tvNsec : Int64
  deriving DecidableEq

namespace Timespec

/-- `tspec_to`. -/
def tspecTo (t : Timespec) (unit : TimeUnit) : Int64 :=
  t.tvSec * .ofInt unit.mul + t.tvNsec / .ofInt unit.div

/-- `tspec_from`. -/
def tspecFrom (tu : Int64) (unit : TimeUnit) : Timespec :=
  ⟨tu / .ofInt unit.mul, tu % .ofInt unit.mul * .ofInt unit.div⟩

/-- `tspec_to_rel`, with the reference `tspec_t0`. -/
def tspecToRel (t0 t : Timespec) (unit : TimeUnit) : Int64 :=
  (t.tvSec - t0.tvSec) * .ofInt unit.mul + (t.tvNsec - t0.tvNsec) / .ofInt unit.div

/-- `tspec_from_rel`, with the reference `tspec_t0`. -/
def tspecFromRel (t0 : Timespec) (tu : Int64) (unit : TimeUnit) : Timespec :=
  ⟨tu / .ofInt unit.mul + t0.tvSec, tu % .ofInt unit.mul * .ofInt unit.div + t0.tvNsec⟩

/-- `ptask_gettime`, with the reference `tspec_t0` and the value `t` of the clock. -/
def ptaskGettime (t0 t : Timespec) (unit : TimeUnit) : Int64 := tspecToRel t0 t unit

/-- The loop of `tspec_add` and of `tspec_add_delta`, with a bound on its rounds. -/
def carryLoop : ℕ → Timespec → Timespec
  | 0, s => s
  | rounds + 1, s =>
      if 1000000000 ≤ s.tvNsec then carryLoop rounds ⟨s.tvSec + 1, s.tvNsec - 1000000000⟩ else s

/-- The loop itself: it makes one round for each second that the nanoseconds hold. -/
def carry (s : Timespec) : Timespec := carryLoop (s.tvNsec.toInt / 1000000000).toNat s

/-- `tspec_add`. -/
def tspecAdd (a b : Timespec) : Timespec := carry ⟨a.tvSec + b.tvSec, a.tvNsec + b.tvNsec⟩

/-- `tspec_add_delta`. -/
def tspecAddDelta (a : Timespec) (delta : Int64) (unit : TimeUnit) : Timespec :=
  let d := tspecFrom delta unit
  carry ⟨a.tvSec + d.tvSec, a.tvNsec + d.tvNsec⟩

/-- `tspec_cmp`. -/
def tspecCmp (a b : Timespec) : Int32 :=
  if b.tvSec < a.tvSec then 1
  else if a.tvSec < b.tvSec then -1
  else if b.tvNsec < a.tvNsec then 1
  else if a.tvNsec = b.tvNsec then 0
  else -1

/-- `tspec_sub`. -/
def tspecSub (a b : Timespec) : Timespec :=
  if a.tvNsec < b.tvNsec then
    ⟨a.tvSec - b.tvSec - 1, a.tvNsec - b.tvNsec + 1000000000⟩
  else ⟨a.tvSec - b.tvSec, a.tvNsec - b.tvNsec⟩

/-- `tspec_sub_delta`. -/
def tspecSubDelta (a : Timespec) (delta : Int64) (unit : TimeUnit) : Timespec :=
  let b := tspecFrom delta unit
  if a.tvNsec < b.tvNsec then
    ⟨a.tvSec - b.tvSec - 1, a.tvNsec - b.tvNsec + 1000000000⟩
  else ⟨a.tvSec - b.tvSec, a.tvNsec - b.tvNsec⟩

/-- The two numbers. -/
def read (t : Timespec) : Tspec := ⟨t.tvSec.toInt, t.tvNsec.toInt⟩

end Timespec

/-! ## The range of a `long` -/

/-- The numbers that a `long` holds. -/
def IsLong (n : ℤ) : Prop := -2 ^ 63 ≤ n ∧ n < 2 ^ 63

instance (n : ℤ) : Decidable (IsLong n) := inferInstanceAs (Decidable (_ ∧ _))

theorem isLong_toInt (x : Int64) : IsLong x.toInt := ⟨x.le_toInt, x.toInt_lt⟩

theorem toInt_ofInt_of_isLong {n : ℤ} (fits : IsLong n) : (Int64.ofInt n).toInt = n :=
  Int64.toInt_ofInt_of_le fits.1 fits.2

theorem toInt_ofInt_iff {n : ℤ} : (Int64.ofInt n).toInt = n ↔ IsLong n := by
  refine ⟨?_, toInt_ofInt_of_isLong⟩
  intro same
  rw [← same]
  exact isLong_toInt _

theorem IsLong.of_abs_lt {n : ℤ} (low : -4000000000 < n) (high : n < 4000000000) : IsLong n := by
  unfold IsLong
  omega

/-- The `timespec` of the machine with these numbers, as far as they fit. -/
def Tspec.longs (t : Tspec) : Timespec := ⟨.ofInt t.tvSec, .ofInt t.tvNsec⟩

/-- A result of the machine is the exact one just if its seconds fit. -/
theorem read_longs_iff {r : Tspec} {n : ℤ} (value : r.ns = n) (small : IsLong r.tvNsec) :
    r.longs.read = ofNs n ↔ r = ofNs n ∧ IsLong (n / 1000000000) := by
  have nsec : r.longs.read.tvNsec = r.tvNsec := toInt_ofInt_of_isLong small
  refine ⟨?_, ?_⟩
  · intro exact_result
    have normal : r.Normal := by
      rw [Tspec.Normal, ← nsec, exact_result]
      exact ofNs_normal n
    have same := eq_ofNs_iff.mpr ⟨normal, value⟩
    refine ⟨same, ?_⟩
    have sec : r.longs.read.tvSec = n / 1000000000 := by rw [exact_result, ofNs]
    rw [← sec]
    exact isLong_toInt _
  · intro given
    rcases given with ⟨rfl, fits⟩
    rw [Timespec.read, Tspec.longs]
    dsimp only
    rw [toInt_ofInt_of_isLong small]
    exact congrArg₂ Tspec.mk (toInt_ofInt_of_isLong fits) rfl

/-! ## Each operation on integers and on the machine -/

namespace Timespec

variable {a b t t0 : Timespec} {unit : TimeUnit}

theorem toInt_mul_unit (unit : TimeUnit) : (Int64.ofInt unit.mul).toInt = unit.mul := by
  cases unit <;> rfl

theorem toInt_div_unit (unit : TimeUnit) : (Int64.ofInt unit.div).toInt = unit.div := by
  cases unit <;> rfl

/-- The quotients by the numbers of the table do not overflow. -/
theorem toInt_div_ofInt {x : Int64} {d : ℤ} (fits : (Int64.ofInt d).toInt = d) (pos : 0 < d) :
    (x / Int64.ofInt d).toInt = x.toInt.tdiv d := by
  rw [Int64.toInt_div_of_ne_right, fits]
  intro minus
  rw [minus] at fits
  have negative : (-1 : Int64).toInt = -1 := rfl
  omega

/-- `tspec_from` makes no overflow. -/
theorem read_tspecFrom (tu : Int64) (unit : TimeUnit) :
    (tspecFrom tu unit).read = Ptask.tspecFrom tu.toInt unit := by
  have range := tspecFrom_range tu.toInt unit
  unfold Ptask.tspecFrom at range
  unfold read tspecFrom Ptask.tspecFrom
  dsimp only at range ⊢
  rw [toInt_div_ofInt (toInt_mul_unit unit) unit.mul_pos, Int64.toInt_mul, Int64.toInt_mod,
    toInt_mul_unit, toInt_div_unit, bmod64_eq_self (by omega) (by omega)]

theorem carryLoop_longs (rounds : ℕ) {s : Tspec} (small : IsLong s.tvNsec) :
    carryLoop rounds s.longs = (Ptask.carryLoop rounds s).longs := by
  induction rounds generalizing s with
  | zero => rfl
  | succ rounds ih =>
      have second : (1000000000 : Int64).toInt = 1000000000 := rfl
      have test : (1000000000 : Int64) ≤ s.longs.tvNsec ↔ 1000000000 ≤ s.tvNsec := by
        rw [Int64.le_iff_toInt_le, second, Tspec.longs]
        dsimp only
        rw [toInt_ofInt_of_isLong small]
      rw [carryLoop, Ptask.carryLoop]
      simp only [test]
      split
      case isTrue large =>
        have next : (⟨s.longs.tvSec + 1, s.longs.tvNsec - 1000000000⟩ : Timespec) =
            Tspec.longs ⟨s.tvSec + 1, s.tvNsec - 1000000000⟩ := by
          unfold Tspec.longs
          rw [Int64.ofInt_add, Int64.ofInt_sub]
          rfl
        rw [next]
        apply ih
        unfold IsLong at small ⊢
        dsimp only
        omega
      case isFalse => rfl

theorem carry_longs {s : Tspec} (small : IsLong s.tvNsec) :
    carry s.longs = (Ptask.carry s).longs := by
  have nsec : s.longs.tvNsec.toInt = s.tvNsec := toInt_ofInt_of_isLong small
  rw [carry, nsec, carryLoop_longs _ small, Ptask.carry]

/-- `tspec_add` on the machine and on integers. -/
theorem tspecAdd_eq_longs (small : IsLong (a.read.tvNsec + b.read.tvNsec)) :
    tspecAdd a b = (Ptask.tspecAdd a.read b.read).longs := by
  rw [Ptask.tspecAdd, ← carry_longs small, tspecAdd]
  unfold Tspec.longs
  rw [Int64.ofInt_add, Int64.ofInt_add]
  unfold read
  simp only [Int64.ofInt_toInt]

/-- `tspec_sub` on the machine and on integers. -/
theorem tspecSub_eq_longs : tspecSub a b = (Ptask.tspecSub a.read b.read).longs := by
  have test : a.tvNsec < b.tvNsec ↔ a.read.tvNsec < b.read.tvNsec := Int64.lt_iff_toInt_lt
  unfold tspecSub Ptask.tspecSub
  simp only [test]
  split
  · unfold Tspec.longs read
    simp only [Int64.ofInt_sub, Int64.ofInt_add, Int64.ofInt_toInt]
    rfl
  · unfold Tspec.longs read
    simp only [Int64.ofInt_sub, Int64.ofInt_toInt]

theorem isLong_tspecAdd {a b : Tspec} (small : IsLong (a.tvNsec + b.tvNsec)) :
    IsLong (Ptask.tspecAdd a b).tvNsec := by
  have high := carry_lt ⟨a.tvSec + b.tvSec, a.tvNsec + b.tvNsec⟩
  rw [← Ptask.tspecAdd] at high
  by_cases nonneg : 0 ≤ a.tvNsec + b.tvNsec
  · have low : 0 ≤ (Ptask.tspecAdd a b).tvNsec := (carryLoop_nonneg_iff _ _).mpr nonneg
    exact .of_abs_lt (by omega) (by omega)
  · -- the loop makes no round
    have none : ((a.tvNsec + b.tvNsec) / 1000000000).toNat = 0 := by omega
    rw [Ptask.tspecAdd, Ptask.carry, none]
    exact small

theorem isLong_tspecSub {a b : Tspec} (low : -2000000000 < a.tvNsec - b.tvNsec)
    (high : a.tvNsec - b.tvNsec < 2000000000) : IsLong (Ptask.tspecSub a b).tvNsec := by
  unfold Ptask.tspecSub
  split
  · exact .of_abs_lt (by dsimp only; omega) (by dsimp only; omega)
  · exact .of_abs_lt (by dsimp only; omega) (by dsimp only; omega)

/-- A comparison makes no overflow. -/
theorem toInt_tspecCmp (a b : Timespec) :
    (tspecCmp a b).toInt = Ptask.tspecCmp a.read b.read := by
  unfold tspecCmp Ptask.tspecCmp read
  simp only [Int64.lt_iff_toInt_lt, ← Int64.toInt_inj]
  split
  · rfl
  · split
    · rfl
    · split
      · rfl
      · split <;> rfl

/-- `tspec_to`, up to what a `long` loses. -/
theorem tspecTo_eq_ofInt (t : Timespec) (unit : TimeUnit) : tspecTo t unit =
    .ofInt (t.read.tvSec * unit.mul + t.read.tvNsec.tdiv unit.div) := by
  unfold read
  dsimp only
  rw [← toInt_div_ofInt (toInt_div_unit unit) unit.div_pos, Int64.ofInt_add, Int64.ofInt_mul,
    Int64.ofInt_toInt, Int64.ofInt_toInt, tspecTo]

theorem tspecTo_tspecFrom (tu : Int64) (unit : TimeUnit) :
    tspecTo (tspecFrom tu unit) unit = tu := by
  rw [tspecTo_eq_ofInt, read_tspecFrom, Ptask.tspecFrom]
  dsimp only
  rw [Int.mul_tdiv_cancel _ unit.div_pos.ne', Int.tdiv_mul_add_tmod, Int64.ofInt_toInt]

/-- The whole units of a normal `timespec`. -/
theorem ns_ediv_div {t : Tspec} (normal : t.Normal) (unit : TimeUnit) :
    t.ns / unit.div = t.tvSec * unit.mul + t.tvNsec.tdiv unit.div := by
  unfold Tspec.ns
  rw [Int.tdiv_eq_ediv_of_nonneg normal.1, ← unit.mul_div, ← mul_assoc, add_comm (_ * _ * _),
    Int.add_mul_ediv_right _ _ unit.div_pos.ne', add_comm]

/-- **Arithmetic of `timespec`s.** On normal operands every operation gives the normal `timespec` of
the exact result just if its seconds fit in a `long`, and `tspec_to` the exact number just if that
does; but a negative difference may leave the nanoseconds of a sum below zero, or those of a
difference above a second. -/
theorem timespec_arithmetic {a b : Timespec} (left : a.read.Normal) (right : b.read.Normal)
    (delta : Int64) (unit : TimeUnit) :
    ((tspecAdd a b).read = ofNs (a.read.ns + b.read.ns) ↔
        IsLong ((a.read.ns + b.read.ns) / 1000000000)) ∧
      ((tspecSub a b).read = ofNs (a.read.ns - b.read.ns) ↔
        IsLong ((a.read.ns - b.read.ns) / 1000000000)) ∧
      (tspecCmp a b).toInt = (a.read.ns - b.read.ns).sign ∧
      ((tspecTo a unit).toInt = a.read.ns / unit.div ↔ IsLong (a.read.ns / unit.div)) ∧
      tspecTo (tspecFrom delta unit) unit = delta ∧
      ((tspecAddDelta a delta unit).read = ofNs (a.read.ns + delta.toInt * unit.div) ↔
        0 ≤ a.read.tvNsec + delta.toInt.tmod unit.mul * unit.div ∧
          IsLong ((a.read.ns + delta.toInt * unit.div) / 1000000000)) ∧
      ((tspecSubDelta a delta unit).read = ofNs (a.read.ns - delta.toInt * unit.div) ↔
        a.read.tvNsec - delta.toInt.tmod unit.mul * unit.div < 1000000000 ∧
          IsLong ((a.read.ns - delta.toInt * unit.div) / 1000000000)) := by
  have range := tspecFrom_range delta.toInt unit
  have change_ns := ns_tspecFrom delta.toInt unit
  rw [← read_tspecFrom] at range change_ns
  have sum := tspecAdd_eq left right
  have difference := tspecSub_eq left right
  have order := tspecCmp_eq left right
  have whole := ns_ediv_div left unit
  unfold Tspec.Normal at left right
  have small : IsLong (a.read.tvNsec + b.read.tvNsec) := .of_abs_lt (by omega) (by omega)
  have delta_small : IsLong (a.read.tvNsec + (tspecFrom delta unit).read.tvNsec) :=
    .of_abs_lt (by omega) (by omega)
  refine ⟨?_, ?_, ?_, ?_, tspecTo_tspecFrom delta unit, ?_, ?_⟩
  · rw [tspecAdd_eq_longs small, read_longs_iff (ns_tspecAdd _ _) (isLong_tspecAdd small),
      and_iff_right sum]
  · rw [tspecSub_eq_longs, read_longs_iff (ns_tspecSub _ _)
      (isLong_tspecSub (by omega) (by omega)), and_iff_right difference]
  · rw [toInt_tspecCmp, order]
  · rw [tspecTo_eq_ofInt, ← whole]
    exact toInt_ofInt_iff
  · have machine : tspecAddDelta a delta unit = tspecAdd a (tspecFrom delta unit) := rfl
    rw [machine, tspecAdd_eq_longs delta_small, ← change_ns,
      read_longs_iff (ns_tspecAdd _ _) (isLong_tspecAdd delta_small)]
    refine and_congr_left fun _ => ?_
    rw [← ns_tspecAdd, Ptask.tspecAdd, ns_carry, carry_eq_ofNs_iff, read_tspecFrom]
    rfl
  · have machine : tspecSubDelta a delta unit = tspecSub a (tspecFrom delta unit) := rfl
    rw [machine, tspecSub_eq_longs, ← change_ns,
      read_longs_iff (ns_tspecSub _ _) (isLong_tspecSub (by omega) (by omega)),
      tspecSub_eq_ofNs_iff (by omega), read_tspecFrom]
    rfl

theorem timespec_arithmetic_borrow :
    (tspecSub ⟨3, 100⟩ ⟨1, 900⟩).read = ofNs 1999999200 ∧
      (tspecTo ⟨10000000000, 5⟩ .nano).toInt ≠ 10000000000000000005 ∧
      (tspecAddDelta ⟨3, 100⟩ (-1) .milli).read ≠ ofNs 2999000100 := by
  have facts := @timespec_arithmetic ⟨3, 100⟩ ⟨1, 900⟩ (by decide) (by decide) (-1) .milli
  have long := @timespec_arithmetic ⟨10000000000, 5⟩ ⟨1, 900⟩ (by decide) (by decide) (-1) .nano
  have less : (⟨3, 100⟩ : Timespec).read.ns - (⟨1, 900⟩ : Timespec).read.ns = 1999999200 := by
    decide +kernel
  have more : (⟨3, 100⟩ : Timespec).read.ns + (-1 : Int64).toInt * TimeUnit.milli.div =
      2999000100 := by decide +kernel
  have far : (⟨10000000000, 5⟩ : Timespec).read.ns / TimeUnit.nano.div =
      10000000000000000005 := by decide +kernel
  rw [less, more] at facts
  rw [far] at long
  refine ⟨facts.2.1.mpr (by decide +kernel), mt long.2.2.2.1.mp (by decide +kernel), ?_⟩
  exact mt facts.2.2.2.2.2.1.mp (by decide +kernel)

/-! ## Time since the reference -/

end Timespec

/-- The units that a clock shows since the reference, rounded down, or up while it shows less
nanoseconds than the reference does. -/
def units (t0 t : Tspec) (unit : TimeUnit) : ℤ :=
  if t0.tvNsec ≤ t.tvNsec then (t.ns - t0.ns) / unit.div else -((t0.ns - t.ns) / unit.div)

/-- The difference of the nanoseconds is rounded on its own, towards zero. -/
theorem units_eq (t0 t : Tspec) (unit : TimeUnit) : units t0 t unit =
    (t.tvSec - t0.tvSec) * unit.mul + (t.tvNsec - t0.tvNsec).tdiv unit.div := by
  have split_ns (a b : Tspec) :
      a.ns - b.ns = (a.tvNsec - b.tvNsec) + (a.tvSec - b.tvSec) * unit.mul * unit.div := by
    rw [mul_assoc, unit.mul_div]
    unfold Tspec.ns
    ring
  unfold units
  split
  · rw [split_ns, Int.add_mul_ediv_right _ _ unit.div_pos.ne',
      Int.tdiv_eq_ediv_of_nonneg (by omega), add_comm]
  · rw [split_ns, Int.add_mul_ediv_right _ _ unit.div_pos.ne',
      show t.tvNsec - t0.tvNsec = -(t0.tvNsec - t.tvNsec) by ring, Int.neg_tdiv,
      Int.tdiv_eq_ediv_of_nonneg (by omega)]
    ring

theorem units_mono {t0 t t' : Tspec} (first : t.Normal) (second : t'.Normal) (unit : TimeUnit)
    (later : t.ns ≤ t'.ns) : units t0 t unit ≤ units t0 t' unit := by
  have div_pos := unit.div_pos
  unfold Tspec.Normal at first second
  by_cases up : t0.tvNsec ≤ t.tvNsec
  · by_cases up' : t0.tvNsec ≤ t'.tvNsec
    · rw [units, units, if_pos up, if_pos up']
      exact Int.ediv_le_ediv div_pos (by omega)
    · -- the second clock shows less nanoseconds, hence more seconds
      rw [units, units, if_pos up, if_neg up', le_neg_iff_add_nonpos_right]
      have first_le := Int.mul_ediv_self_le (x := t.ns - t0.ns) div_pos.ne'
      have second_le := Int.mul_ediv_self_le (x := t0.ns - t'.ns) div_pos.ne'
      have product : unit.div * ((t.ns - t0.ns) / unit.div + (t0.ns - t'.ns) / unit.div) ≤ 0 := by
        rw [mul_add]
        omega
      exact nonpos_of_mul_nonpos_right product div_pos
  · by_cases up' : t0.tvNsec ≤ t'.tvNsec
    · have seconds : t.tvSec ≤ t'.tvSec := by
        unfold Tspec.ns at later
        omega
      rw [units_eq, units_eq]
      have negative : (t.tvNsec - t0.tvNsec).tdiv unit.div ≤ 0 := by
        rw [← neg_sub t0.tvNsec t.tvNsec, Int.neg_tdiv, Left.neg_nonpos_iff]
        exact Int.tdiv_nonneg (by omega) div_pos.le
      have nonneg : 0 ≤ (t'.tvNsec - t0.tvNsec).tdiv unit.div :=
        Int.tdiv_nonneg (by omega) div_pos.le
      have whole := mul_le_mul_of_nonneg_right
        (show t.tvSec - t0.tvSec ≤ t'.tvSec - t0.tvSec by omega) unit.mul_pos.le
      omega
    · rw [units, units, if_neg up, if_neg up', neg_le_neg_iff]
      exact Int.ediv_le_ediv div_pos (by omega)

namespace Timespec

variable {t t0 : Timespec}

/-- `tspec_to_rel`, up to what a `long` loses. -/
theorem tspecToRel_eq_ofInt (small : IsLong (t.read.tvNsec - t0.read.tvNsec)) (unit : TimeUnit) :
    tspecToRel t0 t unit = .ofInt (units t0.read t.read unit) := by
  have nsec : (t.tvNsec - t0.tvNsec).toInt = t.read.tvNsec - t0.read.tvNsec := by
    rw [Int64.toInt_sub]
    exact bmod64_eq_self small.1 small.2
  rw [units_eq, ← nsec, ← toInt_div_ofInt (toInt_div_unit unit) unit.div_pos, Int64.ofInt_add,
    Int64.ofInt_mul, Int64.ofInt_sub, Int64.ofInt_toInt]
  unfold read
  rw [Int64.ofInt_toInt, Int64.ofInt_toInt, tspecToRel]

/-- The reference goes out again, overflow or not. -/
theorem tspecToRel_tspecFromRel (t0 : Timespec) (tu : Int64) (unit : TimeUnit) :
    tspecToRel t0 (tspecFromRel t0 tu unit) unit = tu := by
  have back : tspecToRel t0 (tspecFromRel t0 tu unit) unit = tspecTo (tspecFrom tu unit) unit := by
    unfold tspecToRel tspecFromRel tspecTo tspecFrom
    dsimp only
    rw [Int64.add_sub_cancel, Int64.add_sub_cancel]
  rw [back, tspecTo_tspecFrom]

/-- **Readings of the clock.** Conversion to a reading is the inverse of conversion from one, which
is exact just if its seconds fit in a `long`; a reading is the time since the reference just if that
fits, and as long as it does, readings never go back. -/
theorem clock_readings {t0 : Timespec} (reference : t0.read.Normal) (unit : TimeUnit) :
    (∀ tu, tspecToRel t0 (tspecFromRel t0 tu unit) unit = tu ∧
        ((tspecFromRel t0 tu unit).read.ns = t0.read.ns + tu.toInt * unit.div ↔
          IsLong (tu.toInt.tdiv unit.mul + t0.read.tvSec))) ∧
      ∀ t : Timespec, t.read.Normal →
        ((ptaskGettime t0 t unit).toInt = units t0.read t.read unit ↔
          IsLong (units t0.read t.read unit)) ∧
        ∀ t' : Timespec, t'.read.Normal → t.read.ns ≤ t'.read.ns →
          IsLong (units t0.read t.read unit) → IsLong (units t0.read t'.read unit) →
            ptaskGettime t0 t unit ≤ ptaskGettime t0 t' unit := by
  have read_reading : ∀ t : Timespec, t.read.Normal →
      ((ptaskGettime t0 t unit).toInt = units t0.read t.read unit ↔
        IsLong (units t0.read t.read unit)) := by
    intro t normal
    unfold Tspec.Normal at normal reference
    rw [ptaskGettime, tspecToRel_eq_ofInt (.of_abs_lt (by omega) (by omega))]
    exact toInt_ofInt_iff
  refine ⟨?_, ?_⟩
  · intro tu
    refine ⟨tspecToRel_tspecFromRel t0 tu unit, ?_⟩
    have range := tspecFrom_range tu.toInt unit
    have parts := read_tspecFrom tu unit
    have value := ns_tspecFrom tu.toInt unit
    rw [← parts] at range value
    have sec : (tspecFrom tu unit).read.tvSec = tu.toInt.tdiv unit.mul := by rw [parts]; rfl
    have nsec : (tspecFromRel t0 tu unit).read.tvNsec =
        (tspecFrom tu unit).read.tvNsec + t0.read.tvNsec := by
      unfold Tspec.Normal at reference
      have small : IsLong ((tspecFrom tu unit).read.tvNsec + t0.read.tvNsec) :=
        .of_abs_lt (by omega) (by omega)
      exact (Int64.toInt_add _ _).trans (bmod64_eq_self small.1 small.2)
    have whole : (tspecFromRel t0 tu unit).tvSec =
        .ofInt ((tspecFrom tu unit).read.tvSec + t0.read.tvSec) := by
      rw [Int64.ofInt_add]
      unfold read
      rw [Int64.ofInt_toInt, Int64.ofInt_toInt]
      rfl
    rw [← sec, ← toInt_ofInt_iff, ← whole, ← value]
    unfold Tspec.ns
    rw [nsec]
    change (_ : ℤ) * 1000000000 + _ = _ ↔ (tspecFromRel t0 tu unit).read.tvSec = _
    omega
  · intro t normal
    refine ⟨read_reading t normal, ?_⟩
    intro t' normal' later fits fits'
    rw [Int64.le_iff_toInt_le, (read_reading t normal).mpr fits,
      (read_reading t' normal').mpr fits']
    exact units_mono normal normal' unit later

theorem clock_readings_ahead :
    (ptaskGettime ⟨0, 900000000⟩ ⟨1, 0⟩ .sec).toInt = 1 ∧
      (ptaskGettime ⟨0, 0⟩ ⟨10000000000, 5⟩ .nano).toInt ≠ 10000000000000000005 := by
  have ahead := ((@clock_readings ⟨0, 900000000⟩ (by decide) .sec).2 ⟨1, 0⟩ (by decide)).1
  have far := ((@clock_readings ⟨0, 0⟩ (by decide) .nano).2 ⟨10000000000, 5⟩ (by decide)).1
  have one : units (⟨0, 900000000⟩ : Timespec).read (⟨1, 0⟩ : Timespec).read .sec = 1 := by
    decide +kernel
  have many : units (⟨0, 0⟩ : Timespec).read (⟨10000000000, 5⟩ : Timespec).read .nano =
      10000000000000000005 := by decide +kernel
  rw [one] at ahead
  rw [many] at far
  exact ⟨ahead.mpr (by decide +kernel), mt far.mp (by decide +kernel)⟩

end Timespec

end Hipert.Ptask
