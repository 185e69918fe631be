import Mathlib.Algebra.Order.Ring.Int
import Mathlib.Data.Int.Order.Lemmas
import Mathlib.Tactic.Linarith
import Mathlib.Tactic.Ring

/-!
# Time of the task library

A `timespec` is a number of seconds and of nanoseconds. The normal ones, whose nanoseconds are less
than a second, stand for the integers, as counts of nanoseconds, and the operations with which the
library counts periods and deadlines are read as the operations on integers. Here the seconds have
no bound; `Hipert.Ptask.Timespec` is about those of the machine.
-/

namespace Hipert.Ptask

/-! ## The operations -/

/-- `tspec`, with integers for its two `long`s. -/
structure Tspec where
  tvSec : ℤ
  tvNsec : ℤ
  deriving DecidableEq, Repr

/-- `SEC` to `NANO`. -/
inductive TimeUnit where
  | sec
  | milli
  | micro
  | nano
  deriving DecidableEq, Repr

/-- The first column of `conv_table`. -/
def TimeUnit.mul : TimeUnit → ℤ
  | .sec => 1
  | .milli => 1000
  | .micro => 1000000
  | .nano => 1000000000

/-- The second column of `conv_table`. -/
def TimeUnit.div : TimeUnit → ℤ
  | .sec => 1000000000
  | .milli => 1000000
  | .micro => 1000
  | .nano => 1

/-- `tspec_zero`. -/
def tspecZero : Tspec := ⟨0, 0⟩

/-- `tspec_from`. -/
def tspecFrom (tu : ℤ) (unit : TimeUnit) : Tspec :=
  ⟨tu.tdiv unit.mul, tu.tmod unit.mul * unit.div⟩

/-- The loop of `tspec_add`, with a bound on its rounds. -/
def carryLoop : ℕ → Tspec → Tspec
  | 0, s => s
  | rounds + 1, s =>
      if 1000000000 ≤ s.tvNsec then carryLoop rounds ⟨s.tvSec + 1, s.tvNsec - 1000000000⟩ else s

/-- The loop itself: it makes one round for each second that the nanoseconds hold. -/
def carry (s : Tspec) : Tspec := carryLoop (s.tvNsec / 1000000000).toNat s

/-- `tspec_add`. -/
def tspecAdd (a b : Tspec) : Tspec :=
  carry ⟨a.tvSec + b.tvSec, a.tvNsec + b.tvNsec⟩

/-- `tspec_cmp`. -/
def tspecCmp (a b : Tspec) : ℤ :=
  if b.tvSec < a.tvSec then 1
  else if a.tvSec < b.tvSec then -1
  else if b.tvNsec < a.tvNsec then 1
  else if a.tvNsec = b.tvNsec then 0
  else -1

/-- `tspec_sub`. -/
def tspecSub (a b : Tspec) : Tspec :=
  if a.tvNsec < b.tvNsec then
    ⟨a.tvSec - b.tvSec - 1, a.tvNsec - b.tvNsec + 1000000000⟩
  else ⟨a.tvSec - b.tvSec, a.tvNsec - b.tvNsec⟩

/-! ## Nanoseconds -/

/-- The nanoseconds that a `timespec` counts. -/
def Tspec.ns (t : Tspec) : ℤ := t.tvSec * 1000000000 + t.tvNsec

/-- The nanoseconds are less than a second. -/
def Tspec.Normal (t : Tspec) : Prop := 0 ≤ t.tvNsec ∧ t.tvNsec < 1000000000

instance (t : Tspec) : Decidable t.Normal := inferInstanceAs (Decidable (_ ∧ _))

/-- The normal `timespec` of a number of nanoseconds. -/
def ofNs (n : ℤ) : Tspec := ⟨n / 1000000000, n % 1000000000⟩

@[simp] theorem ns_tspecZero : tspecZero.ns = 0 := rfl

@[simp] theorem ns_ofNs (n : ℤ) : (ofNs n).ns = n := by
  unfold ofNs Tspec.ns
  dsimp only
  omega

theorem ofNs_normal (n : ℤ) : (ofNs n).Normal := by
  unfold ofNs Tspec.Normal
  dsimp only
  omega

theorem tspecZero_normal : tspecZero.Normal := by decide

theorem eq_ofNs_iff {t : Tspec} {n : ℤ} : t = ofNs n ↔ t.Normal ∧ t.ns = n := by
  refine ⟨?_, ?_⟩
  · intro eq
    rw [eq]
    exact ⟨ofNs_normal n, ns_ofNs n⟩
  · intro given
    rcases t with ⟨s, ns⟩
    simp only [Tspec.Normal, Tspec.ns] at given
    simp only [ofNs, Tspec.mk.injEq]
    omega

namespace TimeUnit

theorem mul_pos (unit : TimeUnit) : 0 < unit.mul := by
  cases unit <;> decide

theorem div_pos (unit : TimeUnit) : 0 < unit.div := by
  cases unit <;> decide

theorem mul_div (unit : TimeUnit) : unit.mul * unit.div = 1000000000 := by
  cases unit <;> decide

end TimeUnit

/-- The bound on the rounds plays no part: `carry` is the loop. -/
theorem carry_eq (s : Tspec) :
    carry s = if 1000000000 ≤ s.tvNsec then carry ⟨s.tvSec + 1, s.tvNsec - 1000000000⟩ else s := by
  split
  case isTrue large =>
    have rounds : (s.tvNsec / 1000000000).toNat =
        ((s.tvNsec - 1000000000) / 1000000000).toNat + 1 := by omega
    rw [carry, rounds, carryLoop, if_pos large, carry]
  case isFalse small =>
    rw [carry]
    cases (s.tvNsec / 1000000000).toNat with
    | zero => rfl
    | succ rounds => rw [carryLoop, if_neg small]

theorem ns_carryLoop (rounds : ℕ) (s : Tspec) : (carryLoop rounds s).ns = s.ns := by
  induction rounds generalizing s with
  | zero => rfl
  | succ rounds ih =>
      rw [carryLoop]
      split
      · rw [ih]
        unfold Tspec.ns
        dsimp only
        ring
      · rfl

theorem ns_carry (s : Tspec) : (carry s).ns = s.ns := ns_carryLoop _ s

/-- The bound on the rounds is never reached. -/
theorem carryLoop_lt {rounds : ℕ} {s : Tspec} (enough : s.tvNsec < (rounds + 1) * 1000000000) :
    (carryLoop rounds s).tvNsec < 1000000000 := by
  induction rounds generalizing s with
  | zero =>
      rw [carryLoop]
      omega
  | succ rounds ih =>
      rw [carryLoop]
      split
      · apply ih
        dsimp only
        push_cast at enough
        omega
      · omega

theorem carry_lt (s : Tspec) : (carry s).tvNsec < 1000000000 := by
  apply carryLoop_lt
  omega

/-- The loop keeps the sign of the nanoseconds. -/
theorem carryLoop_nonneg_iff (rounds : ℕ) (s : Tspec) :
    0 ≤ (carryLoop rounds s).tvNsec ↔ 0 ≤ s.tvNsec := by
  induction rounds generalizing s with
  | zero => rfl
  | succ rounds ih =>
      rw [carryLoop]
      split
      · rw [ih]
        dsimp only
        omega
      · rfl

theorem carry_eq_ofNs_iff (s : Tspec) : carry s = ofNs s.ns ↔ 0 ≤ s.tvNsec := by
  rw [eq_ofNs_iff, Tspec.Normal, carry, carryLoop_nonneg_iff, ← carry]
  exact ⟨fun given => given.1.1, fun nonneg => ⟨⟨nonneg, carry_lt s⟩, ns_carry s⟩⟩

theorem ns_tspecAdd (a b : Tspec) : (tspecAdd a b).ns = a.ns + b.ns := by
  rw [tspecAdd, ns_carry]
  unfold Tspec.ns
  dsimp only
  ring

theorem tspecAdd_eq {a b : Tspec} (left : a.Normal) (right : b.Normal) :
    tspecAdd a b = ofNs (a.ns + b.ns) := by
  rw [← ns_tspecAdd, tspecAdd, ns_carry]
  exact (carry_eq_ofNs_iff _).mpr (Int.add_nonneg left.1 right.1)

theorem ns_tspecFrom (tu : ℤ) (unit : TimeUnit) : (tspecFrom tu unit).ns = tu * unit.div := by
  have parts := Int.tdiv_mul_add_tmod tu unit.mul
  calc tu.tdiv unit.mul * 1000000000 + tu.tmod unit.mul * unit.div
      = (tu.tdiv unit.mul * unit.mul + tu.tmod unit.mul) * unit.div := by
        rw [← unit.mul_div]
        ring
    _ = tu * unit.div := by rw [parts]

/-- The nanoseconds of a conversion have the sign of the number, and are less than a second. -/
theorem tspecFrom_range (tu : ℤ) (unit : TimeUnit) :
    -1000000000 < (tspecFrom tu unit).tvNsec ∧ (tspecFrom tu unit).tvNsec < 1000000000 ∧
      (0 ≤ tu → 0 ≤ (tspecFrom tu unit).tvNsec) := by
  have mul_pos := unit.mul_pos
  have div_pos := unit.div_pos
  have upper := Int.tmod_lt_of_pos tu mul_pos
  have lower := Int.lt_tmod_of_pos tu mul_pos
  have product := unit.mul_div
  refine ⟨?_, ?_, ?_⟩
  · have := mul_lt_mul_of_pos_right lower div_pos
    rw [neg_mul, product] at this
    exact this
  · have := mul_lt_mul_of_pos_right upper div_pos
    rw [product] at this
    exact this
  · intro nonneg
    exact mul_nonneg (Int.tmod_nonneg _ nonneg) div_pos.le

theorem tspecFrom_normal {tu : ℤ} (unit : TimeUnit) (nonneg : 0 ≤ tu) :
    (tspecFrom tu unit).Normal :=
  ⟨(tspecFrom_range tu unit).2.2 nonneg, (tspecFrom_range tu unit).2.1⟩

theorem ns_tspecSub (a b : Tspec) : (tspecSub a b).ns = a.ns - b.ns := by
  unfold tspecSub Tspec.ns
  split
  · dsimp only
    ring
  · dsimp only
    ring

/-- One borrow is enough as long as the nanoseconds differ by less than a second. -/
theorem tspecSub_eq_ofNs_iff {a b : Tspec} (borrow : b.tvNsec - a.tvNsec ≤ 1000000000) :
    tspecSub a b = ofNs (a.ns - b.ns) ↔ a.tvNsec - b.tvNsec < 1000000000 := by
  rw [eq_ofNs_iff, Tspec.Normal, and_iff_left (ns_tspecSub a b)]
  unfold tspecSub
  split <;> dsimp only <;> omega

theorem tspecSub_eq {a b : Tspec} (left : a.Normal) (right : b.Normal) :
    tspecSub a b = ofNs (a.ns - b.ns) := by
  unfold Tspec.Normal at left right
  exact (tspecSub_eq_ofNs_iff (by omega)).mpr (by omega)

theorem tspecCmp_eq {a b : Tspec} (left : a.Normal) (right : b.Normal) :
    tspecCmp a b = (a.ns - b.ns).sign := by
  unfold Tspec.Normal at left right
  unfold tspecCmp Tspec.ns
  split
  case isTrue later =>
    rw [Int.sign_eq_one_of_pos]
    omega
  case isFalse =>
    split
    case isTrue earlier =>
      rw [Int.sign_eq_neg_one_of_neg]
      omega
    case isFalse =>
      split
      case isTrue =>
        rw [Int.sign_eq_one_of_pos]
        omega
      case isFalse =>
        split
        case isTrue =>
          rw [show a.tvSec * 1000000000 + a.tvNsec - (b.tvSec * 1000000000 + b.tvNsec) = 0 by
            omega]
          rfl
        case isFalse =>
          rw [Int.sign_eq_neg_one_of_neg]
          omega

theorem tspecCmp_pos_iff {a b : Tspec} (left : a.Normal) (right : b.Normal) :
    0 < tspecCmp a b ↔ b.ns < a.ns := by
  rw [tspecCmp_eq left right, Int.sign_pos_iff, sub_pos]

end Hipert.Ptask
