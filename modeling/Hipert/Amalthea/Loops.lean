import Mathlib.Data.Int.ConditionallyCompleteOrder
import Hipert.Amalthea.Run

/-!
# The loops of the analysis

Every `do … while` loop of `Core.java` adds, for the tasks of higher priority, a charge that depends
on the current value. Under the unbounded reading the loops end as soon as these tasks leave processor
time over; under the saturating one they always end, because the casts take finitely many values.
`busy_period` divides every ceiling by the period of the analysed task, so it needs more: the
execution times of the tasks down to that one have to fit in that one period.
-/

namespace Hipert.Amalthea

/-! ## Casts -/

section Casts

variable (ρ : IntReading)

theorem IntReading.cast_mono : Monotone ρ.cast := by
  intro m n le
  cases ρ with
  | unbounded => exact le
  | saturating => exact max_le_max le_rfl (min_le_min le le_rfl)

@[simp] theorem IntReading.cast_zero : ρ.cast 0 = 0 := by cases ρ <;> rfl

@[simp] theorem IntReading.cast_one : ρ.cast 1 = 1 := by cases ρ <;> rfl

theorem IntReading.cast_nonneg {n : ℤ} (nonneg : 0 ≤ n) : 0 ≤ ρ.cast n := by
  rw [← ρ.cast_zero]
  exact ρ.cast_mono nonneg

theorem IntReading.one_le_cast {n : ℤ} (one : 1 ≤ n) : 1 ≤ ρ.cast n := by
  rw [← ρ.cast_one]
  exact ρ.cast_mono one

theorem IntReading.saturating_cast_le (n : ℤ) : IntReading.saturating.cast n ≤ maxInt :=
  max_le (by decide) (min_le_right _ _)

theorem IntReading.finite_range_saturating {α : Type} (f : α → ℤ) :
    (Set.range fun x => IntReading.saturating.cast (f x)).Finite := by
  refine (Set.finite_Icc minInt maxInt).subset ?_
  rintro _ ⟨x, rfl⟩
  exact ⟨le_max_left _ _, IntReading.saturating_cast_le _⟩

theorem myCeil_mono {T : ℚ} (pos : 0 < T) : Monotone fun w => myCeil ρ w T := by
  intro v w le
  simp only [myCeil_eq]
  exact_mod_cast ρ.cast_mono (Int.ceil_mono (div_le_div_of_nonneg_right le pos.le))

theorem myCeil_nonneg {w T : ℚ} (nonneg : 0 ≤ w) (pos : 0 < T) : 0 ≤ myCeil ρ w T := by
  rw [myCeil_eq]
  exact_mod_cast ρ.cast_nonneg (Int.ceil_nonneg (div_nonneg nonneg pos.le))

theorem one_le_myCeil {w T : ℚ} (pos : 0 < w) (pos' : 0 < T) : 1 ≤ myCeil ρ w T := by
  rw [myCeil_eq]
  exact_mod_cast ρ.one_le_cast (Int.one_le_ceil_iff.mpr (div_pos pos pos'))

end Casts

/-! ## Loads -/

/-- The load a task puts on the tasks below it. -/
def Task.load (t : Task) : Load ℚ := ⟨t.executionTime, t.period, t.executionTime_nonneg, t.period_pos⟩

/-- The loads of the tasks before position `z`. -/
def Core.higher (c : Core) (z : ℕ) : List (Load ℚ) := (c.tasks.take z).map Task.load

/-- `Σ C_i / T_i` over the tasks of the core. -/
def Core.utilization (c : Core) : ℚ := Hipert.utilization (c.tasks.map Task.load)

/-- `Σ C_i` over the tasks before position `z`. -/
def Core.sumExecution (c : Core) (z : ℕ) : ℚ := ((c.tasks.take z).map (·.executionTime)).sum

theorem Core.utilization_higher_le (c : Core) (z : ℕ) :
    Hipert.utilization (c.higher z) ≤ c.utilization := by
  have split : c.tasks.map Task.load =
      (c.tasks.take z).map Task.load ++ (c.tasks.drop z).map Task.load := by
    rw [← List.map_append, List.take_append_drop]
  have rest := Hipert.utilization_nonneg ((c.tasks.drop z).map Task.load)
  unfold Core.utilization Core.higher
  rw [split]
  unfold Hipert.utilization at *
  rw [List.map_append, List.sum_append]
  linarith

theorem Core.sumExecution_nonneg (c : Core) (z : ℕ) : 0 ≤ c.sumExecution z :=
  List.sum_nonneg (by
    intro x mem
    rcases List.mem_map.mp mem with ⟨t, -, rfl⟩
    exact t.executionTime_nonneg)

theorem Core.sumExecution_succ {c : Core} {z : ℕ} (lt : z < c.tasks.length) :
    c.sumExecution (z + 1) = c.sumExecution z + (c.task z).executionTime := by
  unfold Core.sumExecution Core.task
  rw [List.take_add_one, List.getD_eq_getElem?_getD, List.getElem?_eq_getElem lt,
    Option.toList_some, List.map_append, List.sum_append, Option.getD_some]
  simp

theorem foldl_charge_eq (ts : List Task) (charge : Task → ℚ) (init : ℚ) :
    ts.foldl (fun acc t => acc + charge t) init = init + (ts.map charge).sum := by
  induction ts generalizing init with
  | nil => simp
  | cons t ts ih => rw [List.foldl_cons, ih, List.map_cons, List.sum_cons, add_assoc]

theorem chargeHigher_eq (c : Core) (z : ℕ) (charge : Task → ℚ) (init : ℚ) :
    c.chargeHigher z charge init = init + ((c.tasks.take z).map charge).sum :=
  foldl_charge_eq _ _ _

theorem ceilCharge_unbounded (t : Task) (w : ℚ) :
    myCeil .unbounded w t.period * t.executionTime = t.load.request w := by
  rw [myCeil_eq]
  rfl

theorem floorCharge_unbounded (t : Task) (w : ℚ) :
    (myFloor .unbounded w t.period + 1) * t.executionTime = t.load.requestClosed w := by
  rw [myFloor_eq]
  rfl

/-- The interference loops are iterations of a demand. -/
theorem chargeHigher_eq_demand (c : Core) (z : ℕ) (init w : ℚ) :
    c.chargeHigher z (fun t => myCeil .unbounded w t.period * t.executionTime) init =
      demand (c.higher z) init w := by
  rw [chargeHigher_eq, demand, interference, Core.higher, List.map_map]
  simp only [ceilCharge_unbounded]
  rfl

theorem chargeHigher_mono (ρ : IntReading) (c : Core) (z : ℕ) (init : ℚ) :
    Monotone fun w =>
      c.chargeHigher z (fun t => myCeil ρ w t.period * t.executionTime) init := by
  intro v w le
  simp only [chargeHigher_eq]
  refine add_le_add_right (List.sum_le_sum fun t _ => ?_) init
  exact mul_le_mul_of_nonneg_right (myCeil_mono ρ t.period_pos le) t.executionTime_nonneg

theorem le_chargeHigher (ρ : IntReading) (c : Core) (z : ℕ) (init : ℚ) {w : ℚ} (nonneg : 0 ≤ w) :
    init ≤ c.chargeHigher z (fun t => myCeil ρ w t.period * t.executionTime) init := by
  rw [chargeHigher_eq]
  refine le_add_of_nonneg_right (List.sum_nonneg ?_)
  intro x mem
  rcases List.mem_map.mp mem with ⟨t, -, rfl⟩
  exact mul_nonneg (myCeil_nonneg ρ nonneg t.period_pos) t.executionTime_nonneg

/-! ## Ending of the interference loops -/

/-- Under the saturating reading a loop over charges with finitely many values ends. -/
theorem saturating_loop_ends (c : Core) (z : ℕ) (init start : ℚ) {charge : ℚ → Task → ℚ}
    (finite : ∀ t, (Set.range fun w => charge w t).Finite) :
    (doWhile (fun w => c.chargeHigher z (charge w) init) start).Ends := by
  refine doWhile_ends_of_finite_range ?_ start
  have sums := @finite_image_sum _ _ _ Set.univ (fun t w => charge w t) (c.tasks.take z)
    (fun t _ => by rw [Set.image_univ]; exact finite t)
  refine (sums.image fun v => init + v).subset ?_
  rintro _ ⟨w, rfl⟩
  exact ⟨_, ⟨w, trivial, rfl⟩, (chargeHigher_eq _ _ _ _).symm⟩

theorem finite_range_ceilCharge (t : Task) (offset : ℚ) :
    (Set.range fun w : ℚ => (myCeil .saturating w t.period - offset) * t.executionTime).Finite := by
  refine ((IntReading.finite_range_saturating fun w : ℚ => ⌈w / t.period⌉).image
    fun n : ℤ => ((n : ℚ) - offset) * t.executionTime).subset ?_
  rintro _ ⟨w, rfl⟩
  exact ⟨_, ⟨w, rfl⟩, by simp only [myCeil_eq]⟩

theorem finite_range_floorCharge (t : Task) :
    (Set.range fun w : ℚ => (myFloor .saturating w t.period + 1) * t.executionTime).Finite := by
  refine ((IntReading.finite_range_saturating fun w : ℚ => ⌊w / t.period⌋).image
    fun n : ℤ => ((n : ℚ) + 1) * t.executionTime).subset ?_
  rintro _ ⟨w, rfl⟩
  exact ⟨_, ⟨w, rfl⟩, by simp only [myFloor_eq]⟩

theorem Core.utilization_eq_sum (c : Core) (z : ℕ) :
    Hipert.utilization (c.higher z) =
      ((c.tasks.take z).map fun t => t.executionTime / t.period).sum := by
  rw [Core.higher, Hipert.utilization, List.map_map]
  rfl

/-- The loop of `responseTimePreemptiveTask` and of `job_finishDM`. -/
theorem interferenceLoop_ends (ρ : IntReading) {c : Core} {z : ℕ}
    (room : Hipert.utilization (c.higher z) < 1) (init start : ℚ) :
    (doWhile (fun w => c.chargeHigher z
      (fun t => myCeil ρ w t.period * t.executionTime) init) start).Ends := by
  cases ρ with
  | saturating =>
      refine saturating_loop_ends c z init start fun t => ?_
      simpa using finite_range_ceilCharge t 0
  | unbounded =>
      simp only [chargeHigher_eq, ceilCharge_unbounded]
      rw [Core.utilization_eq_sum] at room
      exact doWhile_sum_ends (g := fun (t : Task) w => t.load.request w)
        (fun t _ => t.load.request_mono) (fun t _ _ => t.load.request_le)
        (fun t _ => t.load.finite_image_request) room init start

/-- The loop of `job_start`. -/
theorem startLoop_ends (ρ : IntReading) {c : Core} {z : ℕ}
    (room : Hipert.utilization (c.higher z) < 1) (init start : ℚ) :
    (doWhile (fun w => c.chargeHigher z
      (fun t => (myFloor ρ w t.period + 1) * t.executionTime) init) start).Ends := by
  cases ρ with
  | saturating => exact saturating_loop_ends c z init start finite_range_floorCharge
  | unbounded =>
      simp only [chargeHigher_eq, floorCharge_unbounded]
      rw [Core.utilization_eq_sum] at room
      exact doWhile_sum_ends (g := fun (t : Task) w => t.load.requestClosed w)
        (fun t _ => t.load.requestClosed_mono) (fun t _ _ => t.load.requestClosed_le)
        (fun t _ => t.load.finite_image_requestClosed) room init start

/-- What a task charges in `job_finish`: nothing if it is cooperative, else its releases less the
`offset` of them that the start of the sub-job has seen. -/
def finishCharge (ρ : IntReading) (offset : Task → ℚ) (w : ℚ) (t : Task) : ℚ :=
  match t.preemptionType with
  | .preemptive => (myCeil ρ w t.period - offset t) * t.executionTime
  | .cooperative => 0

theorem finishCharge_mono (ρ : IntReading) (offset : Task → ℚ) (t : Task) :
    Monotone fun w => finishCharge ρ offset w t := by
  intro v w le
  simp only [finishCharge]
  cases t.preemptionType with
  | cooperative => exact le_rfl
  | preemptive =>
      have ceils := myCeil_mono ρ t.period_pos le
      exact mul_le_mul_of_nonneg_right (sub_le_sub_right ceils _) t.executionTime_nonneg

theorem finishCharge_le (offset : Task → ℚ) (t : Task) (w : ℚ) :
    finishCharge .unbounded offset w t ≤
      w * (match t.preemptionType with
        | .preemptive => t.executionTime / t.period
        | .cooperative => 0) + (t.executionTime + |offset t * t.executionTime|) := by
  have above := abs_nonneg (offset t * t.executionTime)
  unfold finishCharge
  cases t.preemptionType with
  | cooperative =>
      have exec := t.executionTime_nonneg
      dsimp only
      linarith
  | preemptive =>
      have bound : t.load.request w ≤ w * (t.executionTime / t.period) + t.executionTime :=
        t.load.request_le
      have below := neg_le_abs (offset t * t.executionTime)
      dsimp only
      rw [sub_mul, ceilCharge_unbounded]
      linarith

theorem finite_image_finishCharge (offset : Task → ℚ) (t : Task) (x y : ℚ) :
    ((fun w => finishCharge .unbounded offset w t) '' Set.Icc x y).Finite := by
  unfold finishCharge
  cases t.preemptionType with
  | cooperative => exact (Set.finite_singleton (0 : ℚ)).subset (by rintro _ ⟨w, _, rfl⟩; rfl)
  | preemptive =>
      refine ((t.load.finite_image_request x y).image fun v =>
        v - offset t * t.executionTime).subset ?_
      rintro _ ⟨w, mem, rfl⟩
      exact ⟨_, ⟨w, mem, rfl⟩, by dsimp only; rw [← ceilCharge_unbounded, sub_mul]⟩

/-- The loop of `job_finish`. -/
theorem finishLoop_ends (ρ : IntReading) {c : Core} {z : ℕ}
    (room : Hipert.utilization (c.higher z) < 1) (offset : Task → ℚ) (init start : ℚ) :
    (doWhile (fun w => c.chargeHigher z (finishCharge ρ offset w) init) start).Ends := by
  cases ρ with
  | saturating =>
      refine saturating_loop_ends c z init start fun t => ?_
      unfold finishCharge
      cases t.preemptionType with
      | preemptive => exact finite_range_ceilCharge t (offset t)
      | cooperative => exact (Set.finite_singleton (0 : ℚ)).subset (by rintro _ ⟨w, rfl⟩; rfl)
  | unbounded =>
      simp only [chargeHigher_eq]
      rw [Core.utilization_eq_sum] at room
      refine doWhile_sum_ends (g := fun (t : Task) w => finishCharge .unbounded offset w t)
        (fun t _ => finishCharge_mono _ offset t) (fun t _ => finishCharge_le offset t)
        (fun t _ => finite_image_finishCharge offset t) (lt_of_le_of_lt ?_ room) init start
      refine List.sum_le_sum fun t _ => ?_
      cases t.preemptionType with
      | preemptive => exact le_rfl
      | cooperative => exact div_nonneg t.executionTime_nonneg t.period_pos.le

end Hipert.Amalthea
