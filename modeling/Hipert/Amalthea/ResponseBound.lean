import Hipert.Amalthea.FirstJob
import Hipert.Amalthea.Isolation
import Hipert.Sched.Synchronous
import Mathlib.Algebra.Order.Archimedean.Real.Basic

/-!
# The analysis against schedules

The tasks of a core as sporadic tasks, with the runnables of a task as the sections of its jobs. Real
windows and the rational ones of the analysis agree (`windowDemand_cast`, `exists_rat_window`). The
busy-window bound and the synchronous schedule then decide both questions about the responses that
`RTAcore` leaves: they bound every schedule exactly when no job beyond the examined ones is worse
(`rtaCore_bounds_iff`), and they meet the deadlines exactly when every schedule does
(`rtaCore_schedulable_iff`).
-/

namespace Hipert.Amalthea

/-! ## Cores as sporadic tasks -/

/-- The task as a sporadic task: a job runs the runnables in list order. -/
def Task.sporadic (t : Task) : SporadicTask where
  period := (t.period : ℝ)
  priority := t.priority
  sections := t.runnables.map fun r => (r.executionTime : ℝ)
  period_pos := Rat.cast_pos.mpr t.period_pos
  sections_nonneg := by
    intro e mem
    rcases List.mem_map.mp mem with ⟨r, -, rfl⟩
    exact Rat.cast_nonneg.mpr r.executionTime_nonneg

/-- The jobs of the tasks of a core: any releases at least a period apart, and for each runnable any
time up to its execution time. -/
abbrev Core.Jobs (c : Core) : Type :=
  Workload (fun z => (c.task z).sporadic) (Finset.range c.tasks.length)

/-- The tasks are stored in strictly decreasing priority. -/
def Core.Sorted (c : Core) : Prop := c.tasks.Pairwise fun t u => u.priority < t.priority

instance (c : Core) : Decidable c.Sorted := inferInstanceAs (Decidable (List.Pairwise _ _))

variable {c : Core} {z : ℕ}

theorem sum_map_cast (es : List ℚ) : (es.map fun e : ℚ => (e : ℝ)).sum = (es.sum : ℚ) := by
  induction es with
  | nil => simp
  | cons e es ih => rw [List.map_cons, List.sum_cons, List.sum_cons, Rat.cast_add, ih]

theorem Task.sporadic_upTo (t : Task) (i : ℕ) : t.sporadic.upTo i = (prefixTime t.runnables i : ℚ) := by
  rw [prefixTime, ← sum_map_cast, List.map_map, SporadicTask.upTo, Task.sporadic, ← List.map_take]
  rfl

theorem Task.Regular.sporadic_cost {t : Task} (regular : t.Regular) :
    t.sporadic.cost = (t.executionTime : ℚ) := by
  rw [regular.summed, t.processInstructions_eq, ← sum_map_cast, List.map_map]
  rfl

/-- The fields of the tasks before position `z`, position by position. -/
theorem sum_range_task (f : Task → ℝ) :
    ∀ {z : ℕ}, z ≤ c.tasks.length →
      ∑ j ∈ Finset.range z, f (c.task j) = ((c.tasks.take z).map f).sum
  | 0, _ => by simp
  | z + 1, le => by
      have here : c.tasks[z]? = some (c.task z) := by
        rw [Core.task, List.getD_eq_getElem?_getD, List.getElem?_eq_getElem le, Option.getD_some]
      rw [Finset.sum_range_succ, sum_range_task f (Nat.le_of_succ_le le), List.take_add_one, here,
        Option.toList_some, List.map_append, List.sum_append]
      simp

theorem Core.Sorted.priority_lt_iff (sorted : c.Sorted) (lt : z < c.tasks.length) {j : ℕ}
    (lt' : j < c.tasks.length) : (c.task z).priority < (c.task j).priority ↔ j < z := by
  have decreasing : ∀ {i j : ℕ}, i < j → j < c.tasks.length →
      (c.task j).priority < (c.task i).priority := by
    intro i j order inside
    have pair := List.pairwise_iff_getElem.mp sorted i j (order.trans inside) inside order
    simpa [Core.task, List.getD_eq_getElem?_getD, inside, order.trans inside] using pair
  refine ⟨?_, ?_⟩
  · intro higher
    by_contra not_before
    rcases (not_lt.mp not_before).lt_or_eq with after | rfl
    · exact absurd higher (decreasing after lt').asymm
    · exact lt_irrefl _ higher
  · exact fun before => decreasing before lt

theorem Core.Sorted.higher_eq (sorted : c.Sorted) (lt : z < c.tasks.length) :
    Workload.higher (fun z => (c.task z).sporadic) (Finset.range c.tasks.length) z =
      Finset.range z := by
  ext j
  rw [Workload.higher, Finset.mem_filter, Finset.mem_range, Finset.mem_range]
  refine ⟨?_, ?_⟩
  · intro given
    rcases given with ⟨inside, higher⟩
    exact (sorted.priority_lt_iff lt inside).mp higher
  · exact fun before => ⟨before.trans lt, (sorted.priority_lt_iff lt (before.trans lt)).mpr before⟩

/-- The demand of a real window, which is rational. -/
noncomputable def Core.realDemand (c : Core) (z : ℕ) (a : ℚ) (w : ℝ) : ℚ :=
  a + ((c.tasks.take z).map fun t => (⌈w / (t.period : ℝ)⌉ : ℚ) * t.executionTime).sum

theorem windowDemand_eq (sorted : c.Sorted) (regular : ∀ t ∈ c.tasks, t.Regular)
    (lt : z < c.tasks.length) (a : ℚ) (w : ℝ) :
    Workload.windowDemand (fun z => (c.task z).sporadic) (Finset.range c.tasks.length) z a w =
      (c.realDemand z a w : ℚ) := by
  rw [Workload.windowDemand, sorted.higher_eq lt, Core.realDemand, Rat.cast_add, ← sum_map_cast,
    List.map_map, ← sum_range_task _ lt.le]
  congr 1
  refine Finset.sum_congr rfl fun j mem => ?_
  have inside : j < c.tasks.length := (Finset.mem_range.mp mem).trans lt
  rw [(regular _ (Core.task_mem inside)).sporadic_cost]
  simp only [Function.comp_apply]
  push_cast
  rfl

/-- On rational windows it is the demand of the analysis. -/
theorem realDemand_cast (c : Core) (z : ℕ) (a w : ℚ) :
    c.realDemand z a (w : ℝ) = demand (c.higher z) a w := by
  rw [Core.realDemand, demand, interference, Core.higher, List.map_map]
  congr 2
  refine List.map_congr_left fun t _ => ?_
  rw [← Rat.cast_div, Rat.ceil_cast]
  rfl

theorem realDemand_mono (c : Core) (z : ℕ) (a : ℚ) : Monotone (c.realDemand z a) := by
  intro v w le
  refine add_le_add_right (List.sum_le_sum fun t _ => ?_) a
  have period_pos : (0 : ℝ) < t.period := Rat.cast_pos.mpr t.period_pos
  have ceil : (⌈v / (t.period : ℝ)⌉ : ℚ) ≤ ⌈w / (t.period : ℝ)⌉ := by
    exact_mod_cast Int.ceil_mono (div_le_div_of_nonneg_right le period_pos.le)
  exact mul_le_mul_of_nonneg_right ceil t.executionTime_nonneg

/-- Below a real window that takes its demand there is a rational one. -/
theorem exists_rat_window {a : ℚ} (work : 0 ≤ a) {w : ℝ} (nonneg : 0 ≤ w)
    (fits : (c.realDemand z a w : ℝ) ≤ w) :
    ∃ q : ℚ, 0 ≤ q ∧ (q : ℝ) ≤ w ∧ demand (c.higher z) a q ≤ q := by
  refine ⟨c.realDemand z a w, ?_, fits, ?_⟩
  · have zero : c.realDemand z a 0 = a := by
      rw [← Rat.cast_zero, realDemand_cast, demand, interference_zero, add_zero]
    exact work.trans (zero.symm.trans_le (realDemand_mono c z a nonneg))
  · rw [← realDemand_cast]
    exact realDemand_mono c z a fits

/-! ## The grid -/

/-- Finitely many rationals have a common denominator. -/
theorem exists_common_denominator (qs : List ℚ) (nonneg : ∀ q ∈ qs, 0 ≤ q) :
    ∃ D : ℕ, 0 < D ∧ ∀ q ∈ qs, ∃ n : ℕ, q * D = n := by
  induction qs with
  | nil => exact ⟨1, one_pos, fun q mem => absurd mem List.not_mem_nil⟩
  | cons p qs ih =>
      obtain ⟨D, pos, each⟩ := ih fun q mem => nonneg q (List.mem_cons_of_mem p mem)
      refine ⟨p.den * D, Nat.mul_pos p.den_pos pos, fun q mem => ?_⟩
      rcases List.mem_cons.mp mem with rfl | mem
      · obtain ⟨n, hn⟩ := Int.eq_ofNat_of_zero_le (Rat.num_nonneg.mpr (nonneg q mem))
        refine ⟨n * D, ?_⟩
        have numerator := Rat.mul_den_eq_num q
        push_cast
        rw [← mul_assoc, numerator, hn]
        push_cast
        rfl
      · obtain ⟨n, hn⟩ := each q mem
        refine ⟨p.den * n, ?_⟩
        push_cast
        rw [mul_left_comm, hn]

/-- The tasks of a core lie on a common grid. -/
theorem exists_onGrid (sorted : c.Sorted) :
    ∃ δ P S, OnGrid (fun z => (c.task z).sporadic) (Finset.range c.tasks.length) δ P S := by
  obtain ⟨D, pos, each⟩ := exists_common_denominator
    (c.tasks.flatMap fun t => t.period :: t.runnables.map (·.executionTime)) (by
      intro q mem
      obtain ⟨t, -, mem⟩ := List.mem_flatMap.mp mem
      rcases List.mem_cons.mp mem with rfl | mem
      · exact t.period_pos.le
      · rcases List.mem_map.mp mem with ⟨r, -, rfl⟩
        exact r.executionTime_nonneg)
  have pos' : (0 : ℝ) < D := Nat.cast_pos.mpr pos
  have slots : ∀ {q : ℚ}, (∃ n : ℕ, q * D = n) → (q : ℝ) = (⌊q * D⌋₊ : ℕ) * (1 / D : ℝ) := by
    rintro q ⟨n, hn⟩
    rw [hn, Nat.floor_natCast, mul_one_div, eq_div_iff pos'.ne']
    exact_mod_cast hn
  refine ⟨1 / D, fun z => ⌊(c.task z).period * D⌋₊,
    fun z => (c.task z).runnables.map fun r : Runnable => ⌊r.executionTime * D⌋₊,
    ⟨one_div_pos.mpr pos', fun z mem => ?_, fun z mem => ?_, ?_⟩⟩
  · have inside := Core.task_mem (Finset.mem_range.mp mem)
    exact slots (each _ (List.mem_flatMap.mpr ⟨_, inside, List.mem_cons_self⟩))
  · have inside := Core.task_mem (Finset.mem_range.mp mem)
    rw [List.map_map]
    refine List.map_congr_left fun r mem_r => ?_
    exact slots (each _ (List.mem_flatMap.mpr ⟨_, inside,
      List.mem_cons_of_mem _ (List.mem_map_of_mem mem_r)⟩))
  · intro i hi j hj same
    have hi := Finset.mem_range.mp (Finset.mem_coe.mp hi)
    have hj := Finset.mem_range.mp (Finset.mem_coe.mp hj)
    change (c.task i).priority = (c.task j).priority at same
    rcases lt_trichotomy i j with before | eq | after
    · exact absurd same ((sorted.priority_lt_iff hj hi).mpr before).ne'
    · exact eq
    · exact absurd same ((sorted.priority_lt_iff hi hj).mpr after).ne

/-! ## Jobs in schedules -/

theorem workBefore_cast (regular : (c.task z).Regular) (k i : ℕ) :
    (k : ℝ) * (c.task z).sporadic.cost + (c.task z).sporadic.upTo i =
      ((c.task z).workBefore (k + 1) (prefixTime (c.task z).runnables i) : ℚ) := by
  rw [regular.sporadic_cost, Task.sporadic_upTo, Task.workBefore]
  push_cast
  ring

/-- A bound on every job of a busy window is a bound on every schedule. -/
theorem completed_of_jobEnd (sorted : c.Sorted) (regular : ∀ t ∈ c.tasks, t.Regular)
    (lt : z < c.tasks.length) {i : ℕ} {R : ℚ}
    (ends : ∀ k : ℤ, 1 ≤ k → ∃ f, c.JobEnd z i k f ∧ f - (k - 1) * (c.task z).period ≤ R)
    {W : c.Jobs} {run : ℝ → Option (ℕ × ℕ)} (fp : W.FixedPriority run) {k : ℕ}
    (occurs : W.Occurs (z, k)) : W.Completed run (z, k) i (W.release (z, k) + R) := by
  refine fp.completed occurs fun m => ?_
  obtain ⟨f, window, within⟩ := ends (m + 1) (by omega)
  refine ⟨(f : ℝ), Rat.cast_nonneg.mpr window.1.1, ?_, ?_⟩
  · rw [workBefore_cast (regular _ (Core.task_mem lt)), windowDemand_eq sorted regular lt,
      realDemand_cast]
    exact Rat.cast_le.mpr window.1.2
  · have cast : ((f - ((m + 1 : ℤ) - 1) * (c.task z).period : ℚ) : ℝ) ≤ (R : ℝ) :=
      Rat.cast_le.mpr (by exact_mod_cast within)
    push_cast at cast
    change (f : ℝ) ≤ m * ((c.task z).period : ℝ) + R
    linarith

/-- In some schedule every job is released with its period and every section completes no earlier
than in the busy window. -/
theorem exists_worst_schedule (sorted : c.Sorted) (regular : ∀ t ∈ c.tasks, t.Regular) :
    ∃ (W : c.Jobs) (run : ℝ → Option (ℕ × ℕ)), W.FixedPriority run ∧
      ∀ z < c.tasks.length, ∀ k : ℕ, W.Occurs (z, k) ∧
        W.release (z, k) = k * ((c.task z).period : ℝ) ∧
        W.times (z, k) = (c.task z).sporadic.sections ∧
        ∀ i t, 0 < prefixTime (c.task z).runnables i → W.Completed run (z, k) i t →
          ∃ q : ℚ, 0 ≤ q ∧ (q : ℝ) ≤ t ∧ demand (c.higher z)
            ((c.task z).workBefore (k + 1) (prefixTime (c.task z).runnables i)) q ≤ q := by
  obtain ⟨δ, P, S, grid⟩ := exists_onGrid sorted
  refine ⟨synchronous _ _, grid.slots.run δ, grid.fixedPriority, fun z lt k => ?_⟩
  refine ⟨Finset.mem_range.mpr lt, rfl, rfl, fun i t work completed => ?_⟩
  have work' : 0 < (c.task z).sporadic.upTo i := by
    rw [Task.sporadic_upTo]
    exact Rat.cast_pos.mpr work
  obtain ⟨w, nonneg, within, fits⟩ :=
    grid.exists_window (Finset.mem_range.mpr lt) work' completed
  rw [workBefore_cast (regular _ (Core.task_mem lt)), windowDemand_eq sorted regular lt] at fits
  obtain ⟨q, nonneg', below, fits'⟩ := exists_rat_window
    ((c.task z).workBefore_nonneg (by omega) (prefixTime_nonneg _ i)) nonneg fits
  exact ⟨q, nonneg', below.trans within, fits'⟩

/-! ## The bound -/

theorem prefixTime_pos {rs : List Runnable} (positive : ∀ r ∈ rs, 0 < r.executionTime) {i : ℕ}
    (inside : i < rs.length) : 0 < prefixTime rs i :=
  (positive _ (List.getElem_mem inside)).trans_le
    (executionTime_le_prefixTime (List.getElem?_eq_getElem inside))

/-- The runnables of an analysed task and the values stored in them. -/
theorem stored_runnable {d : Core} {vs : List ℚ} (length : vs.length = (c.task z).runnables.length)
    (stored : d.task z = (c.task z).store vs) {i : ℕ} {v : ℚ} (at_i : vs[i]? = some v) :
    ∃ r, (d.task z).runnables[i]? = some r ∧ r.responseTime = v := by
  have inside : i < (d.task z).runnables.length := by
    rw [stored, length_store length, ← length]
    exact (List.getElem?_eq_some_iff.mp at_i).1
  obtain ⟨r, here⟩ : ∃ r, (d.task z).runnables[i]? = some r := ⟨_, List.getElem?_eq_getElem inside⟩
  have value := (Task.store_getElem? (stored ▸ here)).1
  exact ⟨r, here, Option.some.inj (value.symm.trans at_i)⟩

/-- **Response bound.** The responses that `RTAcore` leaves bound every schedule exactly when no job
of a busy window is worse than all that `busy_period` lets the analysis examine. -/
theorem rtaCore_bounds_iff {d : Core} (sorted : c.Sorted) (regular : ∀ t ∈ c.tasks, t.Regular)
    (positive : ∀ t ∈ c.tasks, ∀ r ∈ t.runnables, 0 < r.executionTime) (room : c.utilization < 1)
    (returned : (rtaCore .unbounded c).Returns d) :
    (∀ (W : c.Jobs) run, W.FixedPriority run → ∀ z k i r, W.Occurs (z, k) →
        (d.task z).runnables[i]? = some r →
          W.Completed run (z, k) i (W.release (z, k) + r.responseTime)) ↔
      ∀ z < c.tasks.length, ∀ i < (c.task z).runnables.length, ∀ k, 1 ≤ k →
        c.Covered z i (c.jobsExamined z) k := by
  refine ⟨?_, ?_⟩
  · intro bounds z lt i inside k one f ends
    have regular_z := regular _ (Core.task_mem lt)
    obtain ⟨vs, length, stored, worst⟩ := rtaCore_worst returned lt regular_z
    have inside_vs : i < vs.length := length ▸ inside
    have at_i : vs[i]? = some vs[i] := List.getElem?_eq_getElem inside_vs
    obtain ⟨r, here, value⟩ := stored_runnable length stored at_i
    obtain ⟨W, run, fp, all⟩ := exists_worst_schedule sorted regular
    obtain ⟨n, rfl⟩ : ∃ n : ℕ, k = n + 1 := ⟨(k - 1).toNat, by omega⟩
    obtain ⟨occurs, release, -, window⟩ := all z lt n
    have work := prefixTime_pos (positive _ (Core.task_mem lt)) inside
    obtain ⟨q, nonneg, within, fits⟩ :=
      window i _ work (bounds W run fp z n i r occurs here)
    -- the window of job `k` ends within the response
    have least : f ≤ q := ends.2 ⟨nonneg, fits⟩
    have below : f - (((n + 1 : ℤ) : ℚ) - 1) * (c.task z).period ≤ r.responseTime := by
      rw [release] at within
      have cast : (q : ℝ) ≤ ((n * (c.task z).period + r.responseTime : ℚ) : ℝ) := by
        push_cast
        exact within
      have rational := Rat.cast_le.mp cast
      push_cast
      linarith
    rw [value] at below
    rcases (worst i _ at_i).attained with zero | ⟨k', f', one', within', ends', equal⟩
    · exact Or.inl (below.trans_eq zero)
    · exact Or.inr ⟨k', f', one', within', ends', below.trans_eq equal⟩
  · intro covered W run fp z k i r occurs here
    have lt : z < c.tasks.length := Finset.mem_range.mp (W.mem_of_occurs occurs)
    obtain ⟨vs, length, stored, worst⟩ :=
      rtaCore_worst returned lt (regular _ (Core.task_mem lt))
    have value := (Task.store_getElem? (stored ▸ here)).1
    have inside : i < (c.task z).runnables.length :=
      length ▸ (List.getElem?_eq_some_iff.mp value).1
    refine completed_of_jobEnd sorted regular lt (fun n one => ?_) fp occurs
    obtain ⟨f, ends⟩ := exists_leastWindow
      ((c.utilization_higher_le z).trans_lt room)
      ((c.task z).workBefore_nonneg one (prefixTime_nonneg (c.task z).runnables i))
    refine ⟨f, ends, ?_⟩
    have response := worst i _ value
    rcases covered z lt i inside n one f ends with small | ⟨k', f', one', within', ends', below⟩
    · exact small.trans response.nonneg
    · obtain ⟨g, same, upper⟩ := response.upper k' one' within'
      cases ends'.unique same
      exact below.trans upper

/-- A first window within the period is the worst. -/
theorem Core.covered_of_window {z : ℕ} {r : ℚ}
    (window : LeastWindow (c.higher z) (c.task z).executionTime r) (within : r ≤ (c.task z).period)
    {i : ℕ} {f : ℚ} (first : c.JobEnd z i 1 f) {K : ℤ} (some : 1 ≤ K) {k : ℤ} (one : 1 ≤ k) :
    c.Covered z i K k := by
  intro g ends
  obtain ⟨g', ends', below⟩ := Core.exists_jobEnd_le window within first one
  cases ends.unique ends'
  refine Or.inr ⟨1, f, le_rfl, some, first, ?_⟩
  rwa [Int.cast_one, sub_self, zero_mul, sub_zero]

theorem quickAboveSlow_ends : (rtaCore .unbounded quickAboveSlow).Ends :=
  Fueled.ends_of_isSome (n := 20) (by decide +kernel)

/-- The windows of the first jobs of `quickAboveSlow`. -/
theorem quickAboveSlow_window {z : ℕ} (lt : z < 2) :
    LeastWindow (quickAboveSlow.higher z) (quickAboveSlow.task z).executionTime
      (if z = 0 then 4 else 16) := by
  interval_cases z
  · exact leastWindow_of_returns (by decide +kernel) ⟨20, by decide +kernel⟩
  · exact leastWindow_of_returns (by decide +kernel) ⟨20, by decide +kernel⟩

/-- The responses 4 and 16 of `quickAboveSlow` bound every schedule. -/
theorem rtaCore_bounds_iff_quickAboveSlow :
    ∃ d, (rtaCore .unbounded quickAboveSlow).Returns d ∧
      ∀ (W : quickAboveSlow.Jobs) run, W.FixedPriority run → ∀ z k i r, W.Occurs (z, k) →
        (d.task z).runnables[i]? = some r →
          W.Completed run (z, k) i (W.release (z, k) + r.responseTime) := by
  obtain ⟨d, returned⟩ := quickAboveSlow_ends
  refine ⟨d, returned, (rtaCore_bounds_iff (by decide +kernel) (by decide +kernel)
    (by decide +kernel) (by decide +kernel) returned).mpr ?_⟩
  intro z lt i inside k one
  have only : ∀ z < 2, (quickAboveSlow.task z).runnables.length = 1 := by decide
  cases Nat.lt_one_iff.mp (only z lt ▸ inside)
  have whole : ∀ z < 2, prefixTime (quickAboveSlow.task z).runnables 0 =
      (quickAboveSlow.task z).executionTime := by decide +kernel
  have within : ∀ z < 2, (if z = 0 then 4 else 16) ≤ (quickAboveSlow.task z).period := by
    decide +kernel
  have some : ∀ z < 2, 1 ≤ quickAboveSlow.jobsExamined z := by decide +kernel
  have window := quickAboveSlow_window lt
  have first := Core.jobEnd_one.mpr ((whole z lt).symm ▸ window)
  exact Core.covered_of_window window (within z lt) first (some z lt) one

/-- The response of the second task of `laterJobWorse` is 114, but its fifth job can take 118. -/
theorem rtaCore_bound_exceeded :
    laterJobWorse.Sorted ∧ (∀ t ∈ laterJobWorse.tasks, t.Regular) ∧
      (∀ t ∈ laterJobWorse.tasks, ∀ r ∈ t.runnables, 0 < r.executionTime) ∧
      laterJobWorse.utilization < 1 ∧ ∃ d r, (rtaCore .unbounded laterJobWorse).Returns d ∧
        (d.task 1).runnables[0]? = some r ∧ r.responseTime = 114 ∧
        ∃ (W : laterJobWorse.Jobs) (run : ℝ → Option (ℕ × ℕ)), W.FixedPriority run ∧
          W.Occurs (1, 4) ∧
          ¬ W.Completed run (1, 4) 0 (W.release (1, 4) + r.responseTime) := by
  have sorted : laterJobWorse.Sorted := by decide +kernel
  have regular : ∀ t ∈ laterJobWorse.tasks, t.Regular := by decide +kernel
  refine ⟨sorted, regular, by decide +kernel, by decide +kernel, ?_⟩
  have value : ((rtaCore .unbounded laterJobWorse).run 20).map
      (fun d => (d.task 1).runnables.map (·.responseTime)) = some [114] := by decide +kernel
  obtain ⟨d, returned, responses⟩ := Option.map_eq_some_iff.mp value
  obtain ⟨r, rs, eq, response, -⟩ := List.map_eq_cons_iff.mp responses
  refine ⟨d, r, ⟨20, returned⟩, by rw [eq]; rfl, response, ?_⟩
  obtain ⟨W, run, fp, all⟩ := exists_worst_schedule sorted regular
  obtain ⟨occurs, release, -, window⟩ := all 1 (by decide) 4
  refine ⟨W, run, fp, occurs, fun completed => ?_⟩
  obtain ⟨q, nonneg, within, fits⟩ := window 0 _ (by decide +kernel) completed
  -- the fifth job ends at 518
  have fifth : LeastWindow (laterJobWorse.higher 1) 310 518 :=
    leastWindow_of_returns (by norm_num) ⟨20, by decide +kernel⟩
  have work : (laterJobWorse.task 1).workBefore ((4 : ℕ) + 1)
      (prefixTime (laterJobWorse.task 1).runnables 0) = 310 := by decide +kernel
  have period : (laterJobWorse.task 1).period = 100 := rfl
  rw [work] at fits
  have late : (518 : ℚ) ≤ q := fifth.2 ⟨nonneg, fits⟩
  rw [release, response, period] at within
  have early : q ≤ 514 := by
    have cast : (q : ℝ) ≤ ((514 : ℚ) : ℝ) := by
      push_cast at within ⊢
      linarith
    exact Rat.cast_le.mp cast
  linarith

/-! ## The verdict -/

/-- The job has got its execution time by its deadline. -/
def Core.MeetsDeadline (c : Core) (W : c.Jobs) (run : ℝ → Option (ℕ × ℕ)) (job : ℕ × ℕ) : Prop :=
  W.demand job ≤ service run job (W.release job + ((c.task job.1).deadline : ℝ))

/-- The last section of a job is its whole work. -/
theorem upTo_last (W : c.Jobs) (z k : ℕ) :
    W.upTo (z, k) ((c.task z).runnables.length - 1) = W.demand (z, k) := by
  have length : (W.times (z, k)).length = (c.task z).runnables.length := by
    rw [(W.times_le (z, k)).length_eq]
    exact List.length_map _
  unfold Workload.upTo Workload.demand
  rw [List.take_of_length_le (by omega)]

theorem runnables_ne_nil {t : Task} (regular : t.Regular) (positive : 0 < t.executionTime) :
    t.runnables ≠ [] := by
  intro empty
  rw [regular.summed, t.processInstructions_eq, empty] at positive
  exact lt_irrefl _ positive

/-- A whole job ends within the period exactly when the worst response does. -/
theorem WorstOf.le_period_iff (regular : (c.task z).Regular)
    (positive : 0 < (c.task z).executionTime) {v : ℚ}
    (worst : WorstOf (c.JobEnd z ((c.task z).runnables.length - 1)) (c.task z).period
      (c.jobsExamined z) v) :
    v ≤ (c.task z).period ↔
      ∃ r, LeastWindow (c.higher z) (c.task z).executionTime r ∧ r ≤ (c.task z).period := by
  have whole : ∀ f, c.JobEnd z ((c.task z).runnables.length - 1) 1 f ↔
      LeastWindow (c.higher z) (c.task z).executionTime f := fun f => by
    rw [Core.jobEnd_one, prefixTime_last, regular.summed]
  refine ⟨?_, ?_⟩
  · intro within
    have occupied : ¬ c.Vacant z := fun vacant => positive.ne' vacant.2
    obtain ⟨f, ends, below⟩ := worst.upper 1 le_rfl (Core.one_le_jobsExamined occupied)
    rw [Int.cast_one, sub_self, zero_mul, sub_zero] at below
    exact ⟨f, (whole f).mp ends, below.trans within⟩
  · intro given
    rcases given with ⟨r, window, within⟩
    rcases worst.attained with zero | ⟨k, f, one, -, ends, equal⟩
    · exact zero.trans_le (c.task z).period_pos.le
    · obtain ⟨g, ends', below⟩ := Core.exists_jobEnd_le window within ((whole r).mpr window) one
      cases ends.unique ends'
      exact equal.trans_le (below.trans within)

/-- The analysed response of a task, that of its last runnable, meets the deadline exactly when the
first job of its busy window does. -/
theorem responseTime_le_deadline_iff {d : Core} (lt : z < c.tasks.length)
    (regular : (c.task z).Regular) (positive : 0 < (c.task z).executionTime)
    (returned : (rtaCore .unbounded c).Returns d) :
    (d.task z).responseTime ≤ (d.task z).deadline ↔
      ∃ r, LeastWindow (c.higher z) (c.task z).executionTime r ∧ r ≤ (c.task z).period := by
  obtain ⟨vs, length, stored, worst⟩ := rtaCore_worst returned lt regular
  obtain ⟨r, v, -, hv, last⟩ := Task.store_responseTime length (runnables_ne_nil regular positive)
  rw [stored, last, Task.store_deadline, regular.implicit]
  exact (worst _ v hv).le_period_iff regular positive

/-- **Schedulability.** `RTAcore` leaves no response above a deadline exactly when no schedule misses
one. -/
theorem rtaCore_schedulable_iff {d : Core} (sorted : c.Sorted) (regular : ∀ t ∈ c.tasks, t.Regular)
    (positive : ∀ t ∈ c.tasks, 0 < t.executionTime) (returned : (rtaCore .unbounded c).Returns d) :
    (∀ z < c.tasks.length, (d.task z).responseTime ≤ (d.task z).deadline) ↔
      ∀ (W : c.Jobs) run, W.FixedPriority run → ∀ job, W.Occurs job → c.MeetsDeadline W run job := by
  have response := fun z (lt : z < c.tasks.length) => responseTime_le_deadline_iff lt
    (regular _ (Core.task_mem lt)) (positive _ (Core.task_mem lt)) returned
  refine ⟨?_, ?_⟩
  · rintro meets W run fp ⟨z, k⟩ occurs
    have lt : z < c.tasks.length := Finset.mem_range.mp (W.mem_of_occurs occurs)
    have regular_z := regular _ (Core.task_mem lt)
    obtain ⟨r, window, within⟩ := (response z lt).mp (meets z lt)
    have first : c.JobEnd z ((c.task z).runnables.length - 1) 1 r := by
      rw [Core.jobEnd_one, prefixTime_last, ← regular_z.summed]
      exact window
    have completed := completed_of_jobEnd sorted regular lt (fun n one => by
      obtain ⟨g, ends, below⟩ := Core.exists_jobEnd_le window within first one
      exact ⟨g, ends, below.trans within⟩) fp occurs
    rw [Core.MeetsDeadline, regular_z.implicit, ← upTo_last]
    exact completed.1
  · intro meets z lt
    rw [response z lt]
    have regular_z := regular _ (Core.task_mem lt)
    have positive_z := positive _ (Core.task_mem lt)
    obtain ⟨W, run, fp, all⟩ := exists_worst_schedule sorted regular
    obtain ⟨occurs, release, -, window⟩ := all z lt 0
    have whole : prefixTime (c.task z).runnables ((c.task z).runnables.length - 1) =
        (c.task z).executionTime := by rw [prefixTime_last, regular_z.summed]
    have completed : W.Completed run (z, 0) ((c.task z).runnables.length - 1)
        (W.release (z, 0) + ((c.task z).deadline : ℝ)) := by
      refine ⟨?_, fun l before => absurd before (Nat.not_lt_zero l)⟩
      rw [upTo_last]
      exact meets W run fp (z, 0) occurs
    obtain ⟨q, nonneg, within, fits⟩ := window _ _ (whole ▸ positive_z) completed
    rw [whole] at fits
    have work : (c.task z).workBefore ((0 : ℕ) + 1) (c.task z).executionTime =
        (c.task z).executionTime := by simp [Task.workBefore]
    rw [work] at fits
    obtain ⟨r, least⟩ := exists_leastWindow_of_fits positive_z.le nonneg fits
    refine ⟨r, least, (least.2 ⟨nonneg, fits⟩).trans ?_⟩
    rw [release, regular_z.implicit, Nat.cast_zero, zero_mul, zero_add] at within
    exact Rat.cast_le.mp within

/-- No schedule of `quickAboveSlow` misses a deadline. -/
theorem rtaCore_schedulable_iff_quickAboveSlow :
    ∃ d, (rtaCore .unbounded quickAboveSlow).Returns d ∧
      (∀ z < 2, (d.task z).responseTime ≤ (d.task z).deadline) ∧
      ∀ (W : quickAboveSlow.Jobs) run, W.FixedPriority run → ∀ job, W.Occurs job →
        quickAboveSlow.MeetsDeadline W run job := by
  have value : ((rtaCore .unbounded quickAboveSlow).run 20).map
      (fun d => ((d.task 0).responseTime, (d.task 0).deadline, (d.task 1).responseTime,
        (d.task 1).deadline)) = some (4, 10, 16, 40) := by decide +kernel
  obtain ⟨d, returned, responses⟩ := Option.map_eq_some_iff.mp value
  simp only [Prod.mk.injEq] at responses
  have meets : ∀ z < 2, (d.task z).responseTime ≤ (d.task z).deadline := by
    intro z lt
    interval_cases z
    · rw [responses.1, responses.2.1]
      norm_num
    · rw [responses.2.2.1, responses.2.2.2]
      norm_num
  refine ⟨d, ⟨20, returned⟩, meets, ?_⟩
  exact (rtaCore_schedulable_iff (by decide +kernel) (by decide +kernel) (by decide +kernel)
    ⟨20, returned⟩).mp meets

end Hipert.Amalthea
