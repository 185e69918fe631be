import Mathlib.MeasureTheory.Measure.Lebesgue.Basic
import Mathlib.MeasureTheory.Measure.Real
import Mathlib.Algebra.Order.BigOperators.Group.List

/-!
# Fixed-priority schedules of sporadic tasks

Sporadic tasks on one processor. A `Workload` says which jobs occur, when they are released and how
long each of their sections takes; a schedule of it is a function `run` from time to the job that
runs. The service of a job before `t` is the measure of the times in `[0, t)` at which it runs, taken
as an outer measure, so that no measurability is asked of `run`. `Workload.FixedPriority` is the
dispatching rule: at every time a pending job of the highest priority runs, the jobs of one task in
order.
-/

namespace Hipert

open MeasureTheory

universe u

/-! ## Service -/

section Service

variable {J : Type u} {run : ℝ → Option J} {job : J} {s t : ℝ}

/-- The processor time that `job` gets before `t`. -/
noncomputable def service (run : ℝ → Option J) (job : J) (t : ℝ) : ℝ :=
  volume.real (Set.Ico 0 t ∩ {s | run s = some job})

theorem measure_ne_top_of_subset_Ico {A : Set ℝ} (sub : A ⊆ Set.Ico s t) : volume A ≠ ⊤ :=
  ((measure_mono sub).trans_lt (by rw [Real.volume_Ico]; exact ENNReal.ofReal_lt_top)).ne

theorem service_nonneg : 0 ≤ service run job t := measureReal_nonneg

theorem service_mono (le : s ≤ t) : service run job s ≤ service run job t :=
  measureReal_mono (Set.inter_subset_inter_left _ (Set.Ico_subset_Ico_right le))
    (measure_ne_top_of_subset_Ico Set.inter_subset_left)

/-- A job that does not run in between gets nothing. -/
theorem service_le_of_not_run (idle : ∀ u, s ≤ u → u < t → run u ≠ some job) :
    service run job t ≤ service run job s := by
  refine measureReal_mono ?_ (measure_ne_top_of_subset_Ico Set.inter_subset_left)
  rintro u ⟨⟨nonneg, lt⟩, runs⟩
  refine ⟨⟨nonneg, ?_⟩, runs⟩
  by_contra past
  exact idle u (not_lt.mp past) lt runs

theorem service_le_add (le : s ≤ t) : service run job t ≤ service run job s + (t - s) := by
  have cover : Set.Ico 0 t ∩ {u | run u = some job} ⊆
      (Set.Ico 0 s ∩ {u | run u = some job}) ∪ Set.Ico s t := by
    rintro u ⟨⟨nonneg, lt⟩, runs⟩
    rcases lt_or_ge u s with before | after
    · exact Or.inl ⟨⟨nonneg, before⟩, runs⟩
    · exact Or.inr ⟨after, lt⟩
  have finite : volume ((Set.Ico 0 s ∩ {u | run u = some job}) ∪ Set.Ico s t) ≠ ⊤ :=
    measure_union_ne_top (measure_ne_top_of_subset_Ico Set.inter_subset_left)
      (measure_ne_top_of_subset_Ico subset_rfl)
  refine (measureReal_mono cover finite).trans ((measureReal_union_le _ _).trans ?_)
  rw [Real.volume_real_Ico_of_le le]
  rfl

/-- A job that only runs while it has got less than `d` never gets more. -/
theorem service_le_of_run_lt {d : ℝ} (nonneg : 0 ≤ d)
    (runs : ∀ s, run s = some job → service run job s < d) (t : ℝ) : service run job t ≤ d := by
  rcases (Set.Ico 0 t ∩ {s | run s = some job}).eq_empty_or_nonempty with empty | nonempty
  · rw [service, empty, measureReal_empty]
    exact nonneg
  · -- the last moments before the supremum of the running times bring arbitrarily little
    have bounded : BddAbove (Set.Ico 0 t ∩ {s | run s = some job}) :=
      ⟨t, fun u hu => hu.1.2.le⟩
    refine le_of_forall_pos_le_add fun ε pos => ?_
    obtain ⟨s, hs, close⟩ := exists_lt_of_lt_csSup nonempty (sub_lt_self
      (sSup (Set.Ico 0 t ∩ {s | run s = some job})) pos)
    have later : ∀ u ∈ Set.Ico 0 t ∩ {s | run s = some job}, u < s + ε := fun u hu =>
      (le_csSup bounded hu).trans_lt (by linarith)
    have rest : service run job t ≤ service run job (s + ε) := by
      refine measureReal_mono ?_ (measure_ne_top_of_subset_Ico Set.inter_subset_left)
      exact fun u hu => ⟨⟨hu.1.1, later u hu⟩, hu.2⟩
    have step : service run job (s + ε) ≤ service run job s + (s + ε - s) :=
      service_le_add (le_add_of_nonneg_right pos.le)
    have below := runs s hs.2
    linarith

/-- A window in which the processor only works on `jobs` is no longer than their service. -/
theorem length_le_sum_service {jobs : Finset J} (start : 0 ≤ s)
    (busy : ∀ u, s < u → u < t → ∃ job ∈ jobs, run u = some job) :
    t - s ≤ ∑ job ∈ jobs, service run job t := by
  rcases le_total s t with le | le
  · have cover : Set.Ioo s t ⊆ ⋃ job ∈ jobs, Set.Ico 0 t ∩ {u | run u = some job} := by
      rintro u ⟨after, before⟩
      obtain ⟨job, mem, runs⟩ := busy u after before
      exact Set.mem_biUnion mem ⟨⟨start.trans after.le, before⟩, runs⟩
    have finite : volume (⋃ job ∈ jobs, Set.Ico 0 t ∩ {u | run u = some job}) ≠ ⊤ :=
      measure_ne_top_of_subset_Ico (Set.iUnion₂_subset fun _ _ => Set.inter_subset_left)
    calc t - s = volume.real (Set.Ioo s t) := (Real.volume_real_Ioo_of_le le).symm
      _ ≤ volume.real (⋃ job ∈ jobs, Set.Ico 0 t ∩ {u | run u = some job}) :=
          measureReal_mono cover finite
      _ ≤ ∑ job ∈ jobs, service run job t := measureReal_biUnion_finset_le _ _
  · exact (sub_nonpos.mpr le).trans (Finset.sum_nonneg fun _ _ => service_nonneg)

end Service

/-! ## Tasks and workloads -/

/-- A sporadic task: its jobs are released at least a period apart and run their sections in order,
each for no longer than its worst-case execution time. -/
structure SporadicTask where
  period : ℝ
  priority : ℤ
  sections : List ℝ
  period_pos : 0 < period
  sections_nonneg : ∀ e ∈ sections, 0 ≤ e

/-- The worst-case execution time of a job. -/
def SporadicTask.cost (t : SporadicTask) : ℝ := t.sections.sum

/-- The worst-case execution time of the sections up to and including `i`. -/
def SporadicTask.upTo (t : SporadicTask) (i : ℕ) : ℝ := (t.sections.take (i + 1)).sum

variable {ι : Type u} (task : ι → SporadicTask) (tasks : Finset ι)

/-- The jobs of the tasks in `tasks`; job `(i, k)` is number `k` of task `i`, if it occurs. -/
structure Workload where
  Occurs : ι × ℕ → Prop
  release : ι × ℕ → ℝ
  times : ι × ℕ → List ℝ
  mem_of_occurs : ∀ {job}, Occurs job → job.1 ∈ tasks
  release_nonneg : ∀ {job}, Occurs job → 0 ≤ release job
  apart : ∀ {i k l}, k < l → Occurs (i, k) → Occurs (i, l) →
    release (i, k) + (task i).period ≤ release (i, l)
  times_le : ∀ job, List.Forall₂ (fun e worst => 0 ≤ e ∧ e ≤ worst) (times job) (task job.1).sections

namespace Workload

variable {task tasks} (W : Workload task tasks) (run : ℝ → Option (ι × ℕ))

/-- The execution time of a job. -/
def demand (job : ι × ℕ) : ℝ := (W.times job).sum

/-- The execution time of a job's sections up to and including `i`. -/
def upTo (job : ι × ℕ) (i : ℕ) : ℝ := ((W.times job).take (i + 1)).sum

/-- The job is released and has not got its execution time. -/
def Pending (job : ι × ℕ) (t : ℝ) : Prop :=
  W.Occurs job ∧ W.release job ≤ t ∧ service run job t < W.demand job

/-- **Preemptive fixed-priority dispatching.** Only pending jobs run, and while a job is pending a job
of higher priority or a job of the same task that is not later runs. -/
structure FixedPriority : Prop where
  pending_of_run : ∀ {t job}, run t = some job → W.Pending run job t
  dispatch : ∀ {t job}, W.Pending run job t → ∃ job', run t = some job' ∧
    ((task job.1).priority < (task job'.1).priority ∨ job'.1 = job.1 ∧ job'.2 ≤ job.2)

/-- By time `t` the job has completed its section `i`: it has run that far, and the jobs of its task
before it are done. -/
def Completed (job : ι × ℕ) (i : ℕ) (t : ℝ) : Prop :=
  W.upTo job i ≤ service run job t ∧
    ∀ l < job.2, W.Occurs (job.1, l) → W.demand (job.1, l) ≤ service run (job.1, l) t

variable {W run}

theorem sum_nonneg_of_times {es worsts : List ℝ}
    (times : List.Forall₂ (fun e worst => 0 ≤ e ∧ e ≤ worst) es worsts) : 0 ≤ es.sum := by
  induction times with
  | nil => exact le_rfl
  | cons head _ ih =>
      rw [List.sum_cons]
      exact add_nonneg head.1 ih

theorem sum_le_of_times {es worsts : List ℝ}
    (times : List.Forall₂ (fun e worst => 0 ≤ e ∧ e ≤ worst) es worsts) : es.sum ≤ worsts.sum :=
  (times.imp fun _ _ h => h.2).sum_le_sum

theorem demand_nonneg (job : ι × ℕ) : 0 ≤ W.demand job := sum_nonneg_of_times (W.times_le job)

theorem demand_le_cost (job : ι × ℕ) : W.demand job ≤ (task job.1).cost :=
  sum_le_of_times (W.times_le job)

theorem upTo_le_upTo (job : ι × ℕ) (i : ℕ) : W.upTo job i ≤ (task job.1).upTo i :=
  sum_le_of_times (List.forall₂_take (i + 1) (W.times_le job))

theorem upTo_le_demand (job : ι × ℕ) (i : ℕ) : W.upTo job i ≤ W.demand job := by
  have rest := sum_nonneg_of_times (List.forall₂_drop (i + 1) (W.times_le job))
  have split := List.sum_take_add_sum_drop (W.times job) (i + 1)
  unfold upTo demand
  linarith

/-- A job never gets more than its execution time. -/
theorem FixedPriority.service_le_demand (fp : W.FixedPriority run) (job : ι × ℕ) (t : ℝ) :
    service run job t ≤ W.demand job :=
  service_le_of_run_lt (demand_nonneg job) (fun _ runs => (fp.pending_of_run runs).2.2) t

end Workload

end Hipert
