import Hipert.Sched.Schedule
import Mathlib.Algebra.Order.Floor.Ring
import Mathlib.Tactic.Linarith

/-!
# The busy-window bound

Before a job of task `z` there is a last quiet time: every job of `z` or of higher priority released
earlier is done. From there up to the completion of the job the processor only works on jobs of these
tasks, whose releases the periods count. So if for every number `m` of earlier jobs of `z` their work
and the interference fit in a window of length at most `m` periods and `R`, every job completes
within `R` of its release (`Workload.FixedPriority.completed`).
-/

namespace Hipert

universe u

/-! ## Counting separated releases -/

/-- The indices before `k` of a sequence with steps of at least `T` take that many periods. -/
theorem card_mul_le {r : ℕ → ℝ} {T lo : ℝ} (pos : 0 < T) {F : Finset ℕ} {k : ℕ}
    (before : ∀ l ∈ F, l < k) (above : ∀ l ∈ F, lo ≤ r l) (above' : lo ≤ r k)
    (apart : ∀ l ∈ insert k F, ∀ l' ∈ insert k F, l < l' → r l + T ≤ r l') :
    F.card * T ≤ r k - lo := by
  -- the periods before each index are different and fewer than those before `k`
  have periods : ∀ l ∈ insert k F, ∀ l' ∈ insert k F, l < l' →
      ⌊(r l - lo) / T⌋₊ < ⌊(r l' - lo) / T⌋₊ := by
    intro l hl l' hl' lt
    have nonneg : 0 ≤ (r l - lo) / T := by
      refine div_nonneg (sub_nonneg.mpr ?_) pos.le
      rcases Finset.mem_insert.mp hl with rfl | mem
      · exact above'
      · exact above l mem
    have step : (r l - lo) / T + 1 ≤ (r l' - lo) / T := by
      rw [div_add_one pos.ne', div_le_div_iff_of_pos_right pos]
      linarith [apart l hl l' hl' lt]
    calc ⌊(r l - lo) / T⌋₊ < ⌊(r l - lo) / T⌋₊ + 1 := Nat.lt_succ_self _
      _ = ⌊(r l - lo) / T + 1⌋₊ := (Nat.floor_add_one nonneg).symm
      _ ≤ ⌊(r l' - lo) / T⌋₊ := Nat.floor_mono step
  have inside : ∀ l ∈ F, ⌊(r l - lo) / T⌋₊ ∈ Finset.range ⌊(r k - lo) / T⌋₊ := fun l mem =>
    Finset.mem_range.mpr (periods l (Finset.mem_insert_of_mem mem) k (Finset.mem_insert_self k F)
      (before l mem))
  have distinct : Set.InjOn (fun l => ⌊(r l - lo) / T⌋₊) F := by
    intro l hl l' hl' same
    rcases lt_trichotomy l l' with lt | eq | gt
    · exact absurd same (periods l (Finset.mem_insert_of_mem hl) l' (Finset.mem_insert_of_mem hl')
        lt).ne
    · exact eq
    · exact absurd same (periods l' (Finset.mem_insert_of_mem hl') l (Finset.mem_insert_of_mem hl)
        gt).ne'
  have card := Finset.card_le_card_of_injOn _ inside distinct
  rw [Finset.card_range] at card
  have count : (F.card : ℝ) ≤ (r k - lo) / T :=
    (Nat.cast_le.mpr card).trans (Nat.floor_le (div_nonneg (sub_nonneg.mpr above') pos.le))
  rwa [le_div_iff₀ pos] at count

/-- At most `⌈w / T⌉` separated releases fall in a half-open window of length `w`. -/
theorem card_le_ceil {r : ℕ → ℝ} {T lo hi : ℝ} (pos : 0 < T) {F : Finset ℕ}
    (inside : ∀ l ∈ F, lo ≤ r l ∧ r l < hi)
    (apart : ∀ l ∈ F, ∀ l' ∈ F, l < l' → r l + T ≤ r l') (le : lo ≤ hi) :
    (F.card : ℤ) ≤ ⌈(hi - lo) / T⌉ := by
  rcases F.eq_empty_or_nonempty with rfl | nonempty
  · exact Int.ceil_nonneg (div_nonneg (sub_nonneg.mpr le) pos.le)
  · have mem := F.max'_mem nonempty
    have before : ∀ l ∈ F.erase (F.max' nonempty), l < F.max' nonempty := fun l hl =>
      F.lt_max'_of_mem_erase_max' nonempty hl
    have count := card_mul_le pos before
      (fun l hl => (inside l (Finset.mem_of_mem_erase hl)).1) (inside _ mem).1
      (by rwa [Finset.insert_erase mem])
    rw [Finset.card_erase_of_mem mem, Nat.cast_sub (Finset.card_pos.mpr nonempty)] at count
    have last := (inside _ mem).2
    rw [← Int.sub_one_lt_iff, Int.lt_ceil, lt_div_iff₀ pos]
    push_cast
    push_cast at count
    linarith

theorem sum_union_le {J : Type u} [DecidableEq J] {A B : Finset J} {f : J → ℝ}
    (nonneg : ∀ j, 0 ≤ f j) : ∑ j ∈ A ∪ B, f j ≤ ∑ j ∈ A, f j + ∑ j ∈ B, f j := by
  rw [← Finset.sum_union_inter]
  exact le_add_of_nonneg_right (Finset.sum_nonneg fun j _ => nonneg j)

namespace Workload

variable {ι : Type u} {task : ι → SporadicTask} {tasks : Finset ι} {W : Workload task tasks}
  {run : ℝ → Option (ι × ℕ)} {z : ι}

/-! ## Windows -/

/-- The tasks of higher priority than `z`. -/
def higher (task : ι → SporadicTask) (tasks : Finset ι) (z : ι) : Finset ι :=
  tasks.filter fun j => (task z).priority < (task j).priority

/-- The work `a` and a job of every task above `z` for each of its periods in a window of length
`w`. -/
noncomputable def windowDemand (task : ι → SporadicTask) (tasks : Finset ι) (z : ι) (a w : ℝ) : ℝ :=
  a + ∑ j ∈ higher task tasks z, ⌈w / (task j).period⌉ * (task j).cost

/-- The jobs of a task released in a half-open window. -/
theorem exists_jobsIn (W : Workload task tasks) (j : ι) {lo hi : ℝ} (le : lo ≤ hi) :
    ∃ F : Finset ℕ, (∀ k, k ∈ F ↔ W.Occurs (j, k) ∧ lo ≤ W.release (j, k) ∧
      W.release (j, k) < hi) ∧ (F.card : ℤ) ≤ ⌈(hi - lo) / (task j).period⌉ := by
  classical
  have bound : ∀ F : Finset ℕ, (∀ k ∈ F, W.Occurs (j, k) ∧ lo ≤ W.release (j, k) ∧
      W.release (j, k) < hi) → (F.card : ℤ) ≤ ⌈(hi - lo) / (task j).period⌉ := fun F inside =>
    card_le_ceil (task j).period_pos (fun k mem => (inside k mem).2)
      (fun k hk l hl lt => W.apart lt (inside k hk).1 (inside l hl).1) le
  have finite : {k | W.Occurs (j, k) ∧ lo ≤ W.release (j, k) ∧ W.release (j, k) < hi}.Finite := by
    by_contra infinite
    obtain ⟨F, sub, card⟩ := Set.Infinite.exists_subset_card_eq infinite
      (⌈(hi - lo) / (task j).period⌉.toNat + 1)
    have few := bound F fun k mem => sub mem
    rw [card] at few
    omega
  exact ⟨finite.toFinset, fun k => finite.mem_toFinset,
    bound _ fun k mem => finite.mem_toFinset.mp mem⟩

/-! ## Quiet times -/

/-- The job belongs to `z` or to a task of higher priority. -/
def Relevant (task : ι → SporadicTask) (z : ι) (job : ι × ℕ) : Prop :=
  job.1 = z ∨ (task z).priority < (task job.1).priority

/-- The relevant jobs released before `t` are done. -/
def Quiet (W : Workload task tasks) (run : ℝ → Option (ι × ℕ)) (z : ι) (t : ℝ) : Prop :=
  ∀ job, W.Occurs job → Relevant task z job → W.release job < t →
    W.demand job ≤ service run job t

/-- There is a last quiet time up to any time. -/
theorem exists_last_quiet (W : Workload task tasks) (run : ℝ → Option (ι × ℕ)) (z : ι) {a : ℝ}
    (nonneg : 0 ≤ a) :
    ∃ t₀, 0 ≤ t₀ ∧ t₀ ≤ a ∧ W.Quiet run z t₀ ∧ ∀ t, t₀ < t → t ≤ a → ¬ W.Quiet run z t := by
  have start : W.Quiet run z 0 := fun job occurs _ before =>
    absurd (W.release_nonneg occurs) (not_le.mpr before)
  have nonempty : {t | 0 ≤ t ∧ t ≤ a ∧ W.Quiet run z t}.Nonempty := ⟨0, le_rfl, nonneg, start⟩
  have bounded : BddAbove {t | 0 ≤ t ∧ t ≤ a ∧ W.Quiet run z t} := ⟨a, fun t ht => ht.2.1⟩
  refine ⟨sSup {t | 0 ≤ t ∧ t ≤ a ∧ W.Quiet run z t}, le_csSup bounded ⟨le_rfl, nonneg, start⟩,
    csSup_le nonempty fun t ht => ht.2.1, ?_, ?_⟩
  · intro job occurs relevant before
    obtain ⟨t, ht, after⟩ := exists_lt_of_lt_csSup nonempty before
    exact (ht.2.2 job occurs relevant after).trans (service_mono (le_csSup bounded ht))
  · intro t after within quiet
    have early := le_csSup bounded ⟨?_, within, quiet⟩
    · exact absurd early (not_le.mpr after)
    · exact (le_csSup bounded ⟨le_rfl, nonneg, start⟩).trans after.le

/-! ## The bound -/

/-- While the job is not completed, a relevant job that is not later than it is pending after its
release. -/
theorem exists_pending_of_not_completed {k i : ℕ} {t₁ u : ℝ} (occurs : W.Occurs (z, k))
    (unfinished : ¬ W.Completed run (z, k) i t₁) (after : W.release (z, k) ≤ u) (before : u ≤ t₁) :
    ∃ l ≤ k, W.Pending run (z, l) u := by
  rw [Completed, not_and_or] at unfinished
  rcases unfinished with short | earlier
  · refine ⟨k, le_rfl, occurs, after, ?_⟩
    exact ((service_mono before).trans_lt (not_le.mp short)).trans_le (upTo_le_demand _ i)
  · push Not at earlier
    obtain ⟨l, lt, occurs', short⟩ := earlier
    refine ⟨l, lt.le, occurs', ?_, (service_mono before).trans_lt short⟩
    have apart := W.apart lt occurs' occurs
    have pos := (task z).period_pos
    linarith

/-- A running job after a quiet time is relevant, was released since, and is not later than `k` if it
is a job of `z`. -/
theorem FixedPriority.running (fp : W.FixedPriority run) {k i : ℕ} {t₀ t₁ u : ℝ}
    (occurs : W.Occurs (z, k)) (quiet : W.Quiet run z t₀)
    (last : ∀ t, t₀ < t → t ≤ W.release (z, k) → ¬ W.Quiet run z t)
    (unfinished : ¬ W.Completed run (z, k) i t₁) (after : t₀ < u) (before : u ≤ t₁) :
    ∃ job, run u = some job ∧ W.Occurs job ∧ t₀ ≤ W.release job ∧ W.release job ≤ u ∧
      ((task z).priority < (task job.1).priority ∨ job.1 = z ∧ job.2 ≤ k) := by
  have period_pos := (task z).period_pos
  obtain ⟨job, runs, relevant⟩ : ∃ job, run u = some job ∧
      ((task z).priority < (task job.1).priority ∨ job.1 = z ∧ job.2 ≤ k) := by
    rcases le_or_gt u (W.release (z, k)) with early | late
    · -- not quiet: some relevant job is pending, and a later job of `z` is not released yet
      have busy := last u after early
      unfold Quiet at busy
      push Not at busy
      obtain ⟨p, occurs', relevant, released, short⟩ := busy
      obtain ⟨q, runs, order⟩ := fp.dispatch ⟨occurs', released.le, short⟩
      refine ⟨q, runs, ?_⟩
      have relevant_q : Relevant task z q := by
        rcases order with higher | ⟨same, -⟩
        · rcases relevant with eq | higher'
          · exact Or.inr (eq ▸ higher)
          · exact Or.inr (higher'.trans higher)
        · unfold Relevant
          rw [same]
          exact relevant
      rcases relevant_q with eq | higher
      · refine Or.inr ⟨eq, ?_⟩
        by_contra later
        obtain ⟨occurs_q, released_q, -⟩ := fp.pending_of_run runs
        obtain ⟨i', l⟩ := q
        cases eq
        have apart := W.apart (not_le.mp later) occurs occurs_q
        linarith
      · exact Or.inl higher
    · obtain ⟨l, le, pending⟩ := exists_pending_of_not_completed occurs unfinished late.le before
      obtain ⟨q, runs, order⟩ := fp.dispatch pending
      exact ⟨q, runs, order.imp_right fun h => ⟨h.1, h.2.trans le⟩⟩
  obtain ⟨occurs', released, short⟩ := fp.pending_of_run runs
  refine ⟨job, runs, occurs', ?_, released, relevant⟩
  -- what was released before the quiet time is done
  by_contra earlier
  have done := quiet job occurs' (relevant.symm.imp_left And.left) (not_le.mp earlier)
  exact absurd (done.trans (service_mono after.le)) (not_le.mpr short)

/-- What a job that is not completed and the jobs of its task before it have got is less than their
work. -/
theorem FixedPriority.own_service_lt (fp : W.FixedPriority run) {k i : ℕ} {t₀ t₁ : ℝ}
    (occurs : W.Occurs (z, k)) (quiet : W.Quiet run z t₀)
    (unfinished : ¬ W.Completed run (z, k) i t₁) (le : t₀ ≤ t₁) {F : Finset ℕ}
    (earlier : ∀ l, l ∈ F ↔ l < k ∧ W.Occurs (z, l) ∧ t₀ ≤ W.release (z, l)) :
    ∑ l ∈ F, service run (z, l) t₁ + service run (z, k) t₁ <
      F.card * (task z).cost + (task z).upTo i := by
  have each : ∀ l ∈ F, service run (z, l) t₁ ≤ (task z).cost := fun l _ =>
    (fp.service_le_demand _ _).trans (demand_le_cost _)
  rw [← nsmul_eq_mul]
  rw [Completed, not_and_or] at unfinished
  rcases unfinished with short | short
  · refine add_lt_add_of_le_of_lt (Finset.sum_le_card_nsmul F _ _ each) ?_
    exact (not_le.mp short).trans_le (upTo_le_upTo (z, k) i)
  · -- while an earlier job is pending the job itself does not run
    push Not at short
    obtain ⟨l, lt, occurs', short⟩ := short
    have none : service run (z, k) t₁ ≤ 0 := by
      have idle : service run (z, k) t₁ ≤ service run (z, k) 0 := by
        refine service_le_of_not_run fun u _ before runs => ?_
        have apart := W.apart lt occurs' occurs
        have released := (fp.pending_of_run runs).2.1
        have pos := (task z).period_pos
        have pending : W.Pending run (z, l) u :=
          ⟨occurs', by linarith, (service_mono before.le).trans_lt short⟩
        obtain ⟨q, runs', order⟩ := fp.dispatch pending
        cases runs.symm.trans runs'
        rcases order with higher | ⟨-, le⟩
        · exact lt_irrefl _ higher
        · exact absurd lt (not_lt.mpr le)
      refine idle.trans_eq ?_
      rw [service, Set.Ico_self, Set.empty_inter, MeasureTheory.measureReal_empty]
    have mem : l ∈ F := by
      refine (earlier l).mpr ⟨lt, occurs', ?_⟩
      by_contra before
      have done := quiet (z, l) occurs' (Or.inl rfl) (not_le.mp before)
      exact absurd (done.trans (service_mono le)) (not_le.mpr short)
    have sum_lt : ∑ l ∈ F, service run (z, l) t₁ < F.card • (task z).cost := by
      rw [← Finset.sum_const]
      exact Finset.sum_lt_sum each ⟨l, mem, short.trans_le (demand_le_cost (z, l))⟩
    have positive : 0 ≤ (task z).upTo i :=
      List.sum_nonneg fun e mem => (task z).sections_nonneg e (List.mem_of_mem_take mem)
    linarith

/-- The jobs of `z` in a busy window before job `k` are periods apart. -/
theorem card_mul_period_le {k : ℕ} {t₀ : ℝ} (occurs : W.Occurs (z, k))
    (le : t₀ ≤ W.release (z, k)) {F : Finset ℕ}
    (earlier : ∀ l, l ∈ F ↔ l < k ∧ W.Occurs (z, l) ∧ t₀ ≤ W.release (z, l)) :
    F.card * (task z).period ≤ W.release (z, k) - t₀ := by
  refine card_mul_le (r := fun l => W.release (z, l)) (task z).period_pos
    (fun l mem => ((earlier l).mp mem).1) (fun l mem => ((earlier l).mp mem).2.2) le ?_
  have occurs_of : ∀ l ∈ insert k F, W.Occurs (z, l) := by
    intro l mem
    rcases Finset.mem_insert.mp mem with rfl | mem
    · exact occurs
    · exact ((earlier l).mp mem).2.1
  exact fun l hl l' hl' lt => W.apart lt (occurs_of l hl) (occurs_of l' hl')

/-- A number of jobs of one task get at most that number of its execution times. -/
theorem FixedPriority.sum_service_le (fp : W.FixedPriority run) {j : ι} {G : Finset ℕ} {n : ℤ}
    (card : (G.card : ℤ) ≤ n) (t : ℝ) : ∑ l ∈ G, service run (j, l) t ≤ n * (task j).cost := by
  have cost_nonneg : 0 ≤ (task j).cost := List.sum_nonneg (task j).sections_nonneg
  calc ∑ l ∈ G, service run (j, l) t ≤ G.card • (task j).cost :=
        Finset.sum_le_card_nsmul _ _ _ fun l _ =>
          (fp.service_le_demand _ _).trans (demand_le_cost _)
    _ = G.card * (task j).cost := nsmul_eq_mul _ _
    _ ≤ n * (task j).cost := by
        refine mul_le_mul_of_nonneg_right ?_ cost_nonneg
        exact_mod_cast card

/-- **Busy-window bound.** If for every number `m` of earlier jobs the work up to the section and the
interference fit in a window of at most `m` periods and `R`, then the section completes within `R` of
the release. -/
theorem FixedPriority.completed (fp : W.FixedPriority run) {k i : ℕ} {R : ℝ}
    (occurs : W.Occurs (z, k))
    (windows : ∀ m : ℕ, ∃ w, 0 ≤ w ∧
      windowDemand task tasks z (m * (task z).cost + (task z).upTo i) w ≤ w ∧
      w ≤ m * (task z).period + R) :
    W.Completed run (z, k) i (W.release (z, k) + R) := by
  classical
  by_contra unfinished
  obtain ⟨t₀, start, le, quiet, last⟩ :=
    exists_last_quiet W run z (W.release_nonneg occurs)
  -- the earlier jobs of `z` in the busy window
  let F : Finset ℕ := (Finset.range k).filter fun l => W.Occurs (z, l) ∧ t₀ ≤ W.release (z, l)
  have mem_F : ∀ l, l ∈ F ↔ l < k ∧ W.Occurs (z, l) ∧ t₀ ≤ W.release (z, l) := fun l => by
    simp [F]
  have periods := card_mul_period_le occurs le mem_F
  obtain ⟨w, nonneg, fits, within⟩ := windows F.card
  have end_le : t₀ + w ≤ W.release (z, k) + R := by linarith
  have unfinished' : ¬ W.Completed run (z, k) i (t₀ + w) := fun done =>
    unfinished ⟨done.1.trans (service_mono end_le), fun l lt occurs' =>
      (done.2 l lt occurs').trans (service_mono end_le)⟩
  -- the jobs of higher priority in the busy window
  choose G mem_G card_G using fun j => exists_jobsIn W j (le_add_of_nonneg_right nonneg : t₀ ≤ t₀ + w)
  have busy : ∀ u, t₀ < u → u < t₀ + w → ∃ job ∈ ((higher task tasks z).sigma G).map
      ⟨fun p => (p.1, p.2), fun p q h => by cases p; cases q; cases h; rfl⟩ ∪
      (insert k F).map ⟨fun l => (z, l), fun l l' h => by cases h; rfl⟩, run u = some job := by
    intro u after before
    obtain ⟨⟨j, l⟩, runs, occurs', since, released, order⟩ :=
      fp.running occurs quiet last unfinished' after before.le
    refine ⟨(j, l), Finset.mem_union.mpr ?_, runs⟩
    rcases order with above | ⟨rfl, not_later⟩
    · refine Or.inl (Finset.mem_map.mpr ⟨⟨j, l⟩, Finset.mem_sigma.mpr ⟨?_, ?_⟩, rfl⟩)
      · exact Finset.mem_filter.mpr ⟨W.mem_of_occurs occurs', above⟩
      · exact (mem_G j l).mpr ⟨occurs', since, released.trans_lt before⟩
    · refine Or.inr (Finset.mem_map.mpr ⟨l, Finset.mem_insert.mpr ?_, rfl⟩)
      rcases Nat.lt_or_eq_of_le not_later with lt | eq
      · exact Or.inr ((mem_F l).mpr ⟨lt, occurs', since⟩)
      · exact Or.inl eq
  have length := length_le_sum_service start busy
  have not_mem : k ∉ F := fun mem => lt_irrefl k ((mem_F k).mp mem).1
  have own := fp.own_service_lt occurs quiet unfinished' (le_add_of_nonneg_right nonneg) mem_F
  have others : ∑ j ∈ higher task tasks z, ∑ l ∈ G j, service run (j, l) (t₀ + w) ≤
      ∑ j ∈ higher task tasks z, ⌈w / (task j).period⌉ * (task j).cost := by
    refine Finset.sum_le_sum fun j _ => fp.sum_service_le ?_ _
    have card := card_G j
    rwa [add_sub_cancel_left] at card
  have split : ∑ job ∈ ((higher task tasks z).sigma G).map
      ⟨fun p => (p.1, p.2), fun p q h => by cases p; cases q; cases h; rfl⟩ ∪
      (insert k F).map ⟨fun l => (z, l), fun l l' h => by cases h; rfl⟩,
        service run job (t₀ + w) ≤
      ∑ j ∈ higher task tasks z, ∑ l ∈ G j, service run (j, l) (t₀ + w) +
        (∑ l ∈ F, service run (z, l) (t₀ + w) + service run (z, k) (t₀ + w)) := by
    refine (sum_union_le fun _ => service_nonneg).trans ?_
    rw [Finset.sum_map, Finset.sum_map, Finset.sum_sigma, Finset.sum_insert not_mem]
    exact (add_le_add le_rfl (add_comm _ _).le)
  unfold windowDemand at fits
  linarith

end Workload

end Hipert
