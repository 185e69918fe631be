import Hipert.Lib.MachineInt
import Hipert.Ptask.Time
import Mathlib.Algebra.Order.BigOperators.Group.List
import Mathlib.Data.List.Fold
import Mathlib.Data.List.MinMax

/-!
# Measured execution times

A task that is measured reads its clock of processor time when it starts and at the end of every
job. The library keeps, for each descriptor, the first and the last reading, the number of jobs and
the longest one.
-/

namespace Hipert.Ptask

/-! ## The module's state -/

/-- `struct wcet_measure`. -/
structure WcetMeasure where
  last : Tspec
  wcet : Tspec
  first : Tspec
  numInstances : Int32
  deriving DecidableEq

/-- `measures`, one for each descriptor. -/
abbrev Measures := ℕ → WcetMeasure

/-- `measures` before the program starts. -/
def measuresZero : Measures := fun _ => ⟨tspecZero, tspecZero, tspecZero, 0⟩

/-- `tstat_init`, where the clock shows `now`. -/
def tstatInit (i : ℕ) (now : Tspec) (measures : Measures) : Measures :=
  Function.update measures i
    { measures i with first := now, numInstances := 0, last := now }

/-- `tstat_record`, where the clock shows `now`. -/
def tstatRecord (i : ℕ) (now : Tspec) (measures : Measures) : Measures :=
  let delta := tspecSub now (measures i).last
  let wcet := if 0 < tspecCmp delta (measures i).wcet then delta else (measures i).wcet
  Function.update measures i
    { measures i with wcet := wcet, last := now, numInstances := (measures i).numInstances + 1 }

/-- `ptask_get_wcet`. -/
def ptaskGetWcet (measures : Measures) (i : ℕ) : Tspec := (measures i).wcet

/-- `ptask_get_numinstances`. -/
def ptaskGetNuminstances (measures : Measures) (i : ℕ) : Int32 := (measures i).numInstances

/-- `ptask_get_total`. -/
def ptaskGetTotal (measures : Measures) (i : ℕ) : Tspec :=
  tspecSub (measures i).last (measures i).first

/-- `ptask_get_avg`; a division by zero has no result. -/
def ptaskGetAvg (measures : Measures) (i : ℕ) : Option Tspec :=
  let diff := ptaskGetTotal measures i
  let instances := (measures i).numInstances.toInt
  if instances = 0 then none
  else
    some ⟨diff.tvSec.tdiv instances,
      (diff.tvNsec + diff.tvSec.tmod instances * 1000000000).tdiv instances⟩

/-- The calls that the tasks make: each names the descriptor and what the clock shows. -/
inductive StatCall where
  | init (i : ℕ) (now : Tspec)
  | record (i : ℕ) (now : Tspec)
  deriving DecidableEq, Repr

namespace StatCall

/-- The descriptor that the call is about. -/
def task : StatCall → ℕ
  | .init i _ => i
  | .record i _ => i

/-- What the clock shows at the call. -/
def now : StatCall → Tspec
  | .init _ now => now
  | .record _ now => now

/-- The effect of the call. -/
def apply (measures : Measures) : StatCall → Measures
  | .init i now => tstatInit i now measures
  | .record i now => tstatRecord i now measures

theorem apply_of_ne {measures : Measures} {i : ℕ} {call : StatCall} (other : call.task ≠ i) :
    call.apply measures i = measures i := by
  cases call with
  | init k now => exact Function.update_of_ne (Ne.symm other) _ _
  | record k now => exact Function.update_of_ne (Ne.symm other) _ _

end StatCall

/-- The measures after a sequence of calls. -/
def afterCalls (measures : Measures) (calls : List StatCall) : Measures :=
  calls.foldl StatCall.apply measures

/-! ## The jobs of a descriptor -/

/-- The execution times of the jobs that a descriptor has recorded, in nanoseconds, where its clock
showed `since` before. -/
def executions (i : ℕ) (since : ℤ) : List StatCall → List ℤ
  | [] => []
  | .init k now :: calls => executions i (if k = i then now.ns else since) calls
  | .record k now :: calls =>
      if k = i then (now.ns - since) :: executions i now.ns calls else executions i since calls

theorem executions_of_ne {i : ℕ} {since : ℤ} {call : StatCall} {calls : List StatCall}
    (other : call.task ≠ i) : executions i since (call :: calls) = executions i since calls := by
  cases call with
  | init k now => rw [executions, if_neg (show ¬k = i from other)]
  | record k now => rw [executions, if_neg (show ¬k = i from other)]

/-! ## What the measures hold -/

/-- The state of a descriptor's measures: the normal `timespec`s of the readings and of the longest
job. -/
structure Holds (m : WcetMeasure) (first last wcet : ℤ) (instances : ℕ) : Prop where
  first : m.first = ofNs first
  last : m.last = ofNs last
  wcet : m.wcet = ofNs wcet
  instances : m.numInstances = Int32.ofInt instances

theorem holds_zero (i : ℕ) : Holds (measuresZero i) 0 0 0 0 := ⟨rfl, rfl, rfl, rfl⟩

section Step

variable {measures : Measures} {i : ℕ} {first last wcet : ℤ} {instances : ℕ}

theorem Holds.init (holds : Holds (measures i) first last wcet instances) {now : Tspec}
    (normal : now.Normal) : Holds (tstatInit i now measures i) now.ns now.ns wcet 0 := by
  have eq := eq_ofNs_iff.mpr ⟨normal, rfl⟩
  unfold tstatInit
  rw [Function.update_self]
  exact ⟨eq, eq, holds.wcet, rfl⟩

theorem Holds.record (holds : Holds (measures i) first last wcet instances) {now : Tspec}
    (normal : now.Normal) :
    Holds (tstatRecord i now measures i) first now.ns (max wcet (now.ns - last))
      (instances + 1) := by
  have eq := eq_ofNs_iff.mpr ⟨normal, rfl⟩
  have delta : tspecSub now (measures i).last = ofNs (now.ns - last) := by
    rw [holds.last, tspecSub_eq normal (ofNs_normal last), ns_ofNs]
  unfold tstatRecord
  dsimp only
  rw [Function.update_self, delta, holds.wcet]
  refine ⟨holds.first, eq, ?_, ?_⟩
  · dsimp only
    split
    case isTrue longer =>
      rw [tspecCmp_pos_iff (ofNs_normal _) (ofNs_normal _), ns_ofNs, ns_ofNs] at longer
      rw [max_eq_right longer.le]
    case isFalse shorter =>
      rw [tspecCmp_pos_iff (ofNs_normal _) (ofNs_normal _), ns_ofNs, ns_ofNs] at shorter
      rw [max_eq_left (not_lt.mp shorter)]
  · dsimp only
    rw [holds.instances, Nat.cast_add, Int32.ofInt_add]
    rfl

end Step

/-- **One run.** After any calls the measures of a descriptor hold the last readings and the longest
of all jobs so far, and without a new start the number of its jobs and their total. -/
theorem holds_afterCalls {i : ℕ} {calls : List StatCall} (normal : ∀ call ∈ calls, call.now.Normal)
    {measures : Measures} {first last wcet : ℤ} {instances : ℕ}
    (holds : Holds (measures i) first last wcet instances) :
    ∃ first' last' instances',
      Holds (afterCalls measures calls i) first' last'
        ((executions i last calls).foldl max wcet) instances' ∧
      ((∀ now, StatCall.init i now ∉ calls) →
        first' = first ∧ last' = last + (executions i last calls).sum ∧
          instances' = instances + (executions i last calls).length) := by
  induction calls generalizing measures first last wcet instances with
  | nil => exact ⟨first, last, instances, holds, fun _ => ⟨rfl, (add_zero last).symm, rfl⟩⟩
  | cons call calls ih =>
      have now_normal := normal call List.mem_cons_self
      have rest_normal := fun call mem => normal call (List.mem_cons_of_mem _ mem)
      by_cases own : call.task = i
      · cases call with
        | init k now =>
            change k = i at own
            subst own
            rcases ih rest_normal (holds.init now_normal) with ⟨first', last', instances', after, -⟩
            refine ⟨first', last', instances', ?_, ?_⟩
            · rw [executions, if_pos rfl]
              exact after
            · intro none
              exact absurd List.mem_cons_self (none now)
        | record k now =>
            change k = i at own
            subst own
            rcases ih rest_normal (holds.record now_normal) with
              ⟨first', last', instances', after, counts⟩
            refine ⟨first', last', instances', ?_, ?_⟩
            · rw [executions, if_pos rfl, List.foldl_cons]
              exact after
            · intro none
              rcases counts fun now mem => none now (List.mem_cons_of_mem _ mem) with
                ⟨same, sum, length⟩
              rw [executions, if_pos rfl, List.sum_cons, List.length_cons]
              refine ⟨same, ?_, ?_⟩
              · rw [sum, StatCall.now]
                ring
              · rw [length, StatCall.now]
                ring
      · have other : Holds (call.apply measures i) first last wcet instances := by
          rwa [StatCall.apply_of_ne own]
        rcases ih rest_normal other with ⟨first', last', instances', after, counts⟩
        refine ⟨first', last', instances', ?_, ?_⟩
        · rw [executions_of_ne own]
          exact after
        · intro none
          rw [executions_of_ne own]
          exact counts fun now mem => none now (List.mem_cons_of_mem _ mem)

/-! ## The statistics of a task -/

/-- The average of a normal total is the quotient of its nanoseconds, with the remainder of the
seconds carried over. -/
theorem average_eq {total instances : ℤ} (nonneg : 0 ≤ total) (some : 0 < instances) :
    (⟨(ofNs total).tvSec.tdiv instances,
      ((ofNs total).tvNsec + (ofNs total).tvSec.tmod instances * 1000000000).tdiv instances⟩ :
        Tspec) = ofNs (total / instances) := by
  have normal := ofNs_normal total
  have value := ns_ofNs total
  unfold Tspec.ns at value
  unfold Tspec.Normal at normal
  generalize (ofNs total).tvSec = sec at *
  generalize (ofNs total).tvNsec = nsec at *
  have sec_nonneg : 0 ≤ sec := by omega
  have split_sec := Int.mul_ediv_add_emod sec instances
  have rem_nonneg := Int.emod_nonneg sec some.ne'
  have rem_lt := Int.emod_lt_of_pos sec some
  rw [Int.tdiv_eq_ediv_of_nonneg sec_nonneg, Int.tmod_eq_emod_of_nonneg sec_nonneg,
    Int.tdiv_eq_ediv_of_nonneg (by omega)]
  generalize sec / instances = q at *
  generalize sec % instances = r at *
  have quotient : total / instances = q * 1000000000 + (nsec + r * 1000000000) / instances := by
    rw [← value, ← split_sec,
      show (instances * q + r) * 1000000000 + nsec =
        nsec + r * 1000000000 + q * 1000000000 * instances by ring,
      Int.add_mul_ediv_right _ _ some.ne', add_comm]
  refine eq_ofNs_iff.mpr ⟨⟨?_, ?_⟩, quotient.symm⟩
  · exact Int.ediv_nonneg (by omega) some.le
  · apply Int.ediv_lt_of_lt_mul some
    nlinarith only [normal.2, rem_lt]

/-- **Statistics.** After any calls for any descriptors, a task that started last at `start` on
descriptor `i` reads the total time of the jobs it has recorded since, and as long as they are fewer
than `2 ^ 31`, their number and, if there is one, their mean, rounded down; `ptask_get_avg` divides
by zero just if their number is a multiple of `2 ^ 32`. What the task reads as the longest execution
time is the longest job of all tasks that the descriptor has been given so far, since a start does not
reset it. -/
theorem task_statistics {i : ℕ} {before after : List StatCall} {start : Tspec}
    (normal : ∀ call ∈ before ++ .init i start :: after, call.now.Normal)
    (latest : ∀ now, StatCall.init i now ∉ after)
    (forward : ∀ time ∈ executions i start.ns after, 0 ≤ time) :
    let measures := afterCalls measuresZero (before ++ .init i start :: after)
    let times := executions i start.ns after
    ((ptaskGetNuminstances measures i).toInt = times.length ↔ times.length < 2 ^ 31) ∧
      ptaskGetTotal measures i = ofNs times.sum ∧
      ptaskGetWcet measures i =
        ofNs ((executions i 0 before ++ times).foldl max 0) ∧
      (ptaskGetAvg measures i = none ↔ 2 ^ 32 ∣ times.length) ∧
      (times ≠ [] → times.length < 2 ^ 31 →
        ptaskGetAvg measures i = some (ofNs (times.sum / times.length)) ∧
          times.sum / times.length ≤ (ptaskGetWcet measures i).ns) := by
  intro measures times
  have normal_before := fun call mem => normal call (List.mem_append_left _ mem)
  have normal_start := normal _ (List.mem_append_right _ List.mem_cons_self)
  have normal_after := fun call mem =>
    normal call (List.mem_append_right _ (List.mem_cons_of_mem _ mem))
  rcases holds_afterCalls normal_before (holds_zero i) with ⟨_, _, _, first, -⟩
  rcases holds_afterCalls normal_after (first.init normal_start) with ⟨_, _, _, holds, counts⟩
  rcases counts latest with ⟨rfl, rfl, rfl⟩
  rw [← List.foldl_append] at holds
  have reads :
      measures = afterCalls (tstatInit i start (afterCalls measuresZero before)) after := by
    simp only [measures, afterCalls, List.foldl_append, List.foldl_cons, StatCall.apply]
  change Holds (afterCalls (tstatInit i start (afterCalls measuresZero before)) after i) start.ns
    (start.ns + times.sum) ((executions i 0 before ++ times).foldl max 0) (0 + times.length)
    at holds
  rw [← reads, Nat.zero_add] at holds
  have total : ptaskGetTotal measures i = ofNs times.sum := by
    rw [ptaskGetTotal, holds.last, holds.first, tspecSub_eq (ofNs_normal _) (ofNs_normal _),
      ns_ofNs, ns_ofNs, add_sub_cancel_left]
  refine ⟨?_, total, holds.wcet, ?_, ?_⟩
  · have nonneg := Int.natCast_nonneg times.length
    rw [ptaskGetNuminstances, holds.instances, toInt_ofInt_eq_iff]
    omega
  · have zero : (measures i).numInstances.toInt = 0 ↔ 2 ^ 32 ∣ times.length := by
      rw [holds.instances, Int32.toInt_ofInt, ← Int.dvd_iff_bmod_eq_zero]
      exact Int.natCast_dvd_natCast
    unfold ptaskGetAvg
    rw [← zero]
    simp
  · intro some few
    have positive : (0 : ℤ) < times.length := by
      have := List.length_pos_iff.mpr some
      omega
    have count : (measures i).numInstances.toInt = times.length := by
      rw [holds.instances, toInt_ofInt_eq_iff]
      omega
    refine ⟨?_, ?_⟩
    · unfold ptaskGetAvg
      rw [total, count]
      dsimp only
      rw [if_neg positive.ne', average_eq (List.sum_nonneg forward) positive]
    · have bound := List.sum_le_card_nsmul times ((executions i 0 before ++ times).foldl max 0) (by
        intro time mem
        rw [List.foldl_eq_foldr]
        exact List.le_max_of_le' _ (List.mem_append_right _ mem) le_rfl)
      rw [ptaskGetWcet, holds.wcet, ns_ofNs]
      apply Int.ediv_le_of_le_mul positive
      rwa [nsmul_eq_mul, mul_comm] at bound

theorem task_statistics_reused :
    ptaskGetWcet (afterCalls measuresZero
      [.init 3 ⟨0, 0⟩, .record 3 ⟨0, 900⟩, .init 3 ⟨0, 0⟩, .record 4 ⟨9, 0⟩, .record 3 ⟨0, 20⟩,
        .record 3 ⟨0, 31⟩]) 3 = ⟨0, 900⟩ ∧
      ptaskGetAvg (afterCalls measuresZero
        [.init 3 ⟨0, 0⟩, .record 3 ⟨0, 900⟩, .init 3 ⟨0, 0⟩, .record 4 ⟨9, 0⟩, .record 3 ⟨0, 20⟩,
          .record 3 ⟨0, 31⟩]) 3 = some ⟨0, 15⟩ := by
  have facts := @task_statistics 3 [.init 3 ⟨0, 0⟩, .record 3 ⟨0, 900⟩]
    [.record 4 ⟨9, 0⟩, .record 3 ⟨0, 20⟩, .record 3 ⟨0, 31⟩] ⟨0, 0⟩ (by decide) (by simp)
    (by decide)
  exact ⟨facts.2.2.1, (facts.2.2.2.2 (by decide) (by decide)).1⟩

end Hipert.Ptask
