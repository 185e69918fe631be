import Mathlib.Algebra.Order.BigOperators.Group.List
import Mathlib.Algebra.Order.Ring.Nat
import Hipert.Gen.Projection

/-!
# What is left of a period

As long as the period of a DAG without cycles lasts, some thread of the DAG has a step, but for
`premMutex` (`exists_ready`), and each step of the DAG leaves less to do (`work_step`), except for the
polls of `wait_finish` that find the counter short.
-/

namespace Hipert.Gen

universe u

variable {ν : Type u} [DecidableEq ν] {dag : Dag ν} {d d' : DagState ν} {p : ℕ} {n : ν}

/-! ## The task at its joins -/

omit [DecidableEq ν] in
/-- Only the wait for the period is followed by nothing. -/
theorem eq_waitForPeriod_of_last {instr : MainInstr ν} (suffix : [instr] <:+ mainCode dag) :
    instr = .waitForPeriod := by
  have concat : mainCode dag = (.resetCondition :: createDependency dag ++
      (dag.node.map .threadCreate ++ [.releaseStart, .createFinish, .joinFinish, .releaseStart] ++
        (dag.node.map .threadJoin ++ dag.edge.map .destroyDependency ++ [.destroyStart]))) ++
          [.waitForPeriod] := by
    simp [mainCode, periodCode]
  have last := List.singleton_suffix_iff_getLast?_eq_some.mp suffix
  rw [concat, List.getLast?_concat] at last
  exact (Option.some.inj last).symm

omit [DecidableEq ν] in
/-- Once the task is at the join of `wait_finish` it has reset the counter, and will not join
again. -/
theorem joinFinish_suffix {after : List (MainInstr ν)}
    (suffix : .joinFinish :: after <:+ mainCode dag) :
    .resetCondition ∉ after ∧ .joinFinish ∉ after ∧ .createFinish ∉ after := by
  rw [mainCode_eq_threads] at suffix
  have threads := suffix_post_of_head suffix (by simp [setupCode, createDependency])
  have last := suffix_post_of_head threads (by simp)
  have join : .joinFinish :: after <:+ [.joinFinish, .releaseStart] ++ teardownCode dag := by
    simpa [List.suffix_cons_iff] using last
  rcases List.suffix_cons_iff.mp join with eq | inside
  · cases eq
    simp [teardownCode]
  · rcases List.suffix_cons_iff.mp inside with eq | inside
    · cases eq
    · exact absurd (inside.subset List.mem_cons_self) (by simp [teardownCode])

/-- The task has code left, and from its creation to its join there is a thread of `wait_finish`. -/
structure Begun (dag : Dag ν) (d : DagState ν) : Prop where
  running : d.main ≠ []
  finish : .createFinish ∉ d.main → .joinFinish ∈ d.main → d.finish ≠ .absent

theorem Begun.init (dag : Dag ν) : Begun dag (.init dag) where
  running := List.cons_ne_nil _ _
  finish created := absurd (by simp [DagState.init, mainCode, periodCode]) created

theorem Begun.step (inv : Inv dag d) (begun : Begun dag d) (step : DagStep dag d d') :
    Begun dag d' := by
  rcases step with made | made | ⟨p, n, eff, made⟩
  · rcases mainStep_move made with ⟨rest, -, rfl⟩ | ⟨instr, other, move⟩
    · refine ⟨List.cons_ne_nil _ _, fun created => absurd ?_ created⟩
      simp [mainCode, periodCode]
    · have suffix := inv.main
      rw [move.code] at suffix
      refine ⟨fun empty => ?_, fun created join => ?_⟩
      · rw [empty] at suffix
        exact other (eq_waitForPeriod_of_last suffix)
      · rw [move.finish]
        cases instr
        case createFinish => simp [MainInstr.onFinish]
        case joinFinish => exact absurd join (joinFinish_suffix suffix).2.1
        all_goals
          refine begun.finish ?_ (move.code ▸ List.mem_cons_of_mem _ join)
          rw [move.code, List.mem_cons, not_or]
          exact ⟨by simp, created⟩
  · obtain ⟨spinning, eq⟩ := finishStep_move made
    rw [eq]
    refine ⟨begun.running, fun _ _ absent => ?_⟩
    unfold Gen.finishStep at made
    rw [spinning] at made
    dsimp only at made absent
    split at made
    · cases made
      cases absent
    · cases made
      cases spinning.symm.trans absent
  · obtain ⟨instr, t, t', move, -⟩ := nodeStep_move (inv.code p n) made
    refine ⟨?_, ?_⟩
    · rw [move.main]
      exact begun.running
    · rw [move.main, move.finish]
      exact begun.finish

/-- The task is blocked at its joins only. -/
theorem main_blocked (live : Live dag d) (begun : Begun dag d) (blocked : mainStep dag d = none) :
    (∃ rest, d.main = .joinFinish :: rest ∧ d.finish ≠ .exited) ∨
      ∃ n rest, d.main = .threadJoin n :: rest ∧
        (d.thread d.period n).map Thread.code ≠ some [] := by
  obtain ⟨instr, rest, code⟩ := List.exists_cons_of_ne_nil begun.running
  unfold mainStep at blocked
  rw [code] at blocked
  cases instr
  case waitDependency e =>
    dsimp only at blocked
    rw [if_pos (live.waiting e rest code)] at blocked
    cases blocked
  case waitStart =>
    dsimp only at blocked
    rw [if_pos (live.waitingStart rest code)] at blocked
    cases blocked
  case joinFinish =>
    refine Or.inl ⟨rest, code, fun exited => ?_⟩
    dsimp only at blocked
    rw [if_pos exited] at blocked
    cases blocked
  case threadJoin n =>
    refine Or.inr ⟨n, rest, code, fun exited => ?_⟩
    dsimp only at blocked
    rw [if_pos exited] at blocked
    cases blocked
  all_goals cases blocked

/-! ## Some thread has a step -/

section Program

variable {ι : Type u} [DecidableEq ι] {prog : ι → Dag ν} {s s' : State ι ν} {tid : Tid ι ν} {i : ι}

theorem Reachable.begun (reached : Reachable prog s) (i : ι) : Begun (prog i) (s.dags i) :=
  (reached.invariant (fun d => Inv (prog i) d ∧ Begun (prog i) d) ⟨Inv.init _, Begun.init _⟩
    fun _ _ here step => ⟨here.1.step step, here.2.step here.1 step⟩).2

theorem Reachable.alone (reached : Reachable prog s) (i : ι) :
    Reachable (fun _ => prog i) (s.alone i) := by
  induction reached with
  | refl => exact .refl
  | tail reached step ih =>
      obtain ⟨tid, step⟩ := step
      cases own : tid.ofDag i with
      | none =>
          rw [alone_of_other reached own step]
          exact ih
      | some tid' => exact ih.tail ⟨tid', exec_alone own step⟩

/-- A poll of `wait_finish` that finds the counter short. -/
def Idle (prog : ι → Dag ν) (s : State ι ν) (tid : Tid ι ν) : Prop :=
  ∃ i, tid = .finish i ∧ (s.dags i).condition ≠ (prog i).node.length

/-- The counter is the number of nodes once all of them have exited. -/
theorem Exact.full (exact : Exact dag d) (reset : .resetCondition ∉ d.main)
    (exited : ∀ n ∈ dag.node, ∃ t, d.thread d.period n = some t ∧ t.Exited) :
    d.condition = dag.node.length := by
  rw [exact.count reset]
  refine List.countP_eq_length.mpr fun n node => ?_
  obtain ⟨t, thread, exited⟩ := exited n node
  rw [hasStored_of_thread thread, exited]
  rfl

/-- **Ready.** While its period lasts, a DAG without cycles has a thread that has a step other than
an idle poll, as far as the DAG alone is concerned. -/
theorem exists_ready (reached : Reachable prog s) (exact : Exact (prog i) (s.dags i))
    (graph : (prog i).IsGraph) (acyclic : (prog i).Acyclic) :
    ∃ tid : Tid PUnit ν, Enabled (fun _ => prog i) tid (s.alone i) ∧
      ¬ Idle (fun _ => prog i) (s.alone i) tid := by
  have alone := reached.alone i
  by_cases main : Enabled (fun _ => prog i) (.main ⟨⟩) (s.alone i)
  · exact ⟨_, main, fun idle => by obtain ⟨j, eq, -⟩ := idle; cases eq⟩
  · have created : (s.dags i).AllCreated (prog i) := by
      by_contra uncreated
      exact main (alone.enabled_main (i := PUnit.unit) graph uncreated)
    by_cases running : ∃ n ∈ (prog i).node, (s.dags i).Running n
    · rcases alone.nodeEnabled (i := PUnit.unit) graph acyclic created running with
        ⟨n, -, enabled⟩ | ⟨tid, held, enabled⟩
      · exact ⟨_, enabled, fun idle => by obtain ⟨j, eq, -⟩ := idle; cases eq⟩
      · refine ⟨tid, enabled, fun idle => ?_⟩
        obtain ⟨j, p, n, t, instr, rest, rfl, -⟩ := alone.atCopy held
        obtain ⟨j, eq, -⟩ := idle
        cases eq
    · -- all nodes have exited, and the task waits for `wait_finish`
      have exited : ∀ n ∈ (prog i).node, ∃ t,
          (s.dags i).thread (s.dags i).period n = some t ∧ t.Exited := by
        intro n node
        obtain ⟨t, thread⟩ := created n node
        refine ⟨t, thread, ?_⟩
        by_contra unfinished
        exact running ⟨n, node, t, thread, unfinished⟩
      have blocked : mainStep (prog i) (s.dags i) = none := by
        by_contra some
        obtain ⟨d, made⟩ := Option.ne_none_iff_exists'.mp some
        exact main ⟨_, Option.map_eq_some_iff.mpr ⟨d, made, rfl⟩⟩
      have inv := reached.inv i
      have begun := reached.begun i
      rcases main_blocked (reached.live graph.distinct) begun blocked with
        ⟨rest, code, unfinished⟩ | ⟨n, rest, code, unfinished⟩
      · have suffix := inv.main
        rw [code] at suffix
        obtain ⟨reset, -, create⟩ := joinFinish_suffix suffix
        have present := begun.finish (by simp [code, create]) (by simp [code])
        have full := exact.full (by simp [code, reset]) exited
        have spinning : (s.dags i).finish = .spinning := by
          cases state : (s.dags i).finish with
          | absent => exact absurd state present
          | spinning => rfl
          | exited => exact absurd state unfinished
        refine ⟨.finish ⟨⟩, ?_, fun idle => ?_⟩
        · have made :
              finishStep (prog i) (s.dags i) = some { s.dags i with finish := .exited } := by
            unfold finishStep
            rw [spinning]
            exact if_pos full
          exact ⟨_, Option.map_eq_some_iff.mpr ⟨_, made, rfl⟩⟩
        · obtain ⟨j, -, short⟩ := idle
          exact short full
      · have suffix := inv.main
        rw [code] at suffix
        have node := join_mem_mainCode.mp (suffix.subset List.mem_cons_self)
        obtain ⟨t, thread, done⟩ := exited n node
        rw [thread, Option.map_some] at unfinished
        exact absurd (congrArg some done) unfinished

/-! ## What is left of a period -/

/-- The number of steps left in the period, with the join of `wait_finish` counted for its last
poll. -/
def DagState.work (dag : Dag ν) (d : DagState ν) : ℕ :=
  2 * d.main.length + (dag.node.map fun n => (d.toRun dag d.period n).length).sum +
    if d.finish = .spinning then 1 else 0

/-- No step of the period gives a thread more to run. -/
theorem toRun_le (reached : Reachable prog s) (step : exec prog tid s = some s') (n : ν) :
    ((s'.dags i).toRun (prog i) p n).length ≤ ((s.dags i).toRun (prog i) p n).length := by
  rw [← thread_step (i := i) reached step, List.length_append]
  exact Nat.le_add_left _ _

theorem work_main (reached : Reachable prog s) (step : exec prog (.main i) s = some s') :
    (s'.dags i).period = (s.dags i).period + 1 ∨
      ((s'.dags i).period = (s.dags i).period ∧
        (s'.dags i).work (prog i) < (s.dags i).work (prog i)) := by
  have threads := fun n => toRun_le (i := i) (p := (s.dags i).period) reached step n
  obtain ⟨d, made, dags, -⟩ := exec_main step
  rw [dags, Function.update_self] at threads ⊢
  rcases mainStep_move made with ⟨rest, code, rfl⟩ | ⟨instr, -, move⟩
  · exact Or.inl rfl
  · refine Or.inr ⟨move.period, ?_⟩
    have nodes := List.sum_le_sum (l := (prog i).node) fun n _ => threads n
    have polls : (if d.finish = .spinning then 1 else 0) ≤
        (if (s.dags i).finish = .spinning then 1 else 0) + 1 := by
      split <;> omega
    unfold DagState.work
    rw [move.period, move.code, List.length_cons]
    omega

/-- A step of a node of the DAG leaves its thread less to run. -/
theorem work_node (reached : Reachable prog s) (step : exec prog (.node i p n) s = some s') :
    (s'.dags i).period = (s.dags i).period ∧
      (s'.dags i).work (prog i) < (s.dags i).work (prog i) := by
  have threads := fun m => toRun_le (i := i) (p := (s.dags i).period) reached step m
  have mine := thread_step (i := i) (p := p) (n := n) reached step
  obtain ⟨d, instr, t, t', move, dags, happens, -⟩ := exec_node (reached.inv i) step
  cases (reached.inv i).period_eq move.before move.running
  rw [dags, Function.update_self] at threads mine ⊢
  refine ⟨move.period, ?_⟩
  have less : (d.toRun (prog i) (s.dags i).period n).length <
      ((s.dags i).toRun (prog i) (s.dags i).period n).length := by
    rw [← mine, happens]
    simp [Event.ofThread]
  have nodes := List.sum_lt_sum (l := (prog i).node) _ _ (fun m _ => threads m)
    ⟨n, (reached.inv i).node _ _ _ move.before, less⟩
  unfold DagState.work
  rw [move.period, move.main, move.finish]
  omega

/-- A poll of `wait_finish` is idle, and then changes nothing, or it is the last. -/
theorem work_finish (step : exec prog (.finish i) s = some s') :
    (Idle prog s (.finish i) ∧ s' = s) ∨
      ((s'.dags i).period = (s.dags i).period ∧
        (s'.dags i).work (prog i) < (s.dags i).work (prog i)) := by
  rcases Option.map_eq_some_iff.mp step with ⟨d, made, rfl⟩
  have spinning := (finishStep_move made).1
  unfold finishStep at made
  rw [spinning] at made
  dsimp only at made
  split at made
  · cases made
    refine Or.inr ⟨by rw [State.setDag_dags, Function.update_self], ?_⟩
    rw [State.setDag_dags, Function.update_self]
    simp [DagState.work, DagState.toRun, spinning]
  · rename_i short
    cases made
    refine Or.inl ⟨⟨i, rfl, short⟩, ?_⟩
    rw [State.setDag, Function.update_eq_self]

/-- **Step lemma.** A step of a thread of the DAG ends the period, leaves less of it, or is an idle
poll. -/
theorem work_step (reached : Reachable prog s) (own : tid.dag = i)
    (step : exec prog tid s = some s') :
    (s'.dags i).period = (s.dags i).period + 1 ∨
      ((s'.dags i).period = (s.dags i).period ∧
        (s'.dags i).work (prog i) < (s.dags i).work (prog i)) ∨
      (Idle prog s tid ∧ s' = s) := by
  subst own
  cases tid with
  | main j => exact (work_main reached step).imp_right Or.inl
  | finish j => exact Or.inr (work_finish step).symm
  | node j p n => exact Or.inr (Or.inl (work_node reached step))

/-! ## The DAG in the program -/

omit [DecidableEq ν] [DecidableEq ι] in
theorem dag_inDag (tid : Tid PUnit ν) : (tid.inDag i).dag = i := by
  cases tid <;> rfl

/-- A step of the DAG alone is a step of the program if no other DAG holds `premMutex`. -/
theorem enabled_of_alone (free : s.premMutex = none) {tid' : Tid PUnit ν}
    (enabled : Enabled (fun _ => prog i) tid' (s.alone i)) : Enabled prog (tid'.inDag i) s := by
  obtain ⟨t, step⟩ := enabled
  cases tid' with
  | main j =>
      obtain ⟨d, made, -⟩ := Option.map_eq_some_iff.mp step
      exact ⟨s.setDag i d, Option.map_eq_some_iff.mpr ⟨d, made, rfl⟩⟩
  | finish j =>
      obtain ⟨d, made, -⟩ := Option.map_eq_some_iff.mp step
      exact ⟨s.setDag i d, Option.map_eq_some_iff.mpr ⟨d, made, rfl⟩⟩
  | node j p n =>
      obtain ⟨d, eff, made, -⟩ := exec_node_iff.mp step
      exact ⟨_, exec_node_iff.mpr ⟨d, eff, made, fun _ => free, rfl⟩⟩

end Program

end Hipert.Gen
