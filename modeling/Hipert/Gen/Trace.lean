import Mathlib.Data.List.Flatten
import Hipert.Gen.Counter

/-!
# Program order

What each thread has executed in a run, put before what it has still to run, is its code: in every
period that is over, whatever the interleaving, each node has run its whole body once and the task
the body of its loop (`program_order`).
-/

namespace Hipert.Gen

universe u

variable {ν : Type u} [DecidableEq ν] {ι : Type u} [DecidableEq ι]

/-! ## Events -/

/-- What a step of a thread executes; `poll` is one round of `wait_finish`. -/
inductive Event (ι ν : Type u) where
  | main (i : ι) (instr : MainInstr ν)
  | poll (i : ι)
  | node (i : ι) (p : ℕ) (n : ν) (instr : NodeInstr ν)
  deriving DecidableEq

omit [DecidableEq ν] [DecidableEq ι] in
/-- The event of a step. -/
def event (s : State ι ν) : Tid ι ν → Option (Event ι ν)
  | .main i => (s.dags i).main.head?.map (.main i)
  | .finish i => some (.poll i)
  | .node i p n => ((s.dags i).thread p n).bind fun t => t.code.head?.map (.node i p n)

/-- The events of a run, up to the first thread that is blocked. -/
def trace (prog : ι → Dag ν) : List (Tid ι ν) → State ι ν → List (Event ι ν)
  | [], _ => []
  | tid :: tids, s =>
    match exec prog tid s with
    | none => []
    | some s' => (event s tid).toList ++ trace prog tids s'

/-- The instruction of an event of the task of DAG `i`. -/
def Event.ofTask (i : ι) : Event ι ν → Option (MainInstr ν)
  | .main j instr => if j = i then some instr else none
  | _ => none

/-- The instruction of an event of the thread of node `n` of DAG `i` created in period `p`. -/
def Event.ofThread (i : ι) (p : ℕ) (n : ν) : Event ι ν → Option (NodeInstr ν)
  | .node j q m instr => if j = i ∧ q = p ∧ m = n then some instr else none
  | _ => none

variable {prog : ι → Dag ν} {s s' : State ι ν} {tid : Tid ι ν} {i : ι} {p : ℕ} {n : ν}
  {d d' : DagState ν}

theorem run_cons {tids : List (Tid ι ν)} :
    run prog (tid :: tids) s = some s' ↔
      ∃ mid, exec prog tid s = some mid ∧ run prog tids mid = some s' :=
  Option.bind_eq_some_iff

theorem run_append {tids tids' : List (Tid ι ν)} :
    run prog (tids ++ tids') s = some s' ↔
      ∃ mid, run prog tids s = some mid ∧ run prog tids' mid = some s' := by
  rw [run, List.foldlM_append]
  exact Option.bind_eq_some_iff

theorem trace_cons {tids : List (Tid ι ν)} {mid : State ι ν} (step : exec prog tid s = some mid) :
    trace prog (tid :: tids) s = (event s tid).toList ++ trace prog tids mid := by
  rw [trace, step]

/-! ## One step -/

/-- A step of the task, as a step of the program. -/
theorem exec_main (step : exec prog (.main i) s = some s') :
    ∃ d, mainStep (prog i) (s.dags i) = some d ∧ s'.dags = Function.update s.dags i d ∧
      s'.premMutex = s.premMutex := by
  rcases Option.map_eq_some_iff.mp step with ⟨d, made, rfl⟩
  exact ⟨d, made, rfl, rfl⟩

theorem exec_finish (step : exec prog (.finish i) s = some s') :
    ∃ d, finishStep (prog i) (s.dags i) = some d ∧ s'.dags = Function.update s.dags i d ∧
      s'.premMutex = s.premMutex := by
  rcases Option.map_eq_some_iff.mp step with ⟨d, made, rfl⟩
  exact ⟨d, made, rfl, rfl⟩

/-- A step of a node's thread: what it does to its DAG, and what to `premMutex`. -/
theorem exec_node (inv : Inv (prog i) (s.dags i)) (step : exec prog (.node i p n) s = some s') :
    ∃ d instr t t', NodeMove (s.dags i) d p n instr t t' ∧
      s'.dags = Function.update s.dags i d ∧ event s (.node i p n) = some (.node i p n instr) ∧
      (instr = .waitPrem → s.premMutex = none) ∧
      s'.premMutex = if instr = .waitPrem then some (.node i p n)
        else if instr = .releasePrem then none else s.premMutex := by
  unfold exec at step
  dsimp only at step
  cases made : nodeStep (s.dags i) p n with
  | none =>
      rw [made] at step
      cases step
  | some result =>
      rw [made] at step
      obtain ⟨d, eff⟩ := result
      rcases nodeStep_move (inv.code p n) made with ⟨instr, t, t', move, rfl⟩
      have happens : event s (.node i p n) = some (.node i p n instr) := by
        simp [event, move.before, move.code]
      refine ⟨d, instr, t, t', move, ?_⟩
      cases instr
      case waitPrem =>
        dsimp only [NodeInstr.onPrem] at step
        split at step
        · rename_i free
          cases step
          exact ⟨rfl, happens, fun _ => free, rfl⟩
        · cases step
      all_goals
        cases step
        exact ⟨rfl, happens, (fun h => nomatch h), rfl⟩

/-- The DAG of a thread. -/
def Tid.dag : Tid ι ν → ι
  | .main i => i
  | .finish i => i
  | .node i _ _ => i

/-- A step leaves the other DAGs alone. -/
theorem dag_frame (reached : Reachable prog s) (step : exec prog tid s = some s')
    (other : tid.dag ≠ i) : s'.dags i = s.dags i := by
  cases tid with
  | main j =>
      obtain ⟨d, -, dags, -⟩ := exec_main step
      rw [dags]
      exact Function.update_of_ne (Ne.symm other) _ _
  | finish j =>
      obtain ⟨d, -, dags, -⟩ := exec_finish step
      rw [dags]
      exact Function.update_of_ne (Ne.symm other) _ _
  | node j q m =>
      obtain ⟨d, instr, t, t', -, dags, -⟩ := exec_node (reached.inv j) step
      rw [dags]
      exact Function.update_of_ne (Ne.symm other) _ _

/-- A node's thread and `wait_finish` leave the code of the tasks alone. -/
theorem main_frame (reached : Reachable prog s) (step : exec prog tid s = some s')
    (other : tid ≠ .main i) :
    (s'.dags i).main = (s.dags i).main ∧ (s'.dags i).period = (s.dags i).period := by
  by_cases own : tid.dag = i
  · cases tid with
    | main j => exact absurd (congrArg Tid.main own) other
    | finish j =>
        obtain rfl : j = i := own
        obtain ⟨d, made, dags, -⟩ := exec_finish step
        rw [dags, Function.update_self, (finishStep_move made).2]
        exact ⟨rfl, rfl⟩
    | node j q m =>
        obtain rfl : j = i := own
        obtain ⟨d, instr, t, t', move, dags, -⟩ := exec_node (reached.inv j) step
        rw [dags, Function.update_self]
        exact ⟨move.main, move.period⟩
  · rw [dag_frame reached step own]
    exact ⟨rfl, rfl⟩

/-- A thread is changed by its own steps and by its creation. -/
theorem thread_frame (reached : Reachable prog s) (step : exec prog tid s = some s')
    (other : tid ≠ .node i p n) :
    (s'.dags i).thread p n = (s.dags i).thread p n ∨
      (s.dags i).thread p n = none ∧
        (s'.dags i).thread p n = some ⟨nodeCode (prog i) n, 0⟩ := by
  by_cases own : tid.dag = i
  · cases tid with
    | main j =>
        obtain rfl : j = i := own
        obtain ⟨d, made, dags, -⟩ := exec_main step
        rw [dags, Function.update_self]
        rcases mainStep_move made with ⟨rest, -, rfl⟩ | ⟨instr, -, move⟩
        · exact Or.inl rfl
        · rw [move.thread]
          cases instr
          case threadCreate m =>
            by_cases here : p = (s.dags j).period ∧ n = m
            · rcases here with ⟨rfl, rfl⟩
              have fresh := (reached.inv j).uncreated n (move.code ▸ List.mem_cons_self)
              exact Or.inr ⟨fresh, DagState.setThread_self _ _ _ _⟩
            · exact Or.inl (DagState.setThread_ne _ _ here)
          all_goals exact Or.inl rfl
    | finish j =>
        obtain rfl : j = i := own
        obtain ⟨d, made, dags, -⟩ := exec_finish step
        rw [dags, Function.update_self, (finishStep_move made).2]
        exact Or.inl rfl
    | node j q m =>
        obtain rfl : j = i := own
        obtain ⟨d, instr, t, t', move, dags, -⟩ := exec_node (reached.inv j) step
        rw [dags, Function.update_self, move.after, DagState.setThread_ne]
        · exact Or.inl rfl
        · intro given
          rcases given with ⟨rfl, rfl⟩
          exact other rfl
  · exact Or.inl (by rw [dag_frame reached step own])

/-- What the thread of node `n` from period `p` has still to run, its creation included. -/
def DagState.toRun (dag : Dag ν) (d : DagState ν) (p : ℕ) (n : ν) : List (NodeInstr ν) :=
  ((d.thread p n).map Thread.code).getD (nodeCode dag n)

omit [DecidableEq ν] in
/-- Only the task of DAG `i` has events of it. -/
theorem ofTask_eq_nil (other : tid ≠ .main i) :
    (event s tid).toList.filterMap (Event.ofTask i) = [] := by
  cases tid with
  | main j =>
      have apart : j ≠ i := fun same => other (congrArg Tid.main same)
      cases code : (s.dags j).main <;> simp [event, code, Event.ofTask, apart]
  | finish j => simp [event, Event.ofTask]
  | node j q m =>
      refine List.filterMap_eq_nil_iff.mpr fun ev mem => ?_
      simp only [event, Option.mem_toList, Option.bind_eq_some_iff, Option.map_eq_some_iff] at mem
      obtain ⟨t, -, instr, -, rfl⟩ := mem
      rfl

theorem ofThread_eq_nil (other : tid ≠ .node i p n) :
    (event s tid).toList.filterMap (Event.ofThread i p n) = [] := by
  cases tid with
  | main j =>
      cases code : (s.dags j).main <;> simp [event, code, Event.ofThread]
  | finish j => simp [event, Event.ofThread]
  | node j q m =>
      have apart : ¬ (j = i ∧ q = p ∧ m = n) := by
        intro given
        rcases given with ⟨rfl, rfl, rfl⟩
        exact other rfl
      refine List.filterMap_eq_nil_iff.mpr fun ev mem => ?_
      simp only [event, Option.mem_toList, Option.bind_eq_some_iff, Option.map_eq_some_iff] at mem
      obtain ⟨t, -, instr, -, rfl⟩ := mem
      exact if_neg apart

/-- The task executes the head of its code; at the end of the period it starts again. -/
theorem task_step (reached : Reachable prog s) (step : exec prog tid s = some s') :
    ∃ k, (s'.dags i).period = (s.dags i).period + k ∧
      (event s tid).toList.filterMap (Event.ofTask i) ++ (s'.dags i).main =
        (s.dags i).main ++ (List.replicate k (mainCode (prog i))).flatten := by
  by_cases self : tid = .main i
  · subst self
    obtain ⟨d, made, dags, -⟩ := exec_main step
    rw [dags, Function.update_self]
    rcases mainStep_move made with ⟨rest, code, rfl⟩ | ⟨instr, -, move⟩
    · have suffix := (reached.inv i).main
      rw [code] at suffix
      cases eq_nil_of_waitForPeriod suffix
      exact ⟨1, rfl, by simp [event, code, Event.ofTask]⟩
    · exact ⟨0, move.period, by simp [event, move.code, Event.ofTask]⟩
  · obtain ⟨main, period⟩ := main_frame reached step self
    exact ⟨0, period, by simp [ofTask_eq_nil self, main]⟩

/-- A thread executes the head of its code. -/
theorem thread_step (reached : Reachable prog s) (step : exec prog tid s = some s') :
    (event s tid).toList.filterMap (Event.ofThread i p n) ++ (s'.dags i).toRun (prog i) p n =
      (s.dags i).toRun (prog i) p n := by
  by_cases self : tid = .node i p n
  · subst self
    obtain ⟨d, instr, t, t', move, dags, happens, -⟩ := exec_node (reached.inv i) step
    rw [dags, Function.update_self, happens, DagState.toRun, DagState.toRun, move.after,
      DagState.setThread_self, move.before]
    simp [Event.ofThread, move.code]
  · rw [ofThread_eq_nil self, List.nil_append, DagState.toRun, DagState.toRun]
    rcases thread_frame reached step self with same | ⟨before, after⟩
    · rw [same]
    · rw [before, after]
      rfl

/-! ## Runs -/

theorem task_run {tids : List (Tid ι ν)} (reached : Reachable prog s)
    (ran : run prog tids s = some s') :
    ∃ k, (s'.dags i).period = (s.dags i).period + k ∧
      (trace prog tids s).filterMap (Event.ofTask i) ++ (s'.dags i).main =
        (s.dags i).main ++ (List.replicate k (mainCode (prog i))).flatten := by
  induction tids generalizing s with
  | nil =>
      cases ran
      exact ⟨0, rfl, by simp [trace]⟩
  | cons tid tids ih =>
      obtain ⟨mid, step, ran⟩ := run_cons.mp ran
      obtain ⟨k, period, first⟩ := task_step (i := i) reached step
      obtain ⟨k', period', rest⟩ := ih (reached.tail ⟨tid, step⟩) ran
      refine ⟨k + k', by rw [period', period, Nat.add_assoc], ?_⟩
      rw [trace_cons step, List.filterMap_append, List.append_assoc, rest, ← List.append_assoc,
        first, List.append_assoc, ← List.flatten_append, List.replicate_append_replicate]

theorem thread_run {tids : List (Tid ι ν)} (reached : Reachable prog s)
    (ran : run prog tids s = some s') :
    (trace prog tids s).filterMap (Event.ofThread i p n) ++ (s'.dags i).toRun (prog i) p n =
      (s.dags i).toRun (prog i) p n := by
  induction tids generalizing s with
  | nil =>
      cases ran
      rfl
  | cons tid tids ih =>
      obtain ⟨mid, step, ran⟩ := run_cons.mp ran
      rw [trace_cons step, List.filterMap_append, List.append_assoc,
        ih (reached.tail ⟨tid, step⟩) ran]
      exact thread_step reached step

/-- The threads of the periods that are over exist. -/
theorem Reachable.exists_old (reached : Reachable prog s) {q : ℕ} (elapsed : q < (s.dags i).period)
    (node : n ∈ (prog i).node) : ∃ t, (s.dags i).thread q n = some t := by
  induction reached with
  | refl => cases elapsed
  | tail reached step ih =>
      rename_i mid s
      obtain ⟨tid, step⟩ := step
      -- a thread that exists before the step exists after it
      have kept : (∃ t, (mid.dags i).thread q n = some t) →
          ∃ t, (s.dags i).thread q n = some t := by
        intro given
        rcases given with ⟨t, here⟩
        by_cases self : tid = .node i q n
        · subst self
          obtain ⟨d, instr, t, t', move, dags, -⟩ := exec_node (Reachable.inv reached i) step
          exact ⟨t', by rw [dags, Function.update_self, move.after, DagState.setThread_self]⟩
        · rcases thread_frame reached step self with same | ⟨fresh, -⟩
          · exact ⟨t, same ▸ here⟩
          · cases fresh.symm.trans here
      by_cases self : tid = .main i
      · subst self
        obtain ⟨d, made, dags, -⟩ := exec_main step
        rw [dags, Function.update_self] at elapsed
        rcases mainStep_move made with ⟨rest, code, rfl⟩ | ⟨instr, -, move⟩
        · rcases (Nat.lt_succ_iff.mp elapsed).lt_or_eq with earlier | rfl
          · exact kept (ih earlier)
          · have inv := Reachable.inv reached i
            have suffix := inv.main
            rw [code] at suffix
            have joined : MainInstr.threadJoin n ∉ (mid.dags i).main := by
              rw [code, eq_nil_of_waitForPeriod suffix]
              simp
            obtain ⟨t, here, -⟩ := inv.joined n node joined
            exact kept ⟨t, here⟩
        · rw [move.period] at elapsed
          exact kept (ih elapsed)
      · rw [(main_frame reached step self).2] at elapsed
        exact kept (ih elapsed)

/-- A thread of a period that is over has executed its whole code. -/
theorem thread_over {tids : List (Tid ι ν)} (ran : run prog tids (.init prog) = some s)
    (node : n ∈ (prog i).node) {q : ℕ} (elapsed : q < (s.dags i).period) :
    (trace prog tids (.init prog)).filterMap (Event.ofThread i q n) = nodeCode (prog i) n := by
  have reached := Reachable.run .refl ran
  obtain ⟨t, here⟩ := reached.exists_old elapsed node
  have exited : t.code = [] := (reached.inv i).old q n t elapsed here
  have whole := thread_run (i := i) (p := q) (n := n) .refl ran
  rw [DagState.toRun, here, Option.map_some, Option.getD_some, exited, List.append_nil] at whole
  exact whole

/-- **Program order.** In every run the task of a DAG has executed the body of its loop once for
each period that is over, and the part of it that is no longer to come. A node's thread of a period
that is over has executed the node's whole body, one of the current period all of it that is no
longer to come, and one of a later period nothing. -/
theorem program_order {tids : List (Tid ι ν)} (ran : run prog tids (.init prog) = some s) (i : ι) :
    (trace prog tids (.init prog)).filterMap (Event.ofTask i) ++ (s.dags i).main =
        (List.replicate ((s.dags i).period + 1) (mainCode (prog i))).flatten ∧
      ∀ n ∈ (prog i).node,
        (∀ q < (s.dags i).period,
          (trace prog tids (.init prog)).filterMap (Event.ofThread i q n) = nodeCode (prog i) n) ∧
        (trace prog tids (.init prog)).filterMap (Event.ofThread i (s.dags i).period n) ++
          (s.dags i).toRun (prog i) (s.dags i).period n = nodeCode (prog i) n ∧
        ∀ q > (s.dags i).period,
          (trace prog tids (.init prog)).filterMap (Event.ofThread i q n) = [] := by
  have start : Reachable prog (State.init prog) := .refl
  have reached := start.run ran
  have inv := reached.inv i
  have threads := fun q n => thread_run (i := i) (p := q) (n := n) start ran
  refine ⟨?_, ?_⟩
  · obtain ⟨k, period, task⟩ := task_run (i := i) start ran
    have counted : (s.dags i).period = k := period.trans (Nat.zero_add k)
    rw [task, counted, List.replicate_succ, List.flatten_cons]
    rfl
  · intro n node
    refine ⟨fun q elapsed => thread_over ran node elapsed, threads _ n, ?_⟩
    · intro q later
      have whole := threads q n
      rw [DagState.toRun, inv.later q n later] at whole
      exact List.append_left_eq_self.mp whole

/-- The rest of the period: `wait_finish` leaves its loop; the task joins, destroys and waits. -/
def chainPeriod : List (Tid Unit Bool) :=
  inTurnSchedule ++ .finish () :: List.replicate 7 (.main ())

theorem program_order_chain : ∃ s, run chainProgram chainPeriod (.init chainProgram) = some s ∧
    (s.dags ()).period = 1 ∧ ∀ n,
      (trace chainProgram chainPeriod (.init chainProgram)).filterMap (Event.ofThread () 0 n) =
        nodeCode (chainProgram ()) n := by
  have ran : (run chainProgram chainPeriod (.init chainProgram)).map
      (fun s => (s.dags ()).period) = some 1 := by decide
  obtain ⟨s, made, period⟩ := Option.map_eq_some_iff.mp ran
  refine ⟨s, made, period, fun n => ?_⟩
  have node : n ∈ (chainProgram ()).node := by cases n <;> decide
  exact ((program_order made ()).2 n node).1 0 (by rw [period]; exact Nat.one_pos)

end Hipert.Gen
