import Hipert.Gen.MemoryPhases

/-!
# One DAG of the program

A DAG of a program runs as it would alone: the steps of its own threads in a run of the program are
a run of the program with that DAG only (`run_alone`). The others can but delay it, through
`premMutex`; where no DAG is a PREM one, any interleaving of runs of the single DAGs is a run of the
program (`run_of_alone`).
-/

namespace Hipert.Gen

universe u

variable {ν : Type u} [DecidableEq ν] {ι : Type u} [DecidableEq ι]

/-! ## Projections -/

/-- The thread of the program with DAG `i` alone, for a thread of that DAG. -/
def Tid.ofDag (i : ι) : Tid ι ν → Option (Tid PUnit ν)
  | .main j => if j = i then some (.main ⟨⟩) else none
  | .finish j => if j = i then some (.finish ⟨⟩) else none
  | .node j p n => if j = i then some (.node ⟨⟩ p n) else none

/-- The thread of DAG `i` for a thread of the program with it alone. -/
def Tid.inDag (i : ι) : Tid PUnit ν → Tid ι ν
  | .main _ => .main i
  | .finish _ => .finish i
  | .node _ p n => .node i p n

/-- The event of the program with DAG `i` alone, for an event of that DAG. -/
def Event.ofDag (i : ι) : Event ι ν → Option (Event PUnit ν)
  | .main j instr => if j = i then some (.main ⟨⟩ instr) else none
  | .poll j => if j = i then some (.poll ⟨⟩) else none
  | .node j p n instr => if j = i then some (.node ⟨⟩ p n instr) else none

/-- The state of DAG `i` alone. -/
def State.alone (s : State ι ν) (i : ι) : State PUnit ν where
  dags _ := s.dags i
  premMutex := s.premMutex.bind (Tid.ofDag i)

variable {prog : ι → Dag ν} {s s' : State ι ν} {tid : Tid ι ν} {i : ι}

omit [DecidableEq ν] in
theorem ofDag_of_ne (other : tid.dag ≠ i) : tid.ofDag i = none := by
  cases tid <;> exact if_neg other

omit [DecidableEq ν] in
theorem ofDag_self (tid : Tid ι ν) : ∃ tid', tid.ofDag tid.dag = some tid' := by
  cases tid <;> exact ⟨_, if_pos rfl⟩

omit [DecidableEq ν] in
theorem eq_inDag {tid' : Tid PUnit ν} (own : tid.ofDag i = some tid') : tid = tid'.inDag i := by
  cases tid with
  | main j =>
      obtain ⟨rfl, eq⟩ := Option.ite_none_right_eq_some.mp own
      rw [← Option.some.inj eq, Tid.inDag]
  | finish j =>
      obtain ⟨rfl, eq⟩ := Option.ite_none_right_eq_some.mp own
      rw [← Option.some.inj eq, Tid.inDag]
  | node j p n =>
      obtain ⟨rfl, eq⟩ := Option.ite_none_right_eq_some.mp own
      rw [← Option.some.inj eq, Tid.inDag]

omit [DecidableEq ν] in
theorem State.alone_ext {t t' : State PUnit ν} (dags : t.dags ⟨⟩ = t'.dags ⟨⟩)
    (prem : t.premMutex = t'.premMutex) : t = t' := by
  obtain ⟨f, m⟩ := t
  obtain ⟨f', m'⟩ := t'
  have same : f = f' := funext fun _ => dags
  cases same
  cases prem
  rfl

/-! ## Steps of nodes -/

/-- `premMutex` after a step of `tid`. -/
def PremEffect.on (eff : PremEffect) (tid : Tid ι ν) (prem : Option (Tid ι ν)) :
    Option (Tid ι ν) :=
  match eff with
  | .keep => prem
  | .take => some tid
  | .free => none

theorem exec_node_iff {p : ℕ} {n : ν} :
    exec prog (.node i p n) s = some s' ↔
      ∃ d eff, nodeStep (s.dags i) p n = some (d, eff) ∧ (eff = .take → s.premMutex = none) ∧
        s' = ⟨Function.update s.dags i d, eff.on (.node i p n) s.premMutex⟩ := by
  unfold exec
  dsimp only
  cases made : nodeStep (s.dags i) p n with
  | none =>
      refine ⟨(fun step => nomatch step), fun given => ?_⟩
      rcases given with ⟨d, eff, made', -⟩
      cases made'
  | some result =>
      obtain ⟨d, eff⟩ := result
      refine ⟨fun step => ⟨d, eff, rfl, ?_⟩, ?_⟩
      · cases eff with
        | keep =>
            cases step
            exact ⟨(fun h => nomatch h), rfl⟩
        | free =>
            cases step
            exact ⟨(fun h => nomatch h), rfl⟩
        | take =>
            dsimp only at step
            split at step
            · rename_i free
              cases step
              exact ⟨fun _ => free, rfl⟩
            · cases step
      · intro given
        rcases given with ⟨d', eff', made', free, rfl⟩
        cases made'
        cases eff with
        | keep => rfl
        | free => rfl
        | take => exact if_pos (free rfl)

/-! ## Runs of the program, seen from one DAG -/

/-- A step of one of its threads is a step of the DAG alone. -/
theorem exec_alone {tid' : Tid PUnit ν} (own : tid.ofDag i = some tid')
    (step : exec prog tid s = some s') :
    exec (fun _ => prog i) tid' (s.alone i) = some (s'.alone i) := by
  have eq := eq_inDag own
  subst eq
  cases tid' with
  | main j =>
      rcases Option.map_eq_some_iff.mp step with ⟨d, made, rfl⟩
      refine Option.map_eq_some_iff.mpr ⟨d, made, State.alone_ext ?_ rfl⟩
      simp [State.alone]
  | finish j =>
      rcases Option.map_eq_some_iff.mp step with ⟨d, made, rfl⟩
      refine Option.map_eq_some_iff.mpr ⟨d, made, State.alone_ext ?_ rfl⟩
      simp [State.alone]
  | node j p n =>
      rcases exec_node_iff.mp step with ⟨d, eff, made, free, rfl⟩
      refine exec_node_iff.mpr ⟨d, eff, made, ?_, State.alone_ext ?_ ?_⟩
      · intro take
        rw [State.alone, free take]
        rfl
      · simp [State.alone]
      · cases eff <;> simp [State.alone, PremEffect.on, Tid.ofDag]

/-- A step of a thread of another DAG does not show in the DAG alone. -/
theorem alone_of_other (reached : Reachable prog s) (other : tid.ofDag i = none)
    (step : exec prog tid s = some s') : s'.alone i = s.alone i := by
  have apart : tid.dag ≠ i := by
    intro same
    obtain ⟨tid', own⟩ := ofDag_self tid
    rw [same, other] at own
    cases own
  have same : s'.dags i = s.dags i := dag_frame reached step apart
  refine State.alone_ext same ?_
  cases tid with
  | main j =>
      obtain ⟨d, -, -, prem⟩ := exec_main step
      rw [State.alone, State.alone, prem]
  | finish j =>
      obtain ⟨d, -, -, prem⟩ := exec_finish step
      rw [State.alone, State.alone, prem]
  | node j p n =>
      obtain ⟨d, instr, t, t', move, -, -, free, prem⟩ := exec_node (reached.inv j) step
      simp only [State.alone, prem]
      split
      · rename_i wait
        rw [free wait, Option.bind_some, other]
        rfl
      · split
        · -- `premMutex` was its own
          rename_i release
          have held := reached.holds ⟨j, p, n, t, _, _, rfl, move.before, move.code, Or.inr release⟩
          rw [held, Option.bind_some, other]
          rfl
        · rfl

/-- The steps of a DAG's threads in a run of the program are a run of the program with this DAG
only, to the same state of the DAG. -/
theorem run_alone {tids : List (Tid ι ν)} (reached : Reachable prog s)
    (ran : run prog tids s = some s') (i : ι) :
    run (fun _ => prog i) (tids.filterMap (Tid.ofDag i)) (s.alone i) = some (s'.alone i) := by
  induction tids generalizing s with
  | nil =>
      cases ran
      rfl
  | cons tid tids ih =>
      obtain ⟨mid, step, ran⟩ := run_cons.mp ran
      have rest := ih (reached.tail ⟨tid, step⟩) ran
      cases own : tid.ofDag i with
      | none =>
          rw [List.filterMap_cons_none own, ← alone_of_other reached own step]
          exact rest
      | some tid' =>
          rw [List.filterMap_cons_some own]
          exact run_cons.mpr ⟨_, exec_alone own step, rest⟩

omit [DecidableEq ν] in
/-- What a thread of the DAG executes shows in the DAG alone, and nothing else does. -/
theorem event_alone (s : State ι ν) (tid : Tid ι ν) (i : ι) :
    (event s tid).toList.filterMap (Event.ofDag i) =
      ((tid.ofDag i).bind (event (s.alone i))).toList := by
  cases tid with
  | main j =>
      by_cases self : j = i
      · subst self
        cases code : (s.dags j).main <;> simp [event, code, Event.ofDag, Tid.ofDag, State.alone]
      · cases code : (s.dags j).main <;> simp [event, code, Event.ofDag, Tid.ofDag, self]
  | finish j =>
      by_cases self : j = i <;> simp [event, Event.ofDag, Tid.ofDag, self]
  | node j p n =>
      by_cases self : j = i
      · subst self
        cases here : (s.dags j).thread p n with
        | none => simp [event, here, Tid.ofDag, State.alone]
        | some t =>
            obtain ⟨code, loaded⟩ := t
            cases code <;> simp [event, here, Event.ofDag, Tid.ofDag, State.alone]
      · cases here : (s.dags j).thread p n with
        | none => simp [event, here, Tid.ofDag, self]
        | some t =>
            obtain ⟨code, loaded⟩ := t
            cases code <;> simp [event, here, Event.ofDag, Tid.ofDag, self]

theorem trace_alone {tids : List (Tid ι ν)} (reached : Reachable prog s)
    (ran : run prog tids s = some s') (i : ι) :
    trace (fun _ => prog i) (tids.filterMap (Tid.ofDag i)) (s.alone i) =
      (trace prog tids s).filterMap (Event.ofDag i) := by
  induction tids generalizing s with
  | nil => rfl
  | cons tid tids ih =>
      obtain ⟨mid, step, ran⟩ := run_cons.mp ran
      have rest := ih (reached.tail ⟨tid, step⟩) ran
      rw [trace_cons step, List.filterMap_append, event_alone]
      cases own : tid.ofDag i with
      | none =>
          rw [List.filterMap_cons_none own, ← alone_of_other reached own step, rest]
          rfl
      | some tid' =>
          rw [List.filterMap_cons_some own, trace_cons (exec_alone own step), rest]
          rfl

/-- **Isolation.** The steps of a DAG's threads in a run of the program are a run of the program
with this DAG only, with the same events of the DAG and to the same state of it. -/
theorem dag_isolated {tids : List (Tid ι ν)} (ran : run prog tids (.init prog) = some s) (i : ι) :
    run (fun _ => prog i) (tids.filterMap (Tid.ofDag i)) (.init fun _ => prog i) =
        some (s.alone i) ∧
      trace (fun _ => prog i) (tids.filterMap (Tid.ofDag i)) (.init fun _ => prog i) =
        (trace prog tids (.init prog)).filterMap (Event.ofDag i) :=
  ⟨run_alone .refl ran i, trace_alone .refl ran i⟩

/-- Two SPARSE nodes and the edge between them, in one DAG. -/
def sparseProgram : Unit → Dag Bool := fun _ =>
  ⟨[false, true], [⟨false, true⟩], .sparse, fun _ => 1, nodup_pair⟩

/-- A SPARSE DAG beside a PREM one. -/
def mixedProgram : Bool → Dag Bool
  | false => sparseProgram ()
  | true => chainProgram ()

/-- The tasks take turns until one thread is in its memory phase. -/
def mixedSchedule : List (Tid Bool Bool) :=
  (List.replicate 7 [.main false, .main true]).flatten ++ List.replicate 3 (.node true 0 false)

theorem dag_isolated_mixed : ∃ s, run mixedProgram mixedSchedule (.init mixedProgram) = some s ∧
    run chainProgram copySchedule (.init chainProgram) = some (s.alone true) ∧
      (s.alone true).premMutex = some (.node () 0 false) := by
  have ran : (run mixedProgram mixedSchedule (.init mixedProgram)).map State.premMutex =
      some (some (.node true 0 false)) := by decide
  obtain ⟨s, made, held⟩ := Option.map_eq_some_iff.mp ran
  refine ⟨s, made, (dag_isolated made true).1, ?_⟩
  rw [State.alone, held]
  rfl

/-! ## Runs of the single DAGs, put together -/

/-- A SPARSE node does not touch `premMutex`. -/
theorem prem_not_mem_of_sparse {dag : Dag ν} (sparse : dag.memType = .sparse) (n : ν) :
    .waitPrem ∉ nodeCode dag n ∧ .releasePrem ∉ nodeCode dag n := by
  have rounds : ∀ instr ∈ chunkCode dag n, instr = .access ∨ instr = .execute := by
    intro instr mem
    obtain ⟨round, mem_round, mem⟩ := List.mem_flatten.mp mem
    rw [List.eq_of_mem_replicate mem_round, sparse] at mem
    simpa [roundCode] using mem
  have wait : .waitPrem ∉ chunkCode dag n := fun mem => by
    rcases rounds _ mem with eq | eq <;> cases eq
  have release : .releasePrem ∉ chunkCode dag n := fun mem => by
    rcases rounds _ mem with eq | eq <;> cases eq
  refine ⟨?_, ?_⟩
  · simp [nodeCode, computeCode, releaseCode, wait]
  · simp [nodeCode, computeCode, releaseCode, release]

/-- A step of a SPARSE DAG alone is a step of the program. -/
theorem exec_of_alone (reached : Reachable prog s) (sparse : (prog i).memType = .sparse)
    (free : s.premMutex = none) {tid' : Tid PUnit ν} (own : tid.ofDag i = some tid')
    {t : State PUnit ν} (step : exec (fun _ => prog i) tid' (s.alone i) = some t) :
    ∃ mid, exec prog tid s = some mid ∧ mid.premMutex = none := by
  have eq := eq_inDag own
  subst eq
  cases tid' with
  | main j =>
      obtain ⟨d, made, -⟩ := Option.map_eq_some_iff.mp step
      exact ⟨s.setDag i d, Option.map_eq_some_iff.mpr ⟨d, made, rfl⟩, free⟩
  | finish j =>
      obtain ⟨d, made, -⟩ := Option.map_eq_some_iff.mp step
      exact ⟨s.setDag i d, Option.map_eq_some_iff.mpr ⟨d, made, rfl⟩, free⟩
  | node j p n =>
      obtain ⟨d, eff, made, -, -⟩ := exec_node_iff.mp step
      refine ⟨_, exec_node_iff.mpr ⟨d, eff, made, fun _ => free, rfl⟩, ?_⟩
      rcases nodeStep_move ((reached.inv i).code p n) made with ⟨instr, t, t', move, rfl⟩
      have suffix := (reached.inv i).code p n t move.before
      rw [move.code] at suffix
      obtain ⟨wait, release⟩ := prem_not_mem_of_sparse sparse n
      have mem := suffix.subset List.mem_cons_self
      cases instr
      case waitPrem => exact absurd mem wait
      case releasePrem => exact absurd mem release
      all_goals exact free

theorem run_of_alone_from {tids : List (Tid ι ν)} (reached : Reachable prog s)
    (sparse : ∀ i, (prog i).memType = .sparse) (free : s.premMutex = none)
    {t : ι → State PUnit ν}
    (runs : ∀ i, run (fun _ => prog i) (tids.filterMap (Tid.ofDag i)) (s.alone i) = some (t i)) :
    ∃ s', run prog tids s = some s' ∧ ∀ i, s'.alone i = t i := by
  induction tids generalizing s with
  | nil => exact ⟨s, rfl, fun i => Option.some.inj (runs i)⟩
  | cons tid tids ih =>
      obtain ⟨tid', own⟩ := ofDag_self tid
      have first := runs tid.dag
      rw [List.filterMap_cons_some own] at first
      obtain ⟨t', step', -⟩ := run_cons.mp first
      obtain ⟨mid, step, free'⟩ := exec_of_alone reached (sparse _) free own step'
      have rest : ∀ i, run (fun _ => prog i) (tids.filterMap (Tid.ofDag i)) (mid.alone i) =
          some (t i) := by
        intro i
        have here := runs i
        by_cases self : tid.dag = i
        · subst self
          rw [List.filterMap_cons_some own] at here
          obtain ⟨u, made, ran⟩ := run_cons.mp here
          cases made.symm.trans (exec_alone own step)
          exact ran
        · have hidden := ofDag_of_ne self
          rw [List.filterMap_cons_none hidden] at here
          rwa [alone_of_other reached hidden step]
      obtain ⟨s', ran, ends⟩ := ih (reached.tail ⟨tid, step⟩) free' rest
      exact ⟨s', run_cons.mpr ⟨mid, step, ran⟩, ends⟩

/-- **Independence.** Where no DAG is a PREM one, a sequence of steps is a run of the program if and
only if for each DAG the steps of its threads are a run of the program with this DAG only; and the
DAG is then in the state that this run leaves it in. -/
theorem sparse_dags_independent {tids : List (Tid ι ν)} (sparse : ∀ i, (prog i).memType = .sparse)
    (t : ι → State PUnit ν) :
    (∃ s, run prog tids (.init prog) = some s ∧ ∀ i, s.alone i = t i) ↔
      ∀ i, run (fun _ => prog i) (tids.filterMap (Tid.ofDag i)) (.init fun _ => prog i) =
        some (t i) := by
  refine ⟨?_, fun runs => run_of_alone_from .refl sparse rfl runs⟩
  intro given
  rcases given with ⟨s, ran, ends⟩
  intro i
  rw [← ends i]
  exact run_alone .refl ran i

/-- A SPARSE DAG twice. -/
def twinProgram : Bool → Dag Bool := fun _ => sparseProgram ()

/-- The nodes of a SPARSE DAG in turn, then the rest of the period. -/
def sparsePeriod : List (Tid Unit Bool) :=
  List.replicate 9 (.main ()) ++ List.replicate 9 (.node () 0 false) ++
    List.replicate 9 (.node () 0 true) ++ .finish () :: List.replicate 7 (.main ())

/-- Each step of a period, made by both DAGs. -/
def twinSchedule : List (Tid Bool Bool) :=
  sparsePeriod.flatMap fun tid =>
    match tid with
    | .main _ => [.main false, .main true]
    | .finish _ => [.finish true, .finish false]
    | .node _ p n => [.node false p n, .node true p n]

theorem sparse_dags_independent_twin : ∃ s,
    run twinProgram twinSchedule (.init twinProgram) = some s ∧ ∀ i, (s.dags i).period = 1 := by
  have single : (run sparseProgram sparsePeriod (.init sparseProgram)).map
      (fun s => (s.dags ()).period) = some 1 := by decide
  obtain ⟨t, made, period⟩ := Option.map_eq_some_iff.mp single
  have runs : ∀ i, run (fun _ => twinProgram i) (twinSchedule.filterMap (Tid.ofDag i))
      (.init fun _ => twinProgram i) = some t := by
    intro i
    cases i
    · exact made
    · exact made
  obtain ⟨s, ran, ends⟩ := (sparse_dags_independent (fun _ => rfl) fun _ => t).mpr runs
  refine ⟨s, ran, fun i => ?_⟩
  rw [← period, ← ends i]
  rfl

end Hipert.Gen
