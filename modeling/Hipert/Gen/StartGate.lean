import Hipert.Gen.Progress

/-!
# The start gate

`create_dependency` leaves `lock_start` taken and `start` releases it after the threads have been
created, but a thread only tries that lock and goes on either way. A node with incoming edges still
waits for its sources, so what passes the gate early is a node without incoming edges: if none of
them begins to compute before `start`, no node does (`GateHolds.step`), and as soon as the DAG has one,
some interleaving lets it (`exists_early_start`).
-/

namespace Hipert.Gen

universe u

variable {ν : Type u} [DecidableEq ν] {dag : Dag ν} {d d' : DagState ν} {p : ℕ} {n : ν}

/-- The code of the task after `start`. -/
def afterStart (dag : Dag ν) : List (MainInstr ν) :=
  [.createFinish, .joinFinish, .releaseStart] ++
    (dag.node.map .threadJoin ++ dag.edge.map .destroyDependency ++ [.destroyStart, .waitForPeriod])

/-- The task has executed `start` in period `p`. -/
def DagState.StartExecuted (dag : Dag ν) (d : DagState ν) (p : ℕ) : Prop :=
  p < d.period ∨ p = d.period ∧ d.main <:+ afterStart dag

/-- Every thread that has begun to compute did so after `start` in its period. -/
def GateHolds (dag : Dag ν) (d : DagState ν) : Prop :=
  ∀ p n t, d.thread p n = some t → t.Started → d.StartExecuted dag p

/-- Every node of the DAG has an incoming edge. -/
def Dag.NoSource (dag : Dag ν) : Prop := ∀ n ∈ dag.node, ∃ e ∈ dag.edge, e.trg = n

/-- The thread of a node without incoming edges is about to begin its compute function, and `start`
has not been executed in its period. -/
def EarlySource (dag : Dag ν) (d : DagState ν) (p : ℕ) (n : ν) : Prop :=
  (∀ e ∈ dag.edge, e.trg ≠ n) ∧ ¬ d.StartExecuted dag p ∧
    ∃ t rest, d.thread p n = some t ∧ t.code = .beginCompute :: rest

/-! ## Steps -/

omit [DecidableEq ν] in
theorem periodCode_eq_start (dag : Dag ν) :
    periodCode dag = dag.node.map .threadCreate ++ .releaseStart :: afterStart dag := by
  simp [periodCode, afterStart]

theorem beginCompute_mem_nodeCode : .beginCompute ∈ nodeCode dag n := by
  simp [nodeCode, computeCode]

/-- A compute function is begun once. -/
theorem beginCompute_not_mem_rest :
    .beginCompute ∉ chunkCode dag n ++ .endCompute :: releaseCode dag n := by
  intro mem
  simp only [List.mem_append, List.mem_cons] at mem
  rcases mem with chunk | same | release
  · exact (isCompute_of_mem_chunkCode chunk).2.2 rfl
  · cases same
  · simp [releaseCode] at release

/-- A thread that has completed its compute function has begun it. -/
theorem Thread.Computed.started {t : Thread ν} (suffix : t.code <:+ nodeCode dag n)
    (computed : t.Computed) : t.Started := by
  intro mem
  rw [nodeCode_eq_chunks] at suffix
  have later := (post_suffix_of_mem suffix mem beginCompute_not_mem_rest).subset
  exact computed (later (by simp))

theorem DagState.StartExecuted.mainMove {instr : MainInstr ν} (move : MainMove dag d d' instr)
    (executed : d.StartExecuted dag p) : d'.StartExecuted dag p := by
  rcases executed with earlier | ⟨rfl, suffix⟩
  · exact Or.inl (move.period ▸ earlier)
  · rw [move.code] at suffix
    exact Or.inr ⟨move.period.symm, suffix_of_cons_suffix suffix⟩

theorem GateHolds.mainStep (gate : GateHolds dag d)
    (step : mainStep dag d = some d') : GateHolds dag d' := by
  rcases mainStep_move step with ⟨rest, -, rfl⟩ | ⟨instr, -, move⟩
  · intro p n t thread started
    rcases gate p n t thread started with earlier | ⟨rfl, -⟩
    · exact Or.inl (Nat.lt_succ_of_lt earlier)
    · exact Or.inl (Nat.lt_succ_self _)
  · intro p n t thread started
    have before : d.thread p n = some t := by
      rw [move.thread] at thread
      cases instr
      case threadCreate m =>
        rcases DagState.setThread_cases thread with ⟨-, -, rfl⟩ | ⟨-, here⟩
        · exact absurd beginCompute_mem_nodeCode started
        · exact here
      all_goals exact thread
    exact (gate p n t before started).mainMove move

/-- A thread passes the gate early only if its node has no incoming edge. -/
theorem GateHolds.nodeMove (inv : Inv dag d) (gate : GateHolds dag d) {instr : NodeInstr ν}
    {t t' : Thread ν} (move : NodeMove d d' p n instr t t') (late : ¬ EarlySource dag d p n) :
    GateHolds dag d' := by
  have same : ∀ q, d.StartExecuted dag q → d'.StartExecuted dag q := by
    intro q executed
    unfold DagState.StartExecuted
    rw [move.period, move.main]
    exact executed
  intro q m u thread started
  rw [move.after] at thread
  rcases DagState.setThread_cases thread with ⟨rfl, rfl, rfl⟩ | ⟨-, here⟩
  · apply same
    by_cases begins : instr = .beginCompute
    · subst begins
      have current := inv.period_eq move.before move.running
      subst current
      have suffix := inv.code _ _ t move.before
      by_contra early
      -- some edge leads to the node, and its source has computed
      have target : ∃ e ∈ dag.edge, e.trg = m := by
        by_contra none
        push Not at none
        exact late ⟨none, early, t, _, move.before, move.code⟩
      rcases target with ⟨e, mem, rfl⟩
      have passed : .waitDependency e ∉ t.code := by
        rw [move.code] at suffix ⊢
        exact wait_not_mem_of_compute suffix rfl
      obtain ⟨v, source, computed⟩ := inv.passed e mem t move.before passed
      have begun := Thread.Computed.started (inv.code _ _ v source) computed
      exact early (gate _ _ v source begun)
    · apply gate _ _ t move.before
      unfold Thread.Started
      rw [move.code, List.mem_cons, not_or]
      exact ⟨fun equal => begins equal.symm, started⟩
  · exact same q (gate q m u here started)

/-- **Step lemma.** A step that lets no node without incoming edges begin early keeps the gate. -/
theorem GateHolds.step (inv : Inv dag d) (gate : GateHolds dag d)
    (step : Gen.mainStep dag d = some d' ∨ finishStep dag d = some d' ∨
      ∃ p n eff, nodeStep d p n = some (d', eff) ∧ ¬ EarlySource dag d p n) : GateHolds dag d' := by
  rcases step with made | made | ⟨p, n, eff, made, late⟩
  · exact gate.mainStep made
  · obtain ⟨-, equal⟩ := finishStep_move made
    rw [equal]
    exact gate
  · obtain ⟨instr, t, t', move, -⟩ := nodeStep_move (inv.code p n) made
    exact gate.nodeMove inv move late

/-! ## Runs of the task alone -/

/-- The task runs from one state to another. -/
def MainRun (dag : Dag ν) : DagState ν → DagState ν → Prop :=
  Relation.ReflTransGen fun d d' => mainStep dag d = some d'

theorem MainRun.head {d₁ : DagState ν} (step : mainStep dag d = some d₁)
    (run : MainRun dag d₁ d') : MainRun dag d d' :=
  Relation.ReflTransGen.head step run

/-- `create_dependency` takes every lock it has just made free. -/
theorem exists_run_edges {rest : List (MainInstr ν)} :
    ∀ (es : List (Edge ν)) (d : DagState ν),
      d.main = (es.flatMap fun e => [.initDependency e, .waitDependency e]) ++ rest →
      ∃ d', MainRun dag d d' ∧ d'.main = rest ∧ d'.thread = d.thread ∧ d'.period = d.period
  | [], d, code => ⟨d, .refl, code, rfl, rfl⟩
  | e :: es, d, code => by
      let d₁ : DagState ν := { d.setLock e .free with main := .waitDependency e ::
        ((es.flatMap fun e => [.initDependency e, .waitDependency e]) ++ rest) }
      let d₂ : DagState ν := { d₁.setLock e .taken with main :=
        (es.flatMap fun e => [.initDependency e, .waitDependency e]) ++ rest }
      have init : mainStep dag d = some d₁ := by
        unfold Gen.mainStep
        rw [code]
        rfl
      have free : d₁.lock e = .free := by
        change Function.update d.lock e Lock.free e = .free
        exact Function.update_self e Lock.free d.lock
      have wait : mainStep dag d₁ = some d₂ := if_pos free
      obtain ⟨d', run, main, thread, period⟩ := exists_run_edges es d₂ rfl
      exact ⟨d', .head init (.head wait run), main, thread, period⟩

/-- The task creates the threads of its nodes. -/
theorem exists_run_creates {rest : List (MainInstr ν)} :
    ∀ (ns : List ν) (d : DagState ν), d.main = ns.map .threadCreate ++ rest →
      ∃ d', MainRun dag d d' ∧ d'.main = rest ∧ d'.period = d.period ∧
        ∀ m, d'.thread d.period m =
          if m ∈ ns then some ⟨nodeCode dag m, 0⟩ else d.thread d.period m
  | [], d, code => ⟨d, .refl, code, rfl, fun m => by simp⟩
  | n :: ns, d, code => by
      let d₁ : DagState ν := { d.setThread d.period n ⟨nodeCode dag n, 0⟩ with
        main := ns.map .threadCreate ++ rest }
      have create : mainStep dag d = some d₁ := by
        unfold Gen.mainStep
        rw [code]
        rfl
      obtain ⟨d', run, main, period, threads⟩ := exists_run_creates ns d₁ rfl
      refine ⟨d', .head create run, main, period, fun m => ?_⟩
      have first : d₁.thread d.period m =
          if m = n then some ⟨nodeCode dag n, 0⟩ else d.thread d.period m := by
        by_cases self : m = n
        · rw [if_pos self, self]
          exact d.setThread_self _ _ _
        · rw [if_neg self]
          exact d.setThread_ne _ (fun same => self same.2)
      have rest_threads := threads m
      change d'.thread d.period m = if m ∈ ns then some ⟨nodeCode dag m, 0⟩
        else d₁.thread d.period m at rest_threads
      rw [rest_threads, first]
      by_cases later : m ∈ ns
      · rw [if_pos later, if_pos (List.mem_cons_of_mem n later)]
      · by_cases self : m = n
        · subst self
          rw [if_neg later, if_pos rfl, if_pos List.mem_cons_self]
        · rw [if_neg later, if_neg self, if_neg (by simp [self, later])]

/-- The task gets to `start` with all threads of its first period created and not yet run. -/
theorem exists_run_to_start (dag : Dag ν) :
    ∃ d', MainRun dag (.init dag) d' ∧ d'.main = .releaseStart :: afterStart dag ∧
      d'.period = 0 ∧ ∀ n ∈ dag.node, d'.thread 0 n = some ⟨nodeCode dag n, 0⟩ := by
  let d₁ : DagState ν := { DagState.init dag with
    main := createDependency dag ++ periodCode dag
    condition := 0 }
  have reset : mainStep dag (.init dag) = some d₁ := rfl
  have code : d₁.main = (dag.edge.flatMap fun e => [.initDependency e, .waitDependency e]) ++
      (.initStart :: .waitStart :: periodCode dag) := by
    simp [d₁, createDependency]
  obtain ⟨d₂, edges, main₂, -, period₂⟩ := exists_run_edges dag.edge d₁ code

  let d₃ : DagState ν := { d₂ with main := .waitStart :: periodCode dag, lockStart := .free }
  let d₄ : DagState ν := { d₃ with main := periodCode dag, lockStart := .taken }
  have init : mainStep dag d₂ = some d₃ := by
    unfold Gen.mainStep
    rw [main₂]
  have wait : mainStep dag d₃ = some d₄ := rfl
  obtain ⟨d', creates, main, period, threads⟩ :=
    exists_run_creates dag.node d₄ (periodCode_eq_start dag)
  have now : d₄.period = 0 := period₂
  refine ⟨d', .head reset (edges.trans (.head init (.head wait creates))), main,
    period.trans now, fun n node => ?_⟩
  have here := threads n
  rw [now, if_pos node] at here
  exact here

section Program

variable {ι : Type u} [DecidableEq ι] {prog : ι → Dag ν} {s s' : State ι ν} {i : ι}

/-- What the task of a DAG can do alone the program can. -/
theorem Reachable.mainRun (reached : Reachable prog s) (run : MainRun (prog i) (s.dags i) d') :
    ∃ s', Reachable prog s' ∧ s'.dags i = d' := by
  induction run with
  | refl => exact ⟨s, reached, rfl⟩
  | tail _ step ih =>
      rcases ih with ⟨s₁, reached₁, rfl⟩
      refine ⟨s₁.setDag i _, reached₁.tail ⟨.main i, ?_⟩, Function.update_self i _ _⟩
      exact congrArg (Option.map (s₁.setDag i)) step

/-- A step of a node that does not touch `premMutex`. -/
theorem Reachable.nodeStep (reached : Reachable prog s)
    (step : nodeStep (s.dags i) p n = some (d', .keep)) :
    ∃ s', Reachable prog s' ∧ s'.dags i = d' := by
  refine ⟨s.setDag i d', reached.tail ⟨.node i p n, ?_⟩, Function.update_self i _ _⟩
  unfold exec
  dsimp only
  rw [step]

/-- **An early start.** A node without incoming edges can begin to compute while the task is still
before `start`. -/
theorem exists_early_start (node : n ∈ (prog i).node) (source : ∀ e ∈ (prog i).edge, e.trg ≠ n) :
    ∃ s, Reachable prog s ∧ ¬ GateHolds (prog i) (s.dags i) := by
  obtain ⟨d₀, run, main, period, threads⟩ := exists_run_to_start (prog i)
  have initial : Reachable prog _ := .refl
  rcases initial.mainRun (i := i) run with ⟨s₀, reached₀, rfl⟩

  -- the thread has nothing to wait for between its `trylock` and its compute function
  have free : (prog i).incoming n = [] := by
    unfold Dag.incoming
    rw [List.filter_eq_nil_iff]
    intro e mem
    simpa using source e mem
  have code : nodeCode (prog i) n = .trylockStart :: computeCode (prog i) n := by
    rw [nodeCode, free]
    rfl
  have thread := threads n node
  rw [code] at thread
  have trylock : Gen.nodeStep (s₀.dags i) 0 n =
      some ({ (s₀.dags i).setThread 0 n ⟨computeCode (prog i) n, 0⟩ with lockStart := .taken },
        .keep) := by
    unfold Gen.nodeStep
    rw [thread]
  obtain ⟨s₁, reached₁, state₁⟩ := reached₀.nodeStep trylock
  have thread₁ : (s₁.dags i).thread 0 n = some ⟨computeCode (prog i) n, 0⟩ := by
    rw [state₁]
    exact DagState.setThread_self _ _ _ _
  have begin_compute : Gen.nodeStep (s₁.dags i) 0 n =
      some ((s₁.dags i).setThread 0 n
        ⟨chunkCode (prog i) n ++ .endCompute :: releaseCode (prog i) n, 0⟩, .keep) := by
    unfold Gen.nodeStep
    rw [thread₁]
    rfl
  obtain ⟨s₂, reached₂, state₂⟩ := reached₁.nodeStep begin_compute

  refine ⟨s₂, reached₂, fun gate => ?_⟩
  have thread₂ : (s₂.dags i).thread 0 n =
      some ⟨chunkCode (prog i) n ++ .endCompute :: releaseCode (prog i) n, 0⟩ := by
    rw [state₂]
    exact DagState.setThread_self _ _ _ _
  have main₂ : (s₂.dags i).main = .releaseStart :: afterStart (prog i) := by
    rw [state₂]
    change (s₁.dags i).main = _
    rw [state₁]
    exact main
  have period₂ : (s₂.dags i).period = 0 := by
    rw [state₂]
    change (s₁.dags i).period = _
    rw [state₁]
    exact period
  rcases gate 0 n _ thread₂ beginCompute_not_mem_rest with earlier | ⟨-, suffix⟩
  · rw [period₂] at earlier
    exact absurd earlier (lt_irrefl 0)
  · rw [main₂] at suffix
    have longer := suffix.length_le
    rw [List.length_cons] at longer
    omega

/-- The step lets no node without incoming edges of DAG `i` begin before `start`. -/
def OrderedStep (prog : ι → Dag ν) (i : ι) (s s' : State ι ν) : Prop :=
  ∃ tid, exec prog tid s = some s' ∧
    ∀ p n, tid = .node i p n → ¬ EarlySource (prog i) (s.dags i) p n

theorem OrderedStep.step (step : OrderedStep prog i s s') : Step prog s s' := by
  obtain ⟨tid, made, -⟩ := step
  exact ⟨tid, made⟩

/-- **Run lemma.** Runs without early starts of such nodes keep the gate of the DAG. -/
theorem gateHolds_of_ordered (run : Relation.ReflTransGen (OrderedStep prog i) (.init prog) s) :
    GateHolds (prog i) (s.dags i) := by
  induction run with
  | refl => exact fun _ _ _ thread => nomatch thread
  | tail before step ih =>
      have reached : Reachable prog _ :=
        Relation.ReflTransGen.mono (fun _ _ => OrderedStep.step) _ _ before
      have inv := reached.inv i
      obtain ⟨tid, made, late⟩ := step
      obtain ⟨j, d, equal, moved⟩ := exec_dag made
      rw [equal]
      by_cases self : i = j
      · subst self
        rw [Function.update_self]
        apply ih.step inv
        rcases moved with main | finish | ⟨p, n, eff, node, moved⟩
        · exact Or.inl main
        · exact Or.inr (Or.inl finish)
        · exact Or.inr (Or.inr ⟨p, n, eff, moved, late p n node⟩)
      · rw [Function.update_of_ne self]
        exact ih

/-- **The start gate.** It holds in every run in which no node without incoming edges begins before
`start`, and it holds in all runs exactly when every node of the DAG has an incoming edge. -/
theorem start_gate_iff (prog : ι → Dag ν) (i : ι) :
    (∀ s, Relation.ReflTransGen (OrderedStep prog i) (.init prog) s →
      GateHolds (prog i) (s.dags i)) ∧
    ((∀ s, Reachable prog s → GateHolds (prog i) (s.dags i)) ↔ (prog i).NoSource) := by
  refine ⟨fun s => gateHolds_of_ordered, fun gate n node => ?_, fun targets s reached => ?_⟩
  · by_contra none
    push Not at none
    obtain ⟨s, reached, early⟩ := exists_early_start node none
    exact early (gate s reached)
  · apply gateHolds_of_ordered
    induction reached with
    | refl => exact .refl
    | tail before step ih =>
        obtain ⟨tid, made⟩ := step
        refine ih.tail ⟨tid, made, fun p n _ early => ?_⟩
        obtain ⟨none, -, t, rest, thread, -⟩ := early
        have inv := Reachable.inv (before : Reachable prog _) i
        obtain ⟨e, mem, target⟩ := targets n (inv.node p n t thread)
        exact none e mem target

/-- The first node of the chain computes while the task is still before `start`. -/
theorem start_gate_open : ∃ s, Reachable chainProgram s ∧
    ¬ GateHolds (chainProgram ()) (s.dags ()) :=
  exists_early_start (n := false) (by decide) (by decide)

end Program

end Hipert.Gen
