import Mathlib.Order.WellFounded
import Mathlib.Data.Set.Finite.Basic
import Hipert.Gen.Safety

/-!
# Progress

In an acyclic graph some node that has not exited has no predecessor left to wait for; what it waits
for is then free (`Live`), or it waits for `premMutex`, whose holder has only its `memcpy` to do
(`Holding`). In a cyclic graph every node on a cycle or behind one waits for another such node, and
that never changes (`Reachable.waits`).
-/

namespace Hipert.Gen

universe u

variable {ν : Type u} [DecidableEq ν] {dag : Dag ν} {d d' : DagState ν} {p : ℕ} {n : ν}

/-! ## Graphs -/

/-- The edges are distinct and join nodes of the DAG. -/
structure Dag.IsGraph (dag : Dag ν) : Prop where
  distinct : dag.edge.Nodup
  ends : ∀ e ∈ dag.edge, e.src ∈ dag.node ∧ e.trg ∈ dag.node

/-- There is an edge from `a` to `b`. -/
def Dag.Adj (dag : Dag ν) (a b : ν) : Prop := ∃ e ∈ dag.edge, e.src = a ∧ e.trg = b

/-- No node reaches itself. -/
def Dag.Acyclic (dag : Dag ν) : Prop := ∀ n, ¬ Relation.TransGen dag.Adj n n

/-- The node lies on a cycle or is reachable from one. -/
def Dag.Cyclic (dag : Dag ν) (n : ν) : Prop :=
  ∃ m, Relation.TransGen dag.Adj m m ∧ Relation.ReflTransGen dag.Adj m n

omit [DecidableEq ν] in
/-- Any non-empty set of nodes of an acyclic graph has one without predecessors in the set. -/
theorem Dag.Acyclic.exists_first (acyclic : dag.Acyclic) {P : ν → Prop}
    (nonempty : ∃ n ∈ dag.node, P n) :
    ∃ n ∈ dag.node, P n ∧ ∀ m ∈ dag.node, P m → ¬ dag.Adj m n := by
  have : Finite {n // n ∈ dag.node} :=
    (List.finite_toSet dag.node).to_subtype
  let before : {n // n ∈ dag.node} → {n // n ∈ dag.node} → Prop :=
    fun a b => Relation.TransGen dag.Adj a.1 b.1
  have : IsTrans _ before := ⟨fun _ _ _ => Relation.TransGen.trans⟩
  have : Std.Irrefl before := ⟨fun a => acyclic a.1⟩
  obtain ⟨n, node, holds⟩ := nonempty
  obtain ⟨first, here, least⟩ := (Finite.wellFounded_of_trans_of_irrefl before).has_min
    {a | P a.1} ⟨⟨n, node⟩, holds⟩
  exact ⟨first.1, first.2, here, fun m node holds adj =>
    least ⟨m, node⟩ holds (Relation.TransGen.single adj)⟩

omit [DecidableEq ν] in
/-- A node on a cycle or behind one has a predecessor of the same kind. -/
theorem Dag.Cyclic.exists_edge (cyclic : dag.Cyclic n) :
    ∃ e ∈ dag.edge, e.trg = n ∧ dag.Cyclic e.src := by
  obtain ⟨m, cycle, path⟩ := cyclic
  have last : ∃ c, Relation.ReflTransGen dag.Adj m c ∧ dag.Adj c n := by
    rcases Relation.ReflTransGen.cases_tail path with rfl | ⟨c, path, adj⟩
    · exact Relation.TransGen.tail'_iff.mp cycle
    · exact ⟨c, path, adj⟩
  rcases last with ⟨c, path, e, mem, rfl, target⟩
  exact ⟨e, mem, target, m, cycle, path⟩

/-! ## Free locks -/

/-- A lock that someone will have to take is free: a dependency whose source has released it and
whose target has not taken it, and the locks that `create_dependency` is about to take. -/
structure Live (dag : Dag ν) (d : DagState ν) : Prop where
  released : ∀ e ∈ dag.edge, ∀ u, d.thread d.period e.src = some u →
    .releaseDependency e ∉ u.code →
    (∀ t, d.thread d.period e.trg = some t → .waitDependency e ∈ t.code) → d.lock e = .free
  waiting : ∀ e rest, d.main = .waitDependency e :: rest → d.lock e = .free
  waitingStart : ∀ rest, d.main = .waitStart :: rest → d.lockStart = .free

theorem Live.init (dag : Dag ν) : Live dag (.init dag) where
  released _ _ _ h := nomatch h
  waiting _ _ h := nomatch h
  waitingStart _ h := nomatch h

theorem Live.nodeMove (distinct : dag.edge.Nodup) (inv : Inv dag d) (live : Live dag d)
    {instr : NodeInstr ν} {t t' : Thread ν} (move : NodeMove d d' p n instr t t') :
    Live dag d' := by
  have suffix := inv.code p n t move.before
  rw [move.code] at suffix
  cases inv.period_eq move.before move.running
  refine ⟨fun e mem u source released target => ?_, fun e rest main => ?_, fun rest main => ?_⟩
  · rw [move.after, move.period] at source target
    rw [move.lock]
    -- before the step the target still waited, and the source had released unless this releases
    have waits : ∀ u, d.thread d.period e.trg = some u → .waitDependency e ∈ u.code := by
      intro u here
      by_cases self : e.trg = n
      · rw [self, move.before] at here
        cases here
        rw [move.code]
        exact List.mem_cons_of_mem _ (target t' (self ▸ d.setThread_self _ _ _))
      · exact target u (by rwa [d.setThread_ne _ (fun same => self same.2)])
    have rest : instr ≠ .releaseDependency e → d.lock e = .free := by
      intro other
      rcases DagState.setThread_cases source with ⟨-, self, rfl⟩ | ⟨-, here⟩
      · refine live.released e mem t (self ▸ move.before) ?_ waits
        rw [move.code, List.mem_cons, not_or]
        exact ⟨other.symm, released⟩
      · exact live.released e mem u here released waits
    cases instr
    case waitDependency e' =>
      by_cases same : e = e'
      · subst same
        have self := (wait_mem_nodeCode.mp (suffix.subset List.mem_cons_self)).2
        exact absurd (target t' (self ▸ d.setThread_self _ _ _))
          (wait_not_mem_of_wait distinct suffix)
      · rw [NodeInstr.onLock, Function.update_of_ne same]
        exact rest (by simp)
    case releaseDependency e' =>
      by_cases same : e = e'
      · rw [NodeInstr.onLock, same, Function.update_self]
      · rw [NodeInstr.onLock, Function.update_of_ne same]
        exact rest (fun h => same (by cases h; rfl))
    all_goals exact rest (by simp)
  · have mem : .waitDependency e ∈ d.main := by
      rw [← move.main, main]
      exact List.mem_cons_self
    exact absurd (inv.mem_periodCode move.before mem) wait_not_mem_periodCode
  · have mem : .waitStart ∈ d.main := by
      rw [← move.main, main]
      exact List.mem_cons_self
    exact absurd (inv.mem_periodCode move.before mem) waitStart_not_mem_periodCode

theorem Live.mainMove (inv : Inv dag d) (live : Live dag d) {instr : MainInstr ν}
    (move : MainMove dag d d' instr) : Live dag d' := by
  have suffix := inv.main
  rw [move.code] at suffix
  refine ⟨fun e mem u source released target => ?_, fun e rest main => ?_, fun rest main => ?_⟩
  · have before : d.thread d.period e.src = some u := by
      have thread := move.thread
      cases instr
      case threadCreate m =>
        rw [thread, move.period] at source
        rcases DagState.setThread_cases source with ⟨-, self, rfl⟩ | ⟨-, here⟩
        · exact absurd (release_mem_nodeCode.mpr ⟨mem, self⟩) released
        · exact here
      all_goals rwa [thread, move.period] at source
    have free := live.released e mem u before released fun t here =>
      target t (move.period ▸ inv.thread_main move here)
    rw [move.lock]
    cases instr
    case initDependency e' =>
      by_cases same : e = e'
      · rw [MainInstr.onLock, same, Function.update_self]
      · rwa [MainInstr.onLock, Function.update_of_ne same]
    case waitDependency e' =>
      by_cases same : e = e'
      · subst same
        exact absurd (move.code ▸ List.mem_cons_self) (inv.wait_not_mem before)
      · rwa [MainInstr.onLock, Function.update_of_ne same]
    all_goals exact free
  · rw [main] at suffix
    cases init_of_wait suffix
    rw [move.lock, MainInstr.onLock, Function.update_self]
  · rw [main] at suffix
    cases initStart_of_waitStart suffix
    exact move.lockStart

theorem Live.step (distinct : dag.edge.Nodup) (inv : Inv dag d) (live : Live dag d)
    (step : DagStep dag d d') : Live dag d' := by
  rcases step with made | made | ⟨p, n, eff, made⟩
  · rcases mainStep_move made with ⟨rest, -, rfl⟩ | ⟨instr, -, move⟩
    · refine ⟨fun e _ u source => ?_, (fun _ _ h => nomatch h), (fun _ h => nomatch h)⟩
      rw [inv.later _ _ (Nat.lt_succ_self _)] at source
      cases source
    · exact live.mainMove inv move
  · obtain ⟨-, eq⟩ := finishStep_move made
    rw [eq]
    exact ⟨live.released, live.waiting, live.waitingStart⟩
  · obtain ⟨instr, t, t', move, -⟩ := nodeStep_move (inv.code p n) made
    exact live.nodeMove distinct inv move

/-- Until the last thread has been created the task is not blocked. -/
theorem Live.mainStep (inv : Inv dag d) (live : Live dag d) (create : .threadCreate n ∈ d.main) :
    ∃ d', mainStep dag d = some d' := by
  have suffix := inv.main
  unfold Gen.mainStep
  cases code : d.main with
  | nil =>
      rw [code] at create
      cases create
  | cons instr rest =>
      rw [code] at suffix create
      cases instr
      case waitDependency e => exact ⟨_, if_pos (live.waiting e rest code)⟩
      case waitStart => exact ⟨_, if_pos (live.waitingStart rest code)⟩
      case joinFinish =>
        have later := (List.mem_cons.mp create).resolve_left (fun h => nomatch h)
        exact absurd later (create_not_mem_of_join suffix (Or.inl rfl))
      case threadJoin m =>
        have later := (List.mem_cons.mp create).resolve_left (fun h => nomatch h)
        exact absurd later (create_not_mem_of_join suffix (Or.inr ⟨m, rfl⟩))
      all_goals exact ⟨_, rfl⟩

/-! ## Nodes that wait for ever -/

/-- Every thread waits for its predecessors on a cycle or behind one. -/
def Starved (dag : Dag ν) (d : DagState ν) : Prop :=
  ∀ e ∈ dag.edge, dag.Cyclic e.src → ∀ p t, d.thread p e.trg = some t → .waitDependency e ∈ t.code

theorem Starved.not_computed (inv : Inv dag d) (starved : Starved dag d) (cyclic : dag.Cyclic n) :
    ¬ d.Computed n := by
  intro given
  rcases given with ⟨t, thread, computed⟩
  rcases cyclic.exists_edge with ⟨e, mem, rfl, cyclic'⟩
  have waits := starved e mem cyclic' _ t thread
  exact computed (compute_mem_of_wait (inv.code _ _ t thread) waits).2

theorem Starved.nodeMove (inv : Inv dag d) (starved : Starved dag d) {instr : NodeInstr ν}
    {t t' : Thread ν} (move : NodeMove d d' p n instr t t') : Starved dag d' := by
  intro e mem cyclic q u here
  rw [move.after] at here
  rcases DagState.setThread_cases here with ⟨-, self, rfl⟩ | ⟨-, here⟩
  · have waits := starved e mem cyclic p t (self ▸ move.before)
    rw [move.code] at waits
    refine (List.mem_cons.mp waits).resolve_left fun same => ?_
    -- the dependency would be free, so its source would have computed
    cases inv.period_eq move.before move.running
    rcases inv.locked e mem (move.enabled e same.symm) with waiting | done
    · exact inv.wait_not_mem move.before waiting
    · exact starved.not_computed inv cyclic done
  · exact starved e mem cyclic q u here

theorem Starved.step (inv : Inv dag d) (starved : Starved dag d) (step : DagStep dag d d') :
    Starved dag d' := by
  rcases step with made | made | ⟨p, n, eff, made⟩
  · rcases mainStep_move made with ⟨rest, -, rfl⟩ | ⟨instr, -, move⟩
    · exact starved
    · intro e mem cyclic q u here
      have thread := move.thread
      cases instr
      case threadCreate m =>
        rw [thread] at here
        rcases DagState.setThread_cases here with ⟨-, self, rfl⟩ | ⟨-, here⟩
        · exact wait_mem_nodeCode.mpr ⟨mem, self⟩
        · exact starved e mem cyclic q u here
      all_goals
        rw [thread] at here
        exact starved e mem cyclic q u here
  · obtain ⟨-, eq⟩ := finishStep_move made
    rw [eq]
    exact starved
  · obtain ⟨instr, t, t', move, -⟩ := nodeStep_move (inv.code p n) made
    exact starved.nodeMove inv move

/-! ## The holder of `premMutex` -/

section Program

variable {ι : Type u} [DecidableEq ι] {prog : ι → Dag ν} {s s' : State ι ν} {tid : Tid ι ν} {i : ι}

/-- The thread is at its `memcpy` or at the release after it. -/
def AtCopy (s : State ι ν) (tid : Tid ι ν) : Prop :=
  ∃ i p n t instr rest, tid = .node i p n ∧ (s.dags i).thread p n = some t ∧
    t.code = instr :: rest ∧ (instr = .memcpy ∨ instr = .releasePrem)

omit [DecidableEq ν] [DecidableEq ι] in
theorem AtCopy.of_thread (here : AtCopy s tid)
    (kept : ∀ i p n t, tid = .node i p n → (s.dags i).thread p n = some t →
      (s'.dags i).thread p n = some t) : AtCopy s' tid := by
  obtain ⟨i, p, n, t, instr, rest, eq, thread, code, copy⟩ := here
  exact ⟨i, p, n, t, instr, rest, eq, kept i p n t eq thread, code, copy⟩

/-- The step of one thread leaves the other threads of all DAGs alone. -/
theorem NodeMove.thread_other {d : DagState ν} {p q : ℕ} {n m : ν} {instr : NodeInstr ν}
    {t t' u : Thread ν} {j : ι} (move : NodeMove (s.dags i) d p n instr t t')
    (other : Tid.node j q m ≠ .node i p n) (here : (s.dags j).thread q m = some u) :
    (Function.update s.dags i d j).thread q m = some u := by
  by_cases self : j = i
  · subst self
    rw [Function.update_self, move.after, DagState.setThread_ne]
    · exact here
    · intro given
      rcases given with ⟨rfl, rfl⟩
      exact other rfl
  · rwa [Function.update_of_ne self]

theorem AtCopy.node (inv : ∀ i, Inv (prog i) (s.dags i))
    (ih : ∀ tid, s.premMutex = some tid → AtCopy s tid) {p : ℕ} {n : ν}
    (step : exec prog (.node i p n) s = some s') (held : s'.premMutex = some tid) :
    AtCopy s' tid := by
  unfold exec at step
  dsimp only at step
  cases made : nodeStep (s.dags i) p n with
  | none =>
      rw [made] at step
      cases step
  | some result =>
      rw [made] at step
      obtain ⟨d, eff⟩ := result
      rcases nodeStep_move ((inv i).code p n) made with ⟨instr, t, t', move, rfl⟩
      have suffix := (inv i).code p n t move.before
      rw [move.code] at suffix
      have mine : (Function.update s.dags i d i).thread p n = some t' := by
        rw [Function.update_self, move.after, DagState.setThread_self]
      cases instr
      case waitPrem =>
        dsimp only [NodeInstr.onPrem] at step
        split at step
        · cases step
          cases held
          obtain ⟨rest, code⟩ := (prem_next suffix).1 rfl
          exact ⟨i, p, n, t', _, rest, rfl, mine, code, Or.inl rfl⟩
        · cases step
      case releasePrem =>
        cases step
        cases held
      case memcpy =>
        cases step
        by_cases self : tid = .node i p n
        · obtain ⟨rest, code⟩ := (prem_next suffix).2 rfl
          exact ⟨i, p, n, t', _, rest, self, mine, code, Or.inr rfl⟩
        · refine (ih tid held).of_thread fun j q m u eq here => ?_
          exact move.thread_other (eq ▸ self) here
      all_goals
        cases step
        refine (ih tid held).of_thread fun j q m u eq here => move.thread_other ?_ here
        -- the holder is at another instruction
        rintro same
        obtain ⟨j', q', m', u', instr', rest', eq', here', code', copy⟩ := ih tid held
        cases eq.symm.trans eq'
        cases same
        cases here'.symm.trans move.before
        cases move.code.symm.trans code'
        rcases copy with copy | copy <;> cases copy

theorem Reachable.atCopy (reached : Reachable prog s) (held : s.premMutex = some tid) :
    AtCopy s tid := by
  induction reached generalizing tid with
  | refl => cases held
  | tail reached step ih =>
      rename_i s s'
      have inv := Reachable.inv reached
      obtain ⟨mover, step⟩ := step
      cases mover with
      | main i =>
          rcases Option.map_eq_some_iff.mp step with ⟨d, made, rfl⟩
          refine (ih held).of_thread fun j p n t _ here => ?_
          rw [State.setDag_dags]
          by_cases self : j = i
          · subst self
            rw [Function.update_self]
            rcases mainStep_move made with ⟨rest, -, rfl⟩ | ⟨instr, -, move⟩
            · exact here
            · exact (inv j).thread_main move here
          · rwa [Function.update_of_ne self]
      | finish i =>
          rcases Option.map_eq_some_iff.mp step with ⟨d, made, rfl⟩
          refine (ih held).of_thread fun j p n t _ here => ?_
          rw [State.setDag_dags]
          by_cases self : j = i
          · subst self
            rw [Function.update_self, (finishStep_move made).2]
            exact here
          · rwa [Function.update_of_ne self]
      | node i p n => exact AtCopy.node inv (fun _ => ih) step held

/-! ## Enabled steps -/

/-- The thread has a step. -/
def Enabled (prog : ι → Dag ν) (tid : Tid ι ν) (s : State ι ν) : Prop :=
  ∃ s', exec prog tid s = some s'

theorem enabled_node {t : Thread ν} {instr : NodeInstr ν} {rest : List (NodeInstr ν)}
    (here : (s.dags i).thread p n = some t) (code : t.code = instr :: rest)
    (free : ∀ e, instr = .waitDependency e → (s.dags i).lock e = .free)
    (prem : instr = .waitPrem → s.premMutex = none) : Enabled prog (.node i p n) s := by
  have made : ∃ d', nodeStep (s.dags i) p n = some (d', instr.onPrem) := by
    unfold nodeStep
    rw [here]
    obtain ⟨code, loaded⟩ := t
    cases code
    cases instr
    case waitDependency e => exact ⟨_, if_pos (free e rfl)⟩
    all_goals exact ⟨_, rfl⟩
  obtain ⟨d', made⟩ := made
  unfold Enabled exec
  dsimp only
  rw [made]
  cases instr
  case waitPrem => exact ⟨_, if_pos (prem rfl)⟩
  all_goals exact ⟨_, rfl⟩

theorem AtCopy.enabled (here : AtCopy s tid) : Enabled prog tid s := by
  rcases here with ⟨i, p, n, t, instr, rest, rfl, thread, code, copy⟩
  refine enabled_node thread code ?_ ?_
  · rintro e rfl
    rcases copy with copy | copy <;> cases copy
  · rintro rfl
    rcases copy with copy | copy <;> cases copy

theorem Reachable.live (reached : Reachable prog s) (distinct : (prog i).edge.Nodup) :
    Live (prog i) (s.dags i) :=
  (reached.invariant (fun d => Inv (prog i) d ∧ Live (prog i) d) ⟨Inv.init _, Live.init _⟩
    fun _ _ here step => ⟨here.1.step step, here.2.step distinct here.1 step⟩).2

theorem Reachable.starved (reached : Reachable prog s) : Starved (prog i) (s.dags i) :=
  (reached.invariant (fun d => Inv (prog i) d ∧ Starved (prog i) d)
    ⟨Inv.init _, fun _ _ _ _ _ h => nomatch h⟩
    fun _ _ here step => ⟨here.1.step step, here.2.step here.1 step⟩).2

/-! ## Deadlock freedom -/

/-- All node threads of the DAG's current period have been created. -/
def DagState.AllCreated (dag : Dag ν) (d : DagState ν) : Prop :=
  ∀ n ∈ dag.node, ∃ t, d.thread d.period n = some t

/-- The node's thread of the current period has been created and has not exited. -/
def DagState.Running (d : DagState ν) (n : ν) : Prop :=
  ∃ t, d.thread d.period n = some t ∧ ¬ t.Exited

/-- The thread has begun its compute function. -/
def Thread.Started (t : Thread ν) : Prop := .beginCompute ∉ t.code

/-- A node of the DAG, or else the holder of `premMutex`, has a step. -/
def NodeEnabled (prog : ι → Dag ν) (i : ι) (s : State ι ν) : Prop :=
  (∃ n ∈ (prog i).node, Enabled prog (.node i (s.dags i).period n) s) ∨
    ∃ tid, s.premMutex = some tid ∧ Enabled prog tid s

theorem Reachable.nodeEnabled (reached : Reachable prog s) (graph : (prog i).IsGraph)
    (acyclic : (prog i).Acyclic) (created : (s.dags i).AllCreated (prog i))
    (running : ∃ n ∈ (prog i).node, (s.dags i).Running n) : NodeEnabled prog i s := by
  have inv := reached.inv i
  obtain ⟨n, node, ⟨t, thread, unfinished⟩, first⟩ := acyclic.exists_first running
  obtain ⟨instr, rest, code⟩ := List.exists_cons_of_ne_nil unfinished
  have suffix := inv.code _ n t thread
  rw [code] at suffix
  -- all predecessors have exited, and so released
  have free : ∀ e, instr = .waitDependency e → (s.dags i).lock e = .free := by
    rintro e rfl
    rcases wait_mem_nodeCode.mp (suffix.subset List.mem_cons_self) with ⟨mem, rfl⟩
    have source := (graph.ends e mem).1
    obtain ⟨u, here⟩ := created e.src source
    have exited : u.code = [] := by
      by_contra running
      exact first e.src source ⟨u, here, running⟩ ⟨e, mem, rfl, rfl⟩
    refine (reached.live graph.distinct).released e mem u here (by simp [exited]) fun t' here' => ?_
    cases here'.symm.trans thread
    exact code ▸ List.mem_cons_self
  by_cases held : instr = .waitPrem ∧ s.premMutex ≠ none
  · obtain ⟨tid, holder⟩ := Option.ne_none_iff_exists'.mp held.2
    exact Or.inr ⟨tid, holder, (reached.atCopy holder).enabled⟩
  · refine Or.inl ⟨n, node, enabled_node thread code free fun wait => ?_⟩
    by_contra taken
    exact held ⟨wait, taken⟩

theorem Reachable.enabled_main (reached : Reachable prog s) (graph : (prog i).IsGraph)
    (uncreated : ¬ (s.dags i).AllCreated (prog i)) : Enabled prog (.main i) s := by
  have inv := reached.inv i
  obtain ⟨n, none⟩ := not_forall.mp uncreated
  obtain ⟨node, none⟩ := Classical.not_imp.mp none
  have create : .threadCreate n ∈ (s.dags i).main := by
    by_contra created
    exact none (inv.created n node created)
  obtain ⟨d', made⟩ := (reached.live graph.distinct).mainStep inv create
  exact ⟨_, Option.map_eq_some_iff.mpr ⟨d', made, rfl⟩⟩

/-- **Deadlock freedom is acyclicity.** Over an acyclic graph a node that has not exited leaves some
thread a step once all threads exist, so a run never stops before all nodes have computed; over any
graph no node on a cycle or behind one ever begins to compute. -/
theorem deadlock_freedom (reached : Reachable prog s) (graph : (prog i).IsGraph) :
    ((prog i).Acyclic →
      ((s.dags i).AllCreated (prog i) → (∃ n ∈ (prog i).node, (s.dags i).Running n) →
        NodeEnabled prog i s) ∧
      ((∃ n ∈ (prog i).node, ¬ (s.dags i).Computed n) →
        Enabled prog (.main i) s ∨ NodeEnabled prog i s)) ∧
    ∀ n, (prog i).Cyclic n → ∀ p t, (s.dags i).thread p n = some t → ¬ t.Started := by
  refine ⟨fun acyclic => ⟨reached.nodeEnabled graph acyclic, ?_⟩, ?_⟩
  · intro given
    rcases given with ⟨n, node, uncomputed⟩
    by_cases created : (s.dags i).AllCreated (prog i)
    · obtain ⟨t, thread⟩ := created n node
      refine Or.inr (reached.nodeEnabled graph acyclic created ⟨n, node, t, thread, ?_⟩)
      intro exited
      refine uncomputed ⟨t, thread, ?_⟩
      rw [Thread.Computed, exited]
      exact List.not_mem_nil
    · exact Or.inl (reached.enabled_main graph created)
  · intro n cyclic p t thread started
    rcases cyclic.exists_edge with ⟨e, mem, rfl, cyclic'⟩
    have waits := reached.starved e mem cyclic' p t thread
    exact started (compute_mem_of_wait ((reached.inv i).code p _ t thread) waits).1

/-- Two nodes, each with an edge to the other. -/
def ringProgram : Unit → Dag Bool := fun _ =>
  ⟨[false, true], [⟨false, true⟩, ⟨true, false⟩], .sparse, fun _ => 1, nodup_pair⟩

theorem chain_acyclic : (chainProgram ()).Acyclic := by
  have ends : ∀ a b, Relation.TransGen (chainProgram ()).Adj a b → a = false ∧ b = true := by
    intro a b path
    induction path with
    | single adj =>
        rcases adj with ⟨e, mem, rfl, rfl⟩
        cases List.mem_singleton.mp mem
        exact ⟨rfl, rfl⟩
    | tail _ adj ih =>
        rcases adj with ⟨e, mem, rfl, rfl⟩
        cases List.mem_singleton.mp mem
        exact ⟨ih.1, rfl⟩
  intro n cycle
  rcases ends n n cycle with ⟨rfl, eq⟩
  cases eq

theorem ring_cyclic (b : Bool) : (ringProgram ()).Cyclic b := by
  have adj : ∀ b, (ringProgram ()).Adj b (!b) := fun b => ⟨⟨b, !b⟩, by cases b <;> decide, rfl, rfl⟩
  have back : (ringProgram ()).Adj (!b) b := by simpa using adj (!b)
  exact ⟨b, .tail (.single (adj b)) back, .refl⟩

theorem deadlock_freedom_chain_ring :
    (∃ s, Reachable chainProgram s ∧ NodeEnabled chainProgram () s) ∧
      ∃ s, Reachable ringProgram s ∧ ∀ n, ∃ t, (s.dags ()).thread 0 n = some t ∧ ¬ t.Started := by
  refine ⟨?_, ?_⟩
  · have ran : (run chainProgram (List.replicate 7 (.main ())) (.init chainProgram)).map
        (fun s => ((s.dags ()).period, fun n => (s.dags ()).thread 0 n)) =
          some (0, fun n => some ⟨nodeCode (chainProgram ()) n, 0⟩) := by decide
    obtain ⟨s, made, eq⟩ := Option.map_eq_some_iff.mp ran
    have reached := Reachable.run Relation.ReflTransGen.refl made
    have created : ∀ n, (s.dags ()).thread (s.dags ()).period n =
        some ⟨nodeCode (chainProgram ()) n, 0⟩ := by
      intro n
      rw [(Prod.mk.inj eq).1]
      exact congrFun (Prod.mk.inj eq).2 n
    exact ⟨s, reached, ((deadlock_freedom reached ⟨by decide, by decide⟩).1 chain_acyclic).1
      (fun n _ => ⟨_, created n⟩) ⟨false, by decide, _, created false, List.cons_ne_nil _ _⟩⟩
  · have ran : (run ringProgram (List.replicate 9 (.main ())) (.init ringProgram)).map
        (fun s => fun n => (s.dags ()).thread 0 n) =
          some (fun n => some ⟨nodeCode (ringProgram ()) n, 0⟩) := by decide
    obtain ⟨s, made, eq⟩ := Option.map_eq_some_iff.mp ran
    have reached := Reachable.run Relation.ReflTransGen.refl made
    have never := (deadlock_freedom (i := ()) reached ⟨by decide, by decide⟩).2
    exact ⟨s, reached, fun n => ⟨_, congrFun eq n, never n (ring_cyclic n) 0 _ (congrFun eq n)⟩⟩

end Program

end Hipert.Gen
