import Hipert.Gen.Work
import Hipert.Lib.FairSchedule
import Mathlib.Data.Countable.Basic

/-!
# Fair runs

A program with a DAG whose graph is acyclic has a fair run in which the loads of the counter do not
overlap (`exists_fairRun`). A scheduler that holds a load back while another thread of the DAG has its
store to do always finds a thread to serve (`ReachableApart.live`); and it does not hold a load back
for ever, since each store brings the period closer to its end, which the thread at the load is part
of (`ApartRun.fair_exec`).
-/

namespace Hipert.Gen

universe u

variable {ν : Type u} [DecidableEq ν] {ι : Type u} [DecidableEq ι] {prog : ι → Dag ν}
  {s s' : State ι ν} {tid : Tid ι ν} {i : ι} {p : ℕ} {n : ν}

/-! ## Fairness -/

/-- A run that goes on for ever and in which every thread that has a step infinitely often makes one
infinitely often. -/
structure FairRun (prog : ι → Dag ν) where
  state : ℕ → State ι ν
  moves : ℕ → Tid ι ν
  start : state 0 = .init prog
  step : ∀ k, exec prog (moves k) (state k) = some (state (k + 1))
  fair : ∀ tid, (∀ k, ∃ m ≥ k, Enabled prog tid (state m)) → ∀ k, ∃ m ≥ k, moves m = tid

/-- No node of DAG `i` loads the counter between the load and the store of another. -/
def FairRun.LoadsAlone (r : FairRun prog) (i : ι) : Prop :=
  ∀ k p n, r.moves k = .node i p n → ((r.state k).dags i).LoadsAlone p n

theorem FairRun.reachable (r : FairRun prog) (k : ℕ) : Reachable prog (r.state k) := by
  induction k with
  | zero =>
      rw [r.start]
      exact .refl
  | succ k ih => exact ih.tail ⟨_, r.step k⟩

theorem FairRun.LoadsAlone.exact {r : FairRun prog} (alone : r.LoadsAlone i) (k : ℕ) :
    Exact (prog i) ((r.state k).dags i) := by
  have reached : ReachableAlone prog i (r.state k) := by
    induction k with
    | zero =>
        rw [r.start]
        exact .refl
    | succ k ih => exact ih.tail ⟨_, r.step k, alone k⟩
  exact reached.exact

/-! ## Loads that are held back -/

/-- A step of a thread that does not load the counter while another thread of its DAG has its store
to do. -/
def ApartStep (prog : ι → Dag ν) (tid : Tid ι ν) (s s' : State ι ν) : Prop :=
  exec prog tid s = some s' ∧ ∀ i p n, tid = .node i p n → (s.dags i).LoadsAlone p n

/-- The states that such steps reach. -/
def ReachableApart (prog : ι → Dag ν) (s : State ι ν) : Prop :=
  Relation.ReflTransGen (fun s s' => ∃ tid, ApartStep prog tid s s') (State.init prog) s

theorem ReachableApart.alone (reached : ReachableApart prog s) (i : ι) : ReachableAlone prog i s :=
  Relation.ReflTransGen.mono (fun _ _ ⟨tid, step, apart⟩ => ⟨tid, step, apart i⟩) _ _ reached

omit [DecidableEq ν] in
theorem loadsAlone_of_ne {d : DagState ν} {t : Thread ν} {instr : NodeInstr ν}
    {rest : List (NodeInstr ν)} (here : d.thread p n = some t) (code : t.code = instr :: rest)
    (other : instr ≠ .loadCondition) : d.LoadsAlone p n := by
  intro t' rest' here' code'
  cases here.symm.trans here'
  cases code.symm.trans code'
  exact absurd rfl other

omit [DecidableEq ν] in
/-- A load that is not alone, and a thread with its store to do. -/
theorem exists_storing {d : DagState ν} (overlap : ¬ d.LoadsAlone p n) :
    (∃ t rest, d.thread p n = some t ∧ t.code = .loadCondition :: rest) ∧
      ∃ q m u, d.thread q m = some u ∧ u.Storing := by
  unfold DagState.LoadsAlone at overlap
  push Not at overlap
  obtain ⟨t, rest, here, code, q, m, u, -, there, storing⟩ := overlap
  exact ⟨⟨t, rest, here, code⟩, q, m, u, there, storing⟩

/-- A store is not held back. -/
theorem exists_store {u : Thread ν} (here : (s.dags i).thread p n = some u) (storing : u.Storing) :
    ∃ s', ApartStep prog (.node i p n) s s' := by
  obtain ⟨rest, code⟩ := storing
  have enabled : Enabled prog (.node i p n) s :=
    enabled_node here code (fun _ h => nomatch h) (fun h => nomatch h)
  obtain ⟨s', step⟩ := enabled
  refine ⟨s', step, ?_⟩
  rintro _ _ _ ⟨⟩
  exact loadsAlone_of_ne here code (fun h => nomatch h)

/-- **Some thread can be served**: the holder of `premMutex`, a thread of the DAG that is ready, or one
whose store holds that back. -/
theorem ReachableApart.live (reached : ReachableApart prog s) (graph : (prog i).IsGraph)
    (acyclic : (prog i).Acyclic) : ∃ tid s', ApartStep prog tid s s' := by
  have reach := (reached.alone i).reachable
  cases held : s.premMutex with
  | some holder =>
      have copying := reach.atCopy held
      have enabled : Enabled prog holder s := copying.enabled
      obtain ⟨s', step⟩ := enabled
      refine ⟨holder, s', step, ?_⟩
      rcases copying with ⟨j, p, n, t, instr, rest, rfl, here, code, copy⟩
      rintro _ _ _ ⟨⟩
      refine loadsAlone_of_ne here code ?_
      rcases copy with rfl | rfl <;> exact fun h => nomatch h
  | none =>
      obtain ⟨tid, enabled, -⟩ := exists_ready reach (reached.alone i).exact graph acyclic
      obtain ⟨s', step⟩ := enabled_of_alone held enabled
      by_cases apart : ∀ j p n, tid.inDag i = .node j p n → (s.dags j).LoadsAlone p n
      · exact ⟨_, s', step, apart⟩
      · push Not at apart
        obtain ⟨j, p, n, -, overlap⟩ := apart
        obtain ⟨-, q, m, u, there, storing⟩ := exists_storing overlap
        exact ⟨_, exists_store there storing⟩

/-! ## Runs of that scheduler -/

/-- A run in which loads are held back, and which is fair to the other steps. -/
structure ApartRun (prog : ι → Dag ν) where
  state : ℕ → State ι ν
  moves : ℕ → Tid ι ν
  start : state 0 = .init prog
  step : ∀ k, ApartStep prog (moves k) (state k) (state (k + 1))
  fair : ∀ tid, (∀ k, ∃ m ≥ k, ∃ s, ApartStep prog tid (state m) s) → ∀ k, ∃ m ≥ k, moves m = tid

theorem ApartRun.reachable (r : ApartRun prog) (k : ℕ) : Reachable prog (r.state k) := by
  induction k with
  | zero =>
      rw [r.start]
      exact .refl
  | succ k ih => exact ih.tail ⟨_, (r.step k).1⟩

/-- A thread that makes no step stays where it is. -/
theorem ApartRun.stays (r : ApartRun prog) {k : ℕ} {t : Thread ν}
    (here : ((r.state k).dags i).thread p n = some t)
    (still : ∀ m ≥ k, r.moves m ≠ .node i p n) :
    ∀ m ≥ k, ((r.state m).dags i).thread p n = some t := by
  intro m later
  induction m, later using Nat.le_induction with
  | base => exact here
  | succ m later ih =>
      rcases thread_frame (r.reachable m) (r.step m).1 (still m later) with same | ⟨none, -⟩
      · exact same.trans ih
      · cases none.symm.trans ih

/-- While the period lasts, no step leaves more of it. -/
theorem ApartRun.work_le (r : ApartRun prog) {m : ℕ}
    (lasts : ((r.state (m + 1)).dags i).period = ((r.state m).dags i).period) :
    ((r.state (m + 1)).dags i).work (prog i) ≤ ((r.state m).dags i).work (prog i) := by
  by_cases own : (r.moves m).dag = i
  · rcases work_step (r.reachable m) own (r.step m).1 with ends | ⟨-, less⟩ | ⟨-, same⟩
    · omega
    · exact less.le
    · rw [same]
  · rw [dag_frame (r.reachable m) (r.step m).1 own]

/-- A store that is due is made, and leaves less of the period. -/
theorem ApartRun.stores (r : ApartRun prog) {m q : ℕ} {l : ν} {u : Thread ν}
    (here : ((r.state m).dags i).thread q l = some u) (storing : u.Storing) :
    ∃ m' ≥ m, ((r.state (m' + 1)).dags i).work (prog i) < ((r.state m').dags i).work (prog i) := by
  obtain ⟨m', later, moves⟩ : ∃ m' ≥ m, r.moves m' = .node i q l := by
    by_contra never
    have still : ∀ m' ≥ m, r.moves m' ≠ .node i q l := fun m' later moves => never ⟨m', later, moves⟩
    have waits := r.stays here still
    obtain ⟨m', later, moves⟩ := r.fair (.node i q l) (fun k => ⟨max k m, le_max_left _ _,
      exists_store (waits _ (le_max_right _ _)) storing⟩) m
    exact still m' later moves
  have step := (r.step m').1
  rw [moves] at step
  exact ⟨m', later, (work_node (r.reachable m') step).2⟩

/-- **No load is held back for ever.** -/
theorem ApartRun.loads (r : ApartRun prog) {k : ℕ} {t : Thread ν} {rest : List (NodeInstr ν)}
    (here : ((r.state k).dags i).thread p n = some t) (code : t.code = .loadCondition :: rest)
    (still : ∀ m ≥ k, r.moves m ≠ .node i p n)
    (held : ∀ m ≥ k, ¬ ((r.state m).dags i).LoadsAlone p n) : False := by
  have waits := r.stays here still
  -- the thread at the load is one of the period, which therefore lasts
  have current : ∀ m ≥ k, p = ((r.state m).dags i).period := fun m later =>
    ((r.reachable m).inv i).period_eq (waits m later) (by rw [Thread.Exited, code]; simp)
  refine no_descent (f := fun m => ((r.state m).dags i).work (prog i)) (k := k) ?_ ?_
  · intro m later
    exact r.work_le ((current _ (Nat.le_succ_of_le later)).symm.trans (current m later))
  · intro m later
    obtain ⟨-, q, l, u, there, storing⟩ := exists_storing (held m later)
    exact r.stores there storing

/-- The run is fair to all steps. -/
theorem ApartRun.fair_exec (r : ApartRun prog) (tid : Tid ι ν)
    (often : ∀ k, ∃ m ≥ k, Enabled prog tid (r.state m)) (k : ℕ) : ∃ m ≥ k, r.moves m = tid := by
  by_contra never
  have still : ∀ m ≥ k, r.moves m ≠ tid := fun m later moves => never ⟨m, later, moves⟩
  obtain ⟨k', held⟩ : ∃ k', ∀ m ≥ k', ¬ ∃ s, ApartStep prog tid (r.state m) s := by
    by_contra serves
    push Not at serves
    exact never (r.fair tid serves k)
  obtain ⟨m, later, s', step⟩ := often (max k k')
  have blocked : ¬ ∀ i p n, tid = .node i p n → ((r.state m).dags i).LoadsAlone p n :=
    fun apart => held m (le_of_max_le_right later) ⟨s', step, apart⟩
  push Not at blocked
  obtain ⟨i, p, n, rfl, overlap⟩ := blocked
  obtain ⟨⟨t, rest, here, code⟩, -⟩ := exists_storing overlap
  have still' := fun m' (after : m' ≥ m) => still m' ((le_of_max_le_left later).trans after)
  refine r.loads here code still' fun m' after apart => ?_
  have enabled : Enabled prog (.node i p n) (r.state m') :=
    enabled_node (r.stays here still' m' after) code (fun _ h => nomatch h) (fun h => nomatch h)
  obtain ⟨s'', step'⟩ := enabled
  refine held m' ((le_of_max_le_right later).trans after) ⟨s'', step', ?_⟩
  rintro _ _ _ ⟨⟩
  exact apart

/-! ## Existence -/

/-- The parts of a thread's name. -/
def Tid.parts : Tid ι ν → ι ⊕ ι ⊕ ι × ℕ × ν
  | .main i => .inl i
  | .finish i => .inr (.inl i)
  | .node i p n => .inr (.inr (i, p, n))

omit [DecidableEq ν] [DecidableEq ι] in
theorem countable_tid [Countable ι] [Countable ν] : Countable (Tid ι ν) := by
  have injective : Function.Injective (Tid.parts : Tid ι ν → _) := by
    intro a b same
    cases a <;> cases b <;> cases same <;> rfl
  exact injective.countable

/-- **Fair runs.** A program with a DAG that is an acyclic graph has a fair run in which the loads of
the counter do not overlap, whatever its other DAGs are. -/
theorem exists_fairRun [Countable ι] [Countable ν] (graph : (prog i).IsGraph)
    (acyclic : (prog i).Acyclic) : ∃ r : FairRun prog, ∀ j, r.LoadsAlone j := by
  have : Countable (Tid ι ν) := countable_tid
  have first : ReachableApart prog (.init prog) := .refl
  obtain ⟨state, moves, start, step, fair⟩ := exists_fair_schedule first
    (fun tid _ _ reached step => reached.tail ⟨tid, step⟩)
    (fun _ reached => reached.live graph acyclic)
  let r : ApartRun prog := ⟨state, moves, start, step, fair⟩
  exact ⟨⟨state, moves, start, fun k => (step k).1, r.fair_exec⟩,
    fun j k p n moves => (step k).2 j p n moves⟩

end Hipert.Gen
