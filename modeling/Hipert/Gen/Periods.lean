import Hipert.Gen.FairRuns

/-!
# Every period ends

Under a fair scheduler a DAG without cycles completes every period, whatever the other DAGs do, when
its loads of the counter do not overlap (`every_period_ends`): some thread of the DAG has a step as
long as the period lasts, each such step leaves less to do, and a holder of `premMutex` in another DAG
releases it after two steps.
-/

namespace Hipert.Gen

universe u

variable {ν : Type u} [DecidableEq ν]

section Program

variable {ι : Type u} [DecidableEq ι] {prog : ι → Dag ν} {s s' : State ι ν} {tid : Tid ι ν} {i : ι}

/-! ## The holder of `premMutex` in a fair run -/

/-- As long as `premMutex` is not released its holder stays, and each of its steps leaves it less to
do. -/
theorem holder_step (reached : Reachable prog s) {holder : Tid ι ν}
    (step : exec prog tid s = some s') (held : s.premMutex = some holder)
    (taken : s'.premMutex ≠ none) :
    s'.premMutex = some holder ∧ s'.owed.length ≤ s.owed.length ∧
      (tid = holder → s'.owed.length < s.owed.length) := by
  by_cases self : tid = holder
  · subst self
    rcases reached.atCopy held with ⟨i, p, n, u, instr', rest, rfl, here, code, copy⟩
    obtain ⟨d, instr, t, t', move, dags, -, -, prem⟩ := exec_node (reached.inv i) step
    cases here.symm.trans move.before
    cases code.symm.trans move.code
    rcases copy with rfl | rfl
    · have suffix := (reached.inv i).code p n u move.before
      rw [move.code] at suffix
      obtain ⟨rest, after⟩ := (prem_next suffix).2 rfl
      have mine : (s'.dags i).thread p n = some t' := by
        rw [dags, Function.update_self, move.after, DagState.setThread_self]
      have kept := prem.trans held
      have less : s'.owed.length < s.owed.length := by
        rw [owed_of_copy held move.before move.code, owed_of_release kept mine after]
        exact Nat.lt_succ_self 1
      exact ⟨kept, less.le, fun _ => less⟩
    · exact absurd prem taken
  · have kept := prem_frame reached step held self reached.holds
    have same := owed_frame reached step (kept.trans held.symm)
      (fun mine => self (Option.some.inj (mine.symm.trans held)))
    exact ⟨kept, (congrArg List.length same).le, fun mine => absurd mine self⟩

/-- Whoever holds `premMutex` releases it. -/
theorem FairRun.releases (r : FairRun prog) (k : ℕ) :
    ∃ m ≥ k, (r.state m).premMutex = none := by
  by_contra never
  have taken : ∀ m ≥ k, (r.state m).premMutex ≠ none :=
    fun m later free => never ⟨m, later, free⟩
  obtain ⟨holder, held⟩ := Option.ne_none_iff_exists'.mp (taken k le_rfl)
  have holds : ∀ m ≥ k, (r.state m).premMutex = some holder := by
    intro m later
    induction m, later using Nat.le_induction with
    | base => exact held
    | succ m later ih =>
        exact (holder_step (r.reachable m) (r.step m) ih (taken _ (Nat.le_succ_of_le later))).1
  have owes := fun m later => holder_step (r.reachable m) (r.step m) (holds m later)
    (taken _ (Nat.le_succ_of_le later))
  have acts := r.fair holder fun j => ⟨max j k, le_max_left _ _,
    ((r.reachable _).atCopy (holds _ (le_max_right _ _))).enabled⟩
  refine no_descent (f := fun m => (r.state m).owed.length) (fun m later => (owes m later).2.1) ?_
  intro m later
  obtain ⟨m', after, moves⟩ := acts m
  exact ⟨m', after, (owes m' (later.trans after)).2.2 moves⟩

/-! ## Liveness -/

/-- A step while the period lasts: it leaves less of the period, or does not show in the DAG. -/
theorem FairRun.step_cases (r : FairRun prog) {m : ℕ}
    (lasts : ((r.state (m + 1)).dags i).period ≠ ((r.state m).dags i).period + 1) :
    ((r.state (m + 1)).dags i).period = ((r.state m).dags i).period ∧
      (((r.state (m + 1)).dags i).work (prog i) < ((r.state m).dags i).work (prog i) ∨
        ((r.state (m + 1)).alone i = (r.state m).alone i ∧
          ((r.moves m).dag = i → Idle prog (r.state m) (r.moves m)))) := by
  by_cases own : (r.moves m).dag = i
  · rcases work_step (r.reachable m) own (r.step m) with ends | less | ⟨idle, same⟩
    · exact absurd ends lasts
    · exact ⟨less.1, Or.inl less.2⟩
    · exact ⟨by rw [same], Or.inr ⟨by rw [same], fun _ => idle⟩⟩
  · have same := alone_of_other (r.reachable m) (ofDag_of_ne own) (r.step m)
    have period : ((r.state (m + 1)).dags i).period = ((r.state m).dags i).period :=
      congrArg (fun t : State PUnit ν => (t.dags ⟨⟩).period) same
    exact ⟨period, Or.inr ⟨same, fun mine => absurd mine own⟩⟩

/-- A period does not last for ever. -/
theorem FairRun.works (r : FairRun prog) (graph : (prog i).IsGraph) (acyclic : (prog i).Acyclic)
    (alone : r.LoadsAlone i) (k : ℕ)
    (lasts : ∀ m ≥ k, ((r.state m).dags i).period ≠ ((r.state k).dags i).period + 1) : False := by
  have period : ∀ m ≥ k, ((r.state m).dags i).period = ((r.state k).dags i).period := by
    intro m later
    induction m, later using Nat.le_induction with
    | base => rfl
    | succ m later ih =>
        have here := lasts _ (Nat.le_succ_of_le later)
        rw [← ih] at here
        exact (r.step_cases here).1.trans ih
  have cases_at := fun m (later : m ≥ k) => r.step_cases (i := i) (m := m)
    (period m later ▸ lasts _ (Nat.le_succ_of_le later))
  refine no_descent (f := fun m => ((r.state m).dags i).work (prog i)) (k := k) ?_ ?_
  · intro m later
    rcases (cases_at m later).2 with less | ⟨same, -⟩
    · exact less.le
    · exact (congrArg (fun t : State PUnit ν => (t.dags ⟨⟩).work (prog i)) same).le
  · -- otherwise the DAG would stay as it is, with a thread that has a step
    intro m later
    by_contra still
    have silent : ∀ m' ≥ m, (r.state (m' + 1)).alone i = (r.state m').alone i ∧
        ((r.moves m').dag = i → Idle prog (r.state m') (r.moves m')) := by
      intro m' after
      refine (cases_at m' (later.trans after)).2.resolve_left fun less => ?_
      exact still ⟨m', after, less⟩
    have same : ∀ m' ≥ m, (r.state m').alone i = (r.state m).alone i := by
      intro m' after
      induction m', after using Nat.le_induction with
      | base => rfl
      | succ m' after ih => exact (silent m' after).1.trans ih
    obtain ⟨tid, enabled, busy⟩ := exists_ready (r.reachable m) (alone.exact m) graph acyclic
    have often : ∀ j, ∃ m' ≥ j, Enabled prog (tid.inDag i) (r.state m') := by
      intro j
      obtain ⟨m', after, free⟩ := r.releases (max j m)
      refine ⟨m', (le_max_left _ _).trans after, enabled_of_alone free ?_⟩
      rwa [same m' ((le_max_right _ _).trans after)]
    obtain ⟨m', after, moves⟩ := r.fair _ often m
    have idle := (silent m' after).2 (by rw [moves, dag_inDag])
    obtain ⟨j, eq, short⟩ := idle
    rw [moves] at eq
    cases tid with
    | main j' => cases eq
    | node j' p n => cases eq
    | finish j' =>
        cases eq
        refine busy ⟨⟨⟩, rfl, ?_⟩
        rw [← same m' after]
        exact short

theorem FairRun.period_ends (r : FairRun prog) (graph : (prog i).IsGraph)
    (acyclic : (prog i).Acyclic) (alone : r.LoadsAlone i) (q : ℕ) :
    ∃ k, ((r.state k).dags i).period = q := by
  induction q with
  | zero => exact ⟨0, by rw [r.start]; rfl⟩
  | succ q ih =>
      obtain ⟨k, period⟩ := ih
      by_contra never
      refine r.works graph acyclic alone k fun m _ ends => never ⟨m, ?_⟩
      rw [ends, period]

/-- **Liveness.** In every fair run, of any DAGs, a DAG without cycles whose loads of the counter do
not overlap completes every period, with the threads of all its nodes run to their ends. -/
theorem every_period_ends (r : FairRun prog) (graph : (prog i).IsGraph)
    (acyclic : (prog i).Acyclic) (alone : r.LoadsAlone i) (q : ℕ) :
    ∃ k, ((r.state k).dags i).period = q + 1 ∧
      ∀ n ∈ (prog i).node, ∃ t, ((r.state k).dags i).thread q n = some t ∧ t.Exited := by
  obtain ⟨k, period⟩ := r.period_ends graph acyclic alone (q + 1)
  have elapsed : q < ((r.state k).dags i).period := by omega
  refine ⟨k, period, fun n node => ?_⟩
  obtain ⟨t, thread⟩ := (r.reachable k).exists_old elapsed node
  exact ⟨t, thread, ((r.reachable k).inv i).old q n t elapsed thread⟩

/-- Two PREM DAGs, which share `premMutex`, beside one whose nodes wait for each other. -/
def chainsAndRing : Option Bool → Dag Bool
  | none => ringProgram ()
  | some _ => chainProgram ()

/-- In some fair run the two DAGs complete all their periods, beside the one that deadlocks. -/
theorem every_period_ends_chains : ∃ r : FairRun chainsAndRing, ∀ b q, ∃ k,
    ((r.state k).dags (some b)).period = q + 1 ∧
      ∀ n, ∃ t, ((r.state k).dags (some b)).thread q n = some t ∧ t.Exited := by
  have graph : (chainProgram ()).IsGraph := ⟨by decide, by decide⟩
  have node : ∀ n, n ∈ (chainProgram ()).node := by decide
  obtain ⟨r, alone⟩ := @exists_fairRun _ _ _ _ chainsAndRing (some true) _ _ graph chain_acyclic
  refine ⟨r, fun b q => ?_⟩
  obtain ⟨k, period, exited⟩ := every_period_ends r (i := some b) graph chain_acyclic (alone _) q
  exact ⟨k, period, fun n => exited n (node n)⟩

end Program

end Hipert.Gen
