import Mathlib.Algebra.Order.BigOperators.Group.Finset
import Mathlib.Data.Countable.Defs
import Mathlib.Order.Interval.Finset.Nat

/-!
# Fair schedules

Countably many threads make steps one at a time, and never are all of them blocked. A scheduler that
counts the steps of each thread, and serves the one with the least sum of its number and its count
among those that have a step (`Serves`), starves none (`serves_fair`): a thread that waits is only
passed over by the finitely many whose sum is not above its own. So there is a fair run from every
state (`exists_fair_schedule`).
-/

namespace Hipert

universe u v

/-! ## Descent -/

/-- A sequence that never grows does not shrink for ever. -/
theorem no_descent {f : ℕ → ℕ} {k : ℕ} (never_grows : ∀ m ≥ k, f (m + 1) ≤ f m)
    (shrinks : ∀ m ≥ k, ∃ m' ≥ m, f (m' + 1) < f m') : False := by
  have below : ∀ w, ∀ m ≥ k, f m = w → False := by
    intro w
    induction w using Nat.strong_induction_on with
    | _ w ih =>
        intro m later eq
        obtain ⟨m', after, less⟩ := shrinks m later
        have kept : f m' ≤ f m := by
          clear less
          induction m', after using Nat.le_induction with
          | base => exact le_rfl
          | succ m' after kept => exact (never_grows m' (later.trans after)).trans kept
        exact ih _ (eq ▸ less.trans_le kept) (m' + 1) (by omega) rfl
  exact below _ k le_rfl rfl

variable {τ : Type u} {σ : Type v}

/-! ## The scheduler -/

/-- A state, and how many steps each thread has made. -/
structure Tally (τ : Type u) (σ : Type v) where
  state : σ
  steps : τ → ℕ

/-- The sum that the scheduler goes by, where `code` numbers the threads. -/
def Tally.rank (a : Tally τ σ) (code : τ → ℕ) (t : τ) : ℕ := code t + a.steps t

/-- Thread `t` makes a step, and no thread that has one ranks before it. -/
structure Serves (step : τ → σ → σ → Prop) (code : τ → ℕ) (t : τ) (a a' : Tally τ σ) : Prop where
  made : step t a.state a'.state
  served : a'.steps t = a.steps t + 1
  others : ∀ u ≠ t, a'.steps u = a.steps u
  least : ∀ u, (∃ s, step u a.state s) → a.rank code t ≤ a.rank code u

variable {step : τ → σ → σ → Prop} {code : τ → ℕ}

theorem exists_serves {a : Tally τ σ} (live : ∃ t s, step t a.state s) :
    ∃ t a', Serves step code t a a' := by
  classical
  obtain ⟨t, ⟨s, made⟩, least⟩ :=
    (measure (a.rank code)).wf.has_min {t | ∃ s, step t a.state s} live
  refine ⟨t, ⟨s, Function.update a.steps t (a.steps t + 1)⟩, made, ?_, ?_, ?_⟩
  · exact Function.update_self t (a.steps t + 1) a.steps
  · exact fun u other => Function.update_of_ne other _ _
  · exact fun u enabled => not_lt.mp (least u enabled)

theorem Serves.steps_le {t : τ} {a a' : Tally τ σ} (serves : Serves step code t a a') (u : τ) :
    a.steps u ≤ a'.steps u := by
  by_cases self : u = t
  · rw [self, serves.served]
    exact Nat.le_succ _
  · exact (serves.others u self).ge

/-- **Fairness.** A thread that has a step again and again makes one again and again. -/
theorem serves_fair (numbered : Function.Injective code) {tally : ℕ → Tally τ σ} {moves : ℕ → τ}
    (serves : ∀ k, Serves step code (moves k) (tally k) (tally (k + 1))) {t : τ}
    (often : ∀ k, ∃ m ≥ k, ∃ s, step t (tally m).state s) (k : ℕ) : ∃ m ≥ k, moves m = t := by
  by_contra never
  have passed : ∀ m ≥ k, t ≠ moves m := fun m later here => never ⟨m, later, here.symm⟩
  have waits : ∀ m ≥ k, (tally m).steps t = (tally k).steps t := by
    intro m later
    induction m, later using Nat.le_induction with
    | base => rfl
    | succ m later ih => exact ((serves m).others t (passed m later)).trans ih
  -- the threads that can ever be served before `t`, and how often each of them still can
  set bound := (tally k).rank code t with bound_eq
  have finite : {u | code u ≤ bound}.Finite := (Set.finite_Iic bound).preimage numbered.injOn
  refine no_descent (f := fun m => ∑ u ∈ finite.toFinset, (bound + 1 - (tally m).steps u))
    (k := k) ?_ ?_
  · intro m _
    refine Finset.sum_le_sum fun u _ => ?_
    have grows := (serves m).steps_le u
    omega
  · intro m later
    obtain ⟨m', after, enabled⟩ := often m
    have least := (serves m').least t enabled
    unfold Tally.rank at least bound_eq
    rw [waits m' (later.trans after), ← bound_eq] at least
    have served := (serves m').served
    refine ⟨m', after, Finset.sum_lt_sum (fun u _ => ?_) ⟨moves m', ?_, by omega⟩⟩
    · have grows := (serves m').steps_le u
      omega
    · rw [Set.Finite.mem_toFinset]
      exact (Nat.le_add_right _ _).trans least

/-- **Fair runs.** If some thread has a step in every state of an invariant, there is a run from each
of these states in which every thread that has a step again and again makes one again and again. -/
theorem exists_fair_schedule [Countable τ] {Inv : σ → Prop} {first : σ} (start : Inv first)
    (kept : ∀ t s s', Inv s → step t s s' → Inv s') (live : ∀ s, Inv s → ∃ t s', step t s s') :
    ∃ (state : ℕ → σ) (moves : ℕ → τ), state 0 = first ∧
      (∀ k, step (moves k) (state k) (state (k + 1))) ∧
      ∀ t, (∀ k, ∃ m ≥ k, ∃ s, step t (state m) s) → ∀ k, ∃ m ≥ k, moves m = t := by
  obtain ⟨code, numbered⟩ := exists_injective_nat τ
  have goes_on : ∀ a : {a : Tally τ σ // Inv a.state}, ∃ (t : τ) (a' : {a : Tally τ σ // Inv a.state}),
      Serves step code t a.1 a'.1 := by
    intro a
    obtain ⟨t, a', serves⟩ := @exists_serves _ _ step code a.1 (live _ a.2)
    exact ⟨t, ⟨a', kept t _ _ a.2 serves.made⟩, serves⟩
  choose turn next serves using goes_on
  let run : ℕ → {a : Tally τ σ // Inv a.state} := fun k => next^[k] ⟨⟨first, fun _ => 0⟩, start⟩
  have served : ∀ k, Serves step code (turn (run k)) (run k).1 (run (k + 1)).1 := by
    intro k
    have after : run (k + 1) = next (run k) := Function.iterate_succ_apply' next k _
    rw [after]
    exact serves (run k)
  exact ⟨fun k => (run k).1.state, fun k => turn (run k), rfl, fun k => (served k).made,
    fun t often => serves_fair numbered served often⟩

end Hipert
