import Mathlib.Data.List.Forall2

/-!
# Methods that may throw

A method with side effects runs on the state of its objects and returns a value or throws, and what
it has changed by then stays changed: `Exec` is the state monad with exceptions that keep the state.
The lemmas characterise the runs that return, through sequencing (`bind_ok`) and through loops whose
body reads something off each element and applies it to the state (`forM_ok`).
-/

namespace Hipert

/-- The unchecked exceptions. -/
inductive Exc where
  | nullPointer
  | indexOutOfBounds
  | numberFormat
  deriving DecidableEq, Repr

/-- A method on states `σ` that returns an `α` or throws. -/
abbrev Exec (σ α : Type) := EStateM Exc σ α

/-- The value, or the exception if there is none. -/
def orThrow {σ α : Type} (exc : Exc) : Option α → Exec σ α
  | some a => pure a
  | none => throw exc

namespace Exec

variable {σ α β : Type} {s s' : σ}

theorem bind_ok {x : Exec σ α} {f : α → Exec σ β} {b : β} :
    (x >>= f) s = .ok b s' ↔ ∃ a mid, x s = .ok a mid ∧ f a mid = .ok b s' := by
  have unfolded : (x >>= f) s = EStateM.bind x f s := rfl
  rw [unfolded, EStateM.bind]
  cases first : x s with
  | ok a mid =>
      refine ⟨?_, ?_⟩
      · exact fun rest => ⟨a, mid, rfl, rest⟩
      · intro given
        rcases given with ⟨a', mid', eq, rest⟩
        cases eq
        exact rest
  | error exc mid =>
      refine ⟨?_, ?_⟩
      · exact fun rest => nomatch rest
      · intro given
        rcases given with ⟨a', mid', eq, -⟩
        cases eq

theorem pure_ok {a b : α} : (pure a : Exec σ α) s = .ok b s' ↔ a = b ∧ s = s' := by
  have unfolded : (pure a : Exec σ α) s = .ok a s := rfl
  rw [unfolded, EStateM.Result.ok.injEq]

theorem get_ok {t : σ} : (get : Exec σ σ) s = .ok t s' ↔ s = t ∧ s = s' := pure_ok (α := σ)

theorem modify_ok {f : σ → σ} {u : PUnit} :
    (modify f : Exec σ PUnit) s = .ok u s' ↔ f s = s' := by
  have unfolded : (modify f : Exec σ PUnit) s = .ok ⟨⟩ (f s) := rfl
  rw [unfolded, EStateM.Result.ok.injEq]
  exact and_iff_right rfl

theorem orThrow_ok {exc : Exc} {o : Option α} {a : α} :
    (orThrow exc o : Exec σ α) s = .ok a s' ↔ o = some a ∧ s = s' := by
  cases o with
  | none =>
      refine ⟨?_, ?_⟩
      · exact fun eq => nomatch eq
      · intro given
        rcases given with ⟨eq, -⟩
        cases eq
  | some b => exact pure_ok.trans (and_congr_left fun _ => Option.some.injEq b a ▸ Iff.rfl)

/-- **Loop rule.** If, in the states of an invariant, the body reads a value off each element, or
throws, and applies it to the state, then the loop returns if and only if every element has a value,
with the values applied in order. -/
theorem forM_ok (inv : σ → Prop) {body : α → Exec σ PUnit} {reads : α → β → Prop}
    {apply : σ → β → σ} {l : List α}
    (step : ∀ a ∈ l, ∀ s s', inv s →
      (body a s = .ok ⟨⟩ s' ↔ ∃ b, reads a b ∧ s' = apply s b))
    (keep : ∀ s b, inv s → inv (apply s b)) (start : inv s) :
    l.forM body s = .ok ⟨⟩ s' ↔ ∃ bs, List.Forall₂ reads l bs ∧ s' = bs.foldl apply s := by
  induction l generalizing s with
  | nil =>
      refine ⟨?_, ?_⟩
      · intro returned
        exact ⟨[], .nil, (pure_ok.mp returned).2.symm⟩
      · intro given
        rcases given with ⟨bs, all, rfl⟩
        cases all
        rfl
  | cons a l ih =>
      rw [List.forM_eq_forM, List.forM_cons, bind_ok]
      have first := fun s' => step a List.mem_cons_self s s' start
      have rest := fun b => ih (fun a mem => step a (List.mem_cons_of_mem _ mem)) (keep s b start)
      refine ⟨?_, ?_⟩
      · intro given
        rcases given with ⟨_, mid, returned, later⟩
        rcases (first _).mp returned with ⟨b, read, rfl⟩
        rcases (rest b).mp later with ⟨bs, all, rfl⟩
        exact ⟨b :: bs, .cons read all, rfl⟩
      · intro given
        rcases given with ⟨bs, all, rfl⟩
        cases all with
        | cons read all =>
            exact ⟨_, _, (first _).mpr ⟨_, read, rfl⟩, (rest _).mpr ⟨_, all, rfl⟩⟩

/-- The state in which a method returns, if it does. -/
def stateAfter (x : Exec σ PUnit) (s : σ) : Option σ :=
  match x s with
  | .ok _ s' => some s'
  | .error _ _ => none

theorem stateAfter_eq_some {x : Exec σ PUnit} :
    stateAfter x s = some s' ↔ x s = .ok ⟨⟩ s' := by
  unfold stateAfter
  cases x s with
  | ok u mid => rw [Option.some.injEq, EStateM.Result.ok.injEq, and_iff_right rfl]
  | error exc mid => exact ⟨(fun eq => nomatch eq), (fun eq => nomatch eq)⟩

/-- The state that a method leaves, whether it returns or throws. -/
def leaves (x : Exec σ PUnit) (s : σ) : σ :=
  match x s with
  | .ok _ s' => s'
  | .error _ s' => s'

/-- A method that returns leaves the state it returns in. -/
theorem ok_leaves {x : Exec σ PUnit} (returns : (stateAfter x s).isSome) :
    x s = .ok ⟨⟩ (leaves x s) := by
  obtain ⟨s', after⟩ := Option.isSome_iff_exists.mp returns
  have returned := stateAfter_eq_some.mp after
  rw [returned, leaves, returned]

/-- A method that does not return throws. -/
theorem error_of_stateAfter {x : Exec σ PUnit} (never : stateAfter x s = none) :
    ∃ exc, x s = .error exc (leaves x s) := by
  unfold stateAfter at never
  unfold leaves
  cases thrown : x s with
  | ok u mid =>
      rw [thrown] at never
      cases never
  | error exc mid => exact ⟨exc, rfl⟩

end Exec

end Hipert
