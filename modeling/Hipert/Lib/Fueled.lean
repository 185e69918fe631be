import Mathlib.Data.Nat.Basic
import Mathlib.Data.Set.Finite.Basic
import Mathlib.Order.Lattice

/-!
# Computations that may not return

A program with unbounded loops is modelled by a function of a step budget: with too little fuel it
gives `none`, with enough it gives its result. `Fueled α` carries the proof that more fuel never
changes a result, so a computation has at most one result and `Fueled.Returns` (with *some* budget)
composes through `pure`, `bind` and loops. A computation that returns with no budget diverges.
-/

namespace Hipert

universe u

/-- A computation with a step budget, monotone in it. -/
structure Fueled (α : Type u) where
  run : ℕ → Option α
  mono : ∀ {n m : ℕ} {r : α}, n ≤ m → run n = some r → run m = some r

namespace Fueled

variable {α β σ : Type u}

/-- The computation returns `r` with a large enough budget. -/
def Returns (c : Fueled α) (r : α) : Prop := ∃ n, c.run n = some r

/-- The computation returns. -/
def Ends (c : Fueled α) : Prop := ∃ r, c.Returns r

theorem Returns.unique {c : Fueled α} {r r' : α} (left : c.Returns r) (right : c.Returns r') :
    r = r' := by
  obtain ⟨n, hn⟩ := left
  obtain ⟨m, hm⟩ := right
  have hn' := c.mono (le_max_left n m) hn
  have hm' := c.mono (le_max_right n m) hm
  exact Option.some.inj (hn'.symm.trans hm')

theorem ends_of_isSome {c : Fueled α} {n : ℕ} (enough : (c.run n).isSome) : c.Ends := by
  obtain ⟨r, hr⟩ := Option.isSome_iff_exists.mp enough
  exact ⟨r, n, hr⟩

theorem Returns.ends {c : Fueled α} {r : α} (returned : c.Returns r) : c.Ends := ⟨r, returned⟩

/-! ## Sequential composition -/

/-- A computation that returns at once. -/
protected def pure (a : α) : Fueled α := ⟨fun _ => some a, fun _ h => h⟩

/-- Run one computation and then another on its result, each with the whole budget. -/
protected def bind (c : Fueled α) (f : α → Fueled β) : Fueled β where
  run n := (c.run n).bind fun a => (f a).run n
  mono := by
    intro n m r le h
    obtain ⟨a, ha, hr⟩ := Option.bind_eq_some_iff.mp h
    exact Option.bind_eq_some_iff.mpr ⟨a, c.mono le ha, (f a).mono le hr⟩

instance : Monad Fueled where
  pure := Fueled.pure
  bind := Fueled.bind

@[simp] theorem returns_pure {a r : α} : (pure a : Fueled α).Returns r ↔ a = r :=
  ⟨fun ⟨_, h⟩ => Option.some.inj h, fun h => ⟨0, congrArg some h⟩⟩

@[simp] theorem returns_bind {c : Fueled α} {f : α → Fueled β} {r : β} :
    (c >>= f).Returns r ↔ ∃ a, c.Returns a ∧ (f a).Returns r := by
  refine ⟨?_, ?_⟩
  · intro given
    rcases given with ⟨n, h⟩
    obtain ⟨a, ha, hr⟩ := Option.bind_eq_some_iff.mp h
    exact ⟨a, ⟨n, ha⟩, ⟨n, hr⟩⟩
  · intro given
    rcases given with ⟨a, ⟨n, hn⟩, ⟨m, hm⟩⟩
    exact ⟨max n m, Option.bind_eq_some_iff.mpr
      ⟨a, c.mono (le_max_left n m) hn, (f a).mono (le_max_right n m) hm⟩⟩

@[simp] theorem ends_pure (a : α) : (pure a : Fueled α).Ends := ⟨a, returns_pure.mpr rfl⟩

theorem ends_bind {c : Fueled α} {f : α → Fueled β} :
    (c >>= f).Ends ↔ ∃ a, c.Returns a ∧ (f a).Ends := by
  refine ⟨?_, ?_⟩
  · intro given
    rcases given with ⟨r, h⟩
    obtain ⟨a, ha, hr⟩ := returns_bind.mp h
    exact ⟨a, ha, r, hr⟩
  · intro given
    rcases given with ⟨a, ha, r, hr⟩
    exact ⟨r, returns_bind.mpr ⟨a, ha, hr⟩⟩

/-- A sequence ends when its first part ends and its second part ends on every result. -/
theorem Ends.bind {c : Fueled α} {f : α → Fueled β} (first : c.Ends)
    (second : ∀ a, c.Returns a → (f a).Ends) : (c >>= f).Ends := by
  obtain ⟨a, ha⟩ := first
  exact ends_bind.mpr ⟨a, ha, second a ha⟩

theorem returns_foldlM_append {f : β → σ → Fueled β} {init r : β} {xs ys : List σ} :
    ((xs ++ ys).foldlM f init).Returns r ↔
      ∃ mid, (xs.foldlM f init).Returns mid ∧ (ys.foldlM f mid).Returns r := by
  induction xs generalizing init with
  | nil => simp
  | cons x xs ih =>
      simp only [List.cons_append, List.foldlM_cons, returns_bind, ih]
      exact ⟨fun ⟨b, hb, mid, h⟩ => ⟨mid, ⟨b, hb, h.1⟩, h.2⟩,
        fun ⟨mid, ⟨b, hb, h⟩, h'⟩ => ⟨b, hb, mid, h, h'⟩⟩

/-! ## Loops -/

/-- `n` rounds at most of a loop whose body either goes on from a new state or leaves. -/
def loopRun (body : σ → Fueled (σ ⊕ β)) : ℕ → σ → Option β
  | 0, _ => none
  | n + 1, s =>
    match (body s).run n with
    | none => none
    | some (.inl s') => loopRun body n s'
    | some (.inr b) => some b

theorem loopRun_mono {body : σ → Fueled (σ ⊕ β)} :
    ∀ {n m : ℕ} {s : σ} {r : β}, n ≤ m → loopRun body n s = some r → loopRun body m s = some r
  | 0, _, _, _, _, h => by cases h
  | n + 1, 0, _, _, le, _ => absurd le (Nat.not_succ_le_zero n)
  | n + 1, m + 1, s, r, le, h => by
      have le' : n ≤ m := Nat.le_of_succ_le_succ le
      unfold loopRun at h ⊢
      cases round : (body s).run n with
      | none => rw [round] at h; cases h
      | some next =>
          rw [round] at h
          rw [(body s).mono le' round]
          cases next with
          | inl s' => exact loopRun_mono le' h
          | inr b => exact h

/-- The loop `body` repeats from `s` until its body leaves. -/
def loop (body : σ → Fueled (σ ⊕ β)) (s : σ) : Fueled β where
  run n := loopRun body n s
  mono := loopRun_mono

/-- One round of a loop. -/
theorem loop_returns {body : σ → Fueled (σ ⊕ β)} {s : σ} {r : β} :
    (loop body s).Returns r ↔
      (∃ s', (body s).Returns (.inl s') ∧ (loop body s').Returns r) ∨
        (body s).Returns (.inr r) := by
  refine ⟨?_, ?_⟩
  · intro given
    rcases given with ⟨n, h⟩
    cases n with
    | zero => cases h
    | succ n =>
        change loopRun body (n + 1) s = some r at h
        unfold loopRun at h
        cases round : (body s).run n with
        | none => rw [round] at h; cases h
        | some next =>
            rw [round] at h
            cases next with
            | inl s' => exact Or.inl ⟨s', ⟨n, round⟩, ⟨n, h⟩⟩
            | inr b =>
                cases h
                exact Or.inr ⟨n, round⟩
  · rintro (⟨s', ⟨n, hn⟩, ⟨m, hm⟩⟩ | ⟨n, hn⟩)
    · refine ⟨max n m + 1, ?_⟩
      change loopRun body (max n m + 1) s = some r
      unfold loopRun
      rw [(body s).mono (le_max_left n m) hn]
      exact loopRun_mono (le_max_right n m) hm
    · refine ⟨n + 1, ?_⟩
      change loopRun body (n + 1) s = some r
      unfold loopRun
      rw [hn]

/-- **Loop invariant rule.** What every round preserves holds where the loop leaves. -/
theorem loop_invariant {body : σ → Fueled (σ ⊕ β)} (P : σ → Prop) (Q : β → Prop)
    (step : ∀ s s', P s → (body s).Returns (.inl s') → P s')
    (leave : ∀ s r, P s → (body s).Returns (.inr r) → Q r)
    {s : σ} {r : β} (start : P s) (returned : (loop body s).Returns r) : Q r := by
  obtain ⟨n, h⟩ := returned
  induction n generalizing s with
  | zero => cases h
  | succ n ih =>
      change loopRun body (n + 1) s = some r at h
      unfold loopRun at h
      cases round : (body s).run n with
      | none => rw [round] at h; cases h
      | some next =>
          rw [round] at h
          cases next with
          | inl s' => exact ih (step s s' start ⟨n, round⟩) h
          | inr b =>
              cases h
              exact leave s _ start ⟨n, round⟩

/-- A loop that never leaves a set of states does not return. -/
theorem loop_diverges {body : σ → Fueled (σ ⊕ β)} (P : σ → Prop)
    (step : ∀ s s', P s → (body s).Returns (.inl s') → P s')
    (stay : ∀ s r, P s → ¬ (body s).Returns (.inr r)) {s : σ} (start : P s) :
    ¬ (loop body s).Ends := by
  intro given
  rcases given with ⟨r, returned⟩
  exact loop_invariant P (fun _ => False) step stay start returned

/-- **Loop variant rule.** A loop whose rounds end and lower a natural number ends. -/
theorem loop_ends {body : σ → Fueled (σ ⊕ β)} (P : σ → Prop) (measure : σ → ℕ)
    (round : ∀ s, P s → (body s).Ends)
    (step : ∀ s s', P s → (body s).Returns (.inl s') → P s' ∧ measure s' < measure s)
    {s : σ} (start : P s) : (loop body s).Ends := by
  induction hm : measure s using Nat.strong_induction_on generalizing s with
  | _ m ih =>
    obtain ⟨next, returned⟩ := round s start
    cases next with
    | inl s' =>
        obtain ⟨keeps, lower⟩ := step s s' start returned
        obtain ⟨r, rest⟩ := ih (measure s') (hm ▸ lower) keeps rfl
        exact ⟨r, loop_returns.mpr (Or.inl ⟨s', returned, rest⟩)⟩
    | inr r => exact ⟨r, loop_returns.mpr (Or.inr returned)⟩

end Fueled

end Hipert
