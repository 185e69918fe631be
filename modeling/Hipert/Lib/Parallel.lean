import Mathlib.Algebra.Order.BigOperators.Group.List
import Mathlib.Data.List.Forall2

/-!
# Lists in parallel

Two lists whose elements are related one by one, place by place: what holds of a place, of the parts
of the lists, and of what is computed from them.
-/

namespace Hipert

universe u v w

variable {α : Type u} {β : Type v} {R : α → β → Prop}

/-! ## Places -/

theorem getElem?_of_forall₂ {xs : List α} {ys : List β} (all : List.Forall₂ R xs ys) {i : ℕ} {x : α}
    (at_i : xs[i]? = some x) : ∃ y, ys[i]? = some y ∧ R x y := by
  induction all generalizing i with
  | nil => simp at at_i
  | cons here _ ih =>
      cases i with
      | zero =>
          cases at_i
          exact ⟨_, rfl, here⟩
      | succ i => exact ih at_i

theorem forall₂_of_getElem? {xs : List α} {ys : List β} (length : xs.length = ys.length)
    (each : ∀ (i : ℕ) x y, xs[i]? = some x → ys[i]? = some y → R x y) : List.Forall₂ R xs ys := by
  refine List.forall₂_of_length_eq_of_get length fun i inside inside' => ?_
  exact each i _ _ (List.getElem?_eq_getElem inside) (List.getElem?_eq_getElem inside')

/-- One element of the second list is replaced. -/
theorem forall₂_set {xs : List α} {ys : List β} (all : List.Forall₂ R xs ys) {i : ℕ} {x : α} {y : β}
    (here : xs[i]? = some x) (rel : R x y) : List.Forall₂ R xs (ys.set i y) := by
  induction all generalizing i with
  | nil => simp at here
  | cons first rest ih =>
      cases i with
      | zero =>
          cases here
          exact .cons rel rest
      | succ i => exact .cons first (ih here)

theorem exists_of_forall₂ {xs : List α} {ys : List β} (all : List.Forall₂ R xs ys) {y : β}
    (mem : y ∈ ys) : ∃ x ∈ xs, R x y := by
  induction all with
  | nil => cases mem
  | cons here _ ih =>
      rcases List.mem_cons.mp mem with rfl | later
      · exact ⟨_, List.mem_cons_self, here⟩
      · obtain ⟨x, within, rel⟩ := ih later
        exact ⟨x, List.mem_cons_of_mem _ within, rel⟩

/-! ## Parts -/

theorem forall₂_append_left {xs xs' : List α} {zs : List β} :
    List.Forall₂ R (xs ++ xs') zs ↔
      ∃ ys ys', zs = ys ++ ys' ∧ List.Forall₂ R xs ys ∧ List.Forall₂ R xs' ys' := by
  refine ⟨?_, ?_⟩
  · intro all
    have before := List.forall₂_take xs.length all
    have behind := List.forall₂_drop xs.length all
    rw [List.take_left] at before
    rw [List.drop_left] at behind
    exact ⟨_, _, (List.take_append_drop _ _).symm, before, behind⟩
  · intro given
    rcases given with ⟨ys, ys', rfl, before, behind⟩
    exact List.rel_append before behind

theorem forall₂_append_cons {xs xs' : List α} {x : α} {zs : List β} :
    List.Forall₂ R (xs ++ x :: xs') zs ↔ ∃ ys y ys', zs = ys ++ y :: ys' ∧
      List.Forall₂ R xs ys ∧ R x y ∧ List.Forall₂ R xs' ys' := by
  rw [forall₂_append_left]
  refine ⟨?_, ?_⟩
  · intro given
    rcases given with ⟨ys, _, rfl, before, behind⟩
    rcases List.forall₂_cons_left_iff.mp behind with ⟨y, ys', here, after, rfl⟩
    exact ⟨ys, y, ys', rfl, before, here, after⟩
  · intro given
    rcases given with ⟨ys, y, ys', rfl, before, here, after⟩
    exact ⟨ys, _, rfl, before, .cons here after⟩

/-! ## Results -/

theorem map_eq_of_forall₂ {γ : Type w} {f : α → γ} {g : β → γ} {xs : List α} {ys : List β}
    (all : List.Forall₂ R xs ys) (each : ∀ x ∈ xs, ∀ y, R x y → g y = f x) :
    ys.map g = xs.map f := by
  induction all with
  | nil => rfl
  | cons here _ ih =>
      rw [List.map_cons, List.map_cons, each _ List.mem_cons_self _ here,
        ih fun x mem => each x (List.mem_cons_of_mem _ mem)]

/-- A relation that comes down to a condition on the first list. -/
theorem forall₂_iff_of_forall₂ {P : α → β → Prop} {Q : α → Prop} {xs : List α} {ys : List β}
    (all : List.Forall₂ P xs ys) (step : ∀ x y, P x y → (R x y ↔ Q x)) :
    List.Forall₂ R xs ys ↔ ∀ x ∈ xs, Q x := by
  induction all with
  | nil => exact iff_of_true .nil fun x mem => absurd mem List.not_mem_nil
  | cons holds _ ih => rw [List.forall₂_cons, step _ _ holds, ih, List.forall_mem_cons]

theorem sum_map_le_of_forall₂ {M : Type w} [AddMonoid M] [Preorder M] [AddLeftMono M]
    [AddRightMono M] {f : α → M} {g : β → M} {xs : List α} {ys : List β}
    (all : List.Forall₂ R xs ys) (le : ∀ x y, R x y → f x ≤ g y) :
    (xs.map f).sum ≤ (ys.map g).sum := by
  refine List.Forall₂.sum_le_sum ?_
  rw [List.forall₂_map_left_iff, List.forall₂_map_right_iff]
  exact all.imp fun x y rel => le x y rel

end Hipert
