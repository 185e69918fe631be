import Mathlib.Algebra.BigOperators.Group.Finset.Basic

/-!
# Removing repetitions from lists

A list is thinned by removing repeated elements, one copy of each element being left. Sums over the
pairs of elements of two lists do not change under thinning exactly when no element with a share in
the sum is repeated, as long as each element meets at most one element of the other list.
-/

namespace Hipert

universe u v w

variable {α : Type u} {β : Type v} {M : Type w}

/-! ## Thinning -/

/-- The element is in the list, and is not repeated. -/
def Single [DecidableEq α] (l : List α) (a : α) : Prop := l.count a = 1

instance [DecidableEq α] (l : List α) (a : α) : Decidable (Single l a) :=
  inferInstanceAs (Decidable (_ = _))

/-- The second list is the first one with repeated elements removed. -/
structure Thinned (l l' : List α) : Prop where
  sublist : l'.Sublist l
  kept : ∀ a ∈ l, a ∈ l'

namespace Thinned

variable {l l' : List α}

theorem refl (l : List α) : Thinned l l := ⟨List.Sublist.refl l, fun _ mem => mem⟩

theorem mem_iff (thinned : Thinned l l') {a : α} : a ∈ l' ↔ a ∈ l :=
  ⟨fun mem => thinned.sublist.subset mem, thinned.kept a⟩

variable [DecidableEq α]

theorem erase {a : α} (repeated : 2 ≤ l.count a) : Thinned l (l.erase a) := by
  refine ⟨List.erase_sublist, fun b mem => ?_⟩
  by_cases same : b = a
  · rw [same]
    apply List.count_pos_iff.mp
    rw [List.count_erase_self]
    omega
  · exact (List.mem_erase_of_ne same).mpr mem

theorem single (thinned : Thinned l l') {a : α} (once : Single l a) : Single l' a := by
  unfold Single at once ⊢
  have mem : a ∈ l' := thinned.kept a (List.count_pos_iff.mp (by omega))
  have pos := List.count_pos_iff.mpr mem
  have le := thinned.sublist.count_le a
  omega

/-- A sum in which repeated elements have no share. -/
theorem sum_map_eq [AddCommMonoid M] (thinned : Thinned l l') {f : α → M}
    (once : ∀ a ∈ l, f a ≠ 0 → Single l a) : (l'.map f).sum = (l.map f).sum := by
  have elements : l'.toFinset = l.toFinset := by
    ext a
    rw [List.mem_toFinset, List.mem_toFinset, thinned.mem_iff]
  rw [Finset.sum_list_map_count, Finset.sum_list_map_count, elements]
  apply Finset.sum_congr rfl
  intro a mem
  by_cases none : f a = 0
  · rw [none, nsmul_zero, nsmul_zero]
  · have one := once a (List.mem_toFinset.mp mem) none
    have one' := thinned.single one
    rw [Single] at one one'
    rw [one, one']

end Thinned

/-! ## Sums over pairs -/

/-- The sum over all pairs of elements of two lists. -/
def pairSum [AddMonoid M] (f : α → β → M) (l : List α) (r : List β) : M :=
  (l.map fun a => (r.map (f a)).sum).sum

theorem map_pairSum {N : Type w} [AddMonoid M] [AddMonoid N] (g : M →+ N) (f : α → β → M)
    (l : List α) (r : List β) : g (pairSum f l r) = pairSum (fun a b => g (f a b)) l r := by
  simp only [pairSum, map_list_sum, List.map_map, Function.comp_def]

section PairSum

variable [AddCommGroup M] {f : α → β → M} {l l' : List α} {r r' : List β}

variable [DecidableEq α]

theorem pairSum_erase {a : α} (mem : a ∈ l) :
    pairSum f l r = (r.map (f a)).sum + pairSum f (l.erase a) r :=
  (List.sum_map_erase _ mem).symm

/-- An element that may be erased has no share. -/
theorem row_eq_zero {a : α} (mem : a ∈ l) (same : pairSum f (l.erase a) r = pairSum f l r) :
    (r.map (f a)).sum = 0 := by
  have split := pairSum_erase (f := f) (r := r) mem
  rw [same] at split
  exact left_eq_add.mp (split.trans (add_comm _ _))

variable [DecidableEq β]

/-- Thinning does not change a sum in which repeated elements have no share. -/
theorem pairSum_thinned (thinned : Thinned l l') (thinned' : Thinned r r')
    (once : ∀ a ∈ l, ∀ b ∈ r, f a b ≠ 0 → Single l a ∧ Single r b) :
    pairSum f l' r' = pairSum f l r := by
  have inner : ∀ a ∈ l', (r'.map (f a)).sum = (r.map (f a)).sum := fun a mem =>
    thinned'.sum_map_eq fun b here some => (once a (thinned.mem_iff.mp mem) b here some).2
  unfold pairSum
  rw [List.map_congr_left inner]
  apply thinned.sum_map_eq
  intro a mem some
  obtain ⟨b, here, share⟩ : ∃ b ∈ r, f a b ≠ 0 := by
    by_contra none
    apply some
    apply List.sum_eq_zero
    intro x within
    rcases List.mem_map.mp within with ⟨b, here, rfl⟩
    exact by_contra fun share => none ⟨b, here, share⟩
  exact (once a mem b here share).1

/-- If no thinning changes the sum, an element with a share that is repeated has a partner that is
not. -/
theorem single_of_thinned {a : α} {b : β} (mem : a ∈ l) (mem' : b ∈ r)
    (unique : ∀ b' ∈ r, f a b' ≠ 0 → b' = b) (share : f a b ≠ 0)
    (same : ∀ l' r', Thinned l l' → Thinned r r' → pairSum f l' r' = pairSum f l r) :
    Single l a := by
  by_contra several
  rw [Single] at several
  have pos := List.count_pos_iff.mpr mem
  have pos' := List.count_pos_iff.mpr mem'
  have thinned : Thinned l (l.erase a) := Thinned.erase (by omega)
  have row : (r.map (f a)).sum = 0 := row_eq_zero mem (same _ _ thinned (Thinned.refl r))
  have rest := List.sum_map_erase (f a) mem'
  by_cases single : r.count b = 1
  · -- the only partner, so erasing `a` takes its share away
    have none : ((r.erase b).map (f a)).sum = 0 := by
      apply List.sum_eq_zero
      intro x here
      rcases List.mem_map.mp here with ⟨b', within, rfl⟩
      by_contra some
      have eq := unique b' (List.mem_of_mem_erase within) some
      rw [eq] at within
      have count := List.count_pos_iff.mpr within
      rw [List.count_erase_self] at count
      omega
    rw [none, row, add_zero] at rest
    exact share rest
  · -- both are repeated, so erasing both shows the share
    have thinned' : Thinned r (r.erase b) := Thinned.erase (by omega)
    have right := same _ _ (Thinned.refl l) thinned'
    have both := same _ _ thinned thinned'
    have row' : ((r.erase b).map (f a)).sum = 0 := row_eq_zero mem (both.trans right.symm)
    rw [row, row', add_zero] at rest
    exact share rest

end PairSum

end Hipert
