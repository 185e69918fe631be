import Mathlib.Data.List.Destutter
import Mathlib.Algebra.BigOperators.Group.List.Basic

/-!
# Paths without repetitions and their costs

A path is built by appending what differs from its end. Its cost is that of its end where all its
elements have one key, and the sum over its elements otherwise.
-/

namespace Hipert

universe u v w

variable {α : Type u}

/-! ## Appending what is new -/

section Append

variable [DecidableEq α]

/-- The path with `a` at its end, where it is not there yet. -/
def addNew (path : List α) (a : α) : List α :=
  if path.getLast? = some a then path else path ++ [a]

theorem getLast?_addNew (path : List α) (a : α) : (addNew path a).getLast? = some a := by
  unfold addNew
  split
  · assumption
  · exact List.getLast?_concat

theorem addNew_addNew (path : List α) (a : α) : addNew (addNew path a) a = addNew path a := by
  rw [addNew, if_pos (getLast?_addNew path a)]

theorem addNew_cons {a b : α} {path : List α} (nonempty : path ≠ []) :
    addNew (a :: path) b = a :: addNew path b := by
  rcases List.exists_cons_of_ne_nil nonempty with ⟨c, rest, rfl⟩
  rw [addNew, addNew, List.getLast?_cons_cons, apply_ite (a :: ·)]
  rfl

theorem destutter'_concat (a b : α) (path : List α) :
    (path ++ [b]).destutter' (· ≠ ·) a = addNew (path.destutter' (· ≠ ·) a) b := by
  induction path generalizing a with
  | nil =>
      by_cases same : a = b
      · simp [addNew, same]
      · simp [addNew, same]
  | cons c path ih =>
      rw [List.cons_append, List.destutter'_cons, List.destutter'_cons, ih, ih]
      split
      · rw [addNew_cons (List.destutter'_ne_nil _ _)]
      · rfl

/-- Without repetitions a path starts as before. -/
theorem exists_destutter'_eq_cons (a : α) (path : List α) :
    ∃ rest, path.destutter' (· ≠ ·) a = a :: rest := by
  induction path with
  | nil => exact ⟨[], rfl⟩
  | cons b path ih =>
      rw [List.destutter'_cons]
      split
      · exact ⟨_, rfl⟩
      · exact ih

/-- Appending one by one removes the repetitions. -/
theorem foldl_addNew (path : List α) : path.foldl addNew [] = path.destutter (· ≠ ·) := by
  induction path using List.reverseRecOn with
  | nil => rfl
  | append_singleton path b ih =>
      rw [List.foldl_append, ih]
      cases path with
      | nil => rfl
      | cons a path => exact (destutter'_concat a b path).symm

/-- The path through a list of pairs: the start of the first one and the ends of all. -/
def pathOf : List (α × α) → List α
  | [] => []
  | p :: pairs => p.1 :: (p :: pairs).map (·.2)

/-- Where each pair starts at the end of the one before, adding both adds the ends only. -/
theorem foldl_linked {before : α × α} {pairs : List (α × α)}
    (linked : (before :: pairs).IsChain fun a b => a.2 = b.1) (nonempty : pairs ≠ [])
    (path : List α) :
    pairs.foldl (fun path p => addNew (addNew path p.1) p.2) path =
      (pairs.map (·.2)).foldl addNew (addNew path before.2) := by
  induction pairs generalizing before path with
  | nil => exact absurd rfl nonempty
  | cons p pairs ih =>
      obtain ⟨start, rest⟩ := List.isChain_cons_cons.mp linked
      rw [List.foldl_cons, ← start]
      cases pairs with
      | nil => rfl
      | cons q pairs =>
          rw [ih rest (List.cons_ne_nil _ _), addNew_addNew]
          rfl

/-- The pairs after the first one complete its path. -/
theorem foldl_linked_eq {first : α × α} {pairs : List (α × α)}
    (linked : (first :: pairs).IsChain fun a b => a.2 = b.1) (nonempty : pairs ≠ []) :
    pairs.foldl (fun path p => addNew (addNew path p.1) p.2) [first.1] =
      (pathOf (first :: pairs)).destutter (· ≠ ·) := by
  rw [foldl_linked linked nonempty, ← foldl_addNew]
  rfl

end Append

/-! ## Costs -/

section Costs

variable {κ : Type v} {M : Type w}

/-- The elements of the path have one key. -/
def OneKey (key : α → κ) (path : List α) : Prop := ∀ a ∈ path, ∀ b ∈ path, key a = key b

instance [DecidableEq κ] (key : α → κ) (path : List α) : Decidable (OneKey key path) :=
  inferInstanceAs (Decidable (∀ _ ∈ _, _))

/-- The cost of the end where there is one key, and of all elements otherwise. -/
def pathCost [DecidableEq κ] [AddMonoid M] (key : α → κ) (cost : α → M) (path : List α) : M :=
  if OneKey key path then (path.getLast?.map cost).getD 0 else (path.map cost).sum

theorem oneKey_cons (key : α → κ) (a : α) (path : List α) :
    OneKey key (a :: path) ↔ ∀ b ∈ path, key a = key b := by
  refine ⟨?_, ?_⟩
  · intro one b mem
    exact one a List.mem_cons_self b (List.mem_cons_of_mem _ mem)
  · intro same b mem_b c mem_c
    have first : ∀ x ∈ a :: path, key a = key x := by
      intro x mem
      rcases List.mem_cons.mp mem with rfl | later
      · rfl
      · exact same x later
    exact (first b mem_b).symm.trans (first c mem_c)

/-- **Coarser keys.** The cost by a coarser key is that by the key itself, except where the coarser
key is the same on the whole path and the elements before the end have a cost. -/
theorem pathCost_eq_iff [DecidableEq κ] {κ' : Type v} [DecidableEq κ'] [AddGroup M] {key : α → κ}
    {coarse : α → κ'} {path : List α}
    (coarser : ∀ a ∈ path, ∀ b ∈ path, key a = key b → coarse a = coarse b)
    (nonempty : path ≠ []) (cost : α → M) :
    pathCost coarse cost path = pathCost key cost path ↔
      OneKey key path ∨ ¬ OneKey coarse path ∨ (path.dropLast.map cost).sum = 0 := by
  by_cases one : OneKey key path
  · have same : OneKey coarse path := fun a ha b hb => coarser a ha b hb (one a ha b hb)
    rw [pathCost, pathCost, if_pos same, if_pos one]
    exact iff_of_true rfl (Or.inl one)
  · by_cases same : OneKey coarse path
    · have sum : (path.map cost).sum =
          (path.dropLast.map cost).sum + cost (path.getLast nonempty) := by
        conv_lhs => rw [← List.dropLast_append_getLast nonempty]
        simp
      rw [pathCost, pathCost, if_pos same, if_neg one, sum,
        List.getLast?_eq_some_getLast nonempty]
      simp only [Option.map_some, Option.getD_some, one, same, not_true, false_or, right_eq_add]
    · rw [pathCost, pathCost, if_neg same, if_neg one]
      exact iff_of_true rfl (Or.inr (Or.inl same))

end Costs

end Hipert
