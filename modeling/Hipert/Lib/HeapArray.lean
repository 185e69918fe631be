import Mathlib.Data.List.Basic
import Mathlib.Data.Nat.Basic

/-!
# Arrays on the heap

A block of memory that a program allocated for a number of entries, with the stores it made into it,
also those outside. An entry reads back what was stored there last. An entry outside of the block,
or never written, reads back nothing.
-/

namespace Hipert

universe u

/-- An allocated array and the stores made through its pointer, newest first. -/
structure HeapArray (α : Type u) where
  entries : ℕ
  stores : List (ℕ × α)
  deriving DecidableEq, Repr

namespace HeapArray

variable {α : Type u}

/-- A new array, with nothing in it. -/
def alloc (entries : ℕ) : HeapArray α := ⟨entries, []⟩

/-- `a[i] = v`. -/
def store (a : HeapArray α) (i : ℕ) (v : α) : HeapArray α := { a with stores := (i, v) :: a.stores }

/-- The value of `a[i]`. -/
def load (a : HeapArray α) (i : ℕ) : Option α :=
  if i < a.entries then (a.stores.find? (fun s => s.1 = i)).map Prod.snd else none

/-- Every store went into the block. -/
def InBounds (a : HeapArray α) : Prop := ∀ s ∈ a.stores, s.1 < a.entries

/-- Every entry was written, and together they hold the list `xs`. -/
def Holds (a : HeapArray α) (xs : List α) : Prop :=
  xs.length = a.entries ∧ ∀ i < a.entries, a.load i = xs[i]?

instance (a : HeapArray α) : Decidable a.InBounds := inferInstanceAs (Decidable (∀ _ ∈ _, _))

instance [DecidableEq α] (a : HeapArray α) (xs : List α) : Decidable (a.Holds xs) :=
  inferInstanceAs (Decidable (_ ∧ _))

@[simp] theorem entries_alloc (n : ℕ) : (alloc n : HeapArray α).entries = n := rfl

@[simp] theorem entries_store (a : HeapArray α) (i : ℕ) (v : α) :
    (a.store i v).entries = a.entries := rfl

theorem load_store_self {a : HeapArray α} {i : ℕ} (inside : i < a.entries) (v : α) :
    (a.store i v).load i = some v := by
  simp [load, store, inside]

theorem load_store_ne (a : HeapArray α) {i j : ℕ} (other : j ≠ i) (v : α) :
    (a.store i v).load j = a.load j := by
  simp [load, store, other.symm]

theorem load_of_le {a : HeapArray α} {i : ℕ} (outside : a.entries ≤ i) : a.load i = none := by
  rw [load, if_neg (Nat.not_lt.mpr outside)]

theorem inBounds_alloc (n : ℕ) : (alloc n : HeapArray α).InBounds := by
  intro s mem
  cases mem

theorem inBounds_store {a : HeapArray α} {i : ℕ} {v : α} :
    (a.store i v).InBounds ↔ i < a.entries ∧ a.InBounds := by
  simp [InBounds, store]

theorem Holds.load_eq {a : HeapArray α} {xs : List α} (holds : a.Holds xs) (i : ℕ) :
    a.load i = xs[i]? := by
  rcases Nat.lt_or_ge i a.entries with inside | outside
  · exact holds.2 i inside
  · rw [load_of_le outside, List.getElem?_eq_none (by rwa [holds.1])]

/-- What the first `k` loads find. -/
theorem Holds.filterMap_load {a : HeapArray α} {xs : List α} (holds : a.Holds xs) (k : ℕ) :
    (List.range k).filterMap a.load = xs.take k := by
  induction k with
  | zero => rfl
  | succ k ih =>
      have last : [k].filterMap a.load = (a.load k).toList := by
        cases known : a.load k <;> simp [known]
      rw [List.range_succ, List.filterMap_append, ih, last, List.take_add_one, holds.load_eq k]

theorem Holds.unique {a : HeapArray α} {xs ys : List α} (left : a.Holds xs) (right : a.Holds ys) :
    xs = ys := by
  apply List.ext_getElem?
  intro i
  rw [← left.load_eq i, ← right.load_eq i]

/-! ## Filling an array -/

/-- `for (i = 0; i < n; i++) a[i] = f(i)`. -/
def fill (a : HeapArray α) (n : ℕ) (f : ℕ → α) : HeapArray α :=
  (List.range n).foldl (fun a i => a.store i (f i)) a

theorem fill_succ (a : HeapArray α) (n : ℕ) (f : ℕ → α) :
    a.fill (n + 1) f = (a.fill n f).store n (f n) := by
  rw [fill, List.range_succ, List.foldl_append]
  rfl

@[simp] theorem entries_fill (a : HeapArray α) (n : ℕ) (f : ℕ → α) :
    (a.fill n f).entries = a.entries := by
  induction n with
  | zero => rfl
  | succ n ih => rw [fill_succ, entries_store, ih]

theorem load_fill {a : HeapArray α} {n i : ℕ} (filled : i < n) (inside : i < a.entries)
    (f : ℕ → α) : (a.fill n f).load i = some (f i) := by
  induction n with
  | zero => omega
  | succ n ih =>
      rw [fill_succ]
      rcases Nat.lt_succ_iff_lt_or_eq.mp filled with earlier | last
      · rw [load_store_ne _ (Nat.ne_of_lt earlier), ih earlier]
      · subst last
        rw [load_store_self (by simpa using inside)]

theorem inBounds_fill {a : HeapArray α} {n : ℕ} (inBounds : a.InBounds) (fits : n ≤ a.entries)
    (f : ℕ → α) : (a.fill n f).InBounds := by
  induction n with
  | zero => exact inBounds
  | succ n ih =>
      rw [fill_succ, inBounds_store, entries_fill]
      exact ⟨fits, ih (Nat.le_of_succ_le fits)⟩

/-- An array filled to its end holds the values of `f`. -/
theorem holds_fill (n : ℕ) (f : ℕ → α) : ((alloc n).fill n f).Holds ((List.range n).map f) := by
  refine ⟨by simp, fun i inside => ?_⟩
  rw [entries_fill, entries_alloc] at inside
  rw [load_fill inside inside, List.getElem?_map, List.getElem?_range inside]
  rfl

/-- `for (i = 0; i < n; i++) a[i] = f(i)`, where the value of `f` may be missing. -/
def fillM (a : HeapArray α) (n : ℕ) (f : ℕ → Option α) : Option (HeapArray α) :=
  (List.range n).foldlM (fun a i => (f i).map (a.store i)) a

theorem fillM_succ (a : HeapArray α) (n : ℕ) (f : ℕ → Option α) :
    a.fillM (n + 1) f = (a.fillM n f).bind fun b => (f n).map (b.store n) := by
  rw [fillM, List.range_succ, List.foldlM_append]
  simp [fillM]

theorem fillM_eq_fill {a : HeapArray α} {n : ℕ} {f : ℕ → Option α} {g : ℕ → α}
    (values : ∀ i < n, f i = some (g i)) : a.fillM n f = some (a.fill n g) := by
  induction n with
  | zero => rfl
  | succ n ih =>
      have before := ih fun i less => values i (Nat.lt_succ_of_lt less)
      rw [fillM_succ, before, Option.bind_some, values n (Nat.lt_succ_self n), fill_succ]
      rfl

/-- A loop that misses its first value does not get past it. -/
theorem fillM_eq_none {a : HeapArray α} {n : ℕ} {f : ℕ → Option α} (positive : 0 < n)
    (missing : f 0 = none) : a.fillM n f = none := by
  induction n with
  | zero => omega
  | succ n ih =>
      rw [fillM_succ]
      cases n with
      | zero => simp [fillM, missing]
      | succ n => rw [ih (Nat.succ_pos n), Option.bind_none]

end HeapArray

end Hipert
