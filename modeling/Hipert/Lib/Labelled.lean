import Mathlib.Data.List.Perm.Basic
import Mathlib.Data.List.Count

/-!
# Two labellings of one list

The elements of a list are filed under a key with one of two labels. Two ways to label them give the
same files, up to order, when under each key as many elements lose the one label as lose the other.
-/

namespace Hipert

universe u v

variable {α : Type u} {κ : Type v} [DecidableEq κ]

theorem count_map_pair (key : α → κ) (p : α → Bool) (l : List α) (k : κ) (b : Bool) :
    (l.map fun a => (key a, p a)).count (k, b) = l.countP fun a => key a = k ∧ p a = b := by
  rw [List.count_eq_countP, List.countP_map]
  apply List.countP_congr
  intro a _
  simp

/-- What the one labelling has more than the other is what changes its label. -/
theorem countP_label_add (key : α → κ) (p q : α → Bool) (l : List α) (k : κ) (b : Bool) :
    (l.countP fun a => key a = k ∧ p a = b) + l.countP (fun a => key a = k ∧ q a = b ∧ p a = !b) =
      (l.countP fun a => key a = k ∧ q a = b) + l.countP fun a => key a = k ∧ p a = b ∧ q a = !b := by
  induction l with
  | nil => rfl
  | cons a l ih =>
      have head : ((if decide (key a = k ∧ p a = b) then 1 else 0) +
          if decide (key a = k ∧ q a = b ∧ p a = !b) then 1 else 0 : ℕ) =
          (if decide (key a = k ∧ q a = b) then 1 else 0) +
            if decide (key a = k ∧ p a = b ∧ q a = !b) then 1 else 0 := by
        by_cases here : key a = k
        · cases p a <;> cases q a <;> cases b <;> simp [here]
        · simp [here]
      simp only [List.countP_cons]
      calc _ = _ := Nat.add_add_add_comm _ _ _ _
        _ = _ := by rw [ih, head]
        _ = _ := Nat.add_add_add_comm _ _ _ _

/-- **Relabelling.** Two labellings agree up to order when the changes of label balance under each
key. -/
theorem map_label_perm_iff (key : α → κ) (p q : α → Bool) (l : List α) :
    (l.map fun a => (key a, p a)).Perm (l.map fun a => (key a, q a)) ↔
      ∀ k, (l.countP fun a => key a = k ∧ p a = true ∧ q a = false) =
        l.countP fun a => key a = k ∧ q a = true ∧ p a = false := by
  rw [List.perm_iff_count]
  refine ⟨?_, ?_⟩
  · intro same k
    have counts := same (k, true)
    rw [count_map_pair, count_map_pair] at counts
    have change := countP_label_add key p q l k true
    simp only [Bool.not_true] at change
    omega
  · rintro balance ⟨k, b⟩
    rw [count_map_pair, count_map_pair]
    have change := countP_label_add key p q l k b
    have balanced := balance k
    cases b with
    | true =>
        simp only [Bool.not_true] at change
        omega
    | false =>
        simp only [Bool.not_false] at change
        have left : (l.countP fun a => key a = k ∧ q a = false ∧ p a = true) =
            l.countP fun a => key a = k ∧ p a = true ∧ q a = false :=
          List.countP_congr fun a _ => by simp [and_comm]
        have right : (l.countP fun a => key a = k ∧ p a = false ∧ q a = true) =
            l.countP fun a => key a = k ∧ q a = true ∧ p a = false :=
          List.countP_congr fun a _ => by simp [and_comm]
        omega

end Hipert
