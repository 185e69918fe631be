import Mathlib.Data.List.Sort
import Mathlib.Order.Defs.LinearOrder

/-!
# Stable sorting

A stable sort by a key leaves the elements of each key in their order. With the order of the keys
this determines the sort, so an element comes after the elements of lower keys and after those of
its own key that stood before it.
-/

namespace Hipert

universe u v

variable {α : Type u} {κ : Type v} [LinearOrder κ] {key : α → κ}

/-- The list sorted by increasing keys. -/
def sortBy (key : α → κ) (l : List α) : List α := l.insertionSort fun a b => key a ≤ key b

theorem pairwise_sortBy (key : α → κ) (l : List α) :
    (sortBy key l).Pairwise fun a b => key a ≤ key b := by
  have total : Std.Total fun a b => key a ≤ key b := ⟨fun a b => le_total (key a) (key b)⟩
  have trans : IsTrans α fun a b => key a ≤ key b := ⟨fun _ _ _ => le_trans⟩
  exact List.pairwise_insertionSort _ l

theorem perm_sortBy (key : α → κ) (l : List α) : (sortBy key l).Perm l :=
  List.perm_insertionSort _ l

theorem mem_sortBy {l : List α} {a : α} : a ∈ sortBy key l ↔ a ∈ l := (perm_sortBy key l).mem_iff

/-- **Stability.** The elements of a key stay in their order. -/
theorem filter_sortBy (l : List α) (k : κ) :
    (sortBy key l).filter (key · = k) = l.filter (key · = k) := by
  have sorted : (l.filter (key · = k)).Pairwise fun a b => key a ≤ key b := by
    apply List.pairwise_of_forall_mem_list
    intro a mem_a b mem_b
    have key_a : key a = k := by simpa using (List.mem_filter.mp mem_a).2
    have key_b : key b = k := by simpa using (List.mem_filter.mp mem_b).2
    exact (key_a.trans key_b.symm).le
  have sub : (l.filter (key · = k)).Sublist (sortBy key l) :=
    List.sublist_insertionSort sorted List.filter_sublist
  have within := sub.filter (key · = k)
  rw [List.filter_filter] at within
  simp only [Bool.and_self] at within
  exact (within.eq_of_length (((perm_sortBy key l).filter _).length_eq).symm).symm

theorem mem_of_filter_eq {l l' : List α}
    (same : ∀ k, l.filter (key · = k) = l'.filter (key · = k)) {a : α} (mem : a ∈ l) : a ∈ l' := by
  have here : a ∈ l.filter (key · = key a) := List.mem_filter.mpr ⟨mem, by simp⟩
  rw [same] at here
  exact List.mem_of_mem_filter here

/-- The head of a sorted list has the least key. -/
theorem key_le_of_mem {a b : α} {l : List α} (sorted : (a :: l).Pairwise fun a b => key a ≤ key b)
    (mem : b ∈ a :: l) : key a ≤ key b := by
  rcases List.mem_cons.mp mem with rfl | later
  · exact le_rfl
  · exact (List.pairwise_cons.mp sorted).1 b later

/-- A sorted list is determined by the elements of each key. -/
theorem eq_of_filter_eq {l l' : List α} (sorted : l.Pairwise fun a b => key a ≤ key b)
    (sorted' : l'.Pairwise fun a b => key a ≤ key b)
    (same : ∀ k, l.filter (key · = k) = l'.filter (key · = k)) : l = l' := by
  induction l generalizing l' with
  | nil =>
      cases l' with
      | nil => rfl
      | cons b l' => cases mem_of_filter_eq (fun k => (same k).symm) (List.mem_cons_self (a := b))
  | cons a l ih =>
      cases l' with
      | nil => cases mem_of_filter_eq same (List.mem_cons_self (a := a))
      | cons b l' =>
          have keys : key a = key b :=
            le_antisymm
              (key_le_of_mem sorted
                (mem_of_filter_eq (fun k => (same k).symm) List.mem_cons_self))
              (key_le_of_mem sorted' (mem_of_filter_eq same List.mem_cons_self))
          have heads := same (key a)
          rw [List.filter_cons_of_pos (by simp), List.filter_cons_of_pos (by simp [keys])] at heads
          rcases List.cons.inj heads with ⟨rfl, -⟩
          have tails : ∀ k, l.filter (key · = k) = l'.filter (key · = k) := by
            intro k
            have all := same k
            by_cases here : key a = k
            · rw [List.filter_cons_of_pos (by simp [here]),
                List.filter_cons_of_pos (by simp [here])] at all
              exact (List.cons.inj all).2
            · rwa [List.filter_cons_of_neg (by simp [here]),
                List.filter_cons_of_neg (by simp [here])] at all
          rw [ih (List.pairwise_cons.mp sorted).2 (List.pairwise_cons.mp sorted').2 tails]

theorem filter_filter_of_imp {p q : α → Prop} [DecidablePred p] [DecidablePred q]
    (imp : ∀ a, q a → p a) (l : List α) : (l.filter (p ·)).filter (q ·) = l.filter (q ·) := by
  rw [List.filter_filter]
  apply List.filter_congr
  intro a _
  by_cases here : q a
  · simp [here, imp a here]
  · simp [here]

theorem filter_filter_of_disjoint {p q : α → Prop} [DecidablePred p] [DecidablePred q]
    (disjoint : ∀ a, q a → ¬ p a) (l : List α) : (l.filter (p ·)).filter (q ·) = [] := by
  apply List.filter_eq_nil_iff.mpr
  intro a mem holds
  exact disjoint a (of_decide_eq_true holds) (of_decide_eq_true (List.mem_filter.mp mem).2)

/-- **Place of an element.** Before it come the lower keys and the elements of its own key that
stood before it, after it the other ones. -/
theorem sortBy_append_cons (before : List α) (a : α) (after : List α) :
    sortBy key (before ++ a :: after) =
      sortBy key (before.filter (key · ≤ key a) ++ after.filter (key · < key a)) ++ a ::
        sortBy key (before.filter (key a < key ·) ++ after.filter (key a ≤ key ·)) := by
  have low : ∀ b ∈ sortBy key (before.filter (key · ≤ key a) ++ after.filter (key · < key a)),
      key b ≤ key a := by
    intro b mem
    rw [mem_sortBy, List.mem_append, List.mem_filter, List.mem_filter, decide_eq_true_eq,
      decide_eq_true_eq] at mem
    rcases mem with ⟨-, le⟩ | ⟨-, lt⟩
    · exact le
    · exact lt.le
  have high : ∀ b ∈ sortBy key (before.filter (key a < key ·) ++ after.filter (key a ≤ key ·)),
      key a ≤ key b := by
    intro b mem
    rw [mem_sortBy, List.mem_append, List.mem_filter, List.mem_filter, decide_eq_true_eq,
      decide_eq_true_eq] at mem
    rcases mem with ⟨-, lt⟩ | ⟨-, le⟩
    · exact lt.le
    · exact le
  apply eq_of_filter_eq (pairwise_sortBy key _)
  · rw [List.pairwise_append, List.pairwise_cons]
    refine ⟨pairwise_sortBy key _, ⟨high, pairwise_sortBy key _⟩, ?_⟩
    intro b mem c mem'
    rcases List.mem_cons.mp mem' with rfl | later
    · exact low b mem
    · exact (low b mem).trans (high c later)
  · intro k
    rw [List.filter_append, List.filter_cons, filter_sortBy, filter_sortBy, filter_sortBy,
      List.filter_append, List.filter_append, List.filter_append, List.filter_cons]
    rcases lt_trichotomy k (key a) with less | rfl | more
    · rw [filter_filter_of_imp fun b eq => (eq.trans_lt less).le,
        filter_filter_of_imp fun b eq => eq.trans_lt less,
        filter_filter_of_disjoint fun b eq => (eq.trans_lt less).le.not_gt,
        filter_filter_of_disjoint fun b eq => (eq.trans_lt less).not_ge]
      simp [less.ne']
    · rw [filter_filter_of_imp fun b eq => eq.le, filter_filter_of_disjoint fun b eq => eq.not_lt,
        filter_filter_of_disjoint fun b eq => eq.not_gt, filter_filter_of_imp fun b eq => eq.ge]
      simp
    · rw [filter_filter_of_disjoint fun b eq => (more.trans_eq eq.symm).not_ge,
        filter_filter_of_disjoint fun b eq => (more.trans_eq eq.symm).le.not_gt,
        filter_filter_of_imp fun b eq => more.trans_eq eq.symm,
        filter_filter_of_imp fun b eq => (more.trans_eq eq.symm).le]
      simp [more.ne]

end Hipert
