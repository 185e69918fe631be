import Mathlib.Data.List.Nodup
import Mathlib.Logic.Function.Basic

/-!
# Stacks linked through a table

A stack whose elements are the indices of a table: a head and, for each element, a cell hold the
reference of the next one, or the mark of the end. The lemmas say what pushing an element, taking
one out at any depth, and writing other cells do to the list of elements.
-/

namespace Hipert

universe u v

variable {α : Type u} {β : Type v}

/-- The elements that are linked from a head on, where `ref a` refers to `a` and `stop` is the mark
of the end. -/
inductive Linked (ref : α → β) (stop : β) (cell : α → β) : β → List α → Prop where
  | stop : Linked ref stop cell stop []
  | next {a : α} {as : List α} :
    Linked ref stop cell (cell a) as → Linked ref stop cell (ref a) (a :: as)

namespace Linked

variable {ref : α → β} {stop : β} {cell : α → β} {head : β} {a : α} {as before after : List α}

/-- The cell of an element refers to those after it. -/
theorem drop (linked : Linked ref stop cell head (before ++ a :: after)) :
    Linked ref stop cell (cell a) after := by
  induction before generalizing head with
  | nil =>
      cases linked with
      | next rest => exact rest
  | cons b before ih =>
      cases linked with
      | next rest => exact ih rest

theorem head_eq_stop_iff (linked : Linked ref stop cell head as) (apart : ∀ a, ref a ≠ stop) :
    head = stop ↔ as = [] := by
  cases linked with
  | stop => exact iff_of_true rfl rfl
  | next rest => exact iff_of_false (apart _) (List.cons_ne_nil _ _)

/-- The element at the head, if the head refers to one. -/
theorem head_mem (linked : Linked ref stop cell (ref a) as) (apart : ∀ a, ref a ≠ stop)
    (injective : Function.Injective ref) : ∃ rest, as = a :: rest := by
  generalize same : ref a = head at linked
  cases linked with
  | stop => exact absurd same (apart a)
  | next rest => exact ⟨_, congrArg (· :: _) (injective same).symm⟩

variable [DecidableEq α]

theorem update_of_notMem (linked : Linked ref stop cell head as) (outside : a ∉ as) (link : β) :
    Linked ref stop (Function.update cell a link) head as := by
  induction linked with
  | stop => exact .stop
  | next rest ih =>
      rename_i b as
      obtain ⟨other, later⟩ := not_or.mp (outside ∘ List.mem_cons.mpr)
      have linked := ih later
      rw [← Function.update_of_ne (Ne.symm other) link cell] at linked
      exact .next linked

/-- An element is pushed: its cell is given the head, which then refers to it. -/
theorem push (linked : Linked ref stop cell head as) (outside : a ∉ as) :
    Linked ref stop (Function.update cell a head) (ref a) (a :: as) := by
  apply next
  rw [Function.update_self]
  exact linked.update_of_notMem outside head

/-- An element is taken out, and the head is given what its cell held: those before it go too. -/
theorem take (linked : Linked ref stop cell head (before ++ a :: after))
    (nodup : (before ++ a :: after).Nodup) (link : β) :
    Linked ref stop (Function.update cell a link) (cell a) after :=
  linked.drop.update_of_notMem (List.nodup_cons.mp (List.nodup_append.mp nodup).2.1).1 link

end Linked

end Hipert
