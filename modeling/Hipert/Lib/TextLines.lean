import Hipert.Lib.JavaText

/-!
# Files of text

The lines that a `BufferedReader` reads off a file, and what is written back line by line: lines
without ends of lines are read as they were written (`readLines_writeLines`).
-/

namespace Hipert

/-! ## Lines -/

/-- A character before the first of these lines. -/
def pushChar (c : Char) : List Text → List Text
  | [] => [[c]]
  | l :: ls => (c :: l) :: ls

/-- The lines from here on; `afterReturn` holds just after a carriage return, with which a line feed
forms one end of line. -/
def linesFrom : Bool → Text → List Text
  | _, [] => []
  | afterReturn, c :: s =>
    if c = '\n' then
      if afterReturn then linesFrom false s else [] :: linesFrom false s
    else if c = '\r' then [] :: linesFrom true s
    else pushChar c (linesFrom false s)

/-- The lines of a file by `BufferedReader.readLine`. -/
def readLines (s : Text) : List Text := linesFrom false s

/-- The file with these lines, each with a line feed. -/
def writeLines (ls : List Text) : Text := ls.flatMap fun l => l ++ "\n".toList

/-- A text within one line. -/
def IsLine (l : Text) : Prop := '\n' ∉ l ∧ '\r' ∉ l

theorem linesFrom_append {l : Text} (line : IsLine l) (s : Text) :
    linesFrom false (l ++ '\n' :: s) = l :: linesFrom false s := by
  induction l with
  | nil => rfl
  | cons c l ih =>
      have feed : c ≠ '\n' := fun eq => line.1 (eq ▸ List.mem_cons_self)
      have ret : c ≠ '\r' := fun eq => line.2 (eq ▸ List.mem_cons_self)
      have rest : IsLine l := ⟨fun mem => line.1 (List.mem_cons_of_mem _ mem),
        fun mem => line.2 (List.mem_cons_of_mem _ mem)⟩
      rw [List.cons_append, linesFrom, if_neg feed, if_neg ret, ih rest]
      rfl

/-- What is written line by line is read line by line. -/
theorem readLines_writeLines {ls : List Text} (lines : ∀ l ∈ ls, IsLine l) :
    readLines (writeLines ls) = ls := by
  induction ls with
  | nil => rfl
  | cons l ls ih =>
      have first := linesFrom_append (lines l List.mem_cons_self) (writeLines ls)
      have rest := ih fun l' mem => lines l' (List.mem_cons_of_mem _ mem)
      unfold readLines at rest ⊢
      unfold writeLines at first rest ⊢
      rw [List.flatMap_cons, List.append_assoc]
      exact first.trans (congrArg (List.cons l) rest)

/-- The lines that are read have no ends of lines. -/
theorem isLine_of_mem_readLines {s l : Text} (mem : l ∈ readLines s) : IsLine l := by
  have all : ∀ (afterReturn : Bool), ∀ l ∈ linesFrom afterReturn s, IsLine l := by
    clear mem
    induction s with
    | nil => exact fun _ l mem => nomatch mem
    | cons c s ih =>
        have empty : IsLine [] := ⟨List.not_mem_nil, List.not_mem_nil⟩
        intro afterReturn
        rw [linesFrom]
        split
        · split
          · exact ih false
          · exact List.forall_mem_cons.mpr ⟨empty, ih false⟩
        split
        · exact List.forall_mem_cons.mpr ⟨empty, ih true⟩
        · rename_i feed ret
          have rest := ih false
          have push : ∀ l, IsLine l → IsLine (c :: l) := fun l line =>
            ⟨List.not_mem_cons_of_ne_of_not_mem (Ne.symm feed) line.1,
              List.not_mem_cons_of_ne_of_not_mem (Ne.symm ret) line.2⟩
          cases lines : linesFrom false s with
          | nil => exact List.forall_mem_cons.mpr ⟨push [] empty, fun l mem => nomatch mem⟩
          | cons l ls =>
              rw [lines] at rest
              obtain ⟨first, others⟩ := List.forall_mem_cons.mp rest
              exact List.forall_mem_cons.mpr ⟨push l first, others⟩
  exact all false l mem

/-! ## Searching a line -/

theorem contains_iff {sub s : Text} : contains sub s = true ↔ sub <:+: s := by
  rw [contains, List.any_eq_true, List.infix_iff_prefix_suffix]
  refine exists_congr fun t => ?_
  rw [List.mem_tails, List.isPrefixOf_iff_prefix]
  exact and_comm

theorem contains_eq_false_of_isInfix {sub sub' s : Text} (part : sub <:+: sub')
    (none : contains sub s = false) : contains sub' s = false := by
  apply Bool.eq_false_iff.mpr
  intro here
  rw [contains_iff.mpr (part.trans (contains_iff.mp here))] at none
  cases none

/-- A text with the only occurrence of a character is searched before and behind it. -/
theorem contains_around_iff {c : Char} {p q x y : Text} (before : c ∉ x) (behind : c ∉ y) :
    contains (p ++ c :: q) (x ++ c :: y) = true ↔ p <:+ x ∧ q <+: y := by
  rw [contains_iff]
  refine ⟨?_, ?_⟩
  · intro given
    rcases given with ⟨u, v, eq⟩
    have parts : (u ++ p) ++ c :: (q ++ v) = x ++ c :: y := by
      simpa only [List.append_assoc, List.cons_append] using eq
    obtain ⟨left, -, right⟩ := (List.append_cons_inj_of_notMem before behind).mp parts.symm
    exact ⟨⟨u, left.symm⟩, ⟨v, right.symm⟩⟩
  · intro given
    rcases given with ⟨⟨u, rfl⟩, ⟨v, rfl⟩⟩
    exact ⟨u, v, by simp only [List.append_assoc, List.cons_append]⟩

end Hipert
