import Mathlib.Data.List.Basic
import Mathlib.Data.List.DropRight
import Mathlib.Data.List.Infix
import Mathlib.Data.Nat.Basic

/-!
# Java texts

The methods of `String` and `Integer` that text-processing code uses, on lists of characters. What
depends on the platform (the case mapping of the default locale, the digit tables, doubles and their
texts) is a parameter, `JavaLang`, with the laws of it that proofs need.
-/

namespace Hipert

/-- A string. -/
abbrev Text := List Char

/-! ## Strings -/

/-- The characters that `trim` takes off: those up to the space. -/
def isBlankChar (c : Char) : Bool := c ≤ ' '

/-- `String.trim` -/
def trim (s : Text) : Text := (s.dropWhile isBlankChar).rdropWhile isBlankChar

/-- `s.startsWith(pre)` -/
def startsWith (pre s : Text) : Bool := pre.isPrefixOf s

/-- `s.contains(sub)` -/
def contains (sub s : Text) : Bool := s.tails.any fun t => sub.isPrefixOf t

/-- `s.replace(c, new)` for a single character `c`. -/
def replaceChar (c : Char) (new s : Text) : Text := s.flatMap fun x => if x = c then new else [x]

/-- The pieces between the occurrences of `sep`, found from the left; `skip` characters are still to
pass of the occurrence found last. -/
def pieces (sep : Text) : ℕ → Text → List Text
  | _, [] => [[]]
  | skip + 1, _ :: s => pieces sep skip s
  | 0, c :: s =>
    if sep.isPrefixOf (c :: s) then [] :: pieces sep (sep.length - 1) s
    else (pieces sep 0 s).modifyHead (c :: ·)

/-- `s.split(sep)` for a separator that is not empty and stands for itself as a pattern: a text
without it is its only piece, and empty pieces at the end are left out. -/
def split (sep s : Text) : List Text :=
  match pieces sep 0 s with
  | [p] => [p]
  | ps => ps.rdropWhile List.isEmpty

/-- `s.replace(sub, new)` for texts, where `sub` is not empty. -/
def replaceText (sub new s : Text) : Text := new.intercalate (pieces sub 0 s)

/-- `Integer.toString` -/
def intText : ℤ → Text
  | .ofNat n => Nat.toDigits 10 n
  | .negSucc n => '-' :: Nat.toDigits 10 (n + 1)

/-! ## The platform -/

/-- The parts of `java.lang` that depend on the locale, on character tables or on doubles, and the
test for blank strings that a library adds to it. -/
structure JavaLang (Double : Type) where
  /-- `String.toLowerCase()` -/
  toLowerCase : Text → Text
  /-- `String.toUpperCase()` -/
  toUpperCase : Text → Text
  /-- `Character.digit(c, 10)` -/
  digit : Char → Option ℕ
  /-- `Double.parseDouble` -/
  parseDouble : Text → Option Double
  /-- The double `-1`. -/
  negOne : Double
  /-- `Double.toString` -/
  doubleText : Double → Text
  /-- `StringUtil.isEmpty` of a string that is not `null` -/
  isEmpty : Text → Bool
  /-- What is left of a lower-case text is in lower case. -/
  toLowerCase_of_subset : ∀ s t, t ⊆ toLowerCase s → toLowerCase t = t
  /-- A solidus has no case. -/
  toLowerCase_solidus : ∀ s, ∃ t, toLowerCase ('/' :: s) = '/' :: t
  toUpperCase_nil : toUpperCase [] = []
  digit_solidus : digit '/' = none
  parseDouble_nil : parseDouble [] = none
  /-- Just the blank strings are empty. -/
  isEmpty_eq : ∀ s, isEmpty s = (trim s).isEmpty

section ParseInt

variable {Double : Type} (J : JavaLang Double)

/-- The number that a text of digits stands for, if it is one. -/
def digits (s : Text) : Option ℤ :=
  if s = [] then none
  else s.foldlM (fun n c => (J.digit c).map fun d => 10 * n + (d : ℤ)) 0

/-- `Integer.parseInt`: an optional sign and digits, within 32 bits. -/
def parseInt (s : Text) : Option ℤ :=
  let value := match s with
    | '-' :: ds => (digits J ds).map Neg.neg
    | '+' :: ds => digits J ds
    | ds => digits J ds
  value.filter fun n => -2147483648 ≤ n ∧ n ≤ 2147483647

end ParseInt

/-! ## Lemmas -/

section Lemmas

/-- What a test of each character shows. -/
theorem forall_chars {s : Text} {P : Char → Prop} [DecidablePred P]
    (all : (s.all fun c => decide (P c)) = true) : ∀ c ∈ s, P c :=
  fun c mem => of_decide_eq_true (List.all_eq_true.mp all c mem)

theorem pieces_ne_nil (sep : Text) (skip : ℕ) (s : Text) : pieces sep skip s ≠ [] := by
  induction s generalizing skip with
  | nil => exact List.cons_ne_nil _ _
  | cons d s ih =>
      cases skip with
      | succ skip => exact ih skip
      | zero =>
          rw [pieces]
          split
          · exact List.cons_ne_nil _ _
          · obtain ⟨p, ps, eq⟩ := List.exists_cons_of_ne_nil (ih 0)
            rw [eq]
            exact List.cons_ne_nil _ _

/-- The separator does not stand at the front. -/
theorem pieces_of_not_isPrefix {sep : Text} {c : Char} {s : Text} (other : ¬ sep <+: c :: s) :
    pieces sep 0 (c :: s) = (pieces sep 0 s).modifyHead (c :: ·) := by
  rw [pieces, if_neg (mt List.isPrefixOf_iff_prefix.mp other)]

theorem not_prefix_cons {sep : Text} {c : Char} (s : Text) (other : sep.head? ≠ some c)
    (nonempty : sep ≠ []) : ¬ sep <+: c :: s := by
  rcases List.exists_cons_of_ne_nil nonempty with ⟨x, xs, rfl⟩
  intro here
  exact other (by rw [(List.cons_prefix_cons.mp here).1]; rfl)

theorem pieces_cons (sep : Text) (c : Char) (s : Text) (other : sep.head? ≠ some c)
    (nonempty : sep ≠ []) : ∃ p ps, pieces sep 0 (c :: s) = (c :: p) :: ps := by
  obtain ⟨p, ps, eq⟩ := List.exists_cons_of_ne_nil (pieces_ne_nil sep 0 s)
  refine ⟨p, ps, ?_⟩
  rw [pieces_of_not_isPrefix (not_prefix_cons s other nonempty), eq]
  rfl

theorem split_prefix (sep s : Text) : split sep s <+: pieces sep 0 s := by
  unfold split
  split
  · rename_i eq
    rw [eq]
  · exact List.rdropWhile_prefix _ _

/-- The first piece begins as the text does, if the separator does not begin so. -/
theorem head_split {sep : Text} {c : Char} {s p : Text} (other : sep.head? ≠ some c)
    (nonempty : sep ≠ []) (first : (split sep (c :: s))[0]? = some p) : ∃ t, p = c :: t := by
  obtain ⟨q, qs, eq⟩ := pieces_cons sep c s other nonempty
  obtain ⟨rest, append⟩ := split_prefix sep (c :: s)
  cases split_eq : split sep (c :: s) with
  | nil =>
      rw [split_eq] at first
      cases first
  | cons r rs =>
      rw [split_eq] at first append
      rw [eq] at append
      cases first
      exact ⟨q, (List.cons.inj append).1⟩

theorem subset_of_contains {sub s : Text} (here : contains sub s = true) : sub ⊆ s := by
  obtain ⟨t, tail, pre⟩ := List.any_eq_true.mp here
  have suffix := (List.mem_tails t s).mp tail
  exact fun c mem => suffix.subset ((List.isPrefixOf_iff_prefix.mp pre).subset mem)

/-- Blanks before a text that begins and ends with others. -/
theorem trim_append {pre s : Text} (blank : ∀ c ∈ pre, isBlankChar c = true)
    (first : ∀ c ∈ s.head?, isBlankChar c = false) (last : ∀ c ∈ s.getLast?, isBlankChar c = false) :
    trim (pre ++ s) = s := by
  have front : s.dropWhile isBlankChar = s := by
    cases s with
    | nil => rfl
    | cons c s => exact List.dropWhile_cons_of_neg (by simp [first c rfl])
  have back : s.rdropWhile isBlankChar = s := by
    apply List.rdropWhile_eq_self_iff.mpr
    intro nonempty
    simp [last _ (List.getLast?_eq_some_getLast nonempty)]
  rw [trim, List.dropWhile_append_of_pos blank, front, back]

/-- Blanks before, and possibly behind, a text that begins and ends with others. -/
theorem exists_trim_append {pre s : Text} (blank : ∀ c ∈ pre, isBlankChar c = true)
    (first : ∀ c ∈ s.head?, isBlankChar c = false) (last : ∀ c ∈ s.getLast?, isBlankChar c = false)
    (nonempty : s ≠ []) (t : Text) : ∃ u, trim (pre ++ (s ++ t)) = s ++ u := by
  have front : (s ++ t).dropWhile isBlankChar = s ++ t := by
    rcases List.exists_cons_of_ne_nil nonempty with ⟨c, s, rfl⟩
    exact List.dropWhile_cons_of_neg (by simp [first c rfl])
  rw [trim, List.dropWhile_append_of_pos blank, front]
  have parts := List.rdropWhile_append_rtakeWhile (p := isBlankChar) (l := s ++ t)
  rcases List.append_eq_append_iff.mp parts with ⟨u, kept, cut⟩ | ⟨u, kept, -⟩
  · -- what is cut off would reach into the text
    cases u using List.reverseRecOn with
    | nil =>
        rw [List.append_nil] at kept
        exact ⟨[], kept.symm.trans (List.append_nil s).symm⟩
    | append_singleton u c =>
        have mem : c ∈ (s ++ t).rtakeWhile isBlankChar := by
          rw [cut]
          simp
        have low := List.mem_rtakeWhile_imp mem
        rw [last c (by rw [kept, ← List.append_assoc, List.getLast?_concat]; rfl)] at low
        cases low
  · exact ⟨u, kept⟩

theorem replaceChar_of_not_mem {c : Char} {new s : Text} (free : c ∉ s) :
    replaceChar c new s = s := by
  have same : ∀ x ∈ s, (if x = c then new else [x]) = [x] := by
    intro x mem
    apply if_neg
    rintro rfl
    exact free mem
  exact (List.flatMap_congr same).trans (List.flatMap_singleton' s)

theorem replaceChar_append (c : Char) (new s t : Text) :
    replaceChar c new (s ++ t) = replaceChar c new s ++ replaceChar c new t := List.flatMap_append

theorem blank_of_trim {s : Text} (nothing : trim s = []) : ∀ c ∈ s, isBlankChar c = true := by
  have rest := List.rdropWhile_eq_nil_iff.mp nothing
  by_contra visible
  have nonempty : s.dropWhile isBlankChar ≠ [] := fun eq =>
    visible (List.dropWhile_eq_nil_iff.mp eq)
  have head := List.head_dropWhile_not isBlankChar nonempty
  rw [rest _ (List.head_mem nonempty)] at head
  cases head

theorem trim_cons {c : Char} (s : Text) (visible : isBlankChar c = false) :
    ∃ t, trim (c :: s) = c :: t := by
  have keeps : (c :: s).dropWhile isBlankChar = c :: s := by
    rw [List.dropWhile_cons, if_neg (by simp [visible])]
  obtain ⟨rest, append⟩ := List.rdropWhile_prefix isBlankChar (c :: s)
  cases trimmed : (c :: s).rdropWhile isBlankChar with
  | nil =>
      have blank := List.rdropWhile_eq_nil_iff.mp trimmed c List.mem_cons_self
      rw [visible] at blank
      cases blank
  | cons x t =>
      rw [trimmed] at append
      refine ⟨t, ?_⟩
      rw [trim, keeps, trimmed, (List.cons.inj append).1]

/-- Two literals in a row make one. -/
theorem toList_append_toList (a b : String) (s : Text) :
    a.toList ++ (b.toList ++ s) = (a ++ b).toList ++ s := by
  rw [String.toList_append, List.append_assoc]

theorem digit_of_mem_toDigits {c : Char} {n : ℕ} (mem : c ∈ Nat.toDigits 10 n) :
    c.isDigit = true := Nat.isDigit_of_mem_toDigits (by omega) (by omega) mem

/-- The text of an integer has digits and at most a sign. -/
theorem not_mem_intText {c : Char} (other : c.isDigit = false) (unsigned : c ≠ '-') (n : ℤ) :
    c ∉ intText n := by
  have undigit : ∀ m, c ∉ Nat.toDigits 10 m := fun m mem => by
    rw [digit_of_mem_toDigits mem] at other
    cases other
  cases n with
  | ofNat n => exact undigit n
  | negSucc n =>
      intro mem
      rcases List.mem_cons.mp mem with eq | mem
      · exact unsigned eq
      · exact undigit _ mem

theorem quote_not_mem_intText (n : ℤ) : '\"' ∉ intText n :=
  not_mem_intText (by decide) (by decide) n

theorem toDigits_injective {n m : ℕ} (same : Nat.toDigits 10 n = Nat.toDigits 10 m) : n = m := by
  have value := congrArg (fun s => Nat.ofDigitChars 10 s 0) same
  simpa only [Nat.ofDigitChars_toDigits (b := 10) (by omega) (by omega)] using value

theorem minus_ne_toDigits (s : Text) (n : ℕ) : '-' :: s ≠ Nat.toDigits 10 n := by
  intro eq
  have mem : '-' ∈ Nat.toDigits 10 n := by
    rw [← eq]
    exact List.mem_cons_self
  cases digit_of_mem_toDigits mem

theorem intText_injective : Function.Injective intText := by
  intro n m same
  cases n with
  | ofNat n =>
      cases m with
      | ofNat m => exact congrArg Int.ofNat (toDigits_injective same)
      | negSucc m => exact absurd same.symm (minus_ne_toDigits _ _)
  | negSucc n =>
      cases m with
      | ofNat m => exact absurd same (minus_ne_toDigits _ _)
      | negSucc m =>
          have eq := toDigits_injective (List.cons.inj same).2
          rw [Nat.succ.inj eq]

/-- What comes after the last occurrence of a character can be read off. -/
theorem append_char_inj {c : Char} {a b v w : Text} (free : c ∉ v) (free' : c ∉ w) :
    a ++ c :: v = b ++ c :: w ↔ a = b ∧ v = w := by
  refine ⟨?_, ?_⟩
  · intro eq
    -- neither tail reaches back over the character
    have same : v = w := by
      rcases List.append_eq_append_iff.mp eq with ⟨m, -, tail⟩ | ⟨m, -, tail⟩
      · cases m with
        | nil => exact (List.cons.inj tail).2
        | cons x m =>
            rw [(List.cons.inj tail).2] at free
            exact absurd (List.mem_append_right m List.mem_cons_self) free
      · cases m with
        | nil => exact (List.cons.inj tail).2.symm
        | cons x m =>
            rw [(List.cons.inj tail).2] at free'
            exact absurd (List.mem_append_right m List.mem_cons_self) free'
    subst same
    exact ⟨List.append_cancel_right eq, rfl⟩
  · intro given
    rcases given with ⟨rfl, rfl⟩
    rfl

/-- In XML text, what comes after the last quote can be read off. -/
theorem append_value_inj {a b key v w : Text} (quoted : key.getLast? = some '\"')
    (free : '\"' ∉ v) (free' : '\"' ∉ w) :
    a ++ key ++ v = b ++ key ++ w ↔ a = b ∧ v = w := by
  rcases List.getLast?_eq_some_iff.mp quoted with ⟨init, rfl⟩
  have parts := append_char_inj (a := a ++ init) (b := b ++ init) free free'
  rw [List.append_left_inj] at parts
  simpa only [List.append_assoc, List.singleton_append] using parts

/-- A text that stands twice in another can be read off. -/
theorem append_twice_inj {a b v w : Text} : a ++ v ++ b ++ v = a ++ w ++ b ++ w ↔ v = w := by
  refine ⟨?_, ?_⟩
  · intro eq
    have lengths := congrArg List.length eq
    simp only [List.length_append] at lengths
    exact (List.append_inj' eq (by omega)).2
  · rintro rfl
    rfl

variable {Double : Type} {J : JavaLang Double}

theorem parseInt_nil : parseInt J [] = none := rfl

theorem parseInt_solidus (s : Text) : parseInt J ('/' :: s) = none := by
  simp [parseInt, digits, J.digit_solidus]

theorem toLowerCase_nil : J.toLowerCase [] = [] :=
  J.toLowerCase_of_subset [] [] (List.nil_subset _)

end Lemmas

/-! ## ASCII -/

theorem toLower_toLower (c : Char) : c.toLower.toLower = c.toLower := by
  unfold Char.toLower
  split
  · rename_i upper
    split
    · rename_i again
      have low := upper.1
      have high := again.2
      exfalso
      grind
    · rfl
  · rfl

/-- The platform on ASCII texts, with the doubles that are integers. -/
def asciiLang : JavaLang ℤ where
  toLowerCase s := s.map Char.toLower
  toUpperCase s := s.map Char.toUpper
  digit c := if c.isDigit then some (c.toNat - 48) else none
  parseDouble s :=
    if s = [] then none
    else s.foldlM (fun n c => if c.isDigit then some (10 * n + ((c.toNat - 48 : ℕ) : ℤ)) else none) 0
  negOne := -1
  doubleText n := intText n ++ ".0".toList
  isEmpty s := (trim s).isEmpty
  toLowerCase_of_subset s t subset := by
    refine (List.map_congr_left fun c mem => ?_).trans t.map_id
    rcases List.mem_map.mp (subset mem) with ⟨x, -, rfl⟩
    exact toLower_toLower x
  toLowerCase_solidus s := ⟨s.map Char.toLower, rfl⟩
  toUpperCase_nil := rfl
  digit_solidus := by decide
  parseDouble_nil := rfl
  isEmpty_eq _ := rfl

end Hipert
