import Hipert.Lib.KeyValue
import Hipert.Lib.TextLines

/-!
# Lists of attributes

What is cut out of a list of attributes that commas separate, when the text behind a key is taken as
far as the next comma (`standing`): the first attribute with the key counts, if a comma closes it.
Another order of the attributes, with other blanks around them, gives the same value just if the
first attributes with the key have the same, closed or left open (`keepsKey_iff`).
-/

namespace Hipert

/-! ## Pieces of a text and of its parts -/

section Pieces

variable {c : Char} {sep s t : Text}

/-- The last of these pieces and the first of those make one, with `c` between. -/
def glue (c : Char) : List Text → List Text → List Text
  | [], qs => qs
  | [p], qs => qs.modifyHead (p ++ c :: ·)
  | p :: p' :: ps, qs => p :: glue c (p' :: ps) qs

theorem glue_cons {p : Text} {ps : List Text} (more : ps ≠ []) (qs : List Text) :
    glue c (p :: ps) qs = p :: glue c ps qs := by
  rcases List.exists_cons_of_ne_nil more with ⟨p', ps, rfl⟩
  rfl

theorem glue_modifyHead {ps : List Text} (d : Char) (nonempty : ps ≠ []) (qs : List Text) :
    glue c (ps.modifyHead (d :: ·)) qs = (glue c ps qs).modifyHead (d :: ·) := by
  rcases List.exists_cons_of_ne_nil nonempty with ⟨p, ps, rfl⟩
  cases ps with
  | nil =>
      rw [List.modifyHead_cons, glue, glue, List.modifyHead_modifyHead]
      rfl
  | cons p' ps => rfl

theorem length_glue {ps : List Text} (nonempty : ps ≠ []) (q : Text) :
    (glue c ps [q]).length = ps.length := by
  induction ps with
  | nil => exact absurd rfl nonempty
  | cons p ps ih =>
      cases ps with
      | nil => rfl
      | cons p' ps =>
          rw [glue, List.length_cons, ih (List.cons_ne_nil p' ps)]
          rfl

/-- No occurrence reaches over a character that the separator does not have. -/
theorem pieces_append_cons (nonempty : sep ≠ []) (free : c ∉ sep) (s t : Text) :
    pieces sep 0 (s ++ c :: t) = glue c (pieces sep 0 s) (pieces sep 0 t) := by
  induction length : s.length using Nat.strong_induction_on generalizing s with
  | _ n ih =>
    subst length
    cases s with
    | nil =>
        have other : sep.head? ≠ some c := fun head => free (List.mem_of_mem_head? head)
        exact pieces_of_not_isPrefix (not_prefix_cons t other nonempty)
    | cons d s =>
        by_cases here : sep <+: d :: s
        · obtain ⟨u, eq⟩ := here
          have shorter : u.length < (d :: s).length := by
            have positive := List.length_pos_of_ne_nil nonempty
            rw [← eq, List.length_append]
            omega
          rw [← eq, List.append_assoc, pieces_at nonempty, pieces_at nonempty,
            glue_cons (pieces_ne_nil _ _ _), ih u.length shorter u rfl]
        · have not_over : ¬ sep <+: d :: (s ++ c :: t) := by
            intro given
            rcases given with ⟨u, eq⟩
            rw [← List.cons_append] at eq
            rcases List.append_eq_append_iff.mp eq with ⟨v, inside, -⟩ | ⟨v, reach, rest⟩
            · exact here ⟨v, inside.symm⟩
            · cases v with
              | nil => exact here (by rw [reach, List.append_nil])
              | cons x v =>
                  apply free
                  rw [reach, (List.cons.inj rest).1]
                  simp
          rw [List.cons_append, pieces_of_not_isPrefix not_over, pieces_of_not_isPrefix here,
            ih s.length (by simp) s rfl, glue_modifyHead d (pieces_ne_nil _ _ _)]

/-- The separator does not begin in the first part. -/
theorem pieces_append (s : Text) (other : ∀ x ∈ t, sep.head? ≠ some x) (nonempty : sep ≠ []) :
    pieces sep 0 (t ++ s) = (pieces sep 0 s).modifyHead (t ++ ·) := by
  induction t with
  | nil =>
      obtain ⟨p, ps, eq⟩ := List.exists_cons_of_ne_nil (pieces_ne_nil sep 0 s)
      rw [List.nil_append, eq]
      rfl
  | cons x t ih =>
      have not_here := not_prefix_cons (t ++ s) (other x List.mem_cons_self) nonempty
      rw [List.cons_append, pieces_of_not_isPrefix not_here,
        ih fun y mem => other y (List.mem_cons_of_mem _ mem), List.modifyHead_modifyHead]
      rfl

theorem rdropWhile_append {α : Type} (p : α → Bool) (xs ys : List α) :
    (xs ++ ys).rdropWhile p =
      if ys.rdropWhile p = [] then xs.rdropWhile p else xs ++ ys.rdropWhile p := by
  simp only [List.rdropWhile, List.reverse_append, List.dropWhile_append, List.isEmpty_iff,
    List.reverse_eq_nil_iff]
  split
  · rfl
  · rw [List.reverse_append, List.reverse_reverse]

/-- The second field of a split depends on the later pieces alone. -/
theorem split_getElem?_one (sep s : Text) :
    (split sep s)[1]? = ((pieces sep 0 s).tail.rdropWhile List.isEmpty)[0]? := by
  obtain ⟨p, ps, eq⟩ := List.exists_cons_of_ne_nil (pieces_ne_nil sep 0 s)
  unfold split
  rw [eq]
  cases ps with
  | nil => rfl
  | cons q ps =>
      change (([p] ++ q :: ps).rdropWhile List.isEmpty)[1]? =
        ((q :: ps).rdropWhile List.isEmpty)[0]?
      rw [rdropWhile_append]
      split
      · rename_i nothing
        rw [nothing]
        apply List.getElem?_eq_none
        exact (List.rdropWhile_prefix List.isEmpty [p]).length_le
      · rfl

end Pieces

/-! ## Pieces between characters -/

section Char

variable {c : Char} {s t : Text}

/-- The first piece is what comes before the separator. -/
theorem head_pieces_char (c : Char) (s : Text) :
    (pieces [c] 0 s)[0]? = some (s.takeWhile (· ≠ c)) := by
  have kept : ∀ w : Text, c ∉ w → ∀ x ∈ w, decide (x ≠ c) = true := fun w free x mem =>
    decide_eq_true (ne_of_mem_of_not_mem mem free)
  by_cases mem : c ∈ s
  · rcases List.eq_append_cons_of_mem mem with ⟨w, u, rfl, free⟩
    rw [pieces_char free, List.takeWhile_append_of_pos (kept w free)]
    simp
  · rw [pieces_char_self mem, List.takeWhile_eq_self_iff.mpr (kept s mem)]
    rfl

/-- All pieces are empty just if there is nothing but the separator. -/
theorem rdropWhile_pieces_char :
    (pieces [c] 0 s).rdropWhile List.isEmpty = [] ↔ ∀ d ∈ s, d = c := by
  rw [List.rdropWhile_eq_nil_iff]
  induction s with
  | nil => simp [pieces]
  | cons d s ih =>
      by_cases same : d = c
      · subst same
        have first := pieces_char (c := d) List.not_mem_nil s
        rw [List.nil_append] at first
        rw [first]
        simpa using ih
      · have other : ¬ [c] <+: d :: s := not_prefix_cons s (by simpa using Ne.symm same) (by simp)
        obtain ⟨p, ps, eq⟩ := List.exists_cons_of_ne_nil (pieces_ne_nil [c] 0 s)
        rw [pieces_of_not_isPrefix other, eq]
        simp [same]

/-- The first piece is kept if there is a character other than the separator. -/
theorem head_rdropWhile_pieces {d : Char} (mem : d ∈ s) (other : d ≠ c) :
    ((pieces [c] 0 s).rdropWhile List.isEmpty)[0]? = (pieces [c] 0 s)[0]? := by
  obtain ⟨rest, append⟩ := List.rdropWhile_prefix List.isEmpty (pieces [c] 0 s)
  have some_left := mt rdropWhile_pieces_char.mp fun all => other (all d mem)
  obtain ⟨p, ps, eq⟩ := List.exists_cons_of_ne_nil some_left
  rw [eq] at append ⊢
  rw [← append]
  rfl

end Char

/-! ## A value and its comma -/

/-- `s.split(",")[0]`, if `s` has two fields at least. -/
def beforeComma (s : Text) : Option Text :=
  if (split [','] s).length < 2 then none else (split [','] s)[0]?

theorem beforeComma_of_not_mem {v : Text} (free : ',' ∉ v) : beforeComma v = none := by
  rw [beforeComma, split_of_not_mem free]
  rfl

/-- The value counts if something other than commas comes behind its comma. -/
theorem beforeComma_append {v x : Text} [Decidable (∀ d ∈ x, d = ',')] (free : ',' ∉ v) :
    beforeComma (v ++ ',' :: x) = if ∀ d ∈ x, d = ',' then none else some v := by
  obtain ⟨p, ps, eq⟩ := List.exists_cons_of_ne_nil (pieces_ne_nil [','] 0 x)
  have fields : split [','] (v ++ ',' :: x) =
      (v :: pieces [','] 0 x).rdropWhile List.isEmpty := by
    rw [split, pieces_char free, eq]
  unfold beforeComma
  rw [fields, ← List.singleton_append, rdropWhile_append]
  simp only [rdropWhile_pieces_char]
  by_cases commas : ∀ d ∈ x, d = ','
  · rw [if_pos commas, if_pos commas]
    have short := (List.rdropWhile_prefix List.isEmpty [v]).length_le
    rw [List.length_singleton] at short
    rw [if_pos (by omega)]
  · rw [if_neg commas, if_neg commas]
    have some_left := List.length_pos_of_ne_nil (mt rdropWhile_pieces_char.mp commas)
    rw [List.singleton_append, List.length_cons, if_neg (by omega)]
    rfl

/-! ## Texts of lists -/

section Texts

variable {sub x y t : Text} {c d : Char} {as : List Text}

theorem contains_append_cons (free : c ∉ sub) :
    contains sub (x ++ c :: y) = true ↔ contains sub x = true ∨ contains sub y = true := by
  simp only [contains_iff]
  refine ⟨?_, ?_⟩
  · intro given
    rcases given with ⟨u, v, eq⟩
    rcases List.append_eq_append_iff.mp eq with ⟨m, inside, -⟩ | ⟨m, reach, rest⟩
    · exact Or.inl ⟨u, m, inside.symm⟩
    · rcases List.append_eq_append_iff.mp reach with ⟨w, -, tail⟩ | ⟨w, -, tail⟩
      · -- the occurrence ends at the character, or has it
        cases m with
        | nil => exact Or.inl ⟨u, [], by rw [List.append_nil, reach, List.append_nil]⟩
        | cons z m =>
            rw [tail, (List.cons.inj rest).1] at free
            exact absurd (by simp) free
      · cases w with
        | nil =>
            cases m with
            | nil => exact Or.inl ⟨u, [], by rw [List.append_nil, reach, List.append_nil]⟩
            | cons z m =>
                rw [List.nil_append] at tail
                rw [← tail, (List.cons.inj rest).1] at free
                exact absurd List.mem_cons_self free
        | cons z w =>
            rw [tail] at rest
            exact Or.inr ⟨w, v, (List.cons.inj rest).2.symm⟩
  · rintro (⟨u, v, rfl⟩ | ⟨u, v, rfl⟩)
    · exact ⟨u, v ++ c :: y, by simp⟩
    · exact ⟨x ++ c :: u, v, by simp⟩

theorem contains_nil {sub : Text} (nonempty : sub ≠ []) : ¬ contains sub [] = true := by
  rw [contains_iff]
  intro given
  rcases given with ⟨u, v, eq⟩
  exact nonempty (List.append_eq_nil_iff.mp (List.append_eq_nil_iff.mp eq).1).2

/-- What has no separator is found in an attribute or behind the list. -/
theorem contains_list (nonempty : sub ≠ []) (comma : ',' ∉ sub) (free : d ∉ sub) :
    contains sub ([','].intercalate as ++ d :: t) = true ↔
      (∃ a ∈ as, contains sub a = true) ∨ contains sub t = true := by
  induction as with
  | nil =>
      rw [List.intercalate_nil, contains_append_cons free]
      simp [contains_nil nonempty]
  | cons a as ih =>
      cases as with
      | nil =>
          rw [List.intercalate_singleton, contains_append_cons free]
          simp
      | cons b as =>
          rw [List.intercalate_cons_cons, List.append_assoc, List.append_assoc,
            List.singleton_append, contains_append_cons comma, ih]
          simp only [List.exists_mem_cons_iff, or_assoc]

theorem mem_list_iff (other : c ≠ ',') : c ∈ [','].intercalate as ↔ ∃ a ∈ as, c ∈ a := by
  induction as with
  | nil => simp
  | cons a as ih =>
      cases as with
      | nil => simp
      | cons b as =>
          rw [List.intercalate_cons_cons, List.mem_append, List.mem_append, ih,
            List.exists_mem_cons_iff (a := a)]
          simp [other]

theorem flatMap_list {low : Char → Text} (comma : low ',' = [',']) (as : List Text) :
    ([','].intercalate as).flatMap low = [','].intercalate (as.map fun a => a.flatMap low) := by
  induction as with
  | nil => rfl
  | cons a as ih =>
      cases as with
      | nil => simp
      | cons b as =>
          rw [List.intercalate_cons_cons, List.flatMap_append, List.flatMap_append, ih]
          simp [comma]

end Texts

/-! ## The attribute that counts -/

section Attributes

variable (key tail : Text)

/-- What comes before the key. -/
def front (s : Text) : Text := (pieces key 0 s).headD []

/-- What comes behind the key, as far as it comes again. -/
def behind (s : Text) : Option Text := (pieces key 0 s)[1]?

/-- How often the key stands in the text. -/
def occurrences (s : Text) : ℕ := (pieces key 0 s).length - 1

/-- Behind the comma comes something else before the key comes again. -/
def followed : List Text → Bool
  | [] => true
  | a :: as => if a = [] then followed as else !startsWith key a

/-- The value of the key that counts in a list of attributes with this text behind them: that of the
first attribute with the key, if there is a comma behind the value. -/
def standing : List Text → Option Text
  | [] => (behind key tail).bind beforeComma
  | a :: as =>
    match pieces key 0 a with
    | [_, v] =>
      if as = [] then beforeComma (v ++ front key tail) else if followed key as then some v else none
    | _ :: _ :: _ :: _ => none
    | _ => standing as

/-- The first attribute with the key, and those behind it. -/
def leader : List Text → Option (Text × List Text)
  | [] => none
  | a :: as => if (behind key a).isSome then some (a, as) else leader as

/-- A comma closes the value of an attribute before others: the attribute has the key once, and the
key does not come again right behind the comma. -/
def Closed (a : Text) (as : List Text) : Prop :=
  occurrences key a = 1 ∧ as ≠ [] ∧ followed key as = true

instance (a : Text) (as : List Text) : Decidable (Closed key a as) :=
  inferInstanceAs (Decidable (_ ∧ _ ∧ _))

/-- What stands for a value that is not closed: for that of the last attribute, the text up to a comma
behind the list, if there is one; else nothing. -/
def openValue (a : Text) (as : List Text) : Option Text :=
  if occurrences key a = 1 ∧ as = [] then
    (behind key a).bind fun v => beforeComma (v ++ front key tail)
  else none

/-- In both orders the first attribute with the key reads alike. -/
def KeepsKey {α : Type} (read : Option Text → α) (as as' : List Text) : Prop :=
  ∀ l ∈ leader key as, ∀ l' ∈ leader key as',
    if Closed key l.1 l.2 then
      if Closed key l'.1 l'.2 then read (behind key l.1) = read (behind key l'.1)
      else read (behind key l.1) = read (openValue key tail l'.1 l'.2)
    else if Closed key l'.1 l'.2 then
      read (openValue key tail l.1 l.2) = read (behind key l'.1)
    else read (openValue key tail l.1 l.2) = read (openValue key tail l'.1 l'.2)

instance {α : Type} [DecidableEq α] (read : Option Text → α) (as as' : List Text) :
    Decidable (KeepsKey key tail read as as') := by
  unfold KeepsKey
  infer_instance

/-- The same attributes in some order, blanks around them apart. -/
def Reordered (as as' : List Text) : Prop := (as.map trim).Perm (as'.map trim)

instance (as as' : List Text) : Decidable (Reordered as as') :=
  inferInstanceAs (Decidable ((as.map trim).Perm (as'.map trim)))

end Attributes

/-! ## Reading a list of attributes -/

section Reading

variable {key a b v tail rest : Text} {as as' : List Text} {c d : Char}

theorem subset_of_mem_pieces {sep s p : Text} {skip : ℕ} (mem : p ∈ pieces sep skip s) : p ⊆ s := by
  induction s generalizing skip p with
  | nil =>
      rw [pieces, List.mem_singleton] at mem
      rw [mem]
      exact List.Subset.refl _
  | cons x s ih =>
      cases skip with
      | succ skip => exact List.Subset.trans (ih mem) (List.subset_cons_self x s)
      | zero =>
          by_cases here : sep.isPrefixOf (x :: s) = true
          · rw [pieces, if_pos here] at mem
            rcases List.mem_cons.mp mem with rfl | mem
            · exact List.nil_subset _
            · exact List.Subset.trans (ih mem) (List.subset_cons_self x s)
          · obtain ⟨q, qs, eq⟩ := List.exists_cons_of_ne_nil (pieces_ne_nil sep 0 s)
            rw [pieces, if_neg here, eq, List.modifyHead_cons] at mem
            rcases List.mem_cons.mp mem with rfl | mem
            · exact List.cons_subset_cons x (ih (by rw [eq]; exact List.mem_cons_self))
            · have inside : p ∈ pieces sep 0 s := by
                rw [eq]
                exact List.mem_cons_of_mem _ mem
              exact List.Subset.trans (ih inside) (List.subset_cons_self x s)

theorem behind_append_cons (nonempty : key ≠ []) (free : c ∉ key) (s t : Text) :
    behind key (s ++ c :: t) =
      match pieces key 0 s with
      | [_, v] => some (v ++ c :: front key t)
      | _ :: v :: _ :: _ => some v
      | _ => behind key t := by
  obtain ⟨q, qs, eq⟩ := List.exists_cons_of_ne_nil (pieces_ne_nil key 0 t)
  unfold behind front
  rw [pieces_append_cons nonempty free, eq]
  split
  · rename_i two
    rw [two]
    rfl
  · rename_i more
    rw [more]
    rfl
  · rename_i not_two not_more
    cases one : pieces key 0 s with
    | nil => exact absurd one (pieces_ne_nil key 0 s)
    | cons p ps =>
        cases ps with
        | nil => rfl
        | cons p' ps =>
            cases ps with
            | nil => exact absurd one (not_two p p')
            | cons p'' ps => exact absurd one (not_more p p' p'' ps)

theorem behind_cons (other : key.head? ≠ some c) (nonempty : key ≠ []) (t : Text) :
    behind key (c :: t) = behind key t := by
  obtain ⟨q, qs, eq⟩ := List.exists_cons_of_ne_nil (pieces_ne_nil key 0 t)
  unfold behind
  rw [pieces_of_not_isPrefix (not_prefix_cons t other nonempty), eq]
  rfl

theorem front_cons (other : key.head? ≠ some c) (nonempty : key ≠ []) (t : Text) :
    front key (c :: t) = c :: front key t := by
  obtain ⟨q, qs, eq⟩ := List.exists_cons_of_ne_nil (pieces_ne_nil key 0 t)
  unfold front
  rw [pieces_of_not_isPrefix (not_prefix_cons t other nonempty), eq]
  rfl

theorem front_of_isPrefix (nonempty : key ≠ []) (here : key <+: a) (t : Text) :
    front key (a ++ t) = [] := by
  rcases here with ⟨u, rfl⟩
  rw [front, List.append_assoc, pieces_at nonempty]
  rfl

theorem front_of_not_isPrefix (nonempty : key ≠ []) (free : c ∉ key) (other : ¬ key <+: d :: a)
    (t : Text) : ∃ p, front key (d :: a ++ c :: t) = d :: p := by
  have kept : pieces key 0 a ≠ [] := pieces_ne_nil key 0 a
  obtain ⟨p, ps, eq⟩ := List.exists_cons_of_ne_nil (pieces_ne_nil key 0 (a ++ c :: t))
  refine ⟨p, ?_⟩
  rw [front, pieces_append_cons nonempty free, pieces_of_not_isPrefix other,
    glue_modifyHead d kept, ← pieces_append_cons nonempty free, eq]
  rfl

/-- The text of a list that is not empty begins with its first attribute. -/
theorem exists_listText (tail_eq : tail = d :: rest) (free : d ∉ key) (comma : ',' ∉ key) (a : Text)
    (as : List Text) : ∃ c t, [','].intercalate (a :: as) ++ tail = a ++ c :: t ∧ c ∉ key := by
  cases as with
  | nil => exact ⟨d, rest, by rw [List.intercalate_singleton, tail_eq], free⟩
  | cons b as =>
      refine ⟨',', [','].intercalate (b :: as) ++ tail, ?_, comma⟩
      rw [List.intercalate_cons_cons, List.append_assoc, List.append_assoc]
      rfl

theorem head?_ne (free : c ∉ key) : key.head? ≠ some c := fun head =>
  free (List.mem_of_mem_head? head)

/-- Induction on the list; an empty attribute leaves the decision to those behind it. -/
theorem front_commas_iff (nonempty : key ≠ []) (comma : ',' ∉ key) (tail_eq : tail = d :: rest)
    (free : d ∉ key) (other : d ≠ ',') (values : ∀ a ∈ as, ',' ∉ a) :
    (∀ x ∈ front key ([','].intercalate as ++ tail), x = ',') ↔ followed key as = false := by
  induction as with
  | nil =>
      rw [List.intercalate_nil, List.nil_append, tail_eq, front_cons (head?_ne free) nonempty]
      simp [followed, other]
  | cons a as ih =>
      have later := ih fun a mem => values a (List.mem_cons_of_mem _ mem)
      cases a with
      | nil =>
          rw [followed, if_pos rfl, ← later]
          cases as with
          | nil => rfl
          | cons b as =>
              rw [List.intercalate_cons_cons, List.nil_append, List.append_assoc,
                List.singleton_append, front_cons (head?_ne comma) nonempty]
              simp
      | cons x a =>
          obtain ⟨c, t, eq, apart⟩ := exists_listText tail_eq free comma (x :: a) as
          rw [eq, followed, if_neg (List.cons_ne_nil x a)]
          by_cases here : key <+: x :: a
          · rw [front_of_isPrefix nonempty here]
            simp [startsWith, here]
          · obtain ⟨p, front_eq⟩ := front_of_not_isPrefix nonempty apart here t
            have visible : x ≠ ',' := by
              rintro rfl
              exact values _ List.mem_cons_self List.mem_cons_self
            rw [front_eq]
            simp [startsWith, here, visible]

/-- **The value read.** What stands behind the key as far as the comma is the value that counts. -/
theorem behind_bind_beforeComma (nonempty : key ≠ []) (comma : ',' ∉ key)
    (tail_eq : tail = d :: rest) (free : d ∉ key) (other : d ≠ ',') (values : ∀ a ∈ as, ',' ∉ a) :
    (behind key ([','].intercalate as ++ tail)).bind beforeComma = standing key tail as := by
  induction as with
  | nil => rfl
  | cons a as ih =>
      have later := ih fun a mem => values a (List.mem_cons_of_mem _ mem)
      have inside : ∀ p ∈ pieces key 0 a, ',' ∉ p := fun p mem here =>
        values a List.mem_cons_self (subset_of_mem_pieces mem here)
      unfold standing
      cases as with
      | nil =>
          rw [List.intercalate_singleton, tail_eq, behind_append_cons nonempty free]
          split
          · rw [front_cons (head?_ne free) nonempty]
            rfl
          · rename_i more
            exact beforeComma_of_not_mem (inside _ (by rw [more]; simp))
          · rw [standing, behind_cons (head?_ne free) nonempty]
      | cons b as =>
          rw [List.intercalate_cons_cons, List.append_assoc, List.append_assoc,
            List.singleton_append, behind_append_cons nonempty comma]
          split
          · rename_i two
            have commas := front_commas_iff nonempty comma tail_eq free other
              fun a mem => values a (List.mem_cons_of_mem _ mem)
            rw [Option.bind_some, beforeComma_append (inside _ (by rw [two]; simp))]
            simp only [commas]
            cases followed key (b :: as) <;> rfl
          · rename_i more
            exact beforeComma_of_not_mem (inside _ (by rw [more]; simp))
          · exact later

end Reading

/-- What `split` leaves out at the end is no value. -/
theorem split_bind_beforeComma (key s : Text) :
    (split key s)[1]?.bind beforeComma = (behind key s).bind beforeComma := by
  obtain ⟨p, ps, eq⟩ := List.exists_cons_of_ne_nil (pieces_ne_nil key 0 s)
  have second : behind key s = ps[0]? := by rw [behind, eq]; rfl
  rw [split_getElem?_one, second, eq, List.tail_cons]
  obtain ⟨cut, append⟩ := List.rdropWhile_prefix List.isEmpty ps
  cases kept : ps.rdropWhile List.isEmpty with
  | nil =>
      have empty := List.rdropWhile_eq_nil_iff.mp kept
      cases ps with
      | nil => rfl
      | cons q ps =>
          have nothing := List.isEmpty_iff.mp (empty q List.mem_cons_self)
          rw [nothing]
          rfl
  | cons q qs =>
      rw [kept] at append
      rw [← append]
      rfl

/-! ## Blanks around an attribute -/

section Blanks

variable {sub key a ws ws' : Text} {as as' : List Text}

/-- A text has blanks before and behind what `trim` leaves. -/
theorem exists_padding (a : Text) : ∃ ws ws', a = ws ++ (trim a ++ ws') ∧
    (∀ c ∈ ws, isBlankChar c = true) ∧ ∀ c ∈ ws', isBlankChar c = true := by
  refine ⟨a.takeWhile isBlankChar, (a.dropWhile isBlankChar).rtakeWhile isBlankChar, ?_, ?_, ?_⟩
  · rw [trim, List.rdropWhile_append_rtakeWhile, List.takeWhile_append_dropWhile]
  · exact fun c mem => List.mem_takeWhile_imp mem
  · exact fun c mem => List.mem_rtakeWhile_imp mem

theorem head?_ne_of_visible (visible : ∀ c ∈ key, isBlankChar c = false)
    (blank : ∀ c ∈ ws, isBlankChar c = true) : ∀ c ∈ ws, key.head? ≠ some c := by
  intro c mem head
  have seen := visible c (List.mem_of_mem_head? head)
  rw [blank c mem] at seen
  cases seen

theorem pieces_of_blank (visible : ∀ c ∈ key, isBlankChar c = false) (nonempty : key ≠ [])
    (blank : ∀ c ∈ ws, isBlankChar c = true) : pieces key 0 ws = [ws] := by
  have cut := pieces_append [] (head?_ne_of_visible visible blank) nonempty
  rw [List.append_nil] at cut
  rw [cut]
  simp [pieces]

/-- Blanks make no occurrence of a key that has none. -/
theorem occurrences_pad (visible : ∀ c ∈ key, isBlankChar c = false) (nonempty : key ≠ [])
    (blank : ∀ c ∈ ws, isBlankChar c = true) (blank' : ∀ c ∈ ws', isBlankChar c = true) :
    occurrences key (ws ++ (a ++ ws')) = occurrences key a := by
  have front : occurrences key (ws ++ (a ++ ws')) = occurrences key (a ++ ws') := by
    unfold occurrences
    rw [pieces_append _ (head?_ne_of_visible visible blank) nonempty, List.length_modifyHead]
  rw [front]
  cases ws' with
  | nil => rw [List.append_nil]
  | cons c ws' =>
      have free : c ∉ key := fun mem => by
        have seen := visible c mem
        rw [blank' c List.mem_cons_self] at seen
        cases seen
      have rest := pieces_of_blank visible nonempty fun x mem =>
        blank' x (List.mem_cons_of_mem _ mem)
      unfold occurrences
      rw [pieces_append_cons nonempty free, rest, length_glue (pieces_ne_nil _ _ _)]

/-- What blanks around an attribute do not change, holds of one in both orders. -/
theorem Reordered.exists_iff {P : Text → Prop} (re : Reordered as as')
    (stable : ∀ a, P (trim a) ↔ P a) : (∃ a ∈ as, P a) ↔ ∃ a ∈ as', P a := by
  have trimmed : ∀ bs : List Text, (∃ a ∈ bs, P a) ↔ ∃ a ∈ bs.map trim, P a := by
    intro bs
    simp [stable]
  rw [trimmed as, trimmed as']
  simp only [re.mem_iff]

theorem Reordered.forall_iff {P : Text → Prop} (re : Reordered as as')
    (stable : ∀ a, P (trim a) ↔ P a) : (∀ a ∈ as, P a) ↔ ∀ a ∈ as', P a := by
  have none := not_congr (re.exists_iff (P := fun a => ¬ P a) fun a => not_congr (stable a))
  simpa only [not_exists, not_and, not_not] using none

end Blanks

/-! ## The order of the attributes -/

section Order

variable {α : Type} {key a tail : Text} {as as' : List Text}

theorem isSome_behind_iff : (behind key a).isSome ↔ occurrences key a ≠ 0 := by
  obtain ⟨p, ps, eq⟩ := List.exists_cons_of_ne_nil (pieces_ne_nil key 0 a)
  rw [behind, occurrences, eq]
  cases ps <;> simp

theorem leader_eq_none_iff : leader key as = none ↔ ∀ a ∈ as, occurrences key a = 0 := by
  induction as with
  | nil => simp [leader]
  | cons a as ih =>
      rw [leader, List.forall_mem_cons, ← ih]
      by_cases here : (behind key a).isSome
      · rw [if_pos here]
        simp [isSome_behind_iff.mp here]
      · rw [if_neg here]
        simp [not_not.mp (mt isSome_behind_iff.mpr here)]

/-- What counts is the value of the first attribute with the key. -/
theorem standing_eq (key tail : Text) (as : List Text) : standing key tail as =
    match leader key as with
    | none => (behind key tail).bind beforeComma
    | some (a, as) => if Closed key a as then behind key a else openValue key tail a as := by
  induction as with
  | nil => rfl
  | cons a as ih =>
      unfold standing leader Closed openValue behind occurrences
      obtain ⟨p, ps, eq⟩ := List.exists_cons_of_ne_nil (pieces_ne_nil key 0 a)
      rw [eq]
      cases ps with
      | nil => exact ih
      | cons v ps =>
          cases ps with
          | nil =>
              by_cases last : as = []
              · simp [last, eq]
              · simp [last, eq]
          | cons w ps => simp [eq]

/-- **The order of the attributes.** The value that counts reads alike in both lists just if they
keep the key. -/
theorem keepsKey_iff (key tail : Text) (read : Option Text → α)
    (same : (∀ a ∈ as, occurrences key a = 0) ↔ ∀ a ∈ as', occurrences key a = 0) :
    KeepsKey key tail read as as' ↔ read (standing key tail as) = read (standing key tail as') := by
  rw [← leader_eq_none_iff, ← leader_eq_none_iff] at same
  rw [standing_eq, standing_eq]
  unfold KeepsKey
  cases first : leader key as with
  | none =>
      rw [same.mp first]
      simp
  | some l =>
      cases first' : leader key as' with
      | none =>
          rw [same.mpr first'] at first
          cases first
      | some l' =>
          simp only [Option.mem_some_iff, forall_eq']
          split <;> split <;> rfl

end Order

end Hipert
