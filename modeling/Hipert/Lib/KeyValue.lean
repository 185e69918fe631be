import Hipert.Lib.JavaText

/-!
# Keys with values

What `split` gives on a text of keys and values when it is split at one of the keys with its sign
(`split_pairs`), and where a text begins with a value (`head_split_append`).
-/

namespace Hipert

/-! ## Pieces -/

section Pieces

variable {c : Char} {sep name pre t u : Text}

/-- What comes before the first occurrence of a character can be read off. -/
theorem append_char_inj_left {a b v w : Text} (free : c ∉ a) (free' : c ∉ b) :
    a ++ c :: v = b ++ c :: w ↔ a = b ∧ v = w := by
  have reversed := append_char_inj (c := c) (a := v.reverse) (b := w.reverse) (v := a.reverse)
    (w := b.reverse) (fun mem => free (List.mem_reverse.mp mem))
    (fun mem => free' (List.mem_reverse.mp mem))
  rw [List.reverse_inj, List.reverse_inj, and_comm] at reversed
  rw [← reversed, ← List.reverse_inj]
  simp only [List.reverse_append, List.reverse_cons, List.append_assoc, List.singleton_append]

theorem append_char_prefix_iff (free : c ∉ name) (free' : c ∉ t) :
    name ++ [c] <+: t ++ c :: u ↔ name = t := by
  refine ⟨?_, ?_⟩
  · intro given
    rcases given with ⟨v, eq⟩
    rw [List.append_assoc] at eq
    exact ((append_char_inj_left free free').mp eq).1
  · rintro rfl
    exact ⟨u, by rw [List.append_assoc]; rfl⟩

theorem pieces_skip (sep x u : Text) : pieces sep x.length (x ++ u) = pieces sep 0 u := by
  induction x with
  | nil => rfl
  | cons d x ih => exact ih

theorem pieces_at (nonempty : sep ≠ []) (s : Text) :
    pieces sep 0 (sep ++ s) = [] :: pieces sep 0 s := by
  rcases List.exists_cons_of_ne_nil nonempty with ⟨d, rest, rfl⟩
  have here : (d :: rest).isPrefixOf (d :: (rest ++ s)) = true :=
    List.isPrefixOf_iff_prefix.mpr ⟨s, rfl⟩
  rw [List.cons_append, pieces, if_pos here]
  exact congrArg _ (pieces_skip (d :: rest) rest s)

/-- An occurrence of the sign behind something else is passed over. -/
theorem pieces_miss (free : c ∉ name) (free' : c ∉ t) (nonempty : name ≠ [])
    (miss : ¬ name <:+ t) : pieces (name ++ [c]) 0 (t ++ c :: u) =
      (pieces (name ++ [c]) 0 u).modifyHead (t ++ c :: ·) := by
  induction t with
  | nil =>
      have other : ¬ name ++ [c] <+: [] ++ c :: u :=
        mt (append_char_prefix_iff free List.not_mem_nil).mp nonempty
      exact pieces_of_not_isPrefix other
  | cons d t ih =>
      have rest : c ∉ t := fun mem => free' (List.mem_cons_of_mem _ mem)
      have other : ¬ name ++ [c] <+: d :: t ++ c :: u := by
        rw [append_char_prefix_iff free free']
        rintro rfl
        exact miss (List.suffix_refl _)
      have later : ¬ name <:+ t := fun suffix => miss (suffix.trans (List.suffix_cons d t))
      rw [List.cons_append] at other ⊢
      rw [pieces_of_not_isPrefix other, ih rest later, List.modifyHead_modifyHead]
      rfl

/-- The first piece ends where the sign first stands behind the name. -/
theorem pieces_hit (free : c ∉ name) (free' : c ∉ pre) :
    pieces (name ++ [c]) 0 (pre ++ name ++ c :: u) = pre :: pieces (name ++ [c]) 0 u := by
  induction pre with
  | nil =>
      have here := pieces_at (List.append_ne_nil_of_right_ne_nil name (List.cons_ne_nil c [])) u
      rwa [List.append_assoc, List.singleton_append] at here
  | cons d pre ih =>
      have rest : c ∉ pre := fun mem => free' (List.mem_cons_of_mem _ mem)
      have both : c ∉ d :: pre ++ name := fun mem =>
        (List.mem_append.mp mem).elim free' free
      have other : ¬ name ++ [c] <+: d :: pre ++ name ++ c :: u := by
        rw [append_char_prefix_iff free both]
        intro eq
        have lengths := congrArg List.length eq
        simp only [List.length_append, List.length_cons] at lengths
        omega
      rw [List.cons_append, List.cons_append] at other ⊢
      rw [pieces_of_not_isPrefix other, ih rest]
      rfl

theorem pieces_end (free : c ∉ t) : pieces (name ++ [c]) 0 t = [t] := by
  induction t with
  | nil => rfl
  | cons d t ih =>
      have other : ¬ name ++ [c] <+: d :: t := fun here =>
        free (here.subset (List.mem_append_right name List.mem_cons_self))
      rw [pieces_of_not_isPrefix other, ih fun mem => free (List.mem_cons_of_mem _ mem)]
      rfl

theorem pieces_char (free : c ∉ t) (u : Text) :
    pieces [c] 0 (t ++ c :: u) = t :: pieces [c] 0 u := by
  have hit : pieces ([] ++ [c]) 0 (t ++ [] ++ c :: u) = t :: pieces ([] ++ [c]) 0 u :=
    pieces_hit List.not_mem_nil free
  rwa [List.append_nil, List.nil_append] at hit

theorem pieces_char_self (free : c ∉ t) : pieces [c] 0 t = [t] := by
  have all : pieces ([] ++ [c]) 0 t = [t] := pieces_end free
  rwa [List.nil_append] at all

/-- A text begins with its first piece. -/
theorem head_split_append (free : c ∉ t) (nonempty : t ≠ []) :
    (split [c] (t ++ c :: u))[0]? = some t := by
  obtain ⟨rest, append⟩ := List.rdropWhile_prefix List.isEmpty (t :: pieces [c] 0 u)
  unfold split
  rw [pieces_char free]
  split
  · rename_i eq
    rw [(List.cons.inj eq).1]
    rfl
  · cases kept : (t :: pieces [c] 0 u).rdropWhile List.isEmpty with
    | nil =>
        have empty := List.rdropWhile_eq_nil_iff.mp kept t List.mem_cons_self
        exact absurd (List.isEmpty_iff.mp empty) nonempty
    | cons x xs =>
        rw [kept] at append
        rw [(List.cons.inj append).1]
        rfl

theorem split_of_not_mem (free : c ∉ t) : split [c] t = [t] := by
  rw [split, pieces_char_self free]

end Pieces

/-! ## Lists of pairs -/

/-- Keys with values, each with the sign `c` between. -/
def pairsText (c : Char) (ps : List (Text × Text)) : Text := ps.flatMap fun p => p.1 ++ c :: p.2

/-- Of these keys, just the one at index `i` ends with this name, and none is the end of another. -/
def PicksKey (c : Char) (name : Text) (keys : List Text) (i : ℕ) : Prop :=
  c ∉ name ∧ name ≠ [] ∧ (∀ k ∈ keys, c ∉ k) ∧ (∀ k ∈ keys[i]?, name <:+ k) ∧
    ∀ p ∈ keys.zipIdx, p.2 ≠ i → ¬ name <:+ p.1 ∧ ¬ p.1 <:+ name

instance (c : Char) (name : Text) (keys : List Text) (i : ℕ) : Decidable (PicksKey c name keys i) :=
  inferInstanceAs (Decidable (c ∉ name ∧ name ≠ [] ∧ (∀ k ∈ keys, c ∉ k) ∧
    (∀ k ∈ keys[i]?, name <:+ k) ∧
      ∀ p ∈ keys.zipIdx, p.2 ≠ i → ¬ name <:+ p.1 ∧ ¬ p.1 <:+ name))

section Pairs

variable {c : Char} {name pre v w : Text} {before after : List (Text × Text)}

/-- The pair is free of the sign, and its key and this name do not end alike. -/
structure Misses (c : Char) (name : Text) (p : Text × Text) : Prop where
  key : c ∉ p.1
  value : c ∉ p.2
  other : ¬ name <:+ p.1
  apart : ¬ p.1 <:+ name

theorem pairsText_cons (p : Text × Text) (ps : List (Text × Text)) :
    w ++ pairsText c (p :: ps) = (w ++ p.1) ++ c :: (p.2 ++ pairsText c ps) := by
  simp only [pairsText, List.flatMap_cons, List.append_assoc, List.cons_append]

theorem pieces_pair (free : c ∉ name) (nonempty : name ≠ []) (free' : c ∉ w) {p : Text × Text}
    (misses : Misses c name p) (ps : List (Text × Text)) :
    pieces (name ++ [c]) 0 (w ++ pairsText c (p :: ps)) =
      (pieces (name ++ [c]) 0 (p.2 ++ pairsText c ps)).modifyHead ((w ++ p.1) ++ c :: ·) := by
  rw [pairsText_cons]
  apply pieces_miss free
  · exact fun mem => (List.mem_append.mp mem).elim free' misses.key
  · exact nonempty
  · intro suffix
    rcases List.suffix_or_suffix_of_suffix suffix (List.suffix_append w p.1) with here | here
    · exact misses.other here
    · exact misses.apart here

theorem pieces_misses (free : c ∉ name) (nonempty : name ≠ []) (free' : c ∉ w)
    (misses : ∀ p ∈ after, Misses c name p) :
    pieces (name ++ [c]) 0 (w ++ pairsText c after) = [w ++ pairsText c after] := by
  induction after generalizing w with
  | nil =>
      rw [pairsText, List.flatMap_nil, List.append_nil]
      exact pieces_end free'
  | cons p ps ih =>
      have first := misses p List.mem_cons_self
      rw [pieces_pair free nonempty free' first,
        ih first.value fun p mem => misses p (List.mem_cons_of_mem _ mem), pairsText_cons]
      rfl

theorem pieces_pairs (free : c ∉ name) (nonempty : name ≠ []) (free' : c ∉ w) (key : c ∉ pre)
    (value : c ∉ v) (earlier : ∀ p ∈ before, Misses c name p)
    (later : ∀ p ∈ after, Misses c name p) :
    pieces (name ++ [c]) 0 (w ++ pairsText c (before ++ (pre ++ name, v) :: after)) =
      [w ++ pairsText c before ++ pre, v ++ pairsText c after] := by
  induction before generalizing w with
  | nil =>
      have both : c ∉ w ++ pre := fun mem => (List.mem_append.mp mem).elim free' key
      rw [List.nil_append, pairsText_cons, ← List.append_assoc, pieces_hit free both,
        pieces_misses free nonempty value later]
      simp only [pairsText, List.flatMap_nil, List.append_nil]
  | cons p ps ih =>
      have first := earlier p List.mem_cons_self
      rw [List.cons_append, pieces_pair free nonempty free' first,
        ih first.value fun p mem => earlier p (List.mem_cons_of_mem _ mem), pairsText_cons]
      simp only [List.modifyHead_cons, List.append_assoc, List.cons_append]

theorem PicksKey.misses {ps : List (Text × Text)} {i j : ℕ} {p : Text × Text}
    (picks : PicksKey c name (ps.map Prod.fst) i) (here : ps[j]? = some p) (other : j ≠ i)
    (value : c ∉ p.2) : Misses c name p := by
  have key : (ps.map Prod.fst)[j]? = some p.1 := by rw [List.getElem?_map, here]; rfl
  obtain ⟨-, -, free, -, apart⟩ := picks
  have both := apart (p.1, j) (List.mk_mem_zipIdx_iff_getElem?.mpr key) other
  exact ⟨free p.1 (List.mem_of_getElem? key), value, both.1, both.2⟩

/-- Behind the key that is picked and the sign come its value and the later pairs. -/
theorem split_pairs {ps : List (Text × Text)} {i : ℕ} {k : Text}
    (picks : PicksKey c name (ps.map Prod.fst) i) (here : ps[i]? = some (k, v))
    (values : ∀ p ∈ ps, c ∉ p.2) (free' : c ∉ w) (filled : v ≠ []) :
    (split (name ++ [c]) (w ++ pairsText c ps))[1]? =
      some (v ++ pairsText c (ps.drop (i + 1))) := by
  have key : (ps.map Prod.fst)[i]? = some k := by rw [List.getElem?_map, here]; rfl
  rcases picks.2.2.2.1 k key with ⟨pre, rfl⟩
  obtain ⟨inside, at_i⟩ := List.getElem?_eq_some_iff.mp here
  have parts : ps = ps.take i ++ (pre ++ name, v) :: ps.drop (i + 1) := by
    rw [← at_i, ← List.drop_eq_getElem_cons inside, List.take_append_drop]
  have earlier : ∀ p ∈ ps.take i, Misses c name p := by
    intro p mem
    rcases List.mem_iff_getElem.mp mem with ⟨j, lt, rfl⟩
    rw [List.length_take] at lt
    rw [List.getElem_take]
    exact picks.misses (List.getElem?_eq_getElem (by omega)) (by omega)
      (values _ (List.getElem_mem (by omega)))
  have later : ∀ p ∈ ps.drop (i + 1), Misses c name p := by
    intro p mem
    rcases List.mem_iff_getElem.mp mem with ⟨j, lt, rfl⟩
    rw [List.length_drop] at lt
    rw [List.getElem_drop]
    exact picks.misses (List.getElem?_eq_getElem (by omega)) (by omega)
      (values _ (List.getElem_mem (by omega)))
  have key_free : c ∉ pre := fun mem =>
    picks.2.2.1 _ (List.mem_of_getElem? key) (List.mem_append_left _ mem)
  have two := pieces_pairs picks.1 picks.2.1 free' key_free (values _ (List.mem_of_getElem? here))
    earlier later
  rw [← parts] at two
  have kept : ([w ++ pairsText c (ps.take i) ++ pre, v ++ pairsText c (ps.drop (i + 1))]).rdropWhile
      List.isEmpty =
        [w ++ pairsText c (ps.take i) ++ pre, v ++ pairsText c (ps.drop (i + 1))] :=
    List.rdropWhile_eq_self_iff.mpr fun _ => by simp [filled]
  rw [split, two]
  exact congrArg (·[1]?) kept

/-- A value ends at the comma with which the next key begins. -/
theorem head_split_comma {ps : List (Text × Text)} (comma : ',' ∉ v) (filled : v ≠ [])
    (next : ∀ p ∈ ps.head?, p.1.head? = some ',') :
    (split [','] (v ++ pairsText c ps))[0]? = some v := by
  cases ps with
  | nil =>
      rw [pairsText, List.flatMap_nil, List.append_nil, split_of_not_mem comma]
      rfl
  | cons p ps =>
      obtain ⟨k, key⟩ := List.head?_eq_some_iff.mp (next p rfl)
      rw [pairsText_cons, key, List.append_assoc]
      exact head_split_append comma filled

end Pairs

end Hipert
