import Hipert.Lib.AttributeList
import Hipert.Rtdot.Agree

/-!
# Lines laid out anew

A line of a DOT file gets another indentation, or the attributes of a node another order. For
`XMLGenerator` a line of task 0 is one that starts with a single tab and the zero
(`LineEdit.Keeps`), and an attribute without a comma behind it has no value. When neither changes,
the line keeps its effect, comments apart (`exists_bare_eq`); otherwise it adds another edge or node
(`keeps_of_same`).
-/

namespace Hipert.Rtdot

variable {Double : Type} {J : JavaLang Double}

/-! ## Effects without comments -/

/-- A node without its comment. -/
def Node.bare (n : Node Double) : Node Double := { n with comment := [] }

/-- A DAG without its comment. -/
def DAG.bare (d : DAG) : DAG := { d with comment := none }

/-- An effect without the comment of the node. -/
def Effect.bare : Effect Double → Effect Double
  | .node n => .node n.bare
  | eff => eff

/-! ## The case mapping -/

/-- Lower-casing goes character by character, but for the capital sigma, whose small letter depends
on its place in the word. It keeps blanks and separators and makes no other separators. -/
structure CharCase (J : JavaLang Double) : Prop where
  exists_lower : ∃ lower : Char → Text, (∀ s, 'Σ' ∉ s → J.toLowerCase s = s.flatMap lower) ∧
    (∀ c, isBlankChar c = true → lower c = [c]) ∧ (∀ c ∈ ",[]".toList, lower c = [c]) ∧
      ∀ c d, d ∈ lower c → d ∈ ",=".toList → c = d

/-! ## Lines and their edits -/

/-- An indentation. -/
def IsIndent (ws : Text) : Prop := ∀ c ∈ ws, c = ' ' ∨ c = '\t'

/-- What a line of a node has around its attributes. -/
structure NodeLine where
  indent : Text
  name : Text
  gap : Text
  tail : Text

/-- The line with these attributes. -/
def NodeLine.text (n : NodeLine) (as : List Text) : Text :=
  n.indent ++ (n.name ++ ' ' :: n.gap) ++ '[' :: ([','].intercalate as ++ ']' :: n.tail)

/-- The line is read as that of a node, and its attributes are what commas separate. -/
structure NodeLine.Valid (n : NodeLine) (as : List Text) : Prop where
  indent : ∀ c ∈ n.indent, isBlankChar c = true
  name : ∃ c ∈ n.name.head?, isBlankChar c = false
  sign : '=' ∉ n.name ++ ' ' :: n.gap
  attributes : ∀ a ∈ as, ',' ∉ a
  sigma : 'Σ' ∉ n.text as
  comment : isComment (n.text as) = false
  node : IsNodeLine (n.text as)

/-- Another indentation of a line, or another order of the attributes of a node, with any blanks
around them. -/
inductive LineEdit where
  | indent (ws ws' body : Text)
  | permute (n : NodeLine) (as as' : List Text)

namespace LineEdit

/-- The line before. -/
def source : LineEdit → Text
  | indent ws _ body => ws ++ body
  | permute n as _ => n.text as

/-- The line afterwards. -/
def target : LineEdit → Text
  | indent _ ws' body => ws' ++ body
  | permute n _ as' => n.text as'

/-- The indentations are all that stands before the rest; the attributes are those before. -/
def Valid : LineEdit → Prop
  | indent ws ws' body => IsIndent ws ∧ IsIndent ws' ∧ ∀ c ∈ body.head?, c ≠ ' ' ∧ c ≠ '\t'
  | permute n as as' => n.Valid as ∧ Reordered as as'

end LineEdit

section Values

variable (J)

/-- The number that a value is read as, by default `-1`. -/
def asDouble (value : Option Text) : Double := (J.parseDouble (value.getD [])).getD J.negOne

/-- The integer that a value is read as, by default zero. -/
def asInt (value : Option Text) : ℤ := (parseInt J (value.getD [])).getD 0

/-- The unit that a value is read as, by default `B`. -/
def asUnit (value : Option Text) : Text :=
  let mem_unit := J.toUpperCase (replaceChar ']' [] (value.getD []))
  if J.isEmpty mem_unit then "B".toList else mem_unit

/-- What stands behind the attributes, as it is read. -/
def NodeLine.lowTail (n : NodeLine) : Text := unquoted J (trim (']' :: n.tail))

/-- The key reads alike in both orders. -/
def NodeLine.KeepsOne {α : Type} (n : NodeLine) (as as' : List Text) (key : Text)
    (read : Option Text → α) : Prop :=
  KeepsKey key (n.lowTail J) read (as.map (unquoted J)) (as'.map (unquoted J))

/-- All five keys read alike in both orders. -/
def NodeLine.KeepsKeys (n : NodeLine) (as as' : List Text) : Prop :=
  n.KeepsOne J as as' "miet=".toList (asDouble J) ∧
    n.KeepsOne J as as' "meet=".toList (asDouble J) ∧
    n.KeepsOne J as as' "maet=".toList (asDouble J) ∧
    n.KeepsOne J as as' "mem=".toList (asInt J) ∧ n.KeepsOne J as as' "unit=".toList (asUnit J)

instance {α : Type} [DecidableEq α] (n : NodeLine) (as as' : List Text) (key : Text)
    (read : Option Text → α) : Decidable (n.KeepsOne J as as' key read) :=
  inferInstanceAs (Decidable (KeepsKey key _ read _ _))

instance [DecidableEq Double] (n : NodeLine) (as as' : List Text) :
    Decidable (n.KeepsKeys J as as') :=
  inferInstanceAs (Decidable (_ ∧ _ ∧ _ ∧ _ ∧ _))

/-- The edit keeps what the line says: a line that begins with a zero has just one tab before it in
both or in neither, and the keys of a node read alike. -/
def LineEdit.Keeps : LineEdit → Prop
  | indent ws ws' body =>
    startsWith "0".toList body = true → contains "\x7d".toList body = false →
      (ws = "\t".toList ↔ ws' = "\t".toList)
  | permute n as as' => n.KeepsKeys J as as'

end Values

/-! ## Another indentation -/

section Indent

variable {ws ws' body sub key : Text}

theorem IsIndent.blank (indent : IsIndent ws) : ∀ c ∈ ws, isBlankChar c = true := by
  intro c mem
  rcases indent c mem with rfl | rfl <;> decide

theorem trim_indent (indent : IsIndent ws) (body : Text) : trim (ws ++ body) = trim body := by
  rw [trim, List.dropWhile_append_of_pos indent.blank]
  rfl

theorem head?_ne_of_indent (indent : IsIndent ws) (space : key.head? ≠ some ' ')
    (tab : key.head? ≠ some '\t') : ∀ c ∈ ws, key.head? ≠ some c := by
  intro c mem
  rcases indent c mem with rfl | rfl
  · exact space
  · exact tab

theorem contains_cons (sub : Text) (c : Char) (s : Text) :
    contains sub (c :: s) = (sub.isPrefixOf (c :: s) || contains sub s) := rfl

/-- What does not begin with a blank is not found in an indentation. -/
theorem contains_indent (other : ∀ c ∈ ws, sub.head? ≠ some c) (nonempty : sub ≠ []) (body : Text) :
    contains sub (ws ++ body) = contains sub body := by
  induction ws with
  | nil => rfl
  | cons c ws ih =>
      have not_here := not_prefix_cons (ws ++ body) (other c List.mem_cons_self) nonempty
      rw [← List.isPrefixOf_iff_prefix, Bool.not_eq_true] at not_here
      rw [List.cons_append, contains_cons, not_here, Bool.false_or]
      exact ih fun x mem => other x (List.mem_cons_of_mem _ mem)

theorem valueAfter_indent (other : ∀ c ∈ ws, key.head? ≠ some c) (nonempty : key ≠ [])
    (body : Text) : valueAfter key (ws ++ body) = valueAfter key body := by
  unfold valueAfter
  rw [split_getElem?_one, split_getElem?_one, pieces_append body other nonempty]
  obtain ⟨p, ps, eq⟩ := List.exists_cons_of_ne_nil (pieces_ne_nil key 0 body)
  rw [eq]
  rfl

theorem settingsOf_indent (indent : IsIndent ws) (body : Text) :
    (settingsOf J (ws ++ body) : Option (Effect Double)) = settingsOf J body := by
  have other : ∀ key : Text, key.head? ≠ some ' ' → key.head? ≠ some '\t' →
      ∀ c ∈ ws, key.head? ≠ some c := fun _ => head?_ne_of_indent indent
  unfold settingsOf
  rw [valueAfter_indent (other _ (by decide) (by decide)) (by decide),
    valueAfter_indent (other _ (by decide) (by decide)) (by decide),
    valueAfter_indent (other _ (by decide) (by decide)) (by decide),
    valueAfter_indent (other _ (by decide) (by decide)) (by decide)]

/-- A line of task 0 has a single tab before the zero. -/
theorem startsWith_task_iff (indent : IsIndent ws)
    (first : ∀ c ∈ body.head?, c ≠ ' ' ∧ c ≠ '\t') :
    startsWith "\t0".toList (ws ++ body) = true ↔
      ws = "\t".toList ∧ startsWith "0".toList body = true := by
  unfold startsWith
  simp only [List.isPrefixOf_iff_prefix]
  refine ⟨?_, ?_⟩
  · intro given
    rcases given with ⟨u, eq⟩
    cases ws with
    | nil =>
        rw [List.nil_append] at eq
        rw [← eq] at first
        exact absurd rfl (first '\t' rfl).2
    | cons c ws =>
        cases ws with
        | nil =>
            have parts := List.cons.inj eq
            exact ⟨by rw [← parts.1]; rfl, ⟨u, parts.2⟩⟩
        | cons d ws =>
            have zero : d = '0' := (List.cons.inj (List.cons.inj eq).2).1.symm
            rcases indent d (by simp) with eq' | eq'
            · rw [zero] at eq'
              exact absurd eq' (by decide)
            · rw [zero] at eq'
              exact absurd eq' (by decide)
  · intro given
    rcases given with ⟨rfl, u, rfl⟩
    exact ⟨u, rfl⟩

variable (J) in
/-- The effect of a line for an edge or a node. -/
def graphEffect (body : Text) : Option (Effect Double) :=
  if contains "->".toList (trim body) then (edgeOf J (trim body)).map .edge
  else (Generator.nodeOf J (trim body)).map .node

variable (J) in
/-- The effect of any other line. -/
def otherEffect (body : Text) : Option (Effect Double) :=
  if contains "period".toList body then settingsOf J body else some .nothing

theorem lineEffect_indent (indent : IsIndent ws) (body : Text) :
    Generator.lineEffect J (ws ++ body) =
      if J.isEmpty body || isComment body then some .nothing
      else if isGraphLine (ws ++ body) then graphEffect J body else otherEffect J body := by
  have period : contains "period".toList (ws ++ body) = contains "period".toList body :=
    contains_indent (head?_ne_of_indent indent (by decide) (by decide)) (by decide) body
  unfold Generator.lineEffect effectOf isComment graphEffect otherEffect
  rw [J.isEmpty_eq, J.isEmpty_eq, trim_indent indent, period, settingsOf_indent indent]

theorem isGraphLine_indent (indent : IsIndent ws)
    (first : ∀ c ∈ body.head?, c ≠ ' ' ∧ c ≠ '\t') : isGraphLine (ws ++ body) = true ↔
      ¬ (ws = "\t".toList ∧ startsWith "0".toList body = true) ∧
        contains "\x7d".toList body = false := by
  unfold isGraphLine
  rw [contains_indent (head?_ne_of_indent indent (by decide) (by decide)) (by decide),
    Bool.and_eq_true, Bool.not_eq_true', Bool.not_eq_true', ← startsWith_task_iff indent first,
    Bool.not_eq_true]

/-- A line of an edge or a node adds one. -/
theorem graphEffect_adds {eff : Effect Double} (read : graphEffect J body = some eff) :
    eff.edges ≠ [] ∨ eff.nodes ≠ [] := by
  unfold graphEffect at read
  split at read
  · rcases Option.map_eq_some_iff.mp read with ⟨e, -, rfl⟩
    exact Or.inl (List.cons_ne_nil _ _)
  · rcases Option.map_eq_some_iff.mp read with ⟨n, -, rfl⟩
    exact Or.inr (List.cons_ne_nil _ _)

/-- Other lines add none. -/
theorem otherEffect_adds {eff : Effect Double} (read : otherEffect J body = some eff) :
    eff.edges = [] ∧ eff.nodes = [] := by
  unfold otherEffect at read
  split at read
  · rcases exists_settings read with ⟨_, _, _, _, rfl⟩
    exact ⟨rfl, rfl⟩
  · cases read
    exact ⟨rfl, rfl⟩

/-- A line that begins with a zero is not skipped. -/
theorem not_skipped (zero : startsWith "0".toList body = true) :
    (J.isEmpty body || isComment body) = false := by
  rcases List.isPrefixOf_iff_prefix.mp zero with ⟨u, rfl⟩
  obtain ⟨t, eq⟩ := trim_cons (c := '0') u (by decide)
  have trimmed : trim ("0".toList ++ u) = '0' :: t := eq
  unfold isComment
  rw [J.isEmpty_eq, trimmed]
  rfl

/-- The line is for an edge or a node before just if it is afterwards. -/
theorem lineEffect_eq_of_keeps (valid : (LineEdit.indent ws ws' body).Valid)
    (keeps : (LineEdit.indent ws ws' body).Keeps J) :
    Generator.lineEffect J (ws ++ body) = Generator.lineEffect J (ws' ++ body) := by
  obtain ⟨indent, indent', first⟩ := valid
  have same : isGraphLine (ws ++ body) = isGraphLine (ws' ++ body) := by
    rw [Bool.eq_iff_iff, isGraphLine_indent indent first, isGraphLine_indent indent' first]
    refine and_congr_left fun free => not_congr (and_congr_left fun zero => ?_)
    exact keeps zero free
  rw [lineEffect_indent indent, lineEffect_indent indent', same]

/-- A line that turns from one of task 0 into one of a node or an edge adds it. -/
theorem indent_keeps_of_same (valid : (LineEdit.indent ws ws' body).Valid) {eff eff' : Effect Double}
    (read : Generator.lineEffect J (ws ++ body) = some eff)
    (read' : Generator.lineEffect J (ws' ++ body) = some eff') (edges : eff.edges = eff'.edges)
    (nodes : eff.nodes.map Node.bare = eff'.nodes.map Node.bare) :
    (LineEdit.indent ws ws' body).Keeps J := by
  obtain ⟨indent, indent', first⟩ := valid
  intro zero free
  rw [lineEffect_indent indent, not_skipped zero, if_neg Bool.false_ne_true] at read
  rw [lineEffect_indent indent', not_skipped zero, if_neg Bool.false_ne_true] at read'
  have graph := isGraphLine_indent indent first
  have graph' := isGraphLine_indent indent' first
  simp only [zero, free, and_true] at graph graph'
  by_contra differ
  by_cases tab : ws = "\t".toList
  · have other : ¬ ws' = "\t".toList := fun tab' => differ (iff_of_true tab tab')
    rw [if_neg fun here => graph.mp here tab] at read
    rw [if_pos (graph'.mpr other)] at read'
    have none := otherEffect_adds read
    rw [none.1] at edges
    rw [none.2, List.map_nil, eq_comm, List.map_eq_nil_iff] at nodes
    exact (graphEffect_adds read').elim (fun some => some edges.symm) fun some => some nodes
  · have other : ws' = "\t".toList := by
      by_contra tab'
      exact differ (iff_of_false tab tab')
    rw [if_pos (graph.mpr tab)] at read
    rw [if_neg fun here => graph'.mp here other] at read'
    have none := otherEffect_adds read'
    rw [none.1] at edges
    rw [none.2, List.map_nil, List.map_eq_nil_iff] at nodes
    exact (graphEffect_adds read).elim (fun some => some edges) fun some => some nodes

end Indent

/-! ## Another order of attributes -/

section Permute

variable {n : NodeLine} {as as' : List Text}

/-- Lower-casing and taking off quotes goes character by character, too. -/
theorem CharCase.exists_low (mapping : CharCase J) : ∃ low : Char → Text,
    (∀ s, 'Σ' ∉ s → unquoted J s = s.flatMap low) ∧
      (∀ c, isBlankChar c = true → low c = [c]) ∧ (∀ c ∈ ",[]".toList, low c = [c]) ∧
        ∀ c d, d ∈ low c → d ∈ ",=".toList → c = d := by
  obtain ⟨lower, chars, blanks, keeps, makes⟩ := mapping.exists_lower
  have plain : '\"' ∉ ",[]".toList := by decide
  have kept : ∀ c, c ≠ '\"' → lower c = [c] → replaceChar '\"' [] (lower c) = [c] := by
    intro c other same
    rw [same]
    exact replaceChar_of_not_mem fun mem => other (List.mem_singleton.mp mem).symm
  refine ⟨fun c => replaceChar '\"' [] (lower c), fun s free => ?_, fun c blank => ?_,
    fun c mem => ?_, fun c d mem sep => makes c d (replaceChar_nil_subset _ _ mem) sep⟩
  · rw [unquoted, chars s free, replaceChar, List.flatMap_assoc]
    rfl
  · refine kept c ?_ (blanks c blank)
    rintro rfl
    exact absurd blank (by decide)
  · refine kept c ?_ (keeps c mem)
    rintro rfl
    exact plain mem

theorem NodeLine.trim_text (indent : ∀ c ∈ n.indent, isBlankChar c = true)
    (name : ∃ c ∈ n.name.head?, isBlankChar c = false) (as : List Text) : trim (n.text as) =
      (n.name ++ ' ' :: n.gap) ++ '[' :: ([','].intercalate as ++ trim (']' :: n.tail)) := by
  obtain ⟨c, head, visible⟩ := name
  obtain ⟨name, name_eq⟩ := List.head?_eq_some_iff.mp head
  have closes : isBlankChar ']' = false := by decide
  have back : trim (']' :: n.tail) = (']' :: n.tail).rdropWhile isBlankChar := by
    rw [trim, List.dropWhile_cons_of_neg (by rw [closes]; decide)]
  have kept : (']' :: n.tail).rdropWhile isBlankChar ≠ [] := by
    intro nothing
    have blank := List.rdropWhile_eq_nil_iff.mp nothing ']' List.mem_cons_self
    rw [closes] at blank
    cases blank
  have parts : n.text as = n.indent ++ (((n.name ++ ' ' :: n.gap) ++ '[' :: [','].intercalate as) ++
      ']' :: n.tail) := by
    simp only [NodeLine.text, List.append_assoc, List.cons_append]
  rw [parts, back, trim, List.dropWhile_append_of_pos indent, name_eq]
  simp only [List.cons_append]
  rw [List.dropWhile_cons_of_neg (by rw [visible]; decide), ← List.cons_append, ← List.cons_append,
    rdropWhile_append, if_neg kept]
  simp only [List.append_assoc, List.cons_append]

theorem mem_text_iff {c : Char} (other : c ≠ ',') : c ∈ n.text as ↔
    c ∈ n.indent ++ (n.name ++ ' ' :: n.gap) ∨ c = '[' ∨ (∃ a ∈ as, c ∈ a) ∨ c ∈ ']' :: n.tail := by
  unfold NodeLine.text
  rw [List.mem_append, List.mem_cons, List.mem_append (s := [','].intercalate as),
    mem_list_iff other]

/-- What is visible is found in a text without the blanks around it as before. -/
theorem contains_trim {sub : Text} (visible : ∀ c ∈ sub, isBlankChar c = false)
    (nonempty : sub ≠ []) (a : Text) : contains sub (trim a) = true ↔ contains sub a = true := by
  obtain ⟨ws, ws', eq, blank, blank'⟩ := exists_padding a
  conv_rhs => rw [eq, contains_indent (head?_ne_of_visible visible blank) nonempty]
  cases ws' with
  | nil => rw [List.append_nil]
  | cons c ws' =>
      have free : ∀ d ∈ c :: ws', d ∉ sub := fun d mem inside => by
        have seen := visible d inside
        rw [blank' d mem] at seen
        cases seen
      rw [contains_append_cons (free c List.mem_cons_self), iff_comm, or_iff_left]
      intro here
      obtain ⟨d, rest, rfl⟩ := List.exists_cons_of_ne_nil nonempty
      have mem := subset_of_contains here List.mem_cons_self
      exact free d (List.mem_cons_of_mem _ mem) List.mem_cons_self

theorem mem_trim_iff {c : Char} (visible : isBlankChar c = false) (a : Text) :
    c ∈ trim a ↔ c ∈ a := by
  obtain ⟨ws, ws', eq, blank, blank'⟩ := exists_padding a
  have other : ∀ ws : Text, (∀ d ∈ ws, isBlankChar d = true) → c ∉ ws := fun ws blank mem => by
    rw [blank c mem] at visible
    cases visible
  conv_rhs => rw [eq]
  simp [other ws blank, other ws' blank']

/-- What is visible and has no separator is found in a permuted line as before. -/
theorem contains_text_iff {sub x y : Text} (visible : ∀ c ∈ sub, isBlankChar c = false)
    (nonempty : sub ≠ []) (comma : ',' ∉ sub) (opens : '[' ∉ sub) (closes : ']' ∉ sub)
    (re : Reordered as as') :
    contains sub (x ++ '[' :: ([','].intercalate as ++ ']' :: y)) = true ↔
      contains sub (x ++ '[' :: ([','].intercalate as' ++ ']' :: y)) = true := by
  rw [contains_append_cons opens, contains_append_cons opens, contains_list nonempty comma closes,
    contains_list nonempty comma closes, re.exists_iff (contains_trim visible nonempty)]

/-- The start of a line is that of its longer part. -/
theorem prefix_append_iff {pre x : Text} (y : Text) (short : pre.length ≤ x.length) :
    pre <+: x ++ y ↔ pre <+: x :=
  ⟨fun here => List.prefix_of_prefix_length_le here (List.prefix_append x y) short,
    fun here => here.trans (List.prefix_append x y)⟩

theorem startsWith_text_iff {pre x y z : Text} (short : pre.length ≤ x.length) :
    startsWith pre (x ++ y) = startsWith pre (x ++ z) := by
  rw [Bool.eq_iff_iff]
  unfold startsWith
  simp only [List.isPrefixOf_iff_prefix, prefix_append_iff _ short]

/-- A permuted line is one of a node, too. -/
theorem NodeLine.Valid.reordered (valid : n.Valid as) (re : Reordered as as') : n.Valid as' := by
  obtain ⟨t, back⟩ := trim_cons (c := ']') n.tail (by decide)
  obtain ⟨c, head, visible⟩ := valid.name
  obtain ⟨name, name_eq⟩ := List.head?_eq_some_iff.mp head
  have trimmed : trim (n.text as) = _ := trim_text valid.indent valid.name as
  have trimmed' : trim (n.text as') = _ := trim_text valid.indent valid.name as'
  rw [back] at trimmed trimmed'
  have attributes : ∀ a ∈ as', ',' ∉ a :=
    (re.forall_iff fun a => not_congr (mem_trim_iff (by decide) a)).mp valid.attributes
  have sigma : 'Σ' ∉ n.text as' := by
    have inside : (∃ a ∈ as, 'Σ' ∈ a) ↔ ∃ a ∈ as', 'Σ' ∈ a :=
      re.exists_iff (mem_trim_iff (by decide))
    have free := valid.sigma
    rw [mem_text_iff (by decide)] at free ⊢
    rwa [← inside]
  have short : 2 ≤ (n.name ++ ' ' :: n.gap).length := by
    rw [name_eq, List.length_append, List.length_cons, List.length_cons]
    omega
  have comment : isComment (n.text as') = false := by
    have before := valid.comment
    unfold isComment at before ⊢
    rw [trimmed] at before
    rw [trimmed', startsWith_text_iff (by simpa using short)]
    exact before
  have task : startsWith "\t0".toList (n.text as) = startsWith "\t0".toList (n.text as') :=
    startsWith_text_iff (by
      rw [List.length_append]
      exact short.trans (Nat.le_add_left _ _))
  have brace : contains "\x7d".toList (n.text as) = contains "\x7d".toList (n.text as') :=
    Bool.eq_iff_iff.mpr
      (contains_text_iff (forall_chars (by decide)) (by decide) (by decide) (by decide) (by decide)
        re)
  have arrow : contains "->".toList (trim (n.text as)) =
      contains "->".toList (trim (n.text as')) := by
    rw [trimmed, trimmed', Bool.eq_iff_iff]
    exact contains_text_iff (forall_chars (by decide)) (by decide) (by decide) (by decide)
      (by decide) re
  have node : IsNodeLine (n.text as') := by
    have before := valid.node
    unfold IsNodeLine isGraphLine at before ⊢
    rwa [← task, ← brace, ← arrow]
  exact ⟨valid.indent, valid.name, valid.sign, attributes, sigma, comment, node⟩

theorem trim_subset (s : Text) : trim s ⊆ s :=
  List.Subset.trans (List.rdropWhile_prefix isBlankChar _).subset
    (List.dropWhile_suffix isBlankChar).subset

theorem NodeLine.Valid.sigma_parts (valid : n.Valid as) : 'Σ' ∉ n.name ++ ' ' :: n.gap ∧
    (∀ a ∈ as, 'Σ' ∉ a) ∧ 'Σ' ∉ trim (']' :: n.tail) := by
  have sigma := valid.sigma
  rw [mem_text_iff (by decide)] at sigma
  exact ⟨fun mem => sigma (Or.inl (List.mem_append_right _ mem)),
    fun a mem here => sigma (Or.inr (Or.inr (Or.inl ⟨a, mem, here⟩))),
    fun mem => sigma (Or.inr (Or.inr (Or.inr (trim_subset _ mem))))⟩

/-- The line without quotes in lower case. -/
theorem NodeLine.Valid.unquoted_text (valid : n.Valid as) (mapping : CharCase J) :
    unquoted J (trim (n.text as)) = unquoted J (n.name ++ ' ' :: n.gap) ++
      '[' :: ([','].intercalate (as.map (unquoted J)) ++ n.lowTail J) := by
  obtain ⟨low, chars, -, keeps, -⟩ := mapping.exists_low
  obtain ⟨head, each, back⟩ := valid.sigma_parts
  have whole : 'Σ' ∉ trim (n.text as) := fun mem => valid.sigma (trim_subset _ mem)
  have list : as.map (unquoted J) = as.map fun a => a.flatMap low :=
    List.map_congr_left fun a mem => chars a (each a mem)
  have joined : ([','].intercalate as ++ trim (']' :: n.tail)).flatMap low =
      [','].intercalate (as.map fun a => a.flatMap low) ++ (trim (']' :: n.tail)).flatMap low := by
    rw [List.flatMap_append, flatMap_list (keeps _ (by decide))]
  rw [NodeLine.lowTail, chars _ whole, chars _ head, chars _ back, list,
    trim_text valid.indent valid.name, List.flatMap_append, List.flatMap_cons (x := '['), joined,
    keeps _ (by decide)]
  rfl

/-- The parts of the line as they are read. -/
structure NodeLine.Reads (J : JavaLang Double) (n : NodeLine) (as : List Text) : Prop where
  sign : '=' ∉ unquoted J (n.name ++ ' ' :: n.gap)
  space : ' ' ∈ unquoted J (n.name ++ ' ' :: n.gap)
  tail : ∃ t, n.lowTail J = ']' :: t
  attributes : ∀ a ∈ as.map (unquoted J), ',' ∉ a

theorem NodeLine.Valid.reads (valid : n.Valid as) (mapping : CharCase J) : n.Reads J as := by
  obtain ⟨low, chars, blanks, keeps, makes⟩ := mapping.exists_low
  obtain ⟨head, each, back⟩ := valid.sigma_parts
  have made : ∀ (s : Text) (d : Char), d ∈ ",=".toList → d ∉ s → d ∉ s.flatMap low := by
    intro s d sep free mem
    obtain ⟨c, here, inside⟩ := List.mem_flatMap.mp mem
    rw [makes c d inside sep] at here
    exact free here
  refine ⟨?_, ?_, ?_, ?_⟩
  · rw [chars _ head]
    exact made _ _ (by decide) valid.sign
  · rw [chars _ head, List.flatMap_append, List.flatMap_cons, blanks ' ' (by decide)]
    simp
  · obtain ⟨t, eq⟩ := trim_cons (c := ']') n.tail (by decide)
    rw [eq] at back
    refine ⟨t.flatMap low, ?_⟩
    rw [NodeLine.lowTail, eq, chars _ back, List.flatMap_cons, keeps ']' (by decide)]
    rfl
  · intro a mem
    rcases List.mem_map.mp mem with ⟨b, here, rfl⟩
    rw [chars b (each b here)]
    exact made _ _ (by decide) (valid.attributes b here)

theorem maybeGetVal_eq {line : Text} (attr : Text) (lower : J.toLowerCase line = line) :
    Generator.maybeGetVal J line attr =
      ((behind (attr ++ "=".toList) line).bind beforeComma).getD [] := by
  rw [← split_bind_beforeComma]
  unfold Generator.maybeGetVal beforeComma
  rw [lower]
  by_cases short : (split (attr ++ "=".toList) line).length < 2
  · rw [if_pos short, List.getElem?_eq_none (by omega)]
    rfl
  · rw [if_neg short, List.getD_eq_getElem?_getD]
    obtain ⟨rest, second⟩ : ∃ rest, (split (attr ++ "=".toList) line)[1]? = some rest :=
      ⟨_, List.getElem?_eq_getElem (by omega)⟩
    rw [second, Option.bind_some, Option.getD_some]
    change (if (split [','] rest).length < 2 then [] else (split [','] rest).getD 0 []) = _
    split
    · rfl
    · exact List.getD_eq_getElem?_getD

/-- A key of the reader. -/
structure IsKey (attr : Text) : Prop where
  sign : '=' ∉ attr
  plain : ∀ c ∈ ",[]".toList, c ∉ attr ++ "=".toList

/-- **The values of a node.** What the reader takes for an attribute is the value that counts. -/
theorem NodeLine.Valid.maybeGetVal_text (valid : n.Valid as) (mapping : CharCase J) {attr : Text}
    (isKey : IsKey attr) : Generator.maybeGetVal J (unquoted J (trim (n.text as))) attr =
      (standing (attr ++ "=".toList) (n.lowTail J) (as.map (unquoted J))).getD [] := by
  have parts := valid.reads mapping
  obtain ⟨t, tail_eq⟩ := parts.tail
  have nonempty : attr ++ "=".toList ≠ [] := by simp
  have single : pieces (attr ++ "=".toList) 0 (unquoted J (n.name ++ ' ' :: n.gap)) = [_] :=
    pieces_end parts.sign
  rw [maybeGetVal_eq _ (toLowerCase_unquoted _), valid.unquoted_text mapping,
    behind_append_cons nonempty (isKey.plain _ (by decide)), single]
  dsimp only
  rw [behind_bind_beforeComma nonempty (isKey.plain _ (by decide)) tail_eq
    (isKey.plain _ (by decide)) (by decide) parts.attributes]

theorem parseInt_first (w u : Text) (free : ' ' ∉ w) :
    (split " ".toList (w ++ ' ' :: u))[0]?.bind (parseInt J) = parseInt J w := by
  by_cases nothing : w = []
  · subst nothing
    cases first : (split " ".toList ([] ++ ' ' :: u))[0]? with
    | none => rfl
    | some p =>
        obtain ⟨rest, append⟩ := split_prefix " ".toList ([] ++ ' ' :: u)
        have pieces_eq : pieces " ".toList 0 ([] ++ ' ' :: u) = [] :: pieces " ".toList 0 u :=
          pieces_char List.not_mem_nil u
        cases kept : split " ".toList ([] ++ ' ' :: u) with
        | nil =>
            rw [kept] at first
            cases first
        | cons q qs =>
            rw [kept, pieces_eq] at append
            rw [kept] at first
            cases first
            rw [(List.cons.inj append).1]
            rfl
  · have first : (split " ".toList (w ++ ' ' :: u))[0]? = some w := head_split_append free nothing
    rw [first]
    rfl

/-- The node of a line with its attributes in this order. -/
def NodeLine.nodeWith (J : JavaLang Double) (n : NodeLine) (as : List Text) (nodeID : ℤ) :
    Node Double :=
  let low := as.map (unquoted J)
  ⟨nodeID, asDouble J (standing "miet=".toList (n.lowTail J) low),
    asDouble J (standing "meet=".toList (n.lowTail J) low),
    asDouble J (standing "maet=".toList (n.lowTail J) low),
    asInt J (standing "mem=".toList (n.lowTail J) low),
    asUnit J (standing "unit=".toList (n.lowTail J) low), commentOf J (trim (n.text as))⟩

/-- The id of a node stands before its attributes. -/
theorem exists_nodeID (J : JavaLang Double) (n : NodeLine) (mapping : CharCase J) :
    ∃ nodeID : Option ℤ, ∀ as, n.Valid as →
      Generator.nodeOf J (trim (n.text as)) = nodeID.map (n.nodeWith J as) := by
  by_cases some_valid : ∃ as, n.Valid as
  · obtain ⟨bs, first_valid⟩ := some_valid
    obtain ⟨w, u, parts, free⟩ :=
      List.eq_append_cons_of_mem (first_valid.reads mapping).space
    refine ⟨parseInt J w, fun as valid => ?_⟩
    have text := valid.unquoted_text mapping
    have nodeID : (split " ".toList (unquoted J (trim (n.text as))))[0]?.bind (parseInt J) =
        parseInt J w := by
      rw [text, parts, List.append_assoc, List.cons_append]
      exact parseInt_first w _ free
    have value := fun (attr : Text) (isKey : IsKey attr) => valid.maybeGetVal_text mapping isKey
    unfold Generator.nodeOf Generator.getValDouble Generator.getValInt Generator.memUnit
    rw [nodeID, value "miet".toList ⟨by decide, forall_chars (by decide)⟩,
      value "meet".toList ⟨by decide, forall_chars (by decide)⟩,
      value "maet".toList ⟨by decide, forall_chars (by decide)⟩,
      value "mem".toList ⟨by decide, forall_chars (by decide)⟩,
      value "unit".toList ⟨by decide, forall_chars (by decide)⟩]
    cases parseInt J w <;> rfl
  · exact ⟨none, fun as valid => absurd ⟨as, valid⟩ some_valid⟩

/-- A key stands in an attribute in both orders or in neither. -/
theorem absent_iff (mapping : CharCase J) (valid : n.Valid as) (re : Reordered as as') (key : Text)
    (visible : ∀ c ∈ key, isBlankChar c = false) (nonempty : key ≠ []) :
    (∀ a ∈ as.map (unquoted J), occurrences key a = 0) ↔
      ∀ a ∈ as'.map (unquoted J), occurrences key a = 0 := by
  obtain ⟨low, chars, blanks, -⟩ := mapping.exists_low
  have padded : ∀ ws : Text, (∀ c ∈ ws, isBlankChar c = true) → ws.flatMap low = ws := by
    intro ws blank
    rw [List.flatMap_congr fun c mem => blanks c (blank c mem)]
    exact List.flatMap_singleton' ws
  have stable : ∀ a : Text, occurrences key ((trim a).flatMap low) = 0 ↔
      occurrences key (a.flatMap low) = 0 := by
    intro a
    obtain ⟨ws, ws', eq, blank, blank'⟩ := exists_padding a
    conv_rhs => rw [eq, List.flatMap_append, List.flatMap_append, padded ws blank,
      padded ws' blank', occurrences_pad visible nonempty blank blank']
  have lowered : ∀ as, n.Valid as → as.map (unquoted J) = as.map fun a => a.flatMap low :=
    fun as valid => List.map_congr_left fun a mem => chars a (valid.sigma_parts.2.1 a mem)
  rw [lowered as valid, lowered as' (valid.reordered re), List.forall_mem_map, List.forall_mem_map]
  exact re.forall_iff stable

/-- Nodes of one id are the same, comments apart, just if their values are. -/
theorem bare_nodeWith_iff (mapping : CharCase J) (valid : n.Valid as) (re : Reordered as as')
    (nodeID : ℤ) :
    (n.nodeWith J as nodeID).bare = (n.nodeWith J as' nodeID).bare ↔ n.KeepsKeys J as as' := by
  have absent := absent_iff mapping valid re
  have miet := keepsKey_iff "miet=".toList (n.lowTail J) (asDouble J)
    (absent _ (forall_chars (by decide)) (by decide))
  have meet := keepsKey_iff "meet=".toList (n.lowTail J) (asDouble J)
    (absent _ (forall_chars (by decide)) (by decide))
  have maet := keepsKey_iff "maet=".toList (n.lowTail J) (asDouble J)
    (absent _ (forall_chars (by decide)) (by decide))
  have mem := keepsKey_iff "mem=".toList (n.lowTail J) (asInt J)
    (absent _ (forall_chars (by decide)) (by decide))
  have unit := keepsKey_iff "unit=".toList (n.lowTail J) (asUnit J)
    (absent _ (forall_chars (by decide)) (by decide))
  have keys := and_congr miet (and_congr meet (and_congr maet (and_congr mem unit)))
  refine Iff.trans ?_ keys.symm
  unfold NodeLine.nodeWith Node.bare
  simp only [Node.mk.injEq, true_and, and_true]

/-- **A permuted line.** It is one of a node with the same id, and with the same values just if its
keys are kept. -/
theorem exists_permuted (mapping : CharCase J) (valid : (LineEdit.permute n as as').Valid)
    {eff : Effect Double} (read : Generator.lineEffect J (n.text as) = some eff) :
    ∃ m m', eff = .node m ∧ Generator.lineEffect J (n.text as') = some (.node m') ∧
      (m.bare = m'.bare ↔ n.KeepsKeys J as as') := by
  obtain ⟨before, re⟩ := valid
  have after := before.reordered re
  obtain ⟨nodeID, nodes⟩ := exists_nodeID J n mapping
  have line : ∀ as, n.Valid as → Generator.lineEffect J (n.text as) =
      (nodeID.map (n.nodeWith J as)).map .node := by
    intro as valid
    obtain ⟨c, head, visible⟩ := valid.name
    obtain ⟨name, name_eq⟩ := List.head?_eq_some_iff.mp head
    have filled : J.isEmpty (n.text as) = false := by
      rw [J.isEmpty_eq, NodeLine.trim_text valid.indent valid.name, name_eq]
      rfl
    rw [Generator.lineEffect_eq filled valid.comment, effectOf, if_pos valid.node.1,
      if_neg (by rw [valid.node.2]; decide), nodes as valid]
  rw [line as before] at read
  rw [line as' after]
  cases nodeID with
  | none => cases read
  | some nodeID =>
      cases read
      exact ⟨_, _, rfl, rfl, bare_nodeWith_iff mapping before re nodeID⟩

end Permute

/-! ## One line -/

section Line

variable {e : LineEdit} {eff eff' : Effect Double}

/-- **Step lemma.** An edit that keeps what a line says keeps its effect, comments apart. -/
theorem exists_bare_eq (mapping : CharCase J) (valid : e.Valid) (keeps : e.Keeps J)
    (read : Generator.lineEffect J e.source = some eff) :
    ∃ eff', Generator.lineEffect J e.target = some eff' ∧ eff.bare = eff'.bare := by
  cases e with
  | indent ws ws' body =>
      exact ⟨eff, (lineEffect_eq_of_keeps valid keeps).symm.trans read, rfl⟩
  | permute n as as' =>
      rcases exists_permuted mapping valid read with ⟨m, m', rfl, read', same⟩
      exact ⟨_, read', congrArg Effect.node (same.mpr keeps)⟩

/-- An edit with which the line adds the same edge or node keeps what it says. -/
theorem keeps_of_same (mapping : CharCase J) (valid : e.Valid)
    (read : Generator.lineEffect J e.source = some eff)
    (read' : Generator.lineEffect J e.target = some eff') (edges : eff.edges = eff'.edges)
    (nodes : eff.nodes.map Node.bare = eff'.nodes.map Node.bare) : e.Keeps J := by
  cases e with
  | indent ws ws' body => exact indent_keeps_of_same valid read read' edges nodes
  | permute n as as' =>
      rcases exists_permuted mapping valid read with ⟨m, m', rfl, here, same⟩
      cases here.symm.trans read'
      exact same.mp (List.cons.inj nodes).1

end Line

end Hipert.Rtdot
