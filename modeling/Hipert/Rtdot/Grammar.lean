import Hipert.Rtdot.NewLines

/-!
# DOT files with settings and nodes

The files that `modifyXML` is made for have a first line, lines of task 0 with the settings, lines
of nodes, each with its token before the bracket, and other lines, in which it finds nothing. It
rewrites the settings, and the nodes whose tokens end with the name that it looks for
(`newLine_text`).
-/

namespace Hipert.Rtdot

variable {Double : Type} {J : JavaLang Double}

/-! ## Lines -/

/-- A line after the first. -/
inductive Line where
  | settings (rest : Text)
  | node (indent token rest : Text)
  | other (text : Text)

/-- The line as it stands in the file. -/
def Line.text : Line → Text
  | settings rest => "\t0 [period".toList ++ rest
  | node indent token rest => indent ++ (token ++ (" [MIET".toList ++ rest))
  | other text => text

/-- The line has its brackets where they are looked for, and reads as what it is. -/
inductive Line.Valid : Line → Prop
  | settings {rest : Text} : '[' ∉ rest → Valid (settings rest)
  | node {indent token rest : Text} : (∀ c ∈ indent, isBlankChar c = true) → token ≠ [] →
    (∀ c ∈ token, isBlankChar c = false) → '[' ∉ token → '[' ∉ rest →
    isGraphLine (node indent token rest).text = true →
    contains "->".toList (trim (node indent token rest).text) = false →
    Valid (node indent token rest)
  | other {text : Text} : contains " [MIET".toList text = false →
    contains "period".toList text = false →
    (isGraphLine text = true → contains "->".toList (trim text) = true) → Valid (other text)

/-- The lines of a file: a first one with nothing to rewrite, and valid ones with settings. -/
structure InForm (lines : List Text) (first : Text) (ls : List Line) : Prop where
  lines_eq : lines = first :: ls.map Line.text
  first_period : contains "0 [period".toList first = false
  first_node : contains " [MIET".toList first = false
  valid : ∀ l ∈ ls, l.Valid
  settings : ∃ rest, Line.settings rest ∈ ls

/-- The token of a node line. -/
def Line.token? : Line → Option Text
  | node _ token _ => some token
  | _ => none

/-- The tokens of the nodes, in order. -/
def tokens (ls : List Line) : List Text := ls.filterMap Line.token?

/-- What comes behind the first key of the line of task 0. -/
def Args.periodRest (a : Args) : Text :=
  "=".toList ++ a.period ++ ", priority=".toList ++ a.priority ++ ", deadline=".toList ++
    a.deadline ++ ", map=".toList ++ a.map ++ "]".toList

/-- What becomes of a line. -/
def Args.rewrite (a : Args) : Line → Line
  | .settings _ => .settings a.periodRest
  | .node indent token rest =>
    if a.nodeName <:+ token then .node "\t".toList a.nodeName a.nodeRest
    else .node indent token rest
  | .other text => .other text

/-! ## Searching -/

theorem suffix_append_singleton_iff {p x : Text} {c : Char} : p ++ [c] <:+ x ++ [c] ↔ p <:+ x := by
  refine ⟨?_, ?_⟩
  · intro given
    rcases given with ⟨u, eq⟩
    rw [← List.append_assoc] at eq
    exact ⟨u, List.append_cancel_right eq⟩
  · intro given
    rcases given with ⟨u, rfl⟩
    exact ⟨u, by rw [List.append_assoc]⟩

/-- What has no blanks does not reach into the indentation. -/
theorem suffix_indent_iff {name indent token : Text} (blank : ∀ c ∈ indent, isBlankChar c = true)
    (visible : ∀ c ∈ name, isBlankChar c = false) : name <:+ indent ++ token ↔ name <:+ token := by
  refine ⟨?_, ?_⟩
  · intro suffix
    rcases List.suffix_or_suffix_of_suffix suffix (List.suffix_append indent token) with here | here
    · exact here
    · rcases here with ⟨u, rfl⟩
      obtain ⟨w, eq⟩ := suffix
      rw [← List.append_assoc] at eq
      have inside := List.append_cancel_right eq
      cases u with
      | nil => exact List.suffix_refl _
      | cons c u =>
          have low := blank c (by rw [← inside]; simp)
          rw [visible c List.mem_cons_self] at low
          cases low
  · exact fun suffix => suffix.trans (List.suffix_append _ _)

theorem contains_period_iff {before key rest : Text} (free : '[' ∉ before)
    (free' : '[' ∉ key ++ rest) :
    contains "0 [period".toList (before ++ '[' :: (key ++ rest)) = true ↔
      "0 ".toList <:+ before ∧ "period".toList <+: key ++ rest := by
  have parts : "0 [period".toList = "0 ".toList ++ '[' :: "period".toList := by decide
  rw [parts, contains_around_iff free free']

theorem contains_node_iff {name before key rest : Text} (free : '[' ∉ before)
    (free' : '[' ∉ key ++ rest) :
    contains (name ++ " [MIET".toList) (before ++ '[' :: (key ++ rest)) = true ↔
      name ++ " ".toList <:+ before ∧ "MIET".toList <+: key ++ rest := by
  have parts : name ++ " [MIET".toList = (name ++ " ".toList) ++ '[' :: "MIET".toList := by simp
  rw [parts, contains_around_iff free free']

theorem settings_text (rest : Text) :
    (Line.settings rest).text = "\t0 ".toList ++ '[' :: ("period".toList ++ rest) := by
  have key : "\t0 [period".toList = "\t0 ".toList ++ '[' :: "period".toList := by decide
  change "\t0 [period".toList ++ rest = _
  rw [key, List.append_assoc, List.cons_append]

theorem node_text (indent token rest : Text) : (Line.node indent token rest).text =
    (indent ++ (token ++ " ".toList)) ++ '[' :: ("MIET".toList ++ rest) := by
  have key : " [MIET".toList = " ".toList ++ '[' :: "MIET".toList := by decide
  change indent ++ (token ++ (" [MIET".toList ++ rest)) = _
  rw [key]
  simp only [List.append_assoc, List.cons_append]

theorem newLine_eq (a : Args) (line : Text) : a.newLine line =
    if contains (a.nodeName ++ " [MIET".toList)
        (if contains "0 [period".toList line then a.periodLine else line) then a.nodeLine
    else if contains "0 [period".toList line then a.periodLine else line := rfl

theorem bracket_not_mem_key {key rest : Text} (free : '[' ∉ rest) (key_free : '[' ∉ key) :
    '[' ∉ key ++ rest := fun mem => (List.mem_append.mp mem).elim key_free free

theorem periodLine_text (a : Args) : a.periodLine = (Line.settings a.periodRest).text := by
  change a.periodLine = "\t0 [period".toList ++ a.periodRest
  unfold Args.periodLine Args.periodRest
  simp only [List.append_assoc, toList_append_toList, String.reduceAppend]

theorem nodeLine_text (a : Args) :
    a.nodeLine = (Line.node "\t".toList a.nodeName a.nodeRest).text := nodeLine_eq a

theorem restText_periodRest {a : Args} (formed : a.WellFormed) : RestText a.periodRest := by
  have sign : RestText "=".toList := by decide
  have priority : RestText ", priority=".toList := by decide
  have deadline : RestText ", deadline=".toList := by decide
  have map : RestText ", map=".toList := by decide
  have bracket : RestText "]".toList := by decide
  unfold Args.periodRest
  simp only [restText_append, sign, priority, deadline, map, bracket, formed.period.isField.text.rest,
    formed.priority.isField.text.rest, formed.deadline.isField.text.rest,
    formed.map.isField.text.rest, and_self]

/-- The line of task 0 is rewritten once. -/
theorem newLine_settings {a : Args} (formed : a.WellFormed) {rest : Text} (free : '[' ∉ rest) :
    a.newLine (Line.settings rest).text = a.periodLine := by
  have here : contains "0 [period".toList (Line.settings rest).text = true := by
    rw [settings_text, contains_period_iff (by decide) (bracket_not_mem_key free (by decide))]
    exact ⟨⟨"\t".toList, rfl⟩, List.prefix_append _ _⟩
  have not_node : ¬ contains (a.nodeName ++ " [MIET".toList) a.periodLine = true := by
    rw [periodLine_text, settings_text, contains_node_iff (by decide)
      (bracket_not_mem_key ((restText_periodRest formed).not_mem (by decide)) (by decide))]
    intro given
    rcases given with ⟨-, key⟩
    exact absurd (List.cons_prefix_cons.mp key).1 (by decide)
  rw [newLine_eq, if_pos here, if_neg not_node]

/-- The line of a node is rewritten if its token ends with the name. -/
theorem newLine_node {a : Args} (formed : a.WellFormed) {indent token rest : Text}
    (valid : (Line.node indent token rest).Valid) :
    a.newLine (Line.node indent token rest).text =
      if a.nodeName <:+ token then a.nodeLine else (Line.node indent token rest).text := by
  cases valid with
  | node blank filled visible bracket bracket' graph arrow =>
      have before : '[' ∉ indent ++ (token ++ " ".toList) := by
        intro mem
        rcases List.mem_append.mp mem with mem | mem
        · exact absurd (blank _ mem) (by decide)
        · exact (List.mem_append.mp mem).elim bracket (by decide)
      have not_period : ¬ contains "0 [period".toList (Line.node indent token rest).text = true := by
        rw [node_text, contains_period_iff before (bracket_not_mem_key bracket' (by decide))]
        intro given
        rcases given with ⟨-, key⟩
        exact absurd (List.cons_prefix_cons.mp key).1 (by decide)
      have name : ∀ c ∈ a.nodeName, isBlankChar c = false := fun c mem =>
        isBlankChar_of_isNumeralChar (formed.nodeName.chars c mem)
      have found : contains (a.nodeName ++ " [MIET".toList) (Line.node indent token rest).text = true ↔
          a.nodeName <:+ token := by
        rw [node_text, contains_node_iff before (bracket_not_mem_key bracket' (by decide)),
          ← suffix_indent_iff blank name, ← List.append_assoc]
        exact (and_iff_left (List.prefix_append _ _)).trans suffix_append_singleton_iff
      rw [newLine_eq, if_neg not_period]
      simp only [found]

theorem newLine_other {a : Args} {text : Text} (node : contains " [MIET".toList text = false)
    (period : contains "0 [period".toList text = false) : a.newLine text = text := by
  have not_node : ¬ contains (a.nodeName ++ " [MIET".toList) text = true := by
    rw [contains_eq_false_of_isInfix (List.suffix_append _ _).isInfix node]
    decide
  have not_period : ¬ contains "0 [period".toList text = true := by
    rw [period]
    decide
  rw [newLine_eq, if_neg not_period, if_neg not_node]

theorem newLine_text {a : Args} (formed : a.WellFormed) {l : Line} (valid : l.Valid) :
    a.newLine l.text = (a.rewrite l).text := by
  cases l with
  | settings rest =>
      cases valid with
      | settings free => rw [newLine_settings formed free, periodLine_text]; rfl
  | node indent token rest =>
      rw [newLine_node formed valid, Args.rewrite]
      split
      · exact nodeLine_text a
      · rfl
  | other text =>
      cases valid with
      | other node period graph =>
          exact newLine_other node (contains_eq_false_of_isInfix ⟨"0 [".toList, [], by decide⟩ period)

/-! ## Rewriting a file -/

theorem newLine_cases (a : Args) (line : Text) :
    a.newLine line = a.nodeLine ∨ a.newLine line = a.periodLine ∨ a.newLine line = line := by
  rw [newLine_eq]
  generalize contains (a.nodeName ++ " [MIET".toList) _ = node
  generalize contains "0 [period".toList line = period
  cases node with
  | true => exact Or.inl rfl
  | false =>
      cases period with
      | true => exact Or.inr (Or.inl rfl)
      | false => exact Or.inr (Or.inr rfl)

theorem not_mem_periodLine {a : Args} (formed : a.WellFormed) {c : Char}
    (other : isRestChar c = false) (literal : c ∉ "\t0 [period".toList) : c ∉ a.periodLine := by
  rw [periodLine_text]
  change c ∉ "\t0 [period".toList ++ a.periodRest
  exact fun mem =>
    (List.mem_append.mp mem).elim literal ((restText_periodRest formed).not_mem other)

theorem isLine_newLine {a : Args} (formed : a.WellFormed) {line : Text} (one : IsLine line) :
    IsLine (a.newLine line) := by
  rcases newLine_cases a line with node | settings | same
  · rw [node]
    exact ⟨not_mem_nodeLine formed (by decide) (by decide),
      not_mem_nodeLine formed (by decide) (by decide)⟩
  · rw [settings]
    exact ⟨not_mem_periodLine formed (by decide) (by decide),
      not_mem_periodLine formed (by decide) (by decide)⟩
  · rw [same]
    exact one

/-- The lines of a file after it has been rewritten. -/
theorem readLines_newContents {a : Args} (formed : a.WellFormed) {contents first : Text}
    {ls : List Line} (form : InForm (readLines contents) first ls) :
    readLines (a.newContents contents) = first :: (ls.map a.rewrite).map Line.text := by
  have written : (readLines contents).map a.newLine =
      first :: (ls.map a.rewrite).map Line.text := by
    rw [form.lines_eq, List.map_cons, newLine_other form.first_node form.first_period, List.map_map,
      List.map_map]
    exact congrArg _ (List.map_congr_left fun l mem => newLine_text formed (form.valid l mem))
  rw [Args.newContents, readLines_writeLines, written]
  intro line mem
  rcases List.mem_map.mp mem with ⟨old, mem_old, rfl⟩
  exact isLine_newLine formed (isLine_of_mem_readLines mem_old)

theorem valid_rewrite {a : Args} (formed : a.WellFormed) (head : a.nodeName.head? ≠ some '0')
    {l : Line} (valid : l.Valid) : (a.rewrite l).Valid := by
  cases l with
  | settings rest => exact .settings ((restText_periodRest formed).not_mem (by decide))
  | node indent token rest =>
      rw [Args.rewrite]
      split
      · apply Line.Valid.node (forall_chars (by decide)) formed.nodeName.nonempty
        · exact fun c mem => isBlankChar_of_isNumeralChar (formed.nodeName.chars c mem)
        · exact formed.nodeName.not_mem (by decide)
        · exact (restText_nodeRest formed).not_mem (by decide)
        · rw [← nodeLine_text]
          exact (isGraphLine_nodeLine formed).mpr head
        · rw [← nodeLine_text]
          exact arrow_nodeLine formed
      · exact valid
  | other text => exact valid

/-- A rewritten file is in the same form. -/
theorem inForm_newContents {a : Args} (formed : a.WellFormed)
    (head : a.nodeName.head? ≠ some '0') {contents first : Text} {ls : List Line}
    (form : InForm (readLines contents) first ls) :
    InForm (readLines (a.newContents contents)) first (ls.map a.rewrite) where
  lines_eq := readLines_newContents formed form
  first_period := form.first_period
  first_node := form.first_node
  valid := by
    intro l mem
    rcases List.mem_map.mp mem with ⟨old, mem_old, rfl⟩
    exact valid_rewrite formed head (form.valid old mem_old)
  settings := by
    obtain ⟨rest, mem⟩ := form.settings
    exact ⟨a.periodRest, List.mem_map.mpr ⟨_, mem, rfl⟩⟩

theorem tokens_rewrite (a : Args) (ls : List Line) :
    tokens (ls.map a.rewrite) =
      (tokens ls).map fun token => if a.nodeName <:+ token then a.nodeName else token := by
  unfold tokens
  rw [List.filterMap_map, List.map_filterMap]
  apply List.filterMap_congr
  intro l _
  cases l with
  | settings rest => rfl
  | node indent token rest =>
      change (a.rewrite (.node indent token rest)).token? =
        some (if a.nodeName <:+ token then a.nodeName else token)
      rw [Args.rewrite]
      split <;> rfl
  | other text => rfl

end Hipert.Rtdot
