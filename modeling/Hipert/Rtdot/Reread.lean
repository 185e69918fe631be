import Hipert.Rtdot.Grammar

/-!
# Reading an edited file

What `XMLModifier` reads off a file with settings and nodes, and what it reads off the file after a
call of `modifyXML`: the new settings, the same edges, and the node of the new line in place of each
whose token ends with the name (`exists_readContents`).
-/

namespace Hipert.Rtdot

variable {Double : Type} {J : JavaLang Double}

/-- A new `XMLModifier` reads a file with these contents. -/
def readContents (J : JavaLang Double) (contents : Text) : Exec (Modifier Double) PUnit :=
  Modifier.readDOTFile J (fun _ => some (readLines contents)) []

/-! ## Lines -/

/-- The line reads as what it is. -/
inductive LineReads (J : JavaLang Double) : Line → Effect Double → Prop
  | settings {rest : Text} (period priority deadline map : ℤ) :
    LineReads J (.settings rest) (.settings period priority deadline map)
  | node {indent token rest : Text} {n : Node Double} :
    Modifier.nodeOf J (trim (Line.node indent token rest).text) = some n →
    LineReads J (.node indent token rest) (.node n)
  | other {text : Text} {eff : Effect Double} : eff.nodes = [] →
    (∀ d, (eff.onDag d).numbers = d.numbers) → LineReads J (.other text) eff

theorem lineReads_of_valid {l : Line} {eff : Effect Double} (valid : l.Valid)
    (read : Modifier.lineEffect J l.text = some eff) : LineReads J l eff := by
  unfold Modifier.lineEffect effectOf at read
  cases valid with
  | @settings rest free =>
      have task : isGraphLine (Line.settings rest).text = false := rfl
      have period : contains "period".toList (Line.settings rest).text = true := by
        rw [contains_iff]
        exact ⟨"\t0 [".toList, rest, rfl⟩
      rw [if_neg (by rw [task]; decide), if_pos period] at read
      rcases exists_settings read with ⟨p, q, d, m, rfl⟩
      exact .settings p q d m
  | node _ _ _ _ _ graph arrow =>
      rw [if_pos graph, if_neg (by rw [arrow]; decide)] at read
      rcases Option.map_eq_some_iff.mp read with ⟨n, node, rfl⟩
      exact .node node
  | @other text _ period graph =>
      have same : (Line.other text).text = text := rfl
      rw [same] at read
      split at read
      · rw [if_pos (graph ‹_›)] at read
        rcases Option.map_eq_some_iff.mp read with ⟨e, -, rfl⟩
        exact .other rfl fun d => rfl
      · rw [if_neg (by rw [period]; decide)] at read
        cases read
        exact .other rfl fun d => rfl

/-- A DAG without its settings and its comment. -/
def DAG.rest (d : DAG) : DAG :=
  { d with period := 0, priority := 0, deadline := 0, map := 0, comment := none }

theorem rest_foldl (effs : List (Effect Double)) (d : DAG) :
    (effs.foldl Effect.onDag d).rest = d.rest := by
  induction effs generalizing d with
  | nil => rfl
  | cons eff effs ih =>
      rw [List.foldl_cons, ih]
      cases eff <;> rfl

/-- The effect of a line after a call with these settings and this node. -/
def Args.newEffect (a : Args) (settings : Effect Double) (new : Node Double) :
    Line → Effect Double → Effect Double
  | .settings _, _ => settings
  | .node _ token _, eff => if a.nodeName <:+ token then .node new else eff
  | .other _, eff => eff

section Effects

variable {a : Args} {ls : List Line} {effs : List (Effect Double)} {new : Node Double}
  {period priority deadline map : ℤ}

theorem lineEffect_rewrite (locale : AsciiCase J) (formed : a.WellFormed)
    (head : a.nodeName.head? ≠ some '0') {settings : Effect Double}
    (given : a.settings J = some settings) (node : a.readNode J = some new) {l : Line}
    {eff : Effect Double} (read : Modifier.lineEffect J l.text = some eff) :
    Modifier.lineEffect J (a.rewrite l).text = some (a.newEffect settings new l eff) := by
  cases l with
  | settings rest =>
      change Modifier.lineEffect J (Line.settings a.periodRest).text = some settings
      rw [← periodLine_text, lineEffect_periodLine formed, given]
  | node indent token rest =>
      rw [Args.rewrite, Args.newEffect]
      split
      · rw [← nodeLine_text, lineEffect_nodeLine locale formed head, node]
        rfl
      · exact read
  | other text => exact read

theorem lineReads_rewrite (locale : AsciiCase J) (formed : a.WellFormed)
    (head : a.nodeName.head? ≠ some '0') {settings : Effect Double}
    (given : a.settings J = some settings) (node : a.readNode J = some new)
    (all : List.Forall₂ (fun l eff => Modifier.lineEffect J l.text = some eff) ls effs) :
    List.Forall₂ (fun line eff => Modifier.lineEffect J line = some eff)
      ((ls.map a.rewrite).map Line.text) (List.zipWith (a.newEffect settings new) ls effs) := by
  induction all with
  | nil => exact .nil
  | cons read _ ih => exact .cons (lineEffect_rewrite locale formed head given node read) ih

/-- The last settings that are read are the new ones. -/
theorem numbers_newEffect (all : List.Forall₂ (LineReads J) ls effs) {d : DAG}
    (settings : d.numbers = (period, priority, deadline, map) ∨ ∃ rest, Line.settings rest ∈ ls) :
    ((List.zipWith (a.newEffect (.settings period priority deadline map) new) ls effs).foldl
      Effect.onDag d).numbers = (period, priority, deadline, map) := by
  induction all generalizing d with
  | nil =>
      rcases settings with numbers | ⟨rest, mem⟩
      · exact numbers
      · cases mem
  | @cons l eff ls effs reads _ ih =>
      rw [List.zipWith_cons_cons, List.foldl_cons]
      apply ih
      cases reads with
      | settings p q e m => exact Or.inl rfl
      | @node indent token rest n read =>
          have kept : ((a.newEffect (.settings period priority deadline map) new
              (.node indent token rest) (.node n)).onDag d).numbers = d.numbers := by
            rw [Args.newEffect]
            split <;> rfl
          rw [kept]
          refine settings.imp_right ?_
          intro given
          rcases given with ⟨rest, mem⟩
          rcases List.mem_cons.mp mem with eq | mem
          · cases eq
          · exact ⟨rest, mem⟩
      | other none same =>
          rw [Args.newEffect, same]
          refine settings.imp_right ?_
          intro given
          rcases given with ⟨rest, mem⟩
          rcases List.mem_cons.mp mem with eq | mem
          · cases eq
          · exact ⟨rest, mem⟩

theorem edges_newEffect (all : List.Forall₂ (LineReads J) ls effs) :
    (List.zipWith (a.newEffect (.settings period priority deadline map) new) ls effs).flatMap
      Effect.edges = effs.flatMap Effect.edges := by
  induction all with
  | nil => rfl
  | @cons l eff ls effs reads _ ih =>
      rw [List.zipWith_cons_cons, List.flatMap_cons, List.flatMap_cons, ih]
      cases reads with
      | settings p q e m => rfl
      | node read =>
          rw [Args.newEffect]
          split <;> rfl
      | other none same => rfl

/-- The nodes that are read, each with the token of its line. -/
theorem exists_entries (all : List.Forall₂ (LineReads J) ls effs) :
    ∃ entries : List (Text × Node Double), entries.map Prod.fst = tokens ls ∧
      effs.flatMap Effect.nodes = entries.map Prod.snd ∧
      (∀ p ∈ entries, ∃ indent rest, Line.node indent p.1 rest ∈ ls ∧
        Modifier.nodeOf J (trim (Line.node indent p.1 rest).text) = some p.2) ∧
      ∀ (a : Args) (new : Node Double) (period priority deadline map : ℤ),
        (List.zipWith (a.newEffect (.settings period priority deadline map) new) ls effs).flatMap
          Effect.nodes = entries.map fun p => if a.nodeName <:+ p.1 then new else p.2 := by
  induction all with
  | nil => exact ⟨[], rfl, rfl, List.forall_mem_nil _, fun _ _ _ _ _ _ => rfl⟩
  | @cons l eff ls effs reads _ ih =>
      obtain ⟨entries, tokens, nodes, lines, after⟩ := ih
      have later : ∀ p ∈ entries, ∃ indent rest, Line.node indent p.1 rest ∈ l :: ls ∧
          Modifier.nodeOf J (trim (Line.node indent p.1 rest).text) = some p.2 := by
        intro p mem
        obtain ⟨indent, rest, here, read⟩ := lines p mem
        exact ⟨indent, rest, List.mem_cons_of_mem _ here, read⟩
      cases reads with
      | settings p q e m =>
          exact ⟨entries, tokens, nodes, later, fun a new _ _ _ _ => after a new _ _ _ _⟩
      | @node indent token rest n read =>
          refine ⟨(token, n) :: entries, ?_, ?_, ?_, ?_⟩
          · exact congrArg (List.cons token) tokens
          · exact congrArg (List.cons n) nodes
          · exact List.forall_mem_cons.mpr ⟨⟨indent, rest, List.mem_cons_self, read⟩, later⟩
          · intro a new period priority deadline map
            rw [List.zipWith_cons_cons, List.flatMap_cons, after, List.map_cons, Args.newEffect]
            dsimp only
            split <;> rfl
      | @other text eff none same =>
          refine ⟨entries, tokens, ?_, later, ?_⟩
          · rw [List.flatMap_cons, none]
            exact nodes
          · intro a new period priority deadline map
            rw [List.zipWith_cons_cons, List.flatMap_cons, after, Args.newEffect, none]
            rfl

end Effects

/-! ## Ids and tokens -/

/-- The id that is read off a node line is its token. -/
theorem nodeID_of_token (locale : AsciiCase J) {indent token rest : Text} {n : Node Double}
    (valid : (Line.node indent token rest).Valid) (numeral : IsNumeral token)
    (read : Modifier.nodeOf J (trim (Line.node indent token rest).text) = some n) :
    parseInt J token = some n.nodeID := by
  cases valid with
  | node blank filled visible bracket bracket' graph arrow =>
      obtain ⟨tail, trimmed⟩ : ∃ tail, trim (Line.node indent token rest).text =
          (token ++ " [MIET".toList) ++ tail := by
        have text : (Line.node indent token rest).text =
            indent ++ ((token ++ " [MIET".toList) ++ rest) := by
          rw [List.append_assoc]
          rfl
        rw [text]
        apply exists_trim_append blank
        · rcases List.exists_cons_of_ne_nil filled with ⟨c, name, rfl⟩
          intro d head
          cases head
          exact visible c List.mem_cons_self
        · intro d last
          rw [List.getLast?_append] at last
          cases last
          decide
        · exact List.append_ne_nil_of_left_ne_nil filled _
      have ascii : ∀ c ∈ token ++ " [MIET".toList, c.toNat < 128 := by
        have literal : ∀ c ∈ " [MIET".toList, c.toNat < 128 := forall_chars (by decide)
        exact List.forall_mem_append.mpr ⟨numeral.isField.text.ascii, literal⟩
      obtain ⟨u, lower⟩ := locale.lower_append _ tail ascii
      have key : lowUnquoted " [MIET".toList = ' ' :: "[miet".toList := by decide
      have line : unquoted J (trim (Line.node indent token rest).text) =
          token ++ ' ' :: ("[miet".toList ++ replaceChar '\"' [] u) := by
        rw [trimmed, unquoted, lower, replaceChar_append]
        change lowUnquoted _ ++ _ = _
        rw [lowUnquoted_append, lowUnquoted_numeral numeral, key, List.append_assoc,
          List.cons_append]
      have first : (split " ".toList (unquoted J (trim (Line.node indent token rest).text)))[0]? =
          some token := by
        rw [line]
        exact head_split_append (numeral.not_mem (by decide)) filled
      unfold Modifier.nodeOf at read
      simp only [Option.bind_eq_bind, Option.bind_eq_some_iff, Option.some.injEq] at read
      rcases read with ⟨_, -, _, -, _, -, _, -, _, -, id, ⟨text, here, parsed⟩, rfl⟩
      rw [first] at here
      cases here
      exact parsed

/-! ## Files -/

/-- Running a new `XMLModifier` on the contents. -/
theorem readContents_ok {contents : Text} {m : Modifier Double} :
    readContents J contents {} = .ok ⟨⟩ m ↔ ∃ first rest name effs,
      readLines contents = first :: rest ∧ (split " ".toList first)[1]? = some name ∧
      List.Forall₂ (fun line eff => Modifier.lineEffect J line = some eff) rest effs ∧
      m = ⟨effs.flatMap Effect.edges, effs.flatMap Effect.nodes,
        effs.foldl Effect.onDag { dagName := some name }⟩ := by
  rw [readContents, Modifier.readDOTFile_ok]
  refine ⟨?_, ?_⟩
  · intro given
    rcases given with ⟨r, reads, rfl⟩
    generalize file : readLines contents = lines at reads
    cases reads with
    | lines name all => exact ⟨_, _, _, _, rfl, name, all, rfl⟩
  · intro given
    rcases given with ⟨first, rest, name, effs, file, named, all, rfl⟩
    rw [file]
    exact ⟨_, .lines named all, rfl⟩

/-- Reading a file in this form, and reading it again after the call with the new values. -/
theorem exists_readContents (locale : AsciiCase J) {a : Args} {contents first : Text}
    {ls : List Line} {m : Modifier Double} {new : Node Double} {period priority deadline map : ℤ}
    (form : InForm (readLines contents) first ls) (formed : a.WellFormed)
    (head : a.nodeName.head? ≠ some '0') (node : a.readNode J = some new)
    (settings : a.settings J = some (.settings period priority deadline map))
    (read : readContents J contents {} = .ok ⟨⟩ m) :
    ∃ (entries : List (Text × Node Double)) (dag : DAG), entries.map Prod.fst = tokens ls ∧
      m.nodes = entries.map Prod.snd ∧
      (∀ p ∈ entries, ∃ indent rest, Line.node indent p.1 rest ∈ ls ∧
        Modifier.nodeOf J (trim (Line.node indent p.1 rest).text) = some p.2) ∧
      readContents J (a.newContents contents) {} =
        .ok ⟨⟩ ⟨m.edges, entries.map fun p => if a.nodeName <:+ p.1 then new else p.2, dag⟩ ∧
      dag.numbers = (period, priority, deadline, map) ∧ dag.rest = m.dag.rest := by
  rcases readContents_ok.mp read with ⟨first', rest, name, effs, file, named, all, rfl⟩
  rw [form.lines_eq] at file
  cases file
  rw [List.forall₂_map_left_iff] at all
  have reads : List.Forall₂ (LineReads J) ls effs :=
    ((List.forall₂_and_left ..).mpr ⟨form.valid, all⟩).imp fun _ _ both =>
      lineReads_of_valid both.1 both.2
  obtain ⟨entries, tokens_eq, nodes, lines, after⟩ := exists_entries reads
  have all' := lineReads_rewrite locale formed head settings node all
  have fresh := readContents_ok.mpr
    ⟨first, _, name, _, readLines_newContents formed form, named, all', rfl⟩
  rw [after, edges_newEffect reads] at fresh
  exact ⟨entries, _, tokens_eq, nodes, lines, fresh, numbers_newEffect reads (Or.inr form.settings),
    by rw [rest_foldl, rest_foldl]⟩

/-- A file that can be read after a call has a node on the new line, if the call names one. -/
theorem exists_readNode_of_readContents (locale : AsciiCase J) {a : Args} {contents first : Text}
    {ls : List Line} {m : Modifier Double} (form : InForm (readLines contents) first ls)
    (formed : a.WellFormed) (head : a.nodeName.head? ≠ some '0') (present : a.nodeName ∈ tokens ls)
    (read : readContents J (a.newContents contents) {} = .ok ⟨⟩ m) :
    ∃ found, a.readNode J = some found := by
  obtain ⟨_, rest, _, effs, file, -, all, -⟩ := readContents_ok.mp read
  rw [readLines_newContents formed form] at file
  cases file
  obtain ⟨l, mem, token⟩ := List.mem_filterMap.mp present
  obtain ⟨lengths, each⟩ := List.forall₂_iff_get.mp all
  obtain ⟨i, here⟩ := List.mem_iff_get.mp (List.mem_map_of_mem (f := Line.text)
    (List.mem_map_of_mem (f := a.rewrite) mem))
  have effect := each i i.isLt (lengths ▸ i.isLt)
  cases l with
  | node indent name rest =>
      cases token
      have text : (a.rewrite (.node indent a.nodeName rest)).text = a.nodeLine := by
        rw [Args.rewrite, if_pos (List.suffix_refl a.nodeName), nodeLine_text]
      rw [here, text, lineEffect_nodeLine locale formed head] at effect
      obtain ⟨found, node, -⟩ := Option.map_eq_some_iff.mp effect
      exact ⟨found, node⟩
  | settings rest => cases token
  | other text => cases token

/-! ## Calls -/

/-- **Run lemma.** A call that returns has settings and the values of a node, with `MIET` in place of
`MEET`, and has stored these, with the comment as it was. -/
theorem exists_given {a : Args} {s s' : Session Double}
    (returned : Session.modifyXML J a s = .ok ⟨⟩ s') :
    ∃ (n : Node Double) (period priority deadline map : ℤ), a.Gives J a.MIET n ∧
      a.settings J = some (.settings period priority deadline map : Effect Double) ∧
      s' = {
        contents := a.newContents s.contents
        modifier := {
          s.modifier with
          nodes := s.modifier.nodes.modify a.index.toNat fun node =>
            { n with comment := node.comment }
          dag :=
            { s.modifier.dag with
              period := period, deadline := deadline, map := map, priority := priority } } } := by
  obtain ⟨miet, maet, mem, id, period, deadline, map, priority, p₁, p₂, p₃, p₄, p₅, p₆, p₇, p₈, -,
    rfl⟩ := Session.modifyXML_ok J returned
  refine ⟨⟨id, miet, miet, maet, mem, a.MEM_UNIT, []⟩, period, priority, deadline, map,
    ⟨p₄, p₁, p₁, p₂, p₃, rfl⟩, ?_, rfl⟩
  rw [Args.settings, p₅, p₈, p₆, p₇]
  rfl

end Hipert.Rtdot
