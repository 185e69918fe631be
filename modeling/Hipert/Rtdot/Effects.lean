import Hipert.Rtdot.Reader

/-!
# What a line does

Each line of a DOT file adds an edge or a node, or sets the four numbers of its DAG, or does nothing:
its `Effect`, which each reader reads off the line alone (`lineEffect`). A run of a reader that
returns applies the effects of the lines in order (`Modifier.readDOTFile_ok`,
`Generator.readDOTFile_ok`).
-/

namespace Hipert.Rtdot

variable {Double σ : Type} {J : JavaLang Double}

/-! ## Effects -/

/-- What a line adds or sets. -/
inductive Effect (Double : Type) where
  | nothing
  | edge (e : Edge)
  | node (n : Node Double)
  | settings (period priority deadline map : ℤ)

namespace Effect

/-- The edge added, if any. -/
def edges : Effect Double → List Edge
  | .edge e => [e]
  | _ => []

/-- The node added, if any. -/
def nodes : Effect Double → List (Node Double)
  | .node n => [n]
  | _ => []

/-- The effect on the DAG object. -/
def onDag (d : DAG) : Effect Double → DAG
  | .node n => { d with comment := some n.comment }
  | .settings period priority deadline map =>
    { d with period := period, priority := priority, deadline := deadline, map := map }
  | _ => d

end Effect

/-- The settings of a DAG object that a DOT file gives. -/
def DAG.numbers (d : DAG) : ℤ × ℤ × ℤ × ℤ := (d.period, d.priority, d.deadline, d.map)

/-- An effect on the fields of an `XMLModifier`. -/
def Modifier.apply (m : Modifier Double) (eff : Effect Double) : Modifier Double :=
  ⟨m.edges ++ eff.edges, m.nodes ++ eff.nodes, eff.onDag m.dag⟩

/-- An effect on the fields of an `XMLGenerator` and its DAG at `index`. -/
def Generator.apply (index : ℕ) (g : Generator Double) (eff : Effect Double) : Generator Double :=
  { g with
    edges := g.edges ++ eff.edges
    nodes := g.nodes ++ eff.nodes
    dags := g.dags.modify index fun d => eff.onDag d }

/-- What a reader takes from a DOT file: nothing if it is missing, else a name and the effects of
its lines. -/
abbrev Reading (Double : Type) := Option (Text × List (Effect Double))

namespace Reading

/-- The edges added. -/
def edges : Reading Double → List Edge
  | none => []
  | some (_, effs) => effs.flatMap Effect.edges

/-- The nodes added. -/
def nodes : Reading Double → List (Node Double)
  | none => []
  | some (_, effs) => effs.flatMap Effect.nodes

/-- The effect on the DAG object. -/
def onDag (d : DAG) : Reading Double → DAG
  | none => d
  | some (name, effs) => effs.foldl Effect.onDag { d with dagName := some name }

end Reading

/-- The file has this reading, by a reader with this effect of a line. -/
inductive Reads (lineEffect : Text → Option (Effect Double)) :
    Option (List Text) → Reading Double → Prop
  | missing : Reads lineEffect none none
  | lines {first name : Text} {rest : List Text} {effs : List (Effect Double)} :
    (split " ".toList first)[1]? = some name →
    List.Forall₂ (fun line eff => lineEffect line = some eff) rest effs →
    Reads lineEffect (some (first :: rest)) (some (name, effs))

theorem dagName_onDag (d : DAG) (eff : Effect Double) : (eff.onDag d).dagName = d.dagName := by
  cases eff <;> rfl

theorem dagName_foldl (d : DAG) (effs : List (Effect Double)) :
    (effs.foldl Effect.onDag d).dagName = d.dagName := by
  induction effs generalizing d with
  | nil => rfl
  | cons eff effs ih => rw [List.foldl_cons, ih, dagName_onDag]

theorem readings_unique {read : Text → Option (Effect Double)} {lines : List Text}
    {effs effs' : List (Effect Double)}
    (all : List.Forall₂ (fun line eff => read line = some eff) lines effs)
    (all' : List.Forall₂ (fun line eff => read line = some eff) lines effs') : effs = effs' :=
  Relator.RightUnique.forall₂ (fun _ _ _ left right => Option.some.inj (left.symm.trans right)) all
    all'

/-! ## Reading a line -/

section Reading

variable (J)

/-- The edge of a line with an arrow, if its ends are numbers. -/
def edgeOf (line : Text) : Option Edge := do
  let src ← ((split "->".toList line)[0]?.map trim).bind (parseInt J)
  let dst ← ((split "->".toList line)[1]?.map trim).bind (parseInt J)
  some ⟨intText src ++ "_".toList ++ intText dst, src, dst⟩

/-- The numbers of a period line, if all are there. -/
def settingsOf (line : Text) : Option (Effect Double) := do
  let period ← (valueAfter "period=".toList line).bind (parseInt J)
  let priority ← (valueAfter "priority=".toList line).bind (parseInt J)
  let deadline ← (valueAfter "deadline=".toList line).bind (parseInt J)
  let map ← ((valueAfter "map=".toList line).map (replaceChar ']' [])).bind (parseInt J)
  some (.settings period priority deadline map)

/-- The node an `XMLModifier` reads off a line, if all its values are there. -/
def Modifier.nodeOf (line : Text) : Option (Node Double) := do
  let miet ← (valueAfter "miet=".toList (unquoted J line)).bind J.parseDouble
  let meet ← (valueAfter "meet=".toList (unquoted J line)).bind J.parseDouble
  let maet ← (valueAfter "maet=".toList (unquoted J line)).bind J.parseDouble
  let mem_access ← (valueAfter "mem=".toList (unquoted J line)).bind (parseInt J)
  let unit ← valueAfter "unit=".toList (unquoted J line)
  let nodeID ← (split " ".toList (unquoted J line))[0]?.bind (parseInt J)
  some ⟨nodeID, miet, meet, maet, mem_access, J.toUpperCase (replaceChar ']' [] unit),
    commentOf J line⟩

/-- The node an `XMLGenerator` reads off a line, if it has an id. -/
def Generator.nodeOf (line : Text) : Option (Node Double) := do
  let nodeID ← (split " ".toList (unquoted J line))[0]?.bind (parseInt J)
  some ⟨nodeID, getValDouble J (unquoted J line) "miet".toList J.negOne,
    getValDouble J (unquoted J line) "meet".toList J.negOne,
    getValDouble J (unquoted J line) "maet".toList J.negOne,
    getValInt J (unquoted J line) "mem".toList 0, memUnit J (unquoted J line), commentOf J line⟩

/-- The effect of a line, given the reader's way with nodes. -/
def effectOf (nodeOf : Text → Option (Node Double)) (line : Text) : Option (Effect Double) :=
  if isGraphLine line then
    if contains "->".toList (trim line) then (edgeOf J (trim line)).map .edge
    else (nodeOf (trim line)).map .node
  else if contains "period".toList line then settingsOf J line
  else some .nothing

/-- The effect of a line on an `XMLModifier`, if it does not throw. -/
def Modifier.lineEffect (line : Text) : Option (Effect Double) :=
  effectOf J (Modifier.nodeOf J) line

/-- A line that `XMLGenerator` skips. -/
def isComment (line : Text) : Bool := startsWith "//".toList (trim line)

/-- The effect of a line on an `XMLGenerator`, if it does not throw. -/
def Generator.lineEffect (line : Text) : Option (Effect Double) :=
  if J.isEmpty line || isComment line then some .nothing else effectOf J (Generator.nodeOf J) line

end Reading

/-! ## Running a line -/

theorem readInt_ok {text : Option Text} {n : ℤ} {s s' : σ} :
    readInt J text s = .ok n s' ↔ text.bind (parseInt J) = some n ∧ s = s' := by
  unfold readInt
  simp only [Exec.bind_ok, Exec.orThrow_ok, Option.bind_eq_some_iff]
  refine ⟨?_, ?_⟩
  · intro given
    rcases given with ⟨a, mid, ⟨rfl, rfl⟩, value, rfl⟩
    exact ⟨⟨a, rfl, value⟩, rfl⟩
  · intro given
    rcases given with ⟨⟨a, rfl, value⟩, rfl⟩
    exact ⟨a, s, ⟨rfl, rfl⟩, value, rfl⟩

theorem readDouble_ok {text : Option Text} {x : Double} {s s' : σ} :
    readDouble J text s = .ok x s' ↔ text.bind J.parseDouble = some x ∧ s = s' := by
  unfold readDouble
  simp only [Exec.bind_ok, Exec.orThrow_ok, Option.bind_eq_some_iff]
  refine ⟨?_, ?_⟩
  · intro given
    rcases given with ⟨a, mid, ⟨rfl, rfl⟩, value, rfl⟩
    exact ⟨⟨a, rfl, value⟩, rfl⟩
  · intro given
    rcases given with ⟨⟨a, rfl, value⟩, rfl⟩
    exact ⟨a, s, ⟨rfl, rfl⟩, value, rfl⟩

theorem edgeLine_ok {line : Text} {e : Edge} {s s' : σ} :
    edgeLine J line s = .ok e s' ↔ edgeOf J line = some e ∧ s = s' := by
  unfold edgeLine edgeOf
  simp only [Exec.bind_ok, readInt_ok, Exec.pure_ok, Option.bind_eq_bind, Option.bind_eq_some_iff,
    Option.some.injEq]
  refine ⟨?_, ?_⟩
  · intro given
    rcases given with ⟨src, _, ⟨first, rfl⟩, dst, _, ⟨second, rfl⟩, rfl, rfl⟩
    exact ⟨⟨src, first, dst, second, rfl⟩, rfl⟩
  · intro given
    rcases given with ⟨⟨src, first, dst, second, rfl⟩, rfl⟩
    exact ⟨src, _, ⟨first, rfl⟩, dst, _, ⟨second, rfl⟩, rfl, rfl⟩

theorem exists_settings {line : Text} {eff : Effect Double} (read : settingsOf J line = some eff) :
    ∃ period priority deadline map, eff = .settings period priority deadline map := by
  unfold settingsOf at read
  simp only [Option.bind_eq_bind, Option.bind_eq_some_iff, Option.some.injEq] at read
  rcases read with ⟨period, -, priority, -, deadline, -, map, -, rfl⟩
  exact ⟨period, priority, deadline, map, rfl⟩

/-- The four updates of a period line make one. -/
theorem periodLine_ok (inv : σ → Prop) {update : (DAG → DAG) → Exec σ PUnit}
    (put : (DAG → DAG) → σ → σ) {line : Text} {s s' : σ}
    (step : ∀ f s s', inv s → (update f s = .ok ⟨⟩ s' ↔ s' = put f s))
    (keep : ∀ f s, inv s → inv (put f s))
    (twice : ∀ f g s, put g (put f s) = put (fun d => g (f d)) s) (start : inv s) :
    periodLine J update line s = .ok ⟨⟩ s' ↔
      ∃ eff : Effect Double, settingsOf J line = some eff ∧ s' = put (fun d => eff.onDag d) s := by
  unfold periodLine settingsOf
  simp only [Exec.bind_ok, readInt_ok, Option.bind_eq_bind, Option.bind_eq_some_iff,
    Option.some.injEq]
  have first := fun f s' => step f s s' start
  have second := fun f g s' => step g (put f s) s' (keep f s start)
  have third := fun f g h s' => step h (put g (put f s)) s' (keep g _ (keep f s start))
  have fourth := fun f g h k s' => step k (put h (put g (put f s))) s'
    (keep h _ (keep g _ (keep f s start)))
  refine ⟨?_, ?_⟩
  · rintro ⟨period, _, ⟨a, rfl⟩, _, mid, one, priority, _, ⟨b, rfl⟩, _, mid', two, deadline, _,
      ⟨c, rfl⟩, _, mid'', three, map, _, ⟨e, rfl⟩, four⟩
    cases (first _ _).mp one
    cases (second _ _ _).mp two
    cases (third _ _ _ _).mp three
    cases (fourth _ _ _ _ _).mp four
    refine ⟨_, ⟨period, a, priority, b, deadline, c, map, e, rfl⟩, ?_⟩
    rw [twice, twice, twice]
    rfl
  · intro given
    rcases given with ⟨_, ⟨period, a, priority, b, deadline, c, map, e, rfl⟩, rfl⟩
    refine ⟨period, _, ⟨a, rfl⟩, ⟨⟩, _, (first _ _).mpr rfl, priority, _, ⟨b, rfl⟩, ⟨⟩, _,
      (second _ _ _).mpr rfl, deadline, _, ⟨c, rfl⟩, ⟨⟩, _, (third _ _ _ _).mpr rfl, map, _,
      ⟨e, rfl⟩, (fourth _ _ _ _ _).mpr ?_⟩
    rw [twice, twice, twice]
    rfl

/-! ## Running `XMLModifier` -/

namespace Modifier

variable {m m' : Modifier Double} {line : Text}

theorem setDag_ok {f : DAG → DAG} {u : PUnit} :
    setDag f m = .ok u m' ↔ m' = { m with dag := f m.dag } := by
  unfold setDag
  rw [Exec.modify_ok, eq_comm]

theorem nodeLine_ok :
    nodeLine J line m = .ok ⟨⟩ m' ↔ ∃ n, nodeOf J line = some n ∧ m' = m.apply (.node n) := by
  unfold nodeLine nodeOf
  simp only [Exec.bind_ok, setDag_ok, readDouble_ok, readInt_ok, Exec.orThrow_ok, Exec.modify_ok,
    Option.bind_eq_bind, Option.bind_eq_some_iff, Option.some.injEq]
  refine ⟨?_, ?_⟩
  · rintro ⟨_, _, rfl, miet, _, ⟨a, rfl⟩, meet, _, ⟨b, rfl⟩, maet, _, ⟨c, rfl⟩, mem, _, ⟨e, rfl⟩,
      unit, _, ⟨f, rfl⟩, nodeID, _, ⟨g, rfl⟩, rfl⟩
    refine ⟨_, ⟨miet, a, meet, b, maet, c, mem, e, unit, f, nodeID, g, rfl⟩, ?_⟩
    simp [Modifier.apply, Effect.edges, Effect.nodes, Effect.onDag]
  · intro given
    rcases given with ⟨_, ⟨miet, a, meet, b, maet, c, mem, e, unit, f, nodeID, g, rfl⟩, rfl⟩
    refine ⟨⟨⟩, _, rfl, miet, _, ⟨a, rfl⟩, meet, _, ⟨b, rfl⟩, maet, _, ⟨c, rfl⟩, mem, _, ⟨e, rfl⟩,
      unit, _, ⟨f, rfl⟩, nodeID, _, ⟨g, rfl⟩, ?_⟩
    simp [Modifier.apply, Effect.edges, Effect.nodes, Effect.onDag]

theorem processString_ok : processString J line m = .ok ⟨⟩ m' ↔
    ∃ eff, lineEffect J line = some eff ∧ m' = m.apply eff := by
  unfold processString lineEffect effectOf
  split
  · split
    · simp only [Exec.bind_ok, edgeLine_ok, Exec.modify_ok, Option.map_eq_some_iff]
      refine ⟨?_, ?_⟩
      · intro given
        rcases given with ⟨e, _, ⟨edge, rfl⟩, rfl⟩
        exact ⟨_, ⟨e, edge, rfl⟩, by simp [Modifier.apply, Effect.edges, Effect.nodes, Effect.onDag]⟩
      · intro given
        rcases given with ⟨_, ⟨e, edge, rfl⟩, rfl⟩
        exact ⟨e, _, ⟨edge, rfl⟩, by simp [Modifier.apply, Effect.edges, Effect.nodes, Effect.onDag]⟩
    · simp only [nodeLine_ok, Option.map_eq_some_iff]
      refine ⟨?_, ?_⟩
      · intro given
        rcases given with ⟨n, node, rfl⟩
        exact ⟨_, ⟨n, node, rfl⟩, rfl⟩
      · intro given
        rcases given with ⟨_, ⟨n, node, rfl⟩, rfl⟩
        exact ⟨n, node, rfl⟩
  · split
    · refine (periodLine_ok (fun _ => True) (fun f m => { m with dag := f m.dag })
        (fun f s s' _ => setDag_ok) (fun _ _ _ => trivial) (fun _ _ _ => rfl) trivial).trans ?_
      refine exists_congr fun eff => and_congr_right fun read => ?_
      rcases exists_settings read with ⟨_, _, _, _, rfl⟩
      simp [Modifier.apply, Effect.edges, Effect.nodes]
    · simp only [Exec.pure_ok, Option.some.injEq]
      refine ⟨?_, ?_⟩
      · intro given
        rcases given with ⟨-, rfl⟩
        exact ⟨_, rfl, by simp [Modifier.apply, Effect.edges, Effect.nodes, Effect.onDag]⟩
      · intro given
        rcases given with ⟨_, rfl, rfl⟩
        exact ⟨trivial, by simp [Modifier.apply, Effect.edges, Effect.nodes, Effect.onDag]⟩

theorem foldl_apply (effs : List (Effect Double)) : effs.foldl apply m =
    ⟨m.edges ++ effs.flatMap Effect.edges, m.nodes ++ effs.flatMap Effect.nodes,
      effs.foldl Effect.onDag m.dag⟩ := by
  induction effs generalizing m with
  | nil => simp
  | cons eff effs ih =>
      rw [List.foldl_cons, ih]
      simp [apply]

theorem forM_processString_ok {lines : List Text} :
    lines.forM (processString J) m = .ok ⟨⟩ m' ↔
      ∃ effs, List.Forall₂ (fun line eff => lineEffect J line = some eff) lines effs ∧
        m' = effs.foldl apply m :=
  Exec.forM_ok (fun _ => True) (fun _ _ _ _ _ => processString_ok) (fun _ _ _ => trivial) trivial

/-- **Run lemma.** A reader that returns has taken the file's reading. -/
theorem readDOTFile_ok {disk : Text → Option (List Text)} {filename : Text} :
    readDOTFile J disk filename m = .ok ⟨⟩ m' ↔
      ∃ r, Reads (lineEffect J) (disk filename) r ∧
        m' = ⟨m.edges ++ r.edges, m.nodes ++ r.nodes, r.onDag m.dag⟩ := by
  unfold readDOTFile
  cases disk filename with
  | none =>
      simp only [Exec.pure_ok]
      refine ⟨?_, ?_⟩
      · intro given
        rcases given with ⟨-, rfl⟩
        exact ⟨none, .missing, by simp [Reading.edges, Reading.nodes, Reading.onDag]⟩
      · intro given
        rcases given with ⟨r, reads, rfl⟩
        cases reads
        exact ⟨trivial, by simp [Reading.edges, Reading.nodes, Reading.onDag]⟩
  | some lines =>
      simp only [Exec.bind_ok, Exec.orThrow_ok, setDag_ok, forM_processString_ok]
      refine ⟨?_, ?_⟩
      · intro given
        rcases given with ⟨first, _, ⟨head, rfl⟩, name, _, ⟨second, rfl⟩, _, _, rfl, effs, all, rfl⟩
        rcases List.head?_eq_some_iff.mp head with ⟨rest, rfl⟩
        refine ⟨_, .lines second all, ?_⟩
        rw [foldl_apply]
        rfl
      · intro given
        rcases given with ⟨r, reads, rfl⟩
        cases reads with
        | lines second all =>
            refine ⟨_, _, ⟨rfl, rfl⟩, _, _, ⟨second, rfl⟩, ⟨⟩, _, rfl, _, all, ?_⟩
            rw [foldl_apply]
            rfl

end Modifier

/-! ## Running `XMLGenerator` -/

theorem modify_eq_set {α : Type} {l : List α} {i : ℕ} {x : α} (f : α → α) (here : l[i]? = some x) :
    l.modify i f = l.set i (f x) := by
  rcases List.getElem?_eq_some_iff.mp here with ⟨valid, rfl⟩
  refine List.ext_getElem? fun j => ?_
  rw [List.getElem?_modify, List.getElem?_set]
  by_cases eq : i = j
  · subst eq
    simp [valid]
  · simp [eq]

namespace Generator

variable {g g' : Generator Double} {index : ℕ} {line : Text}

theorem getDag_ok {d : DAG} :
    getDag index g = .ok d g' ↔ g.dags[index]? = some d ∧ g = g' := by
  unfold getDag
  simp only [Exec.bind_ok, Exec.get_ok, Exec.orThrow_ok]
  refine ⟨?_, ?_⟩
  · intro given
    rcases given with ⟨_, _, ⟨rfl, rfl⟩, here, rfl⟩
    exact ⟨here, rfl⟩
  · intro given
    rcases given with ⟨here, rfl⟩
    exact ⟨g, g, ⟨rfl, rfl⟩, here, rfl⟩

theorem setDag_ok {f : DAG → DAG} {u : PUnit} (valid : index < g.dags.length) :
    setDag index f g = .ok u g' ↔ g' = { g with dags := g.dags.modify index f } := by
  have here : g.dags[index]? = some g.dags[index] := List.getElem?_eq_getElem valid
  have same := modify_eq_set f here
  unfold setDag
  simp only [Exec.bind_ok, getDag_ok, Exec.modify_ok, here, same]
  refine ⟨?_, ?_⟩
  · intro given
    rcases given with ⟨d, _, ⟨eq, rfl⟩, rfl⟩
    cases eq
    rfl
  · rintro rfl
    exact ⟨_, g, ⟨rfl, rfl⟩, rfl⟩

theorem length_apply (eff : Effect Double) : (g.apply index eff).dags.length = g.dags.length :=
  List.length_modify ..

theorem nodeLine_ok (valid : index < g.dags.length) : nodeLine J line index g = .ok ⟨⟩ g' ↔
    ∃ n, nodeOf J line = some n ∧ g' = g.apply index (.node n) := by
  unfold nodeLine nodeOf
  simp only [Exec.bind_ok, setDag_ok valid, readInt_ok, Exec.modify_ok, Option.bind_eq_bind,
    Option.bind_eq_some_iff, Option.some.injEq]
  refine ⟨?_, ?_⟩
  · intro given
    rcases given with ⟨_, _, rfl, nodeID, _, ⟨a, rfl⟩, rfl⟩
    exact ⟨_, ⟨nodeID, a, rfl⟩, by simp [apply, Effect.edges, Effect.nodes, Effect.onDag]⟩
  · intro given
    rcases given with ⟨_, ⟨nodeID, a, rfl⟩, rfl⟩
    exact ⟨⟨⟩, _, rfl, nodeID, _, ⟨a, rfl⟩,
      by simp [apply, Effect.edges, Effect.nodes, Effect.onDag]⟩

theorem apply_nothing : g.apply index .nothing = g := by
  have same : g.dags.modify index (fun d => d) = g.dags := List.modify_id index g.dags
  simp [apply, Effect.edges, Effect.nodes, Effect.onDag, same]

theorem apply_edge (e : Edge) : g.apply index (.edge e) = { g with edges := g.edges ++ [e] } := by
  have same : g.dags.modify index (fun d => d) = g.dags := List.modify_id index g.dags
  simp [apply, Effect.edges, Effect.nodes, Effect.onDag, same]

theorem processString_ok (valid : index < g.dags.length) :
    processString J line index g = .ok ⟨⟩ g' ↔
      ∃ eff, lineEffect J line = some eff ∧ g' = g.apply index eff := by
  have skip : (pure ⟨⟩ : Exec (Generator Double) PUnit) g = .ok ⟨⟩ g' ↔
      ∃ eff, some (.nothing : Effect Double) = some eff ∧ g' = g.apply index eff := by
    simp only [Exec.pure_ok, Option.some.injEq]
    refine ⟨?_, ?_⟩
    · intro given
      rcases given with ⟨-, rfl⟩
      exact ⟨_, rfl, apply_nothing.symm⟩
    · intro given
      rcases given with ⟨_, rfl, rfl⟩
      exact ⟨trivial, apply_nothing.symm⟩
  unfold processString lineEffect effectOf isComment
  by_cases blank : J.isEmpty line = true
  · rw [if_pos blank, if_pos (by rw [blank]; rfl)]
    exact skip
  by_cases comment : startsWith "//".toList (trim line) = true
  · rw [if_neg blank, if_pos comment, if_pos (by rw [comment, Bool.or_true])]
    exact skip
  have read : ¬ (J.isEmpty line || startsWith "//".toList (trim line)) = true := by
    rw [Bool.or_eq_true]
    exact not_or.mpr ⟨blank, comment⟩
  rw [if_neg blank, if_neg comment, if_neg read]
  split
  · split
    · simp only [Exec.bind_ok, edgeLine_ok, Exec.modify_ok, Option.map_eq_some_iff]
      refine ⟨?_, ?_⟩
      · intro given
        rcases given with ⟨e, _, ⟨edge, rfl⟩, rfl⟩
        exact ⟨_, ⟨e, edge, rfl⟩, (apply_edge e).symm⟩
      · intro given
        rcases given with ⟨_, ⟨e, edge, rfl⟩, rfl⟩
        exact ⟨e, _, ⟨edge, rfl⟩, (apply_edge e).symm⟩
    · simp only [nodeLine_ok valid, Option.map_eq_some_iff]
      refine ⟨?_, ?_⟩
      · intro given
        rcases given with ⟨n, node, rfl⟩
        exact ⟨_, ⟨n, node, rfl⟩, rfl⟩
      · intro given
        rcases given with ⟨_, ⟨n, node, rfl⟩, rfl⟩
        exact ⟨n, node, rfl⟩
  · split
    · refine (periodLine_ok (fun g => index < g.dags.length)
        (fun f g => { g with dags := g.dags.modify index f })
        (fun f s s' valid => setDag_ok valid) (fun f s valid => by simpa using valid)
        (fun f g s => ?_) valid).trans ?_
      · simp only [List.modify_modify_eq]
        rfl
      · refine exists_congr fun eff => and_congr_right fun read => ?_
        rcases exists_settings read with ⟨_, _, _, _, rfl⟩
        simp [apply, Effect.edges, Effect.nodes]
    · exact skip

theorem foldl_apply (effs : List (Effect Double)) : effs.foldl (apply index) g =
    { g with
      edges := g.edges ++ effs.flatMap Effect.edges
      nodes := g.nodes ++ effs.flatMap Effect.nodes
      dags := g.dags.modify index fun d => effs.foldl Effect.onDag d } := by
  induction effs generalizing g with
  | nil =>
      have same : g.dags.modify index (fun d => d) = g.dags := List.modify_id index g.dags
      simp [same]
  | cons eff effs ih =>
      rw [List.foldl_cons, ih]
      simp only [apply, List.modify_modify_eq, List.flatMap_cons, List.append_assoc,
        List.foldl_cons]
      rfl

theorem forM_processString_ok {lines : List Text} (valid : index < g.dags.length) :
    lines.forM (fun line => processString J line index) g = .ok ⟨⟩ g' ↔
      ∃ effs, List.Forall₂ (fun line eff => lineEffect J line = some eff) lines effs ∧
        g' = effs.foldl (apply index) g :=
  Exec.forM_ok (fun g => index < g.dags.length) (fun _ _ _ _ valid => processString_ok valid)
    (fun g eff valid => by rwa [length_apply]) valid

/-- **Run lemma.** A reader that returns has taken the file's reading. -/
theorem readDOTFile_ok {disk : Text → Option (List Text)} {filename : Text}
    (valid : index < g.dags.length) : readDOTFile J disk filename index g = .ok ⟨⟩ g' ↔
      ∃ r, Reads (lineEffect J) (disk filename) r ∧ g' =
        { g with
          edges := g.edges ++ r.edges
          nodes := g.nodes ++ r.nodes
          dags := g.dags.modify index fun d => r.onDag d } := by
  unfold readDOTFile
  cases disk filename with
  | none =>
      have same : g.dags.modify index (fun d => d) = g.dags := List.modify_id index g.dags
      simp only [Exec.pure_ok]
      refine ⟨?_, ?_⟩
      · intro given
        rcases given with ⟨-, rfl⟩
        exact ⟨none, .missing, by simp [Reading.edges, Reading.nodes, Reading.onDag, same]⟩
      · intro given
        rcases given with ⟨r, reads, rfl⟩
        cases reads
        exact ⟨trivial, by simp [Reading.edges, Reading.nodes, Reading.onDag, same]⟩
  | some lines =>
      simp only [Exec.bind_ok, Exec.orThrow_ok]
      refine ⟨?_, ?_⟩
      · intro given
        rcases given with ⟨first, _, ⟨head, rfl⟩, name, _, ⟨second, rfl⟩, _, _, stored, returned⟩
        cases (setDag_ok valid).mp stored
        rcases (forM_processString_ok (by simpa using valid)).mp returned with ⟨effs, all, rfl⟩
        rcases List.head?_eq_some_iff.mp head with ⟨rest, rfl⟩
        refine ⟨_, .lines second all, ?_⟩
        rw [foldl_apply]
        simp only [List.modify_modify_eq]
        rfl
      · intro given
        rcases given with ⟨r, reads, rfl⟩
        cases reads with
        | lines second all =>
            refine ⟨_, _, ⟨rfl, rfl⟩, _, _, ⟨second, rfl⟩, ⟨⟩, _, (setDag_ok valid).mpr rfl,
              (forM_processString_ok (by simpa using valid)).mpr ⟨_, all, ?_⟩⟩
            rw [foldl_apply]
            simp only [List.modify_modify_eq]
            rfl

end Generator

end Hipert.Rtdot
