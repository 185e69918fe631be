import Hipert.Lib.XmlAttribute
import Mathlib.Data.List.Forall2
import Mathlib.Data.List.Nodup

/-!
# XML tags

What an XML reader obtains from a start tag or an empty tag that stands on a line of its own, with
its values between double quotes: its name, and the keys with the values. A blank stands before
each key, and a key that comes twice is an error. A tag is read off its own text if all its values
can be read (`readTag_written`).
-/

namespace Hipert

/-! ## The reader -/

/-- A start tag, or an empty tag. -/
structure XmlTag where
  name : Text
  attributes : List (Text × Text)
  empty : Bool
  deriving DecidableEq, Repr

/-- A character that a name begins with. -/
def isNameStart (c : Char) : Bool := c.isAlpha || c == '_' || c == ':'

/-- A character of a name. -/
def isNameChar (c : Char) : Bool := isNameStart c || c.isDigit || c == '-' || c == '.'

/-- Where the reader stands, with what it has read by then. -/
inductive TagState
  | start
  | opened
  | name (tag : Text)
  | blank (tag : Text) (read : List (Text × Text))
  | key (tag : Text) (read : List (Text × Text)) (key : Text)
  | equals (tag : Text) (read : List (Text × Text)) (key : Text)
  | value (tag : Text) (read : List (Text × Text)) (key raw : Text)
  | quoted (tag : Text) (read : List (Text × Text))
  | slash (tag : Text) (read : List (Text × Text))
  | closed (t : XmlTag)
  deriving DecidableEq, Repr

namespace TagState

/-- A character that may follow the name, a value or a blank. -/
def behind (tag : Text) (read : List (Text × Text)) (c : Char) : Option TagState :=
  if c = ' ' then some (.blank tag read)
  else if c = '/' then some (.slash tag read)
  else if c = '>' then some (.closed ⟨tag, read, false⟩)
  else none

/-- The reader takes a character. -/
def step : TagState → Char → Option TagState
  | .start, c => if c = '<' then some .opened else none
  | .opened, c => if isNameStart c then some (.name [c]) else none
  | .name tag, c => if isNameChar c then some (.name (tag ++ [c])) else behind tag [] c
  | .blank tag read, c => if isNameStart c then some (.key tag read [c]) else behind tag read c
  | .key tag read k, c =>
    if isNameChar c then some (.key tag read (k ++ [c]))
    else if c = '=' then some (.equals tag read k)
    else none
  | .equals tag read k, c => if c = '\"' then some (.value tag read k []) else none
  | .value tag read k raw, c =>
    if c ≠ '\"' then some (.value tag read k (raw ++ [c]))
    else if k ∈ read.map Prod.fst then none
    else (attValue raw).map fun v => .quoted tag (read ++ [(k, v)])
  | .quoted tag read, c => behind tag read c
  | .slash tag read, c => if c = '>' then some (.closed ⟨tag, read, true⟩) else none
  | .closed _, _ => none

/-- The tag, if it has come to its end. -/
def result : TagState → Option XmlTag
  | .closed t => some t
  | _ => none

end TagState

/-- The tag on a line, if it is well formed. -/
def readTag (line : Text) : Option XmlTag := (line.foldlM TagState.step .start).bind TagState.result

/-! ## Writing -/

/-- The text of a tag with these texts between its quotes. -/
def XmlTag.written (t : XmlTag) : Text :=
  '<' :: t.name ++ (t.attributes.flatMap (fun a => ' ' :: a.1 ++ "=\"".toList ++ a.2 ++ ['\"']) ++
    if t.empty then "/>".toList else ">".toList)

/-- The text is a name. -/
def isName : Text → Bool
  | [] => false
  | c :: s => isNameStart c && s.all isNameChar

theorem isName_cons {c : Char} {s : Text} :
    isName (c :: s) = true ↔ isNameStart c = true ∧ ∀ d ∈ s, isNameChar d = true := by
  rw [isName, Bool.and_eq_true, List.all_eq_true]

/-! ## No quotes in a value -/

theorem quote_not_mem_of_numeral {base : ℕ} {digit : Char → Option ℕ} {s : Text} {n : ℕ}
    (no_digit : digit '\"' = none) (read : numeral base digit s = some n) : '\"' ∉ s := by
  have digits : ∀ {s : Text} {m : ℕ},
      s.foldlM (fun n c => (digit c).map fun d => base * n + d) m = some n → '\"' ∉ s := by
    intro s
    induction s with
    | nil => exact fun _ => List.not_mem_nil
    | cons c s ih =>
        intro m read
        rw [List.foldlM_cons] at read
        rcases Option.bind_eq_some_iff.mp read with ⟨m', first, rest⟩
        refine List.not_mem_cons_of_ne_of_not_mem ?_ (ih rest)
        rintro rfl
        rw [no_digit] at first
        cases first
  unfold numeral at read
  split at read
  · cases read
  · exact digits read

theorem quote_not_mem_of_reference {s : Text} {c : Char} (read : reference s = some c) :
    '\"' ∉ s := by
  unfold reference at read
  split at read
  · decide
  · decide
  · decide
  · decide
  · decide
  · rename_i ds
    rcases Option.bind_eq_some_iff.mp read with ⟨n, hex, -⟩
    have rest := quote_not_mem_of_numeral (by decide) hex
    exact List.not_mem_cons_of_ne_of_not_mem (by decide)
      (List.not_mem_cons_of_ne_of_not_mem (by decide) rest)
  · rename_i ds _
    rcases Option.bind_eq_some_iff.mp read with ⟨n, dec, -⟩
    have rest := quote_not_mem_of_numeral (by decide) dec
    exact List.not_mem_cons_of_ne_of_not_mem (by decide) rest
  · cases read

theorem quote_not_mem_of_readAttValue {ref : Option Text} {s t : Text}
    (read : readAttValue ref s = some t) : '\"' ∉ s ∧ ∀ r, ref = some r → '\"' ∉ r := by
  induction s generalizing ref t with
  | nil =>
      refine ⟨List.not_mem_nil, fun r given => ?_⟩
      rw [given] at read
      cases read
  | cons c s ih =>
      cases ref with
      | some ref =>
          rw [readAttValue] at read
          split at read
          · rename_i semicolon
            rcases Option.bind_eq_some_iff.mp read with ⟨r, known, rest⟩
            rcases Option.map_eq_some_iff.mp rest with ⟨u, later, -⟩
            refine ⟨List.not_mem_cons_of_ne_of_not_mem ?_ (ih later).1, ?_⟩
            · rw [semicolon]
              decide
            · rintro r ⟨⟩
              exact quote_not_mem_of_reference known
          · obtain ⟨rest, passed⟩ := ih read
            have apart := not_or.mp (mt List.mem_append.mpr (passed _ rfl))
            refine ⟨List.not_mem_cons_of_ne_of_not_mem (fun same => apart.2 ?_) rest, ?_⟩
            · rw [same]
              exact List.mem_singleton_self c
            · rintro r ⟨⟩
              exact apart.1
      | none =>
          refine ⟨?_, fun r given => by cases given⟩
          have apart : ∀ {d : Char}, c = d → d ≠ '\"' → '\"' ∉ s → '\"' ∉ c :: s := by
            rintro d rfl ne rest
            exact List.not_mem_cons_of_ne_of_not_mem ne.symm rest
          rw [readAttValue] at read
          split at read
          · exact apart ‹_› (by decide) (ih read).1
          split at read
          · rename_i crlf
            exact apart crlf.1 (by decide) (ih read).1
          split at read
          · rename_i space
            rcases Option.map_eq_some_iff.mp read with ⟨u, rest, -⟩
            rcases space with tab | feed | ret
            · exact apart tab (by decide) (ih rest).1
            · exact apart feed (by decide) (ih rest).1
            · exact apart ret (by decide) (ih rest).1
          split at read
          · rename_i plain
            rcases Option.map_eq_some_iff.mp read with ⟨u, rest, -⟩
            refine List.not_mem_cons_of_ne_of_not_mem ?_ (ih rest).1
            rintro rfl
            cases plain
          · cases read

/-- A text that can be read has no quotes. -/
theorem quote_not_mem_of_attValue {s t : Text} (read : attValue s = some t) : '\"' ∉ s :=
  (quote_not_mem_of_readAttValue read).1

/-! ## Reading what is written -/

namespace TagState

variable {tag key raw value s : Text} {read : List (Text × Text)}

/-- Characters that are added to a text one by one. -/
theorem steps_collect (place : Text → TagState)
    (adds : ∀ passed, ∀ c ∈ s, (place passed).step c = some (place (passed ++ [c])))
    (passed : Text) : s.foldlM step (place passed) = some (place (passed ++ s)) := by
  induction s generalizing passed with
  | nil =>
      rw [List.append_nil]
      rfl
  | cons c s ih =>
      rw [List.foldlM_cons, adds passed c List.mem_cons_self, Option.bind_eq_bind, Option.bind_some,
        ih (fun p d mem => adds p d (List.mem_cons_of_mem c mem)), List.append_assoc]
      rfl

theorem steps_name (name : isName s = true) :
    s.foldlM step .opened = some (.name s) := by
  cases s with
  | nil => cases name
  | cons c s =>
      have chars := isName_cons.mp name
      have first : opened.step c = some (.name [c]) := if_pos chars.1
      rw [List.foldlM_cons, first, Option.bind_eq_bind, Option.bind_some]
      exact steps_collect .name (fun _ d mem => if_pos (chars.2 d mem)) [c]

theorem steps_key (name : isName key = true) :
    key.foldlM step (.blank tag read) = some (.key tag read key) := by
  cases key with
  | nil => cases name
  | cons c s =>
      have chars := isName_cons.mp name
      have first : (blank tag read).step c = some (.key tag read [c]) := if_pos chars.1
      rw [List.foldlM_cons, first, Option.bind_eq_bind, Option.bind_some]
      exact steps_collect (.key tag read) (fun _ d mem => if_pos (chars.2 d mem)) [c]

theorem steps_attribute (name : isName key = true) (new : key ∉ read.map Prod.fst)
    (there : attValue raw = some value) :
    (' ' :: key ++ "=\"".toList ++ raw ++ ['\"']).foldlM step (.quoted tag read) =
      some (.quoted tag (read ++ [(key, value)])) := by
  have quotes := quote_not_mem_of_attValue there
  have apart : ∀ c ∈ raw, c ≠ '\"' := by
    rintro c mem rfl
    exact quotes mem
  have collected : raw.foldlM step (.value tag read key []) = some (.value tag read key raw) :=
    steps_collect (.value tag read key) (fun _ c mem => if_pos (apart c mem)) []
  have open_quote : "=\"".toList.foldlM step (.key tag read key) =
      some (.value tag read key []) := rfl
  have close_quote : (TagState.value tag read key raw).step '\"' =
      some (.quoted tag (read ++ [(key, value)])) := by
    rw [step, if_neg (not_not.mpr rfl), if_neg new, there, Option.map_some]
  rw [List.cons_append, List.cons_append, List.cons_append, List.foldlM_cons,
    show (quoted tag read).step ' ' = some (.blank tag read) from rfl, Option.bind_eq_bind,
    Option.bind_some, List.foldlM_append, List.foldlM_append, List.foldlM_append, steps_key name]
  simp only [Option.bind_eq_bind, Option.bind_some, open_quote, collected, List.foldlM_cons,
    close_quote, List.foldlM_nil, Option.pure_def]

theorem steps_attributes {as values : List (Text × Text)} (keys : ∀ a ∈ as, isName a.1 = true)
    (distinct : (read.map Prod.fst ++ as.map Prod.fst).Nodup)
    (all : List.Forall₂ (fun a v => a.1 = v.1 ∧ attValue a.2 = some v.2) as values) :
    (as.flatMap fun a => ' ' :: a.1 ++ "=\"".toList ++ a.2 ++ ['\"']).foldlM step
      (.quoted tag read) = some (.quoted tag (read ++ values)) := by
  induction all generalizing read with
  | nil =>
      rw [List.append_nil]
      rfl
  | @cons a v as values same _ ih =>
      have new : a.1 ∉ read.map Prod.fst := fun mem =>
        (List.nodup_append.mp distinct).2.2 _ mem _ List.mem_cons_self rfl
      have shifted : ((read ++ [(a.1, v.2)]).map Prod.fst ++ as.map Prod.fst).Nodup := by
        rw [List.map_append, List.append_assoc]
        exact distinct
      rw [List.flatMap_cons, List.foldlM_append,
        steps_attribute (keys a List.mem_cons_self) new same.2, Option.bind_eq_bind,
        Option.bind_some, ih (fun b mem => keys b (List.mem_cons_of_mem a mem)) shifted,
        List.append_assoc, same.1]
      rfl

end TagState

open TagState in
/-- **Tags.** From the text of a tag a reader obtains the tag with the values of its attributes. -/
theorem readTag_written {t : XmlTag} {values : List (Text × Text)} (name : isName t.name = true)
    (keys : ∀ a ∈ t.attributes, isName a.1 = true) (distinct : (t.attributes.map Prod.fst).Nodup)
    (all : List.Forall₂ (fun a v => a.1 = v.1 ∧ attValue a.2 = some v.2) t.attributes values) :
    readTag t.written = some { t with attributes := values } := by
  have attributes : (t.attributes.flatMap fun a => ' ' :: a.1 ++ "=\"".toList ++ a.2 ++
      ['\"']).foldlM step (.quoted t.name []) = some (.quoted t.name values) :=
    steps_attributes keys distinct all
  have closing : (if t.empty then "/>".toList else ">".toList).foldlM step
      (.quoted t.name values) = some (.closed ⟨t.name, values, t.empty⟩) := by
    cases t.empty <;> rfl
  -- behind the name there is a blank or the end of the tag
  have enter : ∀ {c : Char} {s : Text}, isNameChar c = false →
      (c :: s).foldlM step (.name t.name) = (c :: s).foldlM step (.quoted t.name []) := by
    intro c s other
    rw [List.foldlM_cons, List.foldlM_cons]
    have first : (TagState.name t.name).step c = (TagState.quoted t.name []).step c :=
      if_neg (by simp [other])
    rw [first]
  have behind : (t.attributes.flatMap (fun a => ' ' :: a.1 ++ "=\"".toList ++ a.2 ++ ['\"']) ++
      if t.empty then "/>".toList else ">".toList).foldlM step (.name t.name) =
        some (.closed ⟨t.name, values, t.empty⟩) := by
    have whole : (t.attributes.flatMap (fun a => ' ' :: a.1 ++ "=\"".toList ++ a.2 ++ ['\"']) ++
        if t.empty then "/>".toList else ">".toList).foldlM step (.quoted t.name []) =
          some (.closed ⟨t.name, values, t.empty⟩) := by
      rw [List.foldlM_append, attributes, Option.bind_eq_bind, Option.bind_some]
      exact closing
    refine Eq.trans ?_ whole
    cases t.attributes with
    | nil => cases t.empty <;> exact enter (by decide)
    | cons a as => exact enter (by decide)
  rw [readTag, XmlTag.written, List.cons_append, List.foldlM_cons,
    show TagState.start.step '<' = some .opened from rfl, Option.bind_eq_bind, Option.bind_some,
    List.foldlM_append, steps_name name, Option.bind_eq_bind, Option.bind_some, behind]
  rfl

example : readTag "<edge name=\"G_1_2\" src=\"&lt;\"/>".toList =
    some ⟨"edge".toList, [("name".toList, "G_1_2".toList), ("src".toList, "<".toList)], true⟩ := by
  decide +kernel

end Hipert
