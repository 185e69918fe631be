import Hipert.Lib.JavaText

/-!
# XML attribute values

What an XML reader obtains from the text between the quotes of an attribute, in a document in ASCII
without declarations of its own: references are replaced, white space becomes spaces, and an open
angle bracket, an ampersand that begins no reference or the quote itself is an error. A text is read
as itself if and only if all its characters stand for themselves (`attValue_iff`), and so it is with
its quotes escaped, for all characters but these (`attValue_replaceChar_iff`).
-/

namespace Hipert

/-! ## The reader -/

/-- The character of a reference by number, if XML has it. -/
def xmlChar (n : ℕ) : Option Char :=
  if n = 9 ∨ n = 10 ∨ n = 13 ∨ (32 ≤ n ∧ n ≤ 0xD7FF) ∨ (0xE000 ≤ n ∧ n ≤ 0xFFFD) ∨
      (0x10000 ≤ n ∧ n ≤ 0x10FFFF) then some (Char.ofNat n)
  else none

/-- A hexadecimal digit. -/
def hexDigit (c : Char) : Option ℕ :=
  if c.isDigit then some (c.toNat - 48)
  else if 'a' ≤ c ∧ c ≤ 'f' then some (c.toNat - 87)
  else if 'A' ≤ c ∧ c ≤ 'F' then some (c.toNat - 55)
  else none

/-- A number in this base. -/
def numeral (base : ℕ) (digit : Char → Option ℕ) (s : Text) : Option ℕ :=
  if s = [] then none
  else s.foldlM (fun n c => (digit c).map fun d => base * n + d) 0

/-- The character for which a reference stands, between its ampersand and its semicolon. -/
def reference : Text → Option Char
  | ['l', 't'] => some '<'
  | ['g', 't'] => some '>'
  | ['a', 'm', 'p'] => some '&'
  | ['a', 'p', 'o', 's'] => some '\''
  | ['q', 'u', 'o', 't'] => some '\"'
  | '#' :: 'x' :: ds => (numeral 16 hexDigit ds).bind xmlChar
  | '#' :: ds =>
    (numeral 10 (fun c => if c.isDigit then some (c.toNat - 48) else none) ds).bind xmlChar
  | _ => none

/-- A character that stands for itself between quotes. -/
def isAttChar (c : Char) : Bool := ' ' ≤ c && c.toNat ≤ 127 && c != '<' && c != '&' && c != '\"'

/-- What is read from here on; `ref` is what has been passed of a reference. -/
def readAttValue : Option Text → Text → Option Text
  | none, [] => some []
  | some _, [] => none
  | some ref, c :: s =>
    if c = ';' then (reference ref).bind fun r => (readAttValue none s).map (r :: ·)
    else readAttValue (some (ref ++ [c])) s
  | none, c :: s =>
    if c = '&' then readAttValue (some []) s
    else if c = '\r' ∧ s.head? = some '\n' then readAttValue none s
    else if c = '\t' ∨ c = '\n' ∨ c = '\r' then (readAttValue none s).map (' ' :: ·)
    else if isAttChar c then (readAttValue none s).map (c :: ·)
    else none

/-- The value of an attribute, if the text between its quotes is well formed. -/
def attValue (s : Text) : Option Text := readAttValue none s

theorem isAttChar_of_isDigit {c : Char} (digit : c.isDigit = true) : isAttChar c = true := by
  have range : '0'.val ≤ c.val ∧ c.val ≤ '9'.val := by simpa [Char.isDigit] using digit
  have above : ' ' ≤ c := Char.le_def.mpr (UInt32.le_trans (by decide) range.1)
  have below : c.toNat ≤ 57 := UInt32.le_iff_toNat_le.mp range.2
  have apart : c ≠ '<' ∧ c ≠ '&' ∧ c ≠ '\"' := by
    refine ⟨?_, ?_, ?_⟩ <;>
      · rintro rfl
        cases digit
  simp [isAttChar, above, apart]
  omega

theorem isAttChar_of_isAlpha {c : Char} (letter : c.isAlpha = true) : isAttChar c = true := by
  -- letters lie between `A` and `z`, with none of the special characters there
  have range : 65 ≤ c.toNat ∧ c.toNat ≤ 122 := by
    rcases Bool.or_eq_true_iff.mp letter with upper | lower
    · have range : 'A'.val ≤ c.val ∧ c.val ≤ 'Z'.val := of_decide_eq_true upper
      exact ⟨UInt32.le_iff_toNat_le.mp range.1,
        Nat.le_trans (UInt32.le_iff_toNat_le.mp range.2) (by decide)⟩
    · have range := Bool.and_eq_true_iff.mp lower
      exact ⟨Nat.le_trans (by decide) (UInt32.le_iff_toNat_le.mp (of_decide_eq_true range.1)),
        UInt32.le_iff_toNat_le.mp (of_decide_eq_true range.2)⟩
  have above : ' ' ≤ c :=
    Char.le_def.mpr (UInt32.le_iff_toNat_le.mpr (Nat.le_trans (by decide) range.1))
  have apart : c ≠ '<' ∧ c ≠ '&' ∧ c ≠ '\"' := by
    refine ⟨?_, ?_, ?_⟩ <;>
      · rintro rfl
        exact absurd range.1 (by decide)
  simp [isAttChar, above, apart]
  omega

/-! ## What is read as itself -/

/-- Each character is written as it is, or as a reference if it is a quote. -/
def Encodes (enc : Char → Text) : Prop :=
  ∀ c, enc c = [c] ∨ c = '\"' ∧ enc c = "&quot;".toList

theorem singleton_ne_quot (c : Char) : [c] ≠ "&quot;".toList := by simp

theorem readAttValue_quot (s : Text) :
    readAttValue none ("&quot;".toList ++ s) = (readAttValue none s).map ('\"' :: ·) := rfl

theorem readAttValue_quot_in (ref s : Text) :
    readAttValue (some ref) ("&quot;".toList ++ s) =
      (reference (ref ++ "&quot".toList)).bind fun r => (readAttValue none s).map (r :: ·) := by
  simp [readAttValue]

/-- Reading never lengthens, since a reference stands for one character. -/
theorem length_readAttValue {enc : Char → Text} (encodes : Encodes enc) {s t : Text}
    {ref : Option Text} (read : readAttValue ref (s.flatMap enc) = some t) :
    t.length ≤ s.length := by
  induction s generalizing ref t with
  | nil =>
      cases ref with
      | none =>
          cases read
          exact le_rfl
      | some ref => cases read
  | cons c s ih =>
      rw [List.length_cons]
      rcases encodes c with plain | ⟨-, quote⟩
      · rw [List.flatMap_cons, plain, List.singleton_append] at read
        cases ref with
        | some ref =>
            rw [readAttValue] at read
            split at read
            · obtain ⟨r, -, rest⟩ := Option.bind_eq_some_iff.mp read
              rcases Option.map_eq_some_iff.mp rest with ⟨u, later, rfl⟩
              exact Nat.succ_le_succ (ih later)
            · exact Nat.le_succ_of_le (ih read)
        | none =>
            rw [readAttValue] at read
            split at read
            · exact Nat.le_succ_of_le (ih read)
            split at read
            · exact Nat.le_succ_of_le (ih read)
            split at read
            · rcases Option.map_eq_some_iff.mp read with ⟨u, rest, rfl⟩
              exact Nat.succ_le_succ (ih rest)
            split at read
            · rcases Option.map_eq_some_iff.mp read with ⟨u, rest, rfl⟩
              exact Nat.succ_le_succ (ih rest)
            · cases read
      · rw [List.flatMap_cons, quote] at read
        cases ref with
        | some ref =>
            rw [readAttValue_quot_in] at read
            obtain ⟨r, -, rest⟩ := Option.bind_eq_some_iff.mp read
            rcases Option.map_eq_some_iff.mp rest with ⟨u, later, rfl⟩
            exact Nat.succ_le_succ (ih later)
        | none =>
            rw [readAttValue_quot] at read
            rcases Option.map_eq_some_iff.mp read with ⟨u, rest, rfl⟩
            exact Nat.succ_le_succ (ih rest)

theorem readAttValue_cons {c : Char} (plain : isAttChar c = true) (s : Text) :
    readAttValue none (c :: s) = (readAttValue none s).map (c :: ·) := by
  have apart : c ≠ '&' ∧ c ≠ '\r' ∧ c ≠ '\t' ∧ c ≠ '\n' := by
    refine ⟨?_, ?_, ?_, ?_⟩ <;>
      · rintro rfl
        cases plain
  simp only [readAttValue, apart.1, apart.2.1, apart.2.2.1, apart.2.2.2, plain, if_true, if_false,
    false_and, or_self]

/-- A text that is read as itself begins with a character that is. -/
theorem readAttValue_cons_eq {enc : Char → Text} (encodes : Encodes enc) {c : Char} {s : Text} :
    readAttValue none ((c :: s).flatMap enc) = some (c :: s) ↔
      (isAttChar c = true ∨ c = '\"' ∧ enc c = "&quot;".toList) ∧
        readAttValue none (s.flatMap enc) = some s := by
  -- what is read behind a longer text is too short
  have short : ∀ ref, readAttValue ref (s.flatMap enc) ≠ some (c :: s) := by
    intro ref read
    have := length_readAttValue encodes read
    rw [List.length_cons] at this
    omega
  have peel : (readAttValue none (s.flatMap enc)).map (c :: ·) = some (c :: s) ↔
      readAttValue none (s.flatMap enc) = some s := by
    rw [Option.map_eq_some_iff]
    simp
  rcases encodes c with plain | ⟨rfl, quote⟩
  · have written : (c :: s).flatMap enc = c :: s.flatMap enc := by
      rw [List.flatMap_cons, plain, List.singleton_append]
    by_cases char : isAttChar c = true
    · rw [written, readAttValue_cons char, peel]
      exact (and_iff_right (Or.inl char)).symm
    · have never : ¬ (isAttChar c = true ∨ c = '\"' ∧ enc c = "&quot;".toList) := by
        rintro (char' | ⟨-, quote⟩)
        · exact char char'
        · exact singleton_ne_quot c (plain.symm.trans quote)
      rw [iff_false_right fun both => never both.1, written, readAttValue]
      split
      · exact short _
      split
      · exact short _
      split
      · rename_i blank
        intro read
        obtain ⟨u, -, eq⟩ := Option.map_eq_some_iff.mp read
        rw [← (List.cons.inj eq).1] at char
        exact char (by decide)
      exact fun read => nomatch read
  · rw [List.flatMap_cons, quote, readAttValue_quot, peel]
    exact (and_iff_right (Or.inr ⟨rfl, rfl⟩)).symm

/-- An encoded text is read back if and only if all its characters are plain or encoded. -/
theorem attValue_flatMap_iff {enc : Char → Text} (encodes : Encodes enc) (s : Text) :
    attValue (s.flatMap enc) = some s ↔
      ∀ c ∈ s, isAttChar c = true ∨ c = '\"' ∧ enc c = "&quot;".toList := by
  unfold attValue
  induction s with
  | nil => exact iff_of_true rfl fun c mem => nomatch mem
  | cons c s ih => rw [readAttValue_cons_eq encodes, ih, List.forall_mem_cons]

/-- A text is read as itself if and only if all its characters stand for themselves. -/
theorem attValue_iff (s : Text) : attValue s = some s ↔ ∀ c ∈ s, isAttChar c = true := by
  have same : s.flatMap (fun c => [c]) = s := List.flatMap_singleton' s
  have single : Encodes fun c => [c] := fun c => Or.inl rfl
  have all := attValue_flatMap_iff single s
  rw [same] at all
  rw [all]
  refine forall_congr' fun c => forall_congr' fun _ => or_iff_left ?_
  exact fun quote => singleton_ne_quot c quote.2

/-- With its quotes escaped, a text may have quotes as well. -/
theorem attValue_replaceChar_iff (s : Text) :
    attValue (replaceChar '\"' "&quot;".toList s) = some s ↔
      ∀ c ∈ s, isAttChar c = true ∨ c = '\"' := by
  have encodes : Encodes fun c => if c = '\"' then "&quot;".toList else [c] := by
    intro c
    by_cases quote : c = '\"'
    · exact Or.inr ⟨quote, if_pos quote⟩
    · exact Or.inl (if_neg quote)
  unfold replaceChar
  rw [attValue_flatMap_iff encodes]
  refine forall_congr' fun c => forall_congr' fun _ => or_congr_right ?_
  exact and_iff_left_of_imp fun quote => if_pos quote

end Hipert
