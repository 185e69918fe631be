import Hipert.Lib.JavaText

/-!
# Values in ASCII

The values that stand in lines of values are in ASCII, where the case mappings of the usual locales
go character by character (`AsciiCase`), and have none of the characters that separate them.
-/

namespace Hipert

/-- The case mappings of a locale that maps ASCII characters as such, wherever they stand. -/
structure AsciiCase {Double : Type} (J : JavaLang Double) : Prop where
  lower : ∀ s : Text, (∀ c ∈ s, c.toNat < 128) → J.toLowerCase s = s.map Char.toLower
  lower_append : ∀ s t : Text, (∀ c ∈ s, c.toNat < 128) →
    ∃ u, J.toLowerCase (s ++ t) = s.map Char.toLower ++ u
  upper : ∀ s : Text, (∀ c ∈ s, c.toNat < 128) → J.toUpperCase s = s.map Char.toUpper

theorem asciiCase_asciiLang : AsciiCase asciiLang where
  lower _ _ := rfl
  lower_append _ t _ := ⟨t.map Char.toLower, List.map_append⟩
  upper _ _ := rfl

/-- A character of a value: in ASCII, and none that separates values or lines. -/
def isFieldChar (c : Char) : Bool :=
  decide (c.toNat < 128) && !"\"=,[]\x7d>\n\r".toList.contains c

/-- A character of an integer. -/
def isNumeralChar (c : Char) : Bool := c.isDigit || c == '+' || c == '-'

/-- The text of a value. -/
def FieldText (t : Text) : Prop := ∀ c ∈ t, isFieldChar c = true

/-- A value that is not empty. -/
structure IsField (t : Text) : Prop where
  nonempty : t ≠ []
  text : FieldText t

/-- An integer. -/
structure IsNumeral (t : Text) : Prop where
  nonempty : t ≠ []
  chars : ∀ c ∈ t, isNumeralChar c = true

instance (t : Text) : Decidable (FieldText t) :=
  List.decidableBAll (fun c => isFieldChar c = true) t

instance (t : Text) : Decidable (IsField t) :=
  decidable_of_iff (t ≠ [] ∧ FieldText t)
    ⟨fun both => ⟨both.1, both.2⟩, fun field => ⟨field.1, field.2⟩⟩

instance (t : Text) : Decidable (IsNumeral t) :=
  decidable_of_iff (t ≠ [] ∧ t.all isNumeralChar = true)
    ⟨fun both => ⟨both.1, List.all_eq_true.mp both.2⟩,
      fun numeral => ⟨numeral.1, List.all_eq_true.mpr numeral.2⟩⟩

/-! ## Characters -/

theorem ascii_forall {P : Char → Prop} (all : ∀ n < 128, P (Char.ofNat n)) {c : Char}
    (ascii : c.toNat < 128) : P c := by
  have here := all c.toNat ascii
  rwa [Char.ofNat_toNat] at here

theorem toNat_lt_of_isFieldChar {c : Char} (field : isFieldChar c = true) : c.toNat < 128 :=
  of_decide_eq_true (Bool.and_eq_true_iff.mp field).1

theorem isFieldChar_toLower {c : Char} (field : isFieldChar c = true) :
    isFieldChar c.toLower = true :=
  ascii_forall (P := fun c => isFieldChar c = true → isFieldChar c.toLower = true)
    (by decide +kernel) (toNat_lt_of_isFieldChar field) field

theorem toNat_lt_of_isNumeralChar {c : Char} (numeral : isNumeralChar c = true) :
    c.toNat < 128 := by
  simp only [isNumeralChar, Char.isDigit, Bool.or_eq_true, Bool.and_eq_true, decide_eq_true_eq,
    beq_iff_eq, UInt32.le_iff_toNat_le, ge_iff_le] at numeral
  change c.val.toNat < 128
  rcases numeral with (digit | rfl) | rfl
  · exact lt_of_le_of_lt digit.2 (by decide)
  · decide
  · decide

theorem isFieldChar_of_isNumeralChar {c : Char} (numeral : isNumeralChar c = true) :
    isFieldChar c = true :=
  ascii_forall (P := fun c => isNumeralChar c = true → isFieldChar c = true) (by decide +kernel)
    (toNat_lt_of_isNumeralChar numeral) numeral

theorem isBlankChar_of_isNumeralChar {c : Char} (numeral : isNumeralChar c = true) :
    isBlankChar c = false :=
  ascii_forall (P := fun c => isNumeralChar c = true → isBlankChar c = false) (by decide +kernel)
    (toNat_lt_of_isNumeralChar numeral) numeral

theorem toLower_of_isNumeralChar {c : Char} (numeral : isNumeralChar c = true) :
    c.toLower = c :=
  ascii_forall (P := fun c => isNumeralChar c = true → c.toLower = c) (by decide +kernel)
    (toNat_lt_of_isNumeralChar numeral) numeral

/-! ## Fields -/

theorem IsNumeral.isField {t : Text} (numeral : IsNumeral t) : IsField t :=
  ⟨numeral.nonempty, fun c mem => isFieldChar_of_isNumeralChar (numeral.chars c mem)⟩

theorem IsNumeral.toLower_eq {t : Text} (numeral : IsNumeral t) : t.map Char.toLower = t :=
  (List.map_congr_left fun c mem => toLower_of_isNumeralChar (numeral.chars c mem)).trans t.map_id

/-- There are no blanks and separators in an integer. -/
theorem IsNumeral.not_mem {t : Text} (numeral : IsNumeral t) {c : Char}
    (other : isNumeralChar c = false) : c ∉ t := by
  intro mem
  rw [numeral.chars c mem] at other
  cases other

theorem FieldText.toLower {t : Text} (field : FieldText t) : FieldText (t.map Char.toLower) := by
  intro c mem
  rcases List.mem_map.mp mem with ⟨d, mem_t, rfl⟩
  exact isFieldChar_toLower (field d mem_t)

theorem IsField.toLower {t : Text} (field : IsField t) : IsField (t.map Char.toLower) where
  nonempty := mt List.map_eq_nil_iff.mp field.nonempty
  text := field.text.toLower

theorem FieldText.ascii {t : Text} (field : FieldText t) : ∀ c ∈ t, c.toNat < 128 := fun c mem =>
  toNat_lt_of_isFieldChar (field c mem)

/-- Separators, quotes and brackets stand in no value. -/
theorem FieldText.not_mem {t : Text} (field : FieldText t) {c : Char}
    (other : isFieldChar c = false) : c ∉ t := by
  intro mem
  rw [field c mem] at other
  cases other

/-- A value in a list of keys and values: without signs and commas, and not empty. -/
def IsValue (v : Text) : Prop := '=' ∉ v ∧ ',' ∉ v ∧ v ≠ []

theorem IsField.isValue {v : Text} (field : IsField v) : IsValue v :=
  ⟨field.text.not_mem (by decide), field.text.not_mem (by decide), field.nonempty⟩

theorem FieldText.isValue_append {v : Text} (field : FieldText v) : IsValue (v ++ "]".toList) := by
  refine ⟨?_, ?_, by simp⟩
  · exact fun mem => (List.mem_append.mp mem).elim (field.not_mem (by decide)) (by decide)
  · exact fun mem => (List.mem_append.mp mem).elim (field.not_mem (by decide)) (by decide)

/-- A character behind the bracket of a line of keys and values. -/
def isRestChar (c : Char) : Bool := isFieldChar c || "=\",]".toList.contains c

/-- A text behind the bracket of such a line. -/
def RestText (s : Text) : Prop := ∀ c ∈ s, isRestChar c = true

instance (s : Text) : Decidable (RestText s) :=
  List.decidableBAll (fun c => isRestChar c = true) s

theorem restText_append {s t : Text} : RestText (s ++ t) ↔ RestText s ∧ RestText t :=
  List.forall_mem_append

theorem FieldText.rest {t : Text} (field : FieldText t) : RestText t := by
  intro c mem
  rw [isRestChar, field c mem, Bool.true_or]

theorem RestText.not_mem {t : Text} (rest : RestText t) {c : Char} (other : isRestChar c = false) :
    c ∉ t := by
  intro mem
  rw [rest c mem] at other
  cases other

theorem toNat_lt_of_isRestChar {c : Char} (rest : isRestChar c = true) : c.toNat < 128 := by
  rcases Bool.or_eq_true_iff.mp rest with field | other
  · exact toNat_lt_of_isFieldChar field
  · have all : ∀ d ∈ "=\",]".toList, d.toNat < 128 := forall_chars (by decide)
    exact all c (List.contains_iff_mem.mp other)

end Hipert
