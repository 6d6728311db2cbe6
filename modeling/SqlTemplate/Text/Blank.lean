/-!
# Blanks and trims

Two classes of blank characters meet in a template.

* `isAsciiBlank`: the five blanks that a mark of the template language takes with it.
* `isBlank`: the Unicode property White_Space, by which list items and the texts of a source are
  trimmed. It has every ASCII blank (`isBlank_of_isAsciiBlank`), and the vertical tab besides.

The trims are stated on lists of characters, where `dropWhile` does the work, and carried over to
strings.
-/

namespace SqlTemplate.Text

/-! ## The two classes -/

/-- The blanks that a mark takes with it: space, tab, line feed, form feed and carriage return.
A vertical tab is not one of them. -/
def isAsciiBlank (c : Char) : Bool :=
  c == ' ' || c == '\t' || c == '\n' || c == '\x0c' || c == '\r'

/-- The ranges of code points that have the property White_Space, both ends included. -/
def blankRanges : List (Nat × Nat) :=
  [(0x09, 0x0d), (0x20, 0x20), (0x85, 0x85), (0xa0, 0xa0), (0x1680, 0x1680), (0x2000, 0x200a),
    (0x2028, 0x2029), (0x202f, 0x202f), (0x205f, 0x205f), (0x3000, 0x3000)]

/-- A character is blank when its code point lies in one of the ranges of White_Space. -/
def isBlank (c : Char) : Bool :=
  blankRanges.any fun (first, last) => first ≤ c.toNat && c.toNat ≤ last

/-- Every ASCII blank has the property White_Space. -/
theorem isBlank_of_isAsciiBlank {c : Char} (h : isAsciiBlank c = true) : isBlank c = true := by
  simp only [isAsciiBlank, Bool.or_eq_true, beq_iff_eq] at h
  rcases h with (((rfl | rfl) | rfl) | rfl) | rfl <;> decide

/-- A blank is no digit. -/
theorem isDigit_of_isBlank {c : Char} (h : isBlank c = true) : c.isDigit = false := by
  rw [← Bool.not_eq_true]
  intro digit
  have bounds : 48 ≤ c.toNat ∧ c.toNat ≤ 57 := by
    simpa [Char.isDigit, UInt32.le_iff_toNat_le] using digit
  simp only [isBlank, blankRanges, List.any_cons, List.any_nil, Bool.or_false, Bool.or_eq_true,
    Bool.and_eq_true, decide_eq_true_eq] at h
  omega

/-! ## Trims -/

/-- Leaves out the blanks at the front. -/
def trimStart (s : List Char) : List Char := s.dropWhile isBlank

/-- Leaves out the blanks at the back. -/
def trimEnd (s : List Char) : List Char := (s.reverse.dropWhile isBlank).reverse

/-- Leaves out the blanks at both ends. -/
def trim (s : List Char) : List Char := trimEnd (trimStart s)

/-- A list in front of which nothing is blank stays as it is. -/
theorem trimStart_cons_of_not_isBlank {c : Char} {s : List Char} (h : isBlank c = false) :
    trimStart (c :: s) = c :: s := by
  simp [trimStart, h]

/-- A blank in front is left out. -/
theorem trimStart_cons_of_isBlank {c : Char} {s : List Char} (h : isBlank c = true) :
    trimStart (c :: s) = trimStart s := by
  simp [trimStart, h]

/-- Trimming one end turns into trimming the other when the text is read backwards. -/
theorem trimEnd_eq_reverse_trimStart (s : List Char) :
    trimEnd s = (trimStart s.reverse).reverse := rfl

/-- A blank at the back is left out. -/
theorem trimEnd_concat_of_isBlank {c : Char} (h : isBlank c = true) (s : List Char) :
    trimEnd (s ++ [c]) = trimEnd s := by
  rw [trimEnd, List.reverse_concat, List.dropWhile_cons_of_pos h, trimEnd]

theorem trim_cons_of_isBlank {c : Char} (h : isBlank c = true) (s : List Char) :
    trim (c :: s) = trim s := by
  rw [trim, trimStart_cons_of_isBlank h, trim]

theorem trim_concat_of_isBlank {c : Char} (h : isBlank c = true) (s : List Char) :
    trim (s ++ [c]) = trim s := by
  rw [trim, trimStart, List.dropWhile_append, trim, trimStart]
  split
  · rename_i blank
    rw [List.isEmpty_iff.mp blank, List.dropWhile_cons_of_pos h]
    rfl
  · exact trimEnd_concat_of_isBlank h _

/-! ## Trims of strings -/

/-- A string without the blanks at its front. -/
def trimStartString (s : String) : String := String.ofList (trimStart s.toList)

/-- A string without the blanks at its back. -/
def trimEndString (s : String) : String := String.ofList (trimEnd s.toList)

@[simp] theorem toList_trimStartString (s : String) :
    (trimStartString s).toList = trimStart s.toList := String.toList_ofList

@[simp] theorem toList_trimEndString (s : String) :
    (trimEndString s).toList = trimEnd s.toList := String.toList_ofList

end SqlTemplate.Text
