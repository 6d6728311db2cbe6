/-!
# Width of a text in UTF-8

Places in a template are counted in bytes of its UTF-8 form. `width` counts the bytes of a list of
characters; it adds up over `++`, so the place behind a slice is the place before it plus the
slice's width.
-/

namespace SqlTemplate.Text

/-- The number of bytes that the characters take in UTF-8. -/
def width : List Char → Nat
  | [] => 0
  | c :: s => c.utf8Size + width s

@[simp] theorem width_nil : width [] = 0 := rfl

@[simp] theorem width_cons (c : Char) (s : List Char) :
    width (c :: s) = c.utf8Size + width s := rfl

@[simp] theorem width_append (s t : List Char) : width (s ++ t) = width s + width t := by
  induction s with
  | nil => simp
  | cons c s ih => rw [List.cons_append, width_cons, ih, width_cons, Nat.add_assoc]

/-- A text that has a character has a positive width. -/
theorem width_pos {s : List Char} (h : s ≠ []) : 0 < width s := by
  cases s with
  | nil => exact absurd rfl h
  | cons c s =>
    have := c.utf8Size_pos
    rw [width_cons]
    omega

theorem eq_nil_of_width {s : List Char} (h : width s = 0) : s = [] := by
  by_cases filled : s = []
  · exact filled
  · exact absurd h (Nat.ne_of_gt (width_pos filled))

/-- The width of a string's characters is its size in bytes. -/
theorem utf8ByteSize_ofList (s : List Char) : (String.ofList s).utf8ByteSize = width s := by
  induction s with
  | nil => rfl
  | cons c s ih =>
    rw [← List.singleton_append, String.ofList_append, String.utf8ByteSize_append, ih]
    simp

/-- The size of a string in bytes is the width of its characters. -/
theorem utf8ByteSize_eq_width (s : String) : s.utf8ByteSize = width s.toList := by
  rw [← utf8ByteSize_ofList, String.ofList_toList]

/-- A text is cut at a byte in one way only. -/
theorem append_inj_of_width {s s' t t' : List Char} (h : s ++ t = s' ++ t')
    (same : width s = width s') : s = s' ∧ t = t' := by
  rcases List.append_eq_append_iff.mp h with ⟨x, rfl, rfl⟩ | ⟨x, rfl, rfl⟩
  · rw [width_append] at same
    obtain rfl := eq_nil_of_width (s := x) (by omega)
    rw [List.append_nil, List.nil_append]
    exact ⟨rfl, rfl⟩
  · rw [width_append] at same
    obtain rfl := eq_nil_of_width (s := x) (by omega)
    rw [List.append_nil, List.nil_append]
    exact ⟨rfl, rfl⟩

end SqlTemplate.Text
