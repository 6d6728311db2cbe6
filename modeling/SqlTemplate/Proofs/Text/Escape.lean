import Mathlib.Data.List.Infix
import SqlTemplate.Text.Doubled

/-!
# Escaped texts

Escaping doubles each of the six characters, and unescaping halves them again, one character after
another. The six do not get in each other's way: doubling them all at once is doubling them one
after another, so each halving takes back one doubling (`unescape_escape`).

What can be found in an escaped text is told from the text itself. `HasRun c n` says that a text
has exactly `n` of the character `c` side by side.

* None of the six characters stands alone in an escaped text (`not_hasRun_one_escape`).
* A word without any of the six is in an escaped text only where it is in the text
  (`exists_of_escape_eq_append`).
-/

namespace SqlTemplate.Text

/-! ## Doubling one character -/

/-- A text with each `c` in it doubled. -/
def double (c : Char) (s : List Char) : List Char :=
  s.flatMap fun a => if a = c then [c, c] else [a]

theorem double_cons_self (c : Char) (s : List Char) : double c (c :: s) = c :: c :: double c s := by
  simp [double]

theorem double_cons_of_ne {c a : Char} (h : a ≠ c) (s : List Char) :
    double c (a :: s) = a :: double c s := by
  simp [double, h]

/-- Halving takes back the doubling. -/
theorem halve_double (c : Char) (s : List Char) : halve c (double c s) = s := by
  induction s with
  | nil => rfl
  | cons a rest ih =>
    by_cases h : a = c
    · rw [h, double_cons_self, halve_pair, ih]
    · rw [double_cons_of_ne h, halve_cons_of_ne h, ih]

/-- A text with each of some characters doubled. -/
def doubleAll (marks s : List Char) : List Char :=
  s.flatMap fun a => if a ∈ marks then [a, a] else [a]

/-- Doubling some characters and one more is doubling that one behind the others. -/
theorem doubleAll_cons {c : Char} {marks : List Char} (new : c ∉ marks) (s : List Char) :
    doubleAll (c :: marks) s = double c (doubleAll marks s) := by
  rw [double, doubleAll, doubleAll, List.flatMap_assoc]
  congr 1
  funext a
  by_cases h : a = c
  · subst h
    simp [new]
  · by_cases k : a ∈ marks
    · simp [k, h]
    · simp [k, h]

/-- Halving characters one after another takes back that they were all doubled. -/
theorem foldl_halve_doubleAll {marks : List Char} (distinct : marks.Nodup) (s : List Char) :
    marks.foldl (fun text c => halve c text) (doubleAll marks s) = s := by
  induction marks with
  | nil => simp [doubleAll]
  | cons c rest ih =>
    obtain ⟨new, distinct⟩ := List.nodup_cons.mp distinct
    rw [List.foldl_cons, doubleAll_cons new, halve_double]
    exact ih distinct

/-- Unescaping takes back the escaping. -/
theorem unescape_escape (s : List Char) : unescape (escape s) = s :=
  foldl_halve_doubleAll (by decide) s

/-- The string form of `escape`. -/
def escapeString (s : String) : String := String.ofList (escape s.toList)

@[simp] theorem toList_escapeString (s : String) :
    (escapeString s).toList = escape s.toList := String.toList_ofList

theorem unescapeString_escapeString (s : String) : unescapeString (escapeString s) = s := by
  rw [unescapeString, toList_escapeString, unescape_escape, String.ofList_toList]

/-! ## Runs -/

/-- A text has exactly `n` of the character `c` side by side: there is no other one before them or
behind. -/
def HasRun (c : Char) (n : Nat) (s : List Char) : Prop :=
  ∃ before behind, s = before ++ List.replicate n c ++ behind ∧ before.getLast? ≠ some c ∧
    behind.head? ≠ some c

/-- A run is cut out of a text by the place at which it begins. -/
theorem hasRun_iff {c : Char} {n : Nat} {s : List Char} : HasRun c n s ↔
    ∃ i ∈ List.range (s.length + 1), (s.drop i).take n = List.replicate n c ∧
      (s.take i).getLast? ≠ some c ∧ (s.drop (i + n)).head? ≠ some c := by
  constructor
  · rintro ⟨before, behind, rfl, first, last⟩
    refine ⟨before.length, ?_, ?_, ?_, ?_⟩
    · simp only [List.mem_range, List.length_append]
      omega
    · simp
    · simpa using first
    · simpa using last
  · rintro ⟨i, -, run, first, last⟩
    refine ⟨s.take i, s.drop (i + n), ?_, first, last⟩
    rw [← run, List.append_assoc, ← List.drop_drop, List.take_append_drop, List.take_append_drop]

instance (c : Char) (n : Nat) (s : List Char) : Decidable (HasRun c n s) :=
  decidable_of_iff _ hasRun_iff.symm

/-- A text has a block comment in it. -/
def HasBlockComment (s : List Char) : Prop :=
  ∃ before inside behind, s = before ++ ['/', '*'] ++ inside ++ ['*', '/'] ++ behind

/-- A block comment is a beginning with an end somewhere behind it. -/
theorem hasBlockComment_iff {s : List Char} : HasBlockComment s ↔
    ∃ rest ∈ s.tails, ['/', '*'] <+: rest ∧ ['*', '/'] <:+: rest.drop 2 := by
  constructor
  · rintro ⟨before, inside, behind, rfl⟩
    refine ⟨['/', '*'] ++ inside ++ ['*', '/'] ++ behind, ?_, ?_, ?_⟩
    · rw [List.mem_tails]
      exact ⟨before, by simp⟩
    · exact ⟨inside ++ ['*', '/'] ++ behind, by simp⟩
    · exact ⟨inside, behind, by simp⟩
  · rintro ⟨rest, tail, ⟨more, rfl⟩, ⟨inside, behind, text⟩⟩
    obtain ⟨before, rfl⟩ := (List.mem_tails _ _).mp tail
    refine ⟨before, inside, behind, ?_⟩
    simpa using text.symm

instance (s : List Char) : Decidable (HasBlockComment s) :=
  decidable_of_iff _ hasBlockComment_iff.symm

/-! ## What is in an escaped text -/

section Escape

variable {c : Char} {s u v : List Char}

theorem escape_cons_of_mem (h : c ∈ doubled) (s : List Char) :
    escape (c :: s) = c :: c :: escape s := by
  simp [escape, h]

theorem escape_cons_of_notMem (h : c ∉ doubled) (s : List Char) :
    escape (c :: s) = c :: escape s := by
  simp [escape, h]

theorem head?_escape (s : List Char) : (escape s).head? = s.head? := by
  cases s with
  | nil => rfl
  | cons a rest =>
    by_cases h : a ∈ doubled
    · rw [escape_cons_of_mem h]
      rfl
    · rw [escape_cons_of_notMem h]
      rfl

theorem getLast?_escape (s : List Char) : (escape s).getLast? = s.getLast? := by
  induction s with
  | nil => rfl
  | cons a rest ih =>
    by_cases h : a ∈ doubled
    · rw [escape_cons_of_mem h, List.getLast?_cons, List.getLast?_cons, ih, List.getLast?_cons]
      rfl
    · rw [escape_cons_of_notMem h, List.getLast?_cons, ih, List.getLast?_cons]

/-- An escaped text begins with the character that the text begins with. -/
theorem exists_of_cons_eq_escape (text : c :: v = escape s) : ∃ rest, s = c :: rest := by
  have heads := congrArg List.head? text
  rw [head?_escape] at heads
  exact List.head?_eq_some_iff.mp heads.symm

/-- An escaped text can be cut where the text can, and between the two halves of a doubled
character. -/
theorem escape_eq_append (text : escape s = u ++ v) :
    (∃ before behind, s = before ++ behind ∧ u = escape before ∧ v = escape behind) ∨
      ∃ before c behind, s = before ++ c :: behind ∧ c ∈ doubled ∧ u = escape before ++ [c] ∧
        v = c :: escape behind := by
  induction s generalizing u with
  | nil =>
    obtain ⟨rfl, rfl⟩ := List.append_eq_nil_iff.mp text.symm
    exact .inl ⟨[], [], rfl, rfl, rfl⟩
  | cons a rest ih =>
    by_cases h : a ∈ doubled
    · rw [escape_cons_of_mem h] at text
      rcases u with _ | ⟨_, _ | ⟨_, u⟩⟩
      · exact .inl ⟨[], a :: rest, rfl, rfl, by rw [escape_cons_of_mem h, text, List.nil_append]⟩
      · cases text
        exact .inr ⟨[], a, rest, rfl, h, rfl, rfl⟩
      · simp only [List.cons_append, List.cons.injEq] at text
        obtain ⟨rfl, rfl, text⟩ := text
        rcases ih text with ⟨before, behind, rfl, rfl, rfl⟩ | ⟨before, c, behind, rfl, hc, rfl, rfl⟩
        · exact .inl ⟨a :: before, behind, rfl, by rw [escape_cons_of_mem h], rfl⟩
        · exact .inr ⟨a :: before, c, behind, rfl, hc, by simp [escape_cons_of_mem h], rfl⟩
    · rw [escape_cons_of_notMem h] at text
      rcases u with _ | ⟨_, u⟩
      · exact .inl ⟨[], a :: rest, rfl, rfl, by rw [escape_cons_of_notMem h, text, List.nil_append]⟩
      · simp only [List.cons_append, List.cons.injEq] at text
        obtain ⟨rfl, text⟩ := text
        rcases ih text with ⟨before, behind, rfl, rfl, rfl⟩ | ⟨before, c, behind, rfl, hc, rfl, rfl⟩
        · exact .inl ⟨a :: before, behind, rfl, by rw [escape_cons_of_notMem h], rfl⟩
        · exact .inr ⟨a :: before, c, behind, rfl, hc, by simp [escape_cons_of_notMem h], rfl⟩

/-- None of the six characters stands alone in an escaped text. -/
theorem not_hasRun_one_escape (h : c ∈ doubled) (s : List Char) : ¬HasRun c 1 (escape s) := by
  rintro ⟨u, v, text, first, last⟩
  rw [List.append_assoc] at text
  rcases escape_eq_append text with
    ⟨before, behind, -, -, rest⟩ | ⟨before, a, behind, -, -, rfl, rest⟩
  · -- cut before a whole character: its second half is behind the one that is to stand alone
    obtain ⟨behind, rfl⟩ := exists_of_cons_eq_escape rest
    rw [escape_cons_of_mem h] at rest
    cases rest
    exact last rfl
  · -- cut between the halves: the first half is before it
    cases rest
    exact first List.getLast?_concat

/-- Where an escaped text has a character that is not doubled, it is cut in two escaped texts. -/
theorem exists_of_escape_eq_cons (h : c ∉ doubled) (text : escape s = u ++ c :: v) :
    ∃ before behind, s = before ++ c :: behind ∧ escape before = u ∧ escape behind = v := by
  rcases escape_eq_append text with
    ⟨before, behind, rfl, rfl, rest⟩ | ⟨before, a, behind, rfl, ha, rfl, rest⟩
  · obtain ⟨behind, rfl⟩ := exists_of_cons_eq_escape rest
    rw [escape_cons_of_notMem h] at rest
    cases rest
    exact ⟨before, behind, rfl, rfl, rfl⟩
  · cases rest
    exact absurd ha h

/-- Where an escaped text has a word in which nothing is doubled, the text has the word too, between
what is escaped before it and what is escaped behind. -/
theorem exists_of_escape_eq_append {word : List Char} (filled : word ≠ [])
    (plain : ∀ c ∈ word, c ∉ doubled) (text : escape s = u ++ word ++ v) :
    ∃ before behind, s = before ++ word ++ behind ∧ escape before = u ∧ escape behind = v := by
  induction word generalizing s u with
  | nil => exact absurd rfl filled
  | cons c rest ih =>
    rw [List.append_assoc] at text
    obtain ⟨before, behind, rfl, rfl, next⟩ :=
      exists_of_escape_eq_cons (plain c (List.mem_cons_self ..)) text
    rcases rest with _ | ⟨d, rest⟩
    · exact ⟨before, behind, by simp, rfl, next⟩
    · have next : escape behind = [] ++ d :: rest ++ v := next
      obtain ⟨none, behind, rfl, first, rfl⟩ :=
        ih (by simp) (fun a mem => plain a (List.mem_cons_of_mem _ mem)) next
      -- nothing but the empty text is escaped to the empty text
      have empty : none = [] := by
        rw [← List.head?_eq_none_iff, ← head?_escape, first]
        rfl
      refine ⟨before, behind, ?_, rfl, rfl⟩
      simp [empty]

/-- Two hyphens side by side in an escaped text are side by side in the text. -/
theorem hyphens_of_escape (h : ['-', '-'] <:+: escape s) : ['-', '-'] <:+: s := by
  obtain ⟨u, v, text⟩ := h
  obtain ⟨before, behind, rfl, -, -⟩ :=
    exists_of_escape_eq_append (by simp) (by simp [doubled]) text.symm
  exact ⟨before, behind, rfl⟩

/-- A block comment in an escaped text is one in the text. -/
theorem hasBlockComment_of_escape (h : HasBlockComment (escape s)) : HasBlockComment s := by
  obtain ⟨u, inside, v, text⟩ := h
  have text : escape s = u ++ ['/', '*'] ++ (inside ++ ['*', '/'] ++ v) := by simpa using text
  obtain ⟨before, rest, rfl, -, text⟩ :=
    exists_of_escape_eq_append (by simp) (by simp [doubled]) text
  obtain ⟨inside, behind, rfl, -, -⟩ :=
    exists_of_escape_eq_append (by simp) (by simp [doubled]) text
  exact ⟨before, inside, behind, by simp⟩

/-- A run of a character that is not doubled is as long in a text as in the escaped text. -/
theorem hasRun_of_escape {n : Nat} (h : c ∉ doubled) (run : HasRun c (n + 1) (escape s)) :
    HasRun c (n + 1) s := by
  obtain ⟨u, v, text, first, last⟩ := run
  obtain ⟨before, behind, rfl, rfl, rfl⟩ := exists_of_escape_eq_append (by simp)
    (fun a mem => List.eq_of_mem_replicate mem ▸ h) text
  rw [getLast?_escape] at first
  rw [head?_escape] at last
  exact ⟨before, behind, rfl, first, last⟩

end Escape

end SqlTemplate.Text
