/-!
# Doubled characters

Six characters have a meaning in a template: semicolon, at sign, braces and brackets. Literal text
writes each of them twice where the character itself is meant.

* `halve c` takes away one of every two neighbouring `c`, from the left: a run of `n` of them
  becomes a run of half as many, rounded up (`halve_replicate_append`). It leaves a text without
  two neighbouring `c` as it is.
* `unescape` halves the six characters one after another.
* `escape` doubles each of the six.
-/

namespace SqlTemplate.Text

/-- The characters that literal text doubles, in the order in which they are halved. -/
def doubled : List Char := [';', '@', '{', '[', ']', '}']

/-! ## Halving one character -/

/-- Puts one `c` for every pair of neighbouring `c`, going from left to right. -/
def halve (c : Char) : List Char → List Char
  | a :: b :: rest => if a = c ∧ b = c then c :: halve c rest else a :: halve c (b :: rest)
  | [a] => [a]
  | [] => []

@[simp] theorem halve_nil (c : Char) : halve c [] = [] := rfl

@[simp] theorem halve_singleton (c a : Char) : halve c [a] = [a] := rfl

@[simp] theorem halve_pair (c : Char) (s : List Char) : halve c (c :: c :: s) = c :: halve c s := by
  simp [halve]

/-- A character other than the halved one stays. -/
theorem halve_cons_of_ne {c a : Char} (h : a ≠ c) (s : List Char) :
    halve c (a :: s) = a :: halve c s := by
  cases s with
  | nil => rfl
  | cons b s => simp [halve, h]

/-- A run of other characters stays. -/
theorem halve_replicate_append_of_ne {a c : Char} (h : a ≠ c) (n : Nat) (s : List Char) :
    halve c (List.replicate n a ++ s) = List.replicate n a ++ halve c s := by
  induction n with
  | zero => rfl
  | succ n ih =>
    rw [List.replicate_succ, List.cons_append, halve_cons_of_ne h, ih, List.cons_append]

/-- A run of one character that does not go on becomes a run of half its length, rounded up. -/
theorem halve_replicate_append {c : Char} {s : List Char} (h : s.head? ≠ some c) : ∀ n : Nat,
    halve c (List.replicate n c ++ s) = List.replicate ((n + 1) / 2) c ++ halve c s
  | 0 => rfl
  | 1 => by
    cases s with
    | nil => rfl
    | cons b rest =>
      have other : b ≠ c := fun same => h (congrArg some same)
      simp [halve, other]
  | n + 2 => by
    rw [List.replicate_succ, List.replicate_succ, List.cons_append, List.cons_append, halve_pair,
      halve_replicate_append h n, show (n + 2 + 1) / 2 = (n + 1) / 2 + 1 by omega,
      List.replicate_succ, List.cons_append]

/-! ## Escaping and unescaping -/

/-- What literal text stands for: each doubled character stands for a single one. -/
def unescape (s : List Char) : List Char := doubled.foldl (fun text c => halve c text) s

/-- A text with each of the six characters doubled. -/
def escape (s : List Char) : List Char := s.flatMap fun c => if c ∈ doubled then [c, c] else [c]

@[simp] theorem escape_nil : escape [] = [] := rfl

/-- The string form of `unescape`. -/
def unescapeString (s : String) : String := String.ofList (unescape s.toList)

@[simp] theorem toList_unescapeString (s : String) :
    (unescapeString s).toList = unescape s.toList := String.toList_ofList

end SqlTemplate.Text
