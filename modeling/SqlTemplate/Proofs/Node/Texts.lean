import SqlTemplate.Proofs.Node.Derived
import SqlTemplate.Proofs.Node.Fixed

/-!
# Where the text of a tree comes from

All text that a tree can write is literal text of the template, a word of a fallback, or a
delimiter. Reading a template halves doubled characters, and condensing fuses texts, trims them and
puts delimiters between them. What these operations keep up is *lasting* (`Lexeme.Lasting`): if it
holds of the texts of a template, it holds of those of its condensed tree (`Node.holdsIn_condense`).

Two things are lasting. A character that is neither in the texts nor in a delimiter does not come in
(`Lexeme.lasting_avoids`), and neither does a digit that a text begins with
(`Lexeme.lasting_beginsClear`).
-/

namespace SqlTemplate

open SqlTemplate.Text

/-! ## Texts of lexemes -/

/-- Whether a lexeme does not write the character `c`, be it in literal text or in the word of a
fallback. Names are not written. -/
def Lexeme.Avoids (c : Char) : Lexeme → Prop
  | .literal text => c ∉ text.toList
  | .fallback word => c ∉ word.toList
  | _ => True

/-- Whether what a lexeme writes does not begin with a digit. Literal text can lose the blanks in
front of it, so its first character counts that is not blank. -/
def Lexeme.BeginsClear : Lexeme → Prop
  | .literal text => ∀ c ∈ (trimStart text.toList).head?, c.isDigit = false
  | .fallback word => ∀ c ∈ word.toList.head?, c.isDigit = false
  | _ => True

/-- What holds of names and control lexemes, and of literal text whatever becomes of it between the
template and its condensed tree. -/
structure Lexeme.Lasting (P : Lexeme → Prop) : Prop where
  key : ∀ name, P (.key name)
  control : ∀ l : Lexeme, l.text? = none → P l
  unescaped : ∀ {text}, P (.literal text) → P (.literal (unescapeString text))
  append : ∀ {text more}, P (.literal text) → P (.literal more) → P (.literal (text ++ more))
  trimStart : ∀ {text}, P (.literal text) → P (.literal (trimStartString text))
  trimEnd : ∀ {text}, P (.literal text) → P (.literal (trimEndString text))
  delimiter : ∀ delimiter : Delimiter, P (.literal delimiter.text)

/-! ## Characters that stay -/

namespace Text

theorem mem_of_mem_halve {c a : Char} {s : List Char} (h : a ∈ halve c s) : a ∈ s := by
  fun_induction halve c s with
  | case1 x y rest both ih =>
    obtain ⟨rfl, rfl⟩ := both
    rcases List.mem_cons.mp h with rfl | h
    · exact List.mem_cons_self ..
    · exact List.mem_cons_of_mem _ (List.mem_cons_of_mem _ (ih h))
  | case2 x y rest other ih =>
    rcases List.mem_cons.mp h with rfl | h
    · exact List.mem_cons_self ..
    · exact List.mem_cons_of_mem _ (ih h)
  | case3 x => exact h
  | case4 => exact h

/-- Unescaping brings in no character. -/
theorem mem_of_mem_unescape {a : Char} {s : List Char} (h : a ∈ unescape s) : a ∈ s := by
  rw [unescape] at h
  generalize doubled = marks at h
  induction marks generalizing s with
  | nil => exact h
  | cons c rest ih => exact mem_of_mem_halve (ih h)

theorem mem_of_mem_trimStart {a : Char} {s : List Char} (h : a ∈ trimStart s) : a ∈ s :=
  List.dropWhile_subset _ h

theorem mem_of_mem_trimEnd {a : Char} {s : List Char} (h : a ∈ trimEnd s) : a ∈ s := by
  rw [trimEnd_eq_reverse_trimStart, List.mem_reverse] at h
  exact List.mem_reverse.mp (mem_of_mem_trimStart h)

/-- The first character of a text that is not blank. -/
theorem head?_trimStart (s : List Char) : (trimStart s).head? = s.find? fun c => !isBlank c :=
  (List.find?_not_eq_head?_dropWhile isBlank s).symm

/-- Halving a character that is not blank leaves the first one that is none. -/
theorem find?_halve {c : Char} (hc : isBlank c = false) (s : List Char) :
    (halve c s).find? (fun a => !isBlank a) = s.find? fun a => !isBlank a := by
  fun_induction halve c s with
  | case1 x y rest both ih =>
    obtain ⟨rfl, rfl⟩ := both
    rw [List.find?_cons_of_pos (by rw [hc]; rfl), List.find?_cons_of_pos (by rw [hc]; rfl)]
  | case2 x y rest other ih => rw [List.find?_cons, List.find?_cons, ih]
  | case3 => rfl
  | case4 => rfl

/-- The characters that are doubled are not blank. -/
theorem find?_unescape (s : List Char) :
    (unescape s).find? (fun a => !isBlank a) = s.find? fun a => !isBlank a := by
  have filled : ∀ c ∈ doubled, isBlank c = false := by
    simp [doubled, isBlank, blankRanges]
  rw [unescape]
  generalize doubled = marks at filled
  induction marks generalizing s with
  | nil => rfl
  | cons c rest ih =>
    obtain ⟨first, others⟩ := List.forall_mem_cons.mp filled
    rw [List.foldl_cons, ih _ others, find?_halve first]

end Text

namespace Lexeme

theorem Lasting.of_unescaped {P : Lexeme → Prop} (lasting : Lasting P) {l : Lexeme} (h : P l) :
    P l.unescaped := by
  cases l with
  | literal text => exact lasting.unescaped h
  | _ => exact h

/-- No character comes in that is in no delimiter. -/
theorem lasting_avoids {c : Char} (d : ∀ delimiter : Delimiter, c ∉ delimiter.text.toList) :
    Lasting (Avoids c) where
  key _ := trivial
  control l noText := by
    cases l <;> trivial
  unescaped {text} h mem := by
    rw [toList_unescapeString] at mem
    exact h (mem_of_mem_unescape mem)
  append {text more} h k mem := by
    rw [String.toList_append] at mem
    exact (List.mem_append.mp mem).elim h k
  trimStart {text} h mem := by
    rw [toList_trimStartString] at mem
    exact h (mem_of_mem_trimStart mem)
  trimEnd {text} h mem := by
    rw [toList_trimEndString] at mem
    exact h (mem_of_mem_trimEnd mem)
  delimiter := d

/-- No digit comes to stand first, behind blanks or not. -/
theorem lasting_beginsClear : Lasting BeginsClear where
  key _ := trivial
  control l noText := by
    cases l <;> trivial
  unescaped {text} h c first := by
    rw [toList_unescapeString, head?_trimStart, find?_unescape, ← head?_trimStart] at first
    exact h c first
  append {text more} h k c first := by
    rw [String.toList_append, head?_trimStart, List.find?_append, ← head?_trimStart,
      ← head?_trimStart] at first
    rcases Option.or_eq_some_iff.mp first with here | ⟨-, behind⟩
    · exact h c here
    · exact k c behind
  trimStart {text} h c first := by
    rw [toList_trimStartString, Text.trimStart, Text.trimStart, List.dropWhile_idempotent] at first
    exact h c first
  trimEnd {text} h c first := by
    obtain ⟨taken, whole⟩ := List.rdropWhile_prefix isBlank (l := text.toList)
    rw [toList_trimEndString, head?_trimStart] at first
    refine h c ?_
    rw [head?_trimStart, ← whole, List.find?_append]
    exact Option.or_eq_some_iff.mpr (.inl first)
  delimiter delimiter := by
    cases delimiter <;>
      simp [BeginsClear, Delimiter.text, Text.trimStart, isBlank, blankRanges]

end Lexeme

namespace Node

/-! ## Texts of a tree -/

/-- What is said of lexemes holds of those of a node. -/
def Holds (P : Lexeme → Prop) (node : Node) : Prop := ∀ l ∈ lexemes node, P l

/-- What is said of lexemes holds of those of nodes. -/
def HoldsIn (P : Lexeme → Prop) (nodes : List Node) : Prop := ∀ l ∈ lexemesIn nodes, P l

/-- What is said of lexemes holds of those of the items of a list. -/
def HoldsInItems (P : Lexeme → Prop) (items : List (List Node)) : Prop :=
  ∀ l ∈ lexemesInItems items, P l

section Holds

variable {P : Lexeme → Prop}

@[simp] theorem holds_literal {text : String} : Holds P (.literal text) ↔ P (.literal text) := by
  simp [Holds, lexemes]

theorem Holds.fallback {name word : String} (h : Holds P (.fallback name word)) :
    P (.fallback word) := by
  refine h _ ?_
  simp [lexemes]

/-- Names and control lexemes have no text, so what counts is in the branches. -/
theorem holds_conditional (lasting : Lexeme.Lasting P) {name : String} {success : List Node}
    {failure : Option (List Node)} : Holds P (.conditional name success failure) ↔
      HoldsIn P success ∧ ∀ branch ∈ failure, HoldsIn P branch := by
  cases failure <;>
    simp [Holds, HoldsIn, lexemes, lexemesInBranch, or_imp, forall_and, lasting.key name,
      lasting.control .conditionalOpen rfl, lasting.control .blockClose rfl,
      lasting.control .elseOpen rfl]

theorem holds_list (lasting : Lexeme.Lasting P) {delimiter : Delimiter}
    {items : List (List Node)} : Holds P (.list delimiter items) ↔ HoldsInItems P items := by
  simp [Holds, HoldsInItems, lexemes, or_imp, forall_and,
    lasting.control (.listOpen delimiter) rfl, lasting.control .listClose rfl]

@[simp] theorem holdsIn_nil : HoldsIn P [] := by
  simp [HoldsIn, lexemesIn]

@[simp] theorem holdsIn_cons {node : Node} {rest : List Node} :
    HoldsIn P (node :: rest) ↔ Holds P node ∧ HoldsIn P rest :=
  List.forall_mem_append

@[simp] theorem holdsInItems_nil : HoldsInItems P [] := by
  simp [HoldsInItems, lexemesInItems]

@[simp] theorem holdsInItems_cons {item : List Node} {rest : List (List Node)} :
    HoldsInItems P (item :: rest) ↔ HoldsIn P item ∧ HoldsInItems P rest :=
  List.forall_mem_append

/-- What is lasting and holds of the lexemes of a template holds of those of its tree. -/
theorem holdsIn_read (lasting : Lexeme.Lasting P) {template : String} {tree : List Node}
    (read : Node.read template = .ok tree)
    (h : ∀ l ∈ (Scan.ofTemplate template).lexemes, P l) : HoldsIn P tree := by
  intro l mem
  rw [Grammar.lexemesIn_eq (read_eq_ok_iff.mp read).1, Grammar.kept] at mem
  obtain ⟨m, kept, rfl⟩ := List.mem_map.mp mem
  exact lasting.of_unescaped (h m (List.mem_of_mem_filter kept))

/-! ## Condensing -/

theorem holdsIn_fuse (lasting : Lexeme.Lasting P) {node : Node} {behind : List Node}
    (h : Holds P node) (k : HoldsIn P behind) : HoldsIn P (fuse node behind) := by
  rcases fuse_cases node behind with ⟨apart, -⟩ | ⟨text, more, rest, rfl, rfl, one⟩
  · rw [apart]
    exact holdsIn_cons.mpr ⟨h, k⟩
  · rw [one]
    obtain ⟨first, others⟩ := holdsIn_cons.mp k
    exact holdsIn_cons.mpr
      ⟨holds_literal.mpr (lasting.append (holds_literal.mp h) (holds_literal.mp first)), others⟩

theorem holdsIn_trimItem (lasting : Lexeme.Lasting P) {item : List Node} (h : HoldsIn P item) :
    HoldsIn P (trimItem item) := by
  have front : HoldsIn P (trimFront item) := by
    rcases trimFront_cases item with same | ⟨text, rest, rfl, ⟨-, none⟩ | shorter⟩
    · rwa [same]
    · rw [none]
      exact (holdsIn_cons.mp h).2
    · rw [shorter]
      obtain ⟨first, behind⟩ := holdsIn_cons.mp h
      exact holdsIn_cons.mpr
        ⟨holds_literal.mpr (lasting.trimStart (holds_literal.mp first)), behind⟩
  have back : ∀ nodes : List Node, HoldsIn P nodes → HoldsIn P (trimBack nodes) := by
    intro nodes h
    fun_induction trimBack nodes with
    | case1 => exact holdsIn_nil
    | case2 text left =>
      have only := holds_literal.mp (holdsIn_cons.mp h).1
      exact holdsIn_cons.mpr ⟨holds_literal.mpr (lasting.trimEnd only), holdsIn_nil⟩
    | case3 node rest _ ih =>
      obtain ⟨first, behind⟩ := holdsIn_cons.mp h
      exact holdsIn_cons.mpr ⟨first, ih behind⟩
    | case4 => exact holdsIn_nil
  exact back _ front

theorem holdsInItems_fuseItem (lasting : Lexeme.Lasting P) {delimiter : Delimiter}
    {item : List Node} {behind : List (List Node)} (h : HoldsIn P item)
    (k : HoldsInItems P behind) : HoldsInItems P (fuseItem delimiter item behind) := by
  rcases fuseItem_cases delimiter item behind with ⟨apart, -⟩ | ⟨_, _, _, rfl, rfl, one⟩
  · rw [apart]
    exact holdsInItems_cons.mpr ⟨h, k⟩
  · rw [one]
    obtain ⟨next, others⟩ := holdsInItems_cons.mp k
    have first := holds_literal.mp (holdsIn_cons.mp h).1
    have second := holds_literal.mp (holdsIn_cons.mp next).1
    refine holdsInItems_cons.mpr ⟨holdsIn_cons.mpr ⟨holds_literal.mpr ?_, holdsIn_nil⟩, others⟩
    exact lasting.append (lasting.append first (lasting.delimiter delimiter)) second

mutual

/-- What is lasting and holds of the texts of a node holds of those of what it is condensed to. -/
theorem holds_condense? (lasting : Lexeme.Lasting P) :
    ∀ {node condensed : Node}, Holds P node → condense? node = some condensed →
      Holds P condensed
  | .literal _, _, h, made => by
    cases made
    exact h
  | .value _, _, h, made => by
    cases made
    exact h
  | .fallback .., _, h, made => by
    cases made
    exact h
  | .spread .., _, h, made => by
    cases made
    exact h
  | .conditional name success failure, condensed, h, made => by
    obtain ⟨first, second⟩ := (holds_conditional lasting).mp h
    rw [condense?] at made
    rcases conditional?_cases name (condense success) (condenseBranch? failure) with
      ⟨-, -, left⟩ | ⟨-, kept⟩
    · rw [left] at made
      cases made
    · rw [kept] at made
      cases made
      exact (holds_conditional lasting).mpr
        ⟨holdsIn_condense lasting first, holdsIn_condenseBranch? lasting second⟩
  | .list delimiter items, condensed, h, made => by
    have inside := holdsInItems_condenseItems lasting delimiter ((holds_list lasting).mp h)
    rw [condense?] at made
    rcases list?_cases delimiter (condenseItems delimiter items) with
      ⟨-, left⟩ | ⟨text, single, literal⟩ | ⟨-, kept⟩
    · rw [left] at made
      cases made
    · rw [literal] at made
      cases made
      rw [single] at inside
      exact (holdsIn_cons.mp (holdsInItems_cons.mp inside).1).1
    · rw [kept] at made
      cases made
      exact (holds_list lasting).mpr inside

/-- What is lasting lasts when a tree is condensed. -/
theorem holdsIn_condense (lasting : Lexeme.Lasting P) :
    ∀ {nodes : List Node}, HoldsIn P nodes → HoldsIn P (condense nodes)
  | [], _ => holdsIn_nil
  | node :: rest, h => by
    obtain ⟨first, behind⟩ := holdsIn_cons.mp h
    rw [condense]
    cases made : condense? node with
    | none => exact holdsIn_condense lasting behind
    | some condensed =>
      exact holdsIn_fuse lasting (holds_condense? lasting first made)
        (holdsIn_condense lasting behind)

theorem holdsIn_condenseBranch? (lasting : Lexeme.Lasting P) :
    ∀ {failure : Option (List Node)}, (∀ branch ∈ failure, HoldsIn P branch) →
      ∀ branch ∈ condenseBranch? failure, HoldsIn P branch
  | none, h => h
  | some branch, h => by
    have inside := holdsIn_condense lasting (h branch rfl)
    rw [condenseBranch?]
    cases made : condense branch with
    | nil => nofun
    | cons node rest =>
      rintro _ ⟨⟩
      rwa [made] at inside

theorem holdsInItems_condenseItems (lasting : Lexeme.Lasting P)
    (delimiter : Delimiter) : ∀ {items : List (List Node)}, HoldsInItems P items →
      HoldsInItems P (condenseItems delimiter items)
  | [], _ => holdsInItems_nil
  | item :: rest, h => by
    obtain ⟨first, behind⟩ := holdsInItems_cons.mp h
    have trimmed := holdsIn_trimItem lasting (holdsIn_condense lasting first)
    have others := holdsInItems_condenseItems lasting delimiter behind
    rw [condenseItems_cons]
    split
    · exact others
    · exact holdsInItems_fuseItem lasting trimmed others

end

end Holds

end Node

end SqlTemplate
