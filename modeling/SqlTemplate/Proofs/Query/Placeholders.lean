import SqlTemplate.Proofs.Query.Static
import SqlTemplate.Proofs.Statement.Ahead

/-!
# Reading placeholders back

A text shows its placeholders: each dollar sign with the digits behind it, as many as there are
(`Text.readPlaceholders`). Where no dollar sign is written but those of placeholders, what the text
of a statement shows are the placeholders that were written, unless a digit stands directly behind
one of them, which then reads as a part of its number.

Nothing in a render keeps the two apart: `@a` and a text that begins with a digit can come next to
each other behind a comment, a brace or a bracket (`Query.placeholders_run_together`). The template
tells where this cannot be (`Query.placeholders_read_back`): where none of its texts begins with a
digit, and where a digit comes ahead of no name in its tree.
-/

namespace SqlTemplate

open SqlTemplate.Text

namespace Text

/-! ## Reading a text -/

/-- The placeholders that a text shows: each dollar sign with the longest run of digits behind
it. -/
def readPlaceholders : List Char → List (List Char)
  | [] => []
  | c :: rest =>
    if c = '$' then (c :: rest.takeWhile Char.isDigit) :: readPlaceholders rest
    else readPlaceholders rest

/-- A text without dollar signs shows no placeholder. -/
theorem readPlaceholders_append {s : List Char} (h : '$' ∉ s) (more : List Char) :
    readPlaceholders (s ++ more) = readPlaceholders more := by
  induction s with
  | nil => rfl
  | cons c s ih =>
    obtain ⟨first, rest⟩ := not_or.mp (mt List.mem_cons.mpr h)
    rw [List.cons_append, readPlaceholders, if_neg (Ne.symm first), ih rest]

/-- A placeholder shows itself, and takes the digits behind it for its own. -/
theorem readPlaceholders_placeholder (n : Nat) (more : List Char) :
    readPlaceholders ((Draft.placeholder n).toList ++ more) =
      ((Draft.placeholder n).toList ++ more.takeWhile Char.isDigit) :: readPlaceholders more := by
  have digits : ∀ c ∈ (natural n).toList, c.isDigit = true := fun _ => isDigit_of_mem_natural
  have noDollar : '$' ∉ (natural n).toList := fun mem => by
    have := digits _ mem
    cases this
  have written : (Draft.placeholder n).toList = '$' :: (natural n).toList := by
    simp [Draft.placeholder]
  rw [written, List.cons_append, readPlaceholders, if_pos rfl,
    List.takeWhile_append_of_pos digits, readPlaceholders_append noDollar]
  rfl

end Text

/-! ## Pieces that show what they are -/

namespace Piece

/-- The numbers of the placeholders among pieces. -/
def numbers (pieces : List Piece) : List Nat :=
  pieces.filterMap fun
    | .text _ => none
    | .placeholder n => some n

/-- A text without the character `c`, or a placeholder for one of `count` values. -/
def Fits (c : Char) (count : Nat) : Piece → Prop
  | .text s => c ∉ s.toList
  | .placeholder n => 1 ≤ n ∧ n ≤ count

/-- What a text shows are its placeholders exactly if no digit stands directly behind one. -/
theorem readPlaceholders_flat_iff {count : Nat} {pieces : List Piece}
    (h : ∀ p ∈ pieces, p.Fits '$' count) :
    readPlaceholders (flat pieces).toList =
      (numbers pieces).map (fun n => (Draft.placeholder n).toList) ↔ Apart pieces := by
  induction pieces with
  | nil => simp [numbers, Apart, readPlaceholders]
  | cons p rest ih =>
    obtain ⟨first, behind⟩ := List.forall_mem_cons.mp h
    have whole : (flat (p :: rest)).toList = p.written.toList ++ (flat rest).toList := by
      rw [← List.singleton_append, flat_append, flat_singleton, String.toList_append]
    rw [whole]
    cases p with
    | text text =>
      rw [written, readPlaceholders_append first]
      exact ih behind
    | placeholder n =>
      -- the digits that the number takes for its own are none if the text behind begins with none
      have none : (flat rest).toList.takeWhile Char.isDigit = [] ↔
          ∀ c ∈ (flat rest).toList.head?, c.isDigit = false := by
        rw [← List.head?_eq_none_iff, List.head?_takeWhile, Option.filter_eq_none_iff]
        simp
      rw [written, readPlaceholders_placeholder, Apart, ← ih behind, ← none]
      simp [numbers]

/-- What is in parts with a delimiter between them is in one of the parts, or is the delimiter. -/
theorem mem_of_mem_between {p : Piece} {delimiter : Delimiter} {parts : List (List Piece)}
    (h : p ∈ between delimiter parts) :
    p = .text delimiter.text ∨ ∃ part ∈ parts, p ∈ part := by
  rw [between] at h
  induction parts with
  | nil => cases h
  | cons first rest ih =>
    cases rest with
    | nil =>
      rw [List.intercalate_singleton] at h
      exact .inr ⟨first, List.mem_singleton_self _, h⟩
    | cons next rest =>
      rw [List.intercalate_cons_cons, List.mem_append, List.mem_append] at h
      rcases h with (here | here) | later
      · exact .inr ⟨first, List.mem_cons_self .., here⟩
      · exact .inl (List.mem_singleton.mp here)
      · refine (ih later).imp_right ?_
        rintro ⟨part, mem, inside⟩
        exact ⟨part, List.mem_cons_of_mem _ mem, inside⟩

end Piece

/-- A delimiter has no dollar sign. -/
theorem Delimiter.dollar_notMem_text (delimiter : Delimiter) : '$' ∉ delimiter.text.toList := by
  cases delimiter <;> decide

/-- No dollar sign comes in between a template and its condensed tree. -/
theorem lasting_dollar : Lexeme.Lasting (Lexeme.Avoids '$') :=
  Lexeme.lasting_avoids Delimiter.dollar_notMem_text

/-! ## Pieces of a tree -/

namespace Node

section Fits

variable {arguments : Value} {w : String → List Piece} {count : Nat}

mutual

/-- If what names are written with fits, and so do the texts of a node, then all pieces of the
node fit. -/
theorem fits_pieces (h : ∀ name, ∀ p ∈ w name, p.Fits '$' count) : ∀ {node : Node},
    Holds (Lexeme.Avoids '$') node → ∀ p ∈ pieces arguments w node, p.Fits '$' count
  | .literal text, k => List.forall_mem_singleton.mpr (holds_literal.mp k)
  | .value name, _ => h name
  | .fallback name word, k => by
    rw [pieces]
    cases arguments.present? name with
    | none => exact List.forall_mem_singleton.mpr (k.fallback)
    | some _ => exact h name
  | .conditional name success failure, k => by
    obtain ⟨first, second⟩ := (holds_conditional lasting_dollar).mp k
    rw [pieces]
    cases arguments.present? name with
    | none => exact fits_piecesInBranch h second
    | some _ => exact fits_piecesIn h first
  | .spread name delimiter, _ => h name
  | .list delimiter items, k => by
    intro p mem
    rcases Piece.mem_of_mem_between mem with rfl | ⟨part, here, inside⟩
    · exact delimiter.dollar_notMem_text
    · exact fits_piecesInItems h ((holds_list lasting_dollar).mp k) part
        (List.mem_of_mem_filter here) p inside

theorem fits_piecesIn (h : ∀ name, ∀ p ∈ w name, p.Fits '$' count) : ∀ {nodes : List Node},
    HoldsIn (Lexeme.Avoids '$') nodes → ∀ p ∈ piecesIn arguments w nodes, p.Fits '$' count
  | [], _ => nofun
  | node :: rest, k => by
    obtain ⟨first, behind⟩ := holdsIn_cons.mp k
    exact List.forall_mem_append.mpr ⟨fits_pieces h first, fits_piecesIn h behind⟩

theorem fits_piecesInBranch (h : ∀ name, ∀ p ∈ w name, p.Fits '$' count) :
    ∀ {failure : Option (List Node)}, (∀ branch ∈ failure, HoldsIn (Lexeme.Avoids '$') branch) →
      ∀ p ∈ piecesInBranch arguments w failure, p.Fits '$' count
  | none, _ => nofun
  | some branch, k => fits_piecesIn h (k branch rfl)

theorem fits_piecesInItems (h : ∀ name, ∀ p ∈ w name, p.Fits '$' count) :
    ∀ {items : List (List Node)}, HoldsInItems (Lexeme.Avoids '$') items →
      ∀ part ∈ piecesInItems arguments w items, ∀ p ∈ part, p.Fits '$' count
  | [], _ => nofun
  | item :: rest, k => by
    obtain ⟨first, behind⟩ := holdsInItems_cons.mp k
    exact List.forall_mem_cons.mpr ⟨fits_piecesIn h first, fits_piecesInItems h behind⟩

end

end Fits

end Node

/-- A name is written with placeholders for values that are bound, and delimiters. -/
theorem fits_writtenAs (arguments : Value) (met : List Mention) (name : String) :
    ∀ p ∈ writtenAs arguments met name, p.Fits '$' (boundValues arguments met).length := by
  intro p mem
  rw [writtenAs] at mem
  cases found : (bindings arguments met).find? fun b => b.name = name with
  | none =>
    rw [found] at mem
    cases mem
  | some b =>
    rw [found] at mem
    have bound : ∀ n ∈ b.numbers, 1 ≤ n ∧ n ≤ (boundValues arguments met).length := by
      intro n hn
      have all : n ∈ (bindings arguments met).flatMap Binding.numbers :=
        List.mem_flatMap.mpr ⟨b, List.mem_of_find?_eq_some found, hn⟩
      rw [bindings, Binding.flatMap_numbers, List.mem_range'_1] at all
      rw [boundValues]
      omega
    obtain ⟨mention, first, values⟩ := b
    cases mention with
    | whole name =>
      obtain ⟨n, hn, rfl⟩ := List.mem_map.mp mem
      exact bound n hn
    | spread name delimiter =>
      rcases Piece.mem_of_mem_between mem with rfl | ⟨part, here, inside⟩
      · exact delimiter.dollar_notMem_text
      · obtain ⟨n, hn, rfl⟩ := List.mem_map.mp here
        rw [List.mem_singleton.mp inside]
        exact bound n hn

namespace Query

/-- The pieces that a query is written with. -/
def pieces (q : Query) (arguments : Value) : List Piece :=
  Node.piecesIn arguments (writtenAs arguments (Node.mentionsIn arguments q.nodes)) q.nodes

/-- If neither the literal text of a template nor the words of its fallbacks have dollar signs, then
the text of a statement shows the placeholders that were written exactly if no digit stands directly
behind one of them. This is so for all arguments if in the tree no digit comes ahead of a name, and
so if no literal text begins with a digit, behind blanks or not, and no word of a fallback does.
Each number that was written is that of a value. -/
theorem placeholders_read_back {source : String}
    (plain : ∀ l ∈ (Scan.ofTemplate source).lexemes, l.Avoids '$') {q : Query}
    (compiled : compile source = .ok q) {arguments : Value} {s : Statement}
    (done : q.generate arguments = .ok s) :
    s.text = Piece.flat (q.pieces arguments) ∧
    ((∀ l ∈ (Scan.ofTemplate source).lexemes, l.BeginsClear) →
      Node.readableIn false q.nodes = true) ∧
    (Node.readableIn false q.nodes = true → readPlaceholders s.text.toList =
      (Piece.numbers (q.pieces arguments)).map fun n => (Draft.placeholder n).toList) ∧
    (readPlaceholders s.text.toList =
        (Piece.numbers (q.pieces arguments)).map (fun n => (Draft.placeholder n).toList) ↔
      Piece.Apart (q.pieces arguments)) ∧
    ∀ n ∈ Piece.numbers (q.pieces arguments), 1 ≤ n ∧ n ≤ s.values.length := by
  rw [generate_eq compiled, Node.toStatement_eq] at done
  obtain ⟨-, -, rfl⟩ := map_eq_ok done
  obtain ⟨tree, read, rfl⟩ := eq_ofTree compiled
  have texts : Node.HoldsIn (Lexeme.Avoids '$') (ofTree source tree).nodes :=
    Node.holdsIn_condense lasting_dollar (Node.holdsIn_read lasting_dollar read plain)
  have fits : ∀ p ∈ (ofTree source tree).pieces arguments, p.Fits '$' _ :=
    Node.fits_piecesIn (fits_writtenAs arguments _) texts
  have shown := Piece.readPlaceholders_flat_iff fits
  refine ⟨rfl, fun clear => ?_, fun readable => shown.mpr ?_, shown, fun n mem => ?_⟩
  · exact Node.readableIn_of_beginsClear (Node.holdsIn_condense Lexeme.lasting_beginsClear
      (Node.holdsIn_read Lexeme.lasting_beginsClear read clear))
  · -- behind the whole tree nothing comes
    rw [← List.append_nil ((ofTree source tree).pieces arguments)]
    exact Node.apart_piecesIn (numbered_writtenAs arguments _) readable nofun trivial
  · obtain ⟨p, here, number⟩ := List.mem_filterMap.mp mem
    cases p with
    | text text => cases number
    | placeholder m =>
      cases number
      exact fits _ here

/-- A dollar sign in a comment does not count. A digit does not count behind other text, be it in a
text that begins with a letter or a blank, or in a fallback that has a text before it. -/
theorem placeholders_read_back_comment :
    (∃ q s, (∀ l ∈ (Scan.ofTemplate "@ids/*$9*/ LIMIT 10").lexemes, l.Avoids '$') ∧
      (∀ l ∈ (Scan.ofTemplate "@ids/*$9*/ LIMIT 10").lexemes, l.BeginsClear) ∧
      compile "@ids/*$9*/ LIMIT 10" = .ok q ∧
      q.generate (.map [("ids", .null)]) = .ok s ∧ s = ⟨"$1 LIMIT 10", [.null]⟩ ∧
      Node.readableIn false q.nodes = true) ∧
    ∃ q s,
      (∀ l ∈ (Scan.ofTemplate "@a, (,)[...@ids]/*$9*/-@b??0").lexemes, l.Avoids '$') ∧
      compile "@a, (,)[...@ids]/*$9*/-@b??0" = .ok q ∧
      q.generate (.map [("a", .null), ("ids", .list [.bool true, .bool false])]) = .ok s ∧
      s = ⟨"$1, $2, $3-0", [.null, .bool true, .bool false]⟩ ∧
      Node.readableIn false q.nodes = true ∧
      readPlaceholders s.text.toList = (Piece.numbers
        (q.pieces (.map [("a", .null), ("ids", .list [.bool true, .bool false])]))).map
          (fun n => (Draft.placeholder n).toList) ∧
      ∀ n ∈ Piece.numbers
          (q.pieces (.map [("a", .null), ("ids", .list [.bool true, .bool false])])),
        1 ≤ n ∧ n ≤ s.values.length := by
  constructor
  · have lexemes : (Scan.ofTemplate "@ids/*$9*/ LIMIT 10").lexemes =
        [.key "ids", .literal " LIMIT 10"] := by
      cbv
    have plain : ∀ l ∈ (Scan.ofTemplate "@ids/*$9*/ LIMIT 10").lexemes, l.Avoids '$' := by
      rw [lexemes]
      simp [Lexeme.Avoids]
    have clear : ∀ l ∈ (Scan.ofTemplate "@ids/*$9*/ LIMIT 10").lexemes, l.BeginsClear := by
      rw [lexemes]
      simp [Lexeme.BeginsClear, trimStart, isBlank, blankRanges]
    have compiled : compile "@ids/*$9*/ LIMIT 10" = .ok ⟨"@ids/*$9*/ LIMIT 10",
        [.value "ids", .literal " LIMIT 10"], true, ["ids"], some "$1 LIMIT 10"⟩ := by
      cbv
    have done : generate ⟨"@ids/*$9*/ LIMIT 10", [.value "ids", .literal " LIMIT 10"], true,
        ["ids"], some "$1 LIMIT 10"⟩ (.map [("ids", .null)]) =
        .ok ⟨"$1 LIMIT 10", [.null]⟩ := by
      cbv
    exact ⟨_, _, plain, clear, compiled, done, rfl,
      (placeholders_read_back plain compiled done).2.1 clear⟩
  · have lexemes : (Scan.ofTemplate "@a, (,)[...@ids]/*$9*/-@b??0").lexemes =
        [.key "a", .literal ", ", .listOpen .comma, .spread, .key "ids", .listClose, .literal "-",
          .key "b", .fallback "0"] := by
      cbv
    have plain : ∀ l ∈ (Scan.ofTemplate "@a, (,)[...@ids]/*$9*/-@b??0").lexemes,
        l.Avoids '$' := by
      rw [lexemes]
      simp [Lexeme.Avoids]
    have compiled : compile "@a, (,)[...@ids]/*$9*/-@b??0" = .ok ⟨"@a, (,)[...@ids]/*$9*/-@b??0",
        [.value "a", .literal ", ", .spread "ids" .comma, .literal "-", .fallback "b" "0"], false,
        ["a", "ids", "b"], none⟩ := by
      cbv
    have done : generate ⟨"@a, (,)[...@ids]/*$9*/-@b??0",
        [.value "a", .literal ", ", .spread "ids" .comma, .literal "-", .fallback "b" "0"], false,
        ["a", "ids", "b"], none⟩
        (.map [("a", .null), ("ids", .list [.bool true, .bool false])]) =
        .ok ⟨"$1, $2, $3-0", [.null, .bool true, .bool false]⟩ := by
      cbv
    obtain ⟨-, -, read, -, bounds⟩ := placeholders_read_back plain compiled done
    have readable : Node.readableIn false
        [.value "a", .literal ", ", .spread "ids" .comma, .literal "-", .fallback "b" "0"] =
          true := by
      decide
    exact ⟨_, _, plain, compiled, done, rfl, readable, read readable, bounds⟩

/-- Placeholders are not always what a text shows: behind a comment, a digit of the template becomes
a part of the number. -/
theorem placeholders_run_together :
    ¬∀ (source : String) (q : Query) (arguments : Value) (s : Statement),
      (∀ l ∈ (Scan.ofTemplate source).lexemes, l.Avoids '$') → compile source = .ok q →
        q.generate arguments = .ok s →
        readPlaceholders s.text.toList =
          (Piece.numbers (q.pieces arguments)).map fun n => (Draft.placeholder n).toList := by
  intro readable
  have lexemes : (Scan.ofTemplate "@a/**/1").lexemes = [.key "a", .literal "1"] := by
    cbv
  have plain : ∀ l ∈ (Scan.ofTemplate "@a/**/1").lexemes, l.Avoids '$' := by
    rw [lexemes]
    simp [Lexeme.Avoids]
  have compiled : compile "@a/**/1" =
      .ok ⟨"@a/**/1", [.value "a", .literal "1"], true, ["a"], some "$11"⟩ := by
    cbv
  have done : generate ⟨"@a/**/1", [.value "a", .literal "1"], true, ["a"], some "$11"⟩
      (.map [("a", .bool true)]) = .ok ⟨"$11", [.bool true]⟩ := by
    cbv
  have read := readable _ _ _ _ plain compiled done
  revert read
  decide

end Query

end SqlTemplate
