import SqlTemplate.Proofs.Node.Texts
import SqlTemplate.Proofs.Statement.Points

/-!
# What stands behind a placeholder

A placeholder is read with all digits that stand behind it, so it is read as it was written if there
are none (`Piece.Apart`). What stands behind it can be far away in the template: the text behind
comments, the first node of a branch or what follows the branch, the first item of a list that says
anything, or what follows a name that is spread out to nothing.

`Node.digitAhead` looks a tree through for that, once and for all arguments: whether what a node and
the nodes behind it write may begin with a digit. `Node.readable` says that this is so behind no
place where a name may be written. It is enough for placeholders to be apart
(`Node.apart_piecesIn`), and it is so in every tree no text of which begins with a digit
(`Node.readableIn_of_beginsClear`).
-/

namespace SqlTemplate

open SqlTemplate.Text

/-! ## Pieces that begin with a digit -/

/-- Whether a text begins with a digit. -/
def Text.leadsWithDigit (s : String) : Bool := s.toList.head?.any Char.isDigit

namespace Piece

/-- No digit stands directly behind a placeholder. -/
def Apart : List Piece → Prop
  | [] => True
  | .text _ :: rest => Apart rest
  | .placeholder _ :: rest => (∀ c ∈ (flat rest).toList.head?, c.isDigit = false) ∧ Apart rest

theorem apart_placeholder_cons {n : Nat} {rest : List Piece} :
    Apart (.placeholder n :: rest) ↔ leadsWithDigit (flat rest) = false ∧ Apart rest := by
  refine and_congr_left' ?_
  rw [leadsWithDigit]
  cases (flat rest).toList.head? with
  | none => exact iff_of_true nofun rfl
  | some c => simp

/-- Behind a text that is not empty nothing else can be first. -/
theorem leadsWithDigit_append {text : String} (h : text ≠ "") (more : String) :
    leadsWithDigit (text ++ more) = leadsWithDigit text := by
  have filled : text.toList ≠ [] := by simpa using h
  rw [leadsWithDigit, String.toList_append, List.head?_append_of_ne_nil _ filled]
  rfl

/-- What begins with a digit in front of which there is a text is the text, if it is not empty. -/
theorem leadsWithDigit_text_cons {text : String} {rest : List Piece}
    (h : leadsWithDigit (flat (.text text :: rest)) = true) :
    text ≠ "" ∧ leadsWithDigit text = true ∨ text = "" ∧ leadsWithDigit (flat rest) = true := by
  rw [← List.singleton_append, flat_append, flat_singleton, written] at h
  by_cases empty : text = ""
  · rw [empty, String.empty_append] at h
    exact .inr ⟨empty, h⟩
  · rw [leadsWithDigit_append empty] at h
    exact .inl ⟨empty, h⟩

theorem leadsWithDigit_placeholder (n : Nat) (rest : List Piece) :
    leadsWithDigit (flat (.placeholder n :: rest)) = false := by
  simp [leadsWithDigit, flat, written, Draft.placeholder]

theorem leadsWithDigit_delimiter (delimiter : Delimiter) (rest : List Piece) :
    leadsWithDigit (flat (.text delimiter.text :: rest)) = false := by
  rw [← List.singleton_append, flat_append, flat_singleton, written,
    leadsWithDigit_append delimiter.text_ne_empty]
  cases delimiter <;> rfl

/-- What begins with a digit behind parts with a delimiter between them is what is behind, or the
first part, if none of the parts is empty. -/
theorem leadsWithDigit_between {delimiter : Delimiter} {parts : List (List Piece)}
    {more : List Piece} (filled : ∀ part ∈ parts, flat part ≠ "")
    (h : leadsWithDigit (flat (between delimiter parts ++ more)) = true) :
    leadsWithDigit (flat more) = true ∨ ∃ part ∈ parts, leadsWithDigit (flat part) = true := by
  cases parts with
  | nil => exact .inl h
  | cons part rest =>
    have first : ∃ behind, between delimiter (part :: rest) = part ++ behind := by
      cases rest with
      | nil => exact ⟨[], by rw [between, List.intercalate_singleton, List.append_nil]⟩
      | cons next rest =>
        exact ⟨_, by rw [between, List.intercalate_cons_cons, List.append_assoc]⟩
    obtain ⟨behind, eq⟩ := first
    rw [eq, List.append_assoc, flat_append,
      leadsWithDigit_append (filled part (List.mem_cons_self ..))] at h
    exact .inr ⟨part, List.mem_cons_self .., h⟩

/-- Parts with a delimiter between them are apart, if each is in front of a delimiter and in front
of what is behind all of them. -/
theorem apart_between {delimiter : Delimiter} {parts : List (List Piece)} {more : List Piece}
    (each : ∀ part ∈ parts, ∀ behind, Apart behind →
      (leadsWithDigit (flat behind) = true → leadsWithDigit (flat more) = true) →
        Apart (part ++ behind))
    (h : Apart more) : Apart (between delimiter parts ++ more) := by
  induction parts with
  | nil => exact h
  | cons part rest ih =>
    obtain ⟨first, others⟩ := List.forall_mem_cons.mp each
    cases rest with
    | nil =>
      rw [between, List.intercalate_singleton]
      exact first more h id
    | cons next rest =>
      rw [between, List.intercalate_cons_cons, List.append_assoc, List.append_assoc]
      refine first _ (ih others) fun digit => ?_
      cases (leadsWithDigit_delimiter delimiter _).symm.trans digit

/-- How a name is written: as placeholders with a delimiter between them. -/
def Numbered (ps : List Piece) : Prop :=
  ∃ (delimiter : Delimiter) (numbers : List Nat),
    ps = between delimiter (numbers.map fun n => [.placeholder n])

/-- A name begins with a placeholder, or is not written at all. -/
theorem Numbered.leadsWithDigit {ps : List Piece} (h : Numbered ps) {more : List Piece}
    (digit : leadsWithDigit (flat (ps ++ more)) = true) :
    Text.leadsWithDigit (flat more) = true := by
  obtain ⟨delimiter, numbers, rfl⟩ := h
  have filled : ∀ part ∈ numbers.map fun n => [Piece.placeholder n], flat part ≠ "" := by
    intro part mem
    obtain ⟨n, -, rfl⟩ := List.mem_map.mp mem
    exact flat_ne_empty (List.mem_singleton_self _)
  refine (leadsWithDigit_between filled digit).resolve_right ?_
  rintro ⟨part, mem, first⟩
  obtain ⟨n, -, rfl⟩ := List.mem_map.mp mem
  cases (leadsWithDigit_placeholder n []).symm.trans first

/-- A name is apart in front of what does not begin with a digit. -/
theorem Numbered.apart {ps : List Piece} (h : Numbered ps) {more : List Piece}
    (clear : Text.leadsWithDigit (flat more) = false) (k : Apart more) : Apart (ps ++ more) := by
  obtain ⟨delimiter, numbers, rfl⟩ := h
  refine apart_between (fun part mem behind apart digit => ?_) k
  obtain ⟨n, -, rfl⟩ := List.mem_map.mp mem
  refine apart_placeholder_cons.mpr ⟨?_, apart⟩
  rw [← Bool.not_eq_true]
  exact fun first => Bool.false_ne_true (clear.symm.trans (digit first))

/-- The same, if a digit was not seen ahead. -/
theorem Numbered.apart_of_not {ps : List Piece} (h : Numbered ps) {ahead : Bool}
    {more : List Piece} (no : (!ahead) = true)
    (behind : Text.leadsWithDigit (flat more) = true → ahead = true) (k : Apart more) :
    Apart (ps ++ more) := by
  refine h.apart (Bool.eq_false_iff.mpr fun digit => ?_) k
  rw [behind digit] at no
  cases no

end Piece

/-- A name is written as placeholders with a delimiter between them, or not at all. -/
theorem numbered_writtenAs (arguments : Value) (met : List Mention) (name : String) :
    Piece.Numbered (writtenAs arguments met name) := by
  rw [writtenAs]
  cases found : (bindings arguments met).find? fun b => b.name = name with
  | none => exact ⟨.and, [], rfl⟩
  | some b =>
    have values := Binding.values_of_mem_numbered (List.mem_of_find?_eq_some found)
    obtain ⟨mention, first, bound⟩ := b
    cases mention with
    | whole name =>
      -- a whole value has one placeholder
      obtain rfl : bound = [arguments.boundTo name] := values
      exact ⟨.and, [first], rfl⟩
    | spread name delimiter => exact ⟨delimiter, _, rfl⟩

namespace Node

/-! ## Looking ahead -/

mutual

/-- Whether what a node and the nodes behind it write may begin with a digit, where `ahead` says so
of the nodes behind it. A name may be written as nothing, and so may all items of a list. -/
def digitAhead (ahead : Bool) : Node → Bool
  | .literal text => if text = "" then ahead else leadsWithDigit text
  | .value _ => ahead
  | .fallback _ word => leadsWithDigit word || ahead
  | .conditional _ success failure => digitAheadIn ahead success || digitAheadBranch ahead failure
  | .spread .. => ahead
  | .list _ items => digitAheadItems items || ahead

/-- Whether what nodes and the nodes behind them write may begin with a digit. -/
def digitAheadIn (ahead : Bool) : List Node → Bool
  | [] => ahead
  | node :: rest => digitAhead (digitAheadIn ahead rest) node

/-- Whether this is so of the second branch of a conditional. -/
def digitAheadBranch (ahead : Bool) : Option (List Node) → Bool
  | none => ahead
  | some branch => digitAheadIn ahead branch

/-- Whether what one of the items of a list writes may begin with a digit. -/
def digitAheadItems : List (List Node) → Bool
  | [] => false
  | item :: rest => digitAheadIn false item || digitAheadItems rest

end

mutual

/-- Whether no digit can stand behind a placeholder that a node writes, where `ahead` says that the
nodes behind it may begin with one. -/
def readable (ahead : Bool) : Node → Bool
  | .literal _ => true
  | .value _ => !ahead
  | .fallback .. => !ahead
  | .conditional _ success failure => readableIn ahead success && readableBranch ahead failure
  | .spread .. => !ahead
  | .list _ items => readableItems ahead items

/-- Whether no digit can stand behind a placeholder that nodes write. -/
def readableIn (ahead : Bool) : List Node → Bool
  | [] => true
  | node :: rest => readable (digitAheadIn ahead rest) node && readableIn ahead rest

/-- Whether this is so of the second branch of a conditional. -/
def readableBranch (ahead : Bool) : Option (List Node) → Bool
  | none => true
  | some branch => readableIn ahead branch

/-- Whether no digit can stand behind a placeholder that the items of a list write. What comes
behind an item is a delimiter, or what comes behind the list. -/
def readableItems (ahead : Bool) : List (List Node) → Bool
  | [] => true
  | item :: rest => readableIn ahead item && readableItems ahead rest

end

section Ahead

variable {arguments : Value} {w : String → List Piece}

mutual

/-- If what a node and the pieces behind it write begins with a digit, then that was seen ahead. -/
theorem digitAhead_of_leadsWithDigit (hw : ∀ name, Piece.Numbered (w name)) :
    ∀ {node : Node} {ahead : Bool} {more : List Piece},
      (leadsWithDigit (Piece.flat more) = true → ahead = true) →
      leadsWithDigit (Piece.flat (pieces arguments w node ++ more)) = true →
      digitAhead ahead node = true
  | .literal text, ahead, more, behind, digit => by
    rw [pieces, List.singleton_append] at digit
    rw [digitAhead]
    split
    · rename_i empty
      exact behind ((Piece.leadsWithDigit_text_cons digit).resolve_left (·.1 empty)).2
    · rename_i filled
      exact ((Piece.leadsWithDigit_text_cons digit).resolve_right (filled ·.1)).2
  | .value name, _, _, behind, digit => behind ((hw name).leadsWithDigit digit)
  | .fallback name word, ahead, more, behind, digit => by
    rw [pieces] at digit
    rw [digitAhead, Bool.or_eq_true]
    cases present : arguments.present? name with
    | none =>
      rw [present] at digit
      exact (Piece.leadsWithDigit_text_cons digit).imp And.right fun other => behind other.2
    | some _ =>
      rw [present] at digit
      exact .inr (behind ((hw name).leadsWithDigit digit))
  | .conditional name success failure, ahead, more, behind, digit => by
    rw [pieces] at digit
    rw [digitAhead, Bool.or_eq_true]
    cases present : arguments.present? name with
    | none =>
      rw [present] at digit
      exact .inr (digitAheadBranch_of_leadsWithDigit hw behind digit)
    | some _ =>
      rw [present] at digit
      exact .inl (digitAheadIn_of_leadsWithDigit hw behind digit)
  | .spread name _, _, _, behind, digit => behind ((hw name).leadsWithDigit digit)
  | .list delimiter items, ahead, more, behind, digit => by
    rw [pieces] at digit
    rw [digitAhead, Bool.or_eq_true]
    have filled : ∀ part ∈ (piecesInItems arguments w items).filter
        fun ps => Piece.flat ps ≠ "", Piece.flat part ≠ "" := fun part mem => by
      simpa using (List.mem_filter.mp mem).2
    rcases Piece.leadsWithDigit_between filled digit with other | ⟨part, mem, first⟩
    · exact .inr (behind other)
    · exact .inl (digitAheadItems_of_leadsWithDigit hw (List.mem_of_mem_filter mem) first)

theorem digitAheadIn_of_leadsWithDigit (hw : ∀ name, Piece.Numbered (w name)) :
    ∀ {nodes : List Node} {ahead : Bool} {more : List Piece},
      (leadsWithDigit (Piece.flat more) = true → ahead = true) →
      leadsWithDigit (Piece.flat (piecesIn arguments w nodes ++ more)) = true →
      digitAheadIn ahead nodes = true
  | [], _, _, behind, digit => behind digit
  | node :: rest, ahead, more, behind, digit => by
    rw [piecesIn, List.append_assoc] at digit
    exact digitAhead_of_leadsWithDigit hw (digitAheadIn_of_leadsWithDigit hw behind) digit

theorem digitAheadBranch_of_leadsWithDigit (hw : ∀ name, Piece.Numbered (w name)) :
    ∀ {failure : Option (List Node)} {ahead : Bool} {more : List Piece},
      (leadsWithDigit (Piece.flat more) = true → ahead = true) →
      leadsWithDigit (Piece.flat (piecesInBranch arguments w failure ++ more)) = true →
      digitAheadBranch ahead failure = true
  | none, _, _, behind, digit => behind digit
  | some _, _, _, behind, digit => digitAheadIn_of_leadsWithDigit hw behind digit

theorem digitAheadItems_of_leadsWithDigit (hw : ∀ name, Piece.Numbered (w name)) :
    ∀ {items : List (List Node)} {part : List Piece},
      part ∈ piecesInItems arguments w items → leadsWithDigit (Piece.flat part) = true →
      digitAheadItems items = true
  | [], _, mem, _ => nomatch mem
  | item :: rest, part, mem, digit => by
    rw [digitAheadItems, Bool.or_eq_true]
    rcases List.mem_cons.mp mem with rfl | later
    · rw [← List.append_nil (piecesIn arguments w item)] at digit
      refine .inl (digitAheadIn_of_leadsWithDigit hw (fun none => ?_) digit)
      cases none
    · exact .inr (digitAheadItems_of_leadsWithDigit hw later digit)

end

mutual

/-- A node behind which no digit can stand is apart from the pieces behind it. -/
theorem apart_pieces (hw : ∀ name, Piece.Numbered (w name)) :
    ∀ {node : Node} {ahead : Bool} {more : List Piece}, readable ahead node = true →
      (leadsWithDigit (Piece.flat more) = true → ahead = true) →
      Piece.Apart more → Piece.Apart (pieces arguments w node ++ more)
  | .literal text, _, _, _, _, k => k
  | .value name, _, _, h, behind, k => (hw name).apart_of_not h behind k
  | .fallback name word, ahead, more, h, behind, k => by
    rw [pieces]
    cases arguments.present? name with
    | none => exact k
    | some _ => exact (hw name).apart_of_not h behind k
  | .conditional name success failure, ahead, more, h, behind, k => by
    obtain ⟨first, second⟩ := Bool.and_eq_true_iff.mp h
    rw [pieces]
    cases arguments.present? name with
    | none => exact apart_piecesInBranch hw second behind k
    | some _ => exact apart_piecesIn hw first behind k
  | .spread name _, _, _, h, behind, k => (hw name).apart_of_not h behind k
  | .list delimiter items, ahead, more, h, behind, k => by
    refine Piece.apart_between (fun part mem next apart digit => ?_) k
    exact apart_piecesInItems hw h (List.mem_of_mem_filter mem) (behind ∘ digit) apart

/-- Nodes behind which no digit can stand are apart from the pieces behind them. -/
theorem apart_piecesIn (hw : ∀ name, Piece.Numbered (w name)) :
    ∀ {nodes : List Node} {ahead : Bool} {more : List Piece}, readableIn ahead nodes = true →
      (leadsWithDigit (Piece.flat more) = true → ahead = true) →
      Piece.Apart more → Piece.Apart (piecesIn arguments w nodes ++ more)
  | [], _, _, _, _, k => k
  | node :: rest, ahead, more, h, behind, k => by
    obtain ⟨first, others⟩ := Bool.and_eq_true_iff.mp h
    rw [piecesIn, List.append_assoc]
    exact apart_pieces hw first (digitAheadIn_of_leadsWithDigit hw behind)
      (apart_piecesIn hw others behind k)

theorem apart_piecesInBranch (hw : ∀ name, Piece.Numbered (w name)) :
    ∀ {failure : Option (List Node)} {ahead : Bool} {more : List Piece},
      readableBranch ahead failure = true →
      (leadsWithDigit (Piece.flat more) = true → ahead = true) →
      Piece.Apart more → Piece.Apart (piecesInBranch arguments w failure ++ more)
  | none, _, _, _, _, k => k
  | some _, _, _, h, behind, k => apart_piecesIn hw h behind k

theorem apart_piecesInItems (hw : ∀ name, Piece.Numbered (w name)) :
    ∀ {items : List (List Node)} {ahead : Bool} {part more : List Piece},
      readableItems ahead items = true → part ∈ piecesInItems arguments w items →
      (leadsWithDigit (Piece.flat more) = true → ahead = true) →
      Piece.Apart more → Piece.Apart (part ++ more)
  | [], _, _, _, _, mem, _, _ => nomatch mem
  | item :: rest, ahead, part, more, h, mem, behind, k => by
    obtain ⟨first, others⟩ := Bool.and_eq_true_iff.mp h
    rcases List.mem_cons.mp mem with rfl | later
    · exact apart_piecesIn hw first behind k
    · exact apart_piecesInItems hw others later behind k

end

end Ahead

/-! ## Trees without digits in front -/

section Clear

open Lexeme (BeginsClear lasting_beginsClear)

/-- A text behind whose blanks no digit stands does not begin with one. -/
theorem leadsWithDigit_eq_false {text : String} (h : BeginsClear (.literal text)) :
    leadsWithDigit text = false := by
  rw [leadsWithDigit]
  cases chars : text.toList with
  | nil => rfl
  | cons c rest =>
    rw [BeginsClear, chars] at h
    cases blank : isBlank c with
    | true => exact isDigit_of_isBlank blank
    | false =>
      refine h c ?_
      rw [trimStart_cons_of_not_isBlank blank]
      rfl

theorem leadsWithDigit_eq_false_of_fallback {word : String} (h : BeginsClear (.fallback word)) :
    leadsWithDigit word = false := by
  rw [leadsWithDigit, ← Bool.not_eq_true, Option.any_eq_true]
  rintro ⟨c, first, digit⟩
  rw [h c first] at digit
  cases digit

mutual

/-- If no text of a node begins with a digit, none is seen ahead that is not behind it. -/
theorem digitAhead_eq_false : ∀ {node : Node}, Holds BeginsClear node →
    digitAhead false node = false
  | .literal text, h => by
    rw [digitAhead]
    split
    · rfl
    · exact leadsWithDigit_eq_false (holds_literal.mp h)
  | .value _, _ => rfl
  | .fallback _ word, h => by
    rw [digitAhead, leadsWithDigit_eq_false_of_fallback h.fallback]
    rfl
  | .conditional _ success failure, h => by
    obtain ⟨first, second⟩ := (holds_conditional lasting_beginsClear).mp h
    rw [digitAhead, digitAheadIn_eq_false first, digitAheadBranch_eq_false second]
    rfl
  | .spread .., _ => rfl
  | .list _ items, h => by
    rw [digitAhead, digitAheadItems_eq_false ((holds_list lasting_beginsClear).mp h)]
    rfl

theorem digitAheadIn_eq_false : ∀ {nodes : List Node}, HoldsIn BeginsClear nodes →
    digitAheadIn false nodes = false
  | [], _ => rfl
  | node :: rest, h => by
    obtain ⟨first, others⟩ := holdsIn_cons.mp h
    rw [digitAheadIn, digitAheadIn_eq_false others, digitAhead_eq_false first]

theorem digitAheadBranch_eq_false : ∀ {failure : Option (List Node)},
    (∀ branch ∈ failure, HoldsIn BeginsClear branch) → digitAheadBranch false failure = false
  | none, _ => rfl
  | some branch, h => digitAheadIn_eq_false (h branch rfl)

theorem digitAheadItems_eq_false : ∀ {items : List (List Node)},
    HoldsInItems BeginsClear items → digitAheadItems items = false
  | [], _ => rfl
  | item :: rest, h => by
    obtain ⟨first, others⟩ := holdsInItems_cons.mp h
    rw [digitAheadItems, digitAheadIn_eq_false first, digitAheadItems_eq_false others]
    rfl

end

mutual

theorem readable_of_beginsClear : ∀ {node : Node}, Holds BeginsClear node →
    readable false node = true
  | .literal _, _ => rfl
  | .value _, _ => rfl
  | .fallback .., _ => rfl
  | .conditional _ success failure, h => by
    obtain ⟨first, second⟩ := (holds_conditional lasting_beginsClear).mp h
    rw [readable, readableIn_of_beginsClear first, readableBranch_of_beginsClear second]
    rfl
  | .spread .., _ => rfl
  | .list _ _, h => readableItems_of_beginsClear ((holds_list lasting_beginsClear).mp h)

/-- If no text of a tree begins with a digit, then none can stand behind a placeholder. -/
theorem readableIn_of_beginsClear : ∀ {nodes : List Node}, HoldsIn BeginsClear nodes →
    readableIn false nodes = true
  | [], _ => rfl
  | node :: rest, h => by
    obtain ⟨first, others⟩ := holdsIn_cons.mp h
    rw [readableIn, digitAheadIn_eq_false others, readable_of_beginsClear first,
      readableIn_of_beginsClear others]
    rfl

theorem readableBranch_of_beginsClear : ∀ {failure : Option (List Node)},
    (∀ branch ∈ failure, HoldsIn BeginsClear branch) → readableBranch false failure = true
  | none, _ => rfl
  | some branch, h => readableIn_of_beginsClear (h branch rfl)

theorem readableItems_of_beginsClear : ∀ {items : List (List Node)},
    HoldsInItems BeginsClear items → readableItems false items = true
  | [], _ => rfl
  | item :: rest, h => by
    obtain ⟨first, others⟩ := holdsInItems_cons.mp h
    rw [readableItems, readableIn_of_beginsClear first, readableItems_of_beginsClear others]
    rfl

end

end Clear

end Node

end SqlTemplate
