import Mathlib.Data.List.DropRight
import SqlTemplate.Proofs.Node.Survey
import SqlTemplate.Proofs.Statement.Rendering

/-!
# The plain rendering of a tree

What a template means can be said without condensing it. The *plain rendering* goes through a tree
as it was read: a list of nodes writes the texts of its nodes, a conditional the branch that its
name's presence picks, and references take their numbers from the ledger. Only a delimited list does
more. It strips the blanks from the fixed text that an item begins and ends with, leaves out the
items that come out empty, and writes the delimiter between the others. Which text is fixed does not
depend on the arguments: a node in which some branch could write something is not fixed, even where
no arguments lead to that branch.

The main statement is that a condensed tree is rendered to the same statement, or ends with the same
mismatch (`Node.toStatement_survey`). Condensing changes the tree at every level, so it is proved
of the texts together with what is known about their edges (`Edged`): the fixed text at either end
of a list of nodes is what condensing fuses, trims and leaves out, and the rest it does not touch.
-/

namespace SqlTemplate

open SqlTemplate.Text

/-! ## Parts of a text -/

/-- What one node of a list wrote. -/
structure Part where
  /-- whether the node stands for fixed text -/
  isFixed : Bool
  /-- the text that it wrote -/
  text : String

namespace Part

/-- The text of parts. -/
def textOf (parts : List Part) : String := String.join (parts.map Part.text)

/-- The text of parts, without the blanks at the edges of the fixed text that they begin and end
with. -/
def stripped (parts : List Part) : String :=
  if parts.all Part.isFixed then trimEndString (trimStartString (textOf parts))
  else
    trimStartString (textOf (parts.takeWhile Part.isFixed)) ++
      textOf ((parts.dropWhile Part.isFixed).rdropWhile Part.isFixed) ++
      trimEndString (textOf (parts.rtakeWhile Part.isFixed))

end Part

/-! ## Rendering a tree as it was read -/

namespace Node

mutual

/-- Renders a node as it was read. -/
def plain (arguments : Value) : Node → Rendering String
  | .literal text => pure text
  | .value name => .refer arguments name
  | .fallback name word =>
    match arguments.present? name with
    | none => pure word
    | some _ => .refer arguments name
  | .conditional name success failure =>
    match arguments.present? name with
    | some _ => do return Part.textOf (← plainParts arguments success)
    | none => plainBranch arguments failure
  | .spread name delimiter => .spread arguments name delimiter
  | .list delimiter items => do return joined delimiter (← plainItems arguments items)

/-- Renders nodes as they were read, one after another. -/
def plainParts (arguments : Value) : List Node → Rendering (List Part)
  | [] => pure []
  | node :: rest => do
    let text ← plain arguments node
    return ⟨isFixed node, text⟩ :: (← plainParts arguments rest)

/-- Renders the second branch of a conditional as it was read, if there is one. -/
def plainBranch (arguments : Value) : Option (List Node) → Rendering String
  | none => pure ""
  | some branch => do return Part.textOf (← plainParts arguments branch)

/-- Renders the items of a list as they were read, one after another. -/
def plainItems (arguments : Value) : List (List Node) → Rendering (List String)
  | [] => pure []
  | item :: rest => do
    let parts ← plainParts arguments item
    return Part.stripped parts :: (← plainItems arguments rest)

end

/-- Renders a tree as it was read to a statement. -/
def plainStatement (nodes : List Node) (arguments : Value) : Except Mismatch Statement := do
  let (parts, ledger) ← (plainParts arguments nodes).run ⟨[], []⟩
  return ⟨Part.textOf parts, ledger.values⟩

end Node

/-! ## Runs at the back of a list -/

section Runs

variable {α : Type} {p : α → Bool} {l : List α}

/-- Dropping from the back stops at the last element that is kept. -/
theorem rdropWhile_append (h : ¬∀ a ∈ l, p a = true) (k : List α) :
    (k ++ l).rdropWhile p = k ++ l.rdropWhile p := by
  have left : l.reverse.dropWhile p ≠ [] := by
    rw [Ne, List.dropWhile_eq_nil_iff]
    simpa using h
  rw [List.rdropWhile, List.rdropWhile, List.reverse_append, List.dropWhile_append,
    if_neg (by simpa using left), List.reverse_append, List.reverse_reverse]

/-- Taking from the back stops at the last element that is not taken. -/
theorem rtakeWhile_append (h : ¬∀ a ∈ l, p a = true) (k : List α) :
    (k ++ l).rtakeWhile p = l.rtakeWhile p := by
  have whole := List.rdropWhile_append_rtakeWhile (p := p) (l := k ++ l)
  rw [rdropWhile_append h, List.append_assoc] at whole
  refine List.append_cancel_left ((List.append_cancel_left whole).trans ?_)
  exact List.rdropWhile_append_rtakeWhile.symm

theorem rdropWhile_cons {a : α} (ha : p a = false) (h : ∀ b ∈ l, p b = true) :
    (a :: l).rdropWhile p = [a] := by
  have whole : ∀ b ∈ l.reverse, p b = true := fun b hb => h b (List.mem_reverse.mp hb)
  simp [List.rdropWhile, List.dropWhile_append_of_pos whole, ha]

theorem rtakeWhile_cons {a : α} (ha : p a = false) (h : ∀ b ∈ l, p b = true) :
    (a :: l).rtakeWhile p = l := by
  have whole : ∀ b ∈ l.reverse, p b = true := fun b hb => h b (List.mem_reverse.mp hb)
  simp [List.rtakeWhile, List.takeWhile_append_of_pos whole, ha]

end Runs

/-! ## Texts and their edges -/

/-- A text, with what is fixed at its edges told apart. -/
inductive Edged where
  /-- a text that is fixed altogether -/
  | fixed (text : String)
  /-- a text that is not, between what is fixed in front of it and behind it -/
  | varying (front middle back : String)

namespace Edged

/-- The text. -/
def text : Edged → String
  | .fixed text => text
  | .varying front middle back => front ++ middle ++ back

/-- Puts a part in front. -/
def put (p : Part) : Edged → Edged
  | .fixed text => if p.isFixed then .fixed (p.text ++ text) else .varying "" p.text text
  | .varying front middle back =>
    if p.isFixed then .varying (p.text ++ front) middle back
    else .varying "" (p.text ++ front ++ middle) back

/-- The text of parts, one behind another. -/
def ofParts (parts : List Part) : Edged := parts.foldr put (.fixed "")

/-- Strips the blanks in front. -/
def stripFront : Edged → Edged
  | .fixed text => .fixed (trimStartString text)
  | .varying front middle back => .varying (trimStartString front) middle back

/-- Strips the blanks behind. -/
def stripBack : Edged → Edged
  | .fixed text => .fixed (trimEndString text)
  | .varying front middle back => .varying front middle (trimEndString back)

@[simp] theorem put_empty : put ⟨true, ""⟩ = id := by
  funext e
  cases e <;> simp [put]

/-- Fixed texts that are put in front of one another are as one. -/
theorem put_put (first second : String) (e : Edged) :
    put ⟨true, first⟩ (put ⟨true, second⟩ e) = put ⟨true, first ++ second⟩ e := by
  cases e <;> simp [put, String.append_assoc]

@[simp] theorem text_put (p : Part) (e : Edged) : (put p e).text = p.text ++ e.text := by
  cases e <;> cases h : p.isFixed <;> simp [put, h, text, String.append_assoc]

theorem text_ofParts (parts : List Part) : (ofParts parts).text = Part.textOf parts := by
  induction parts with
  | nil => rfl
  | cons p rest ih =>
    rw [ofParts, List.foldr_cons, ← ofParts, text_put, ih]
    simp [Part.textOf]

/-- The text at the edges of parts is the text of the longest runs of fixed parts there. -/
theorem ofParts_eq (parts : List Part) :
    ofParts parts =
      if parts.all Part.isFixed then .fixed (Part.textOf parts)
      else .varying (Part.textOf (parts.takeWhile Part.isFixed))
        (Part.textOf ((parts.dropWhile Part.isFixed).rdropWhile Part.isFixed))
        (Part.textOf (parts.rtakeWhile Part.isFixed)) := by
  induction parts with
  | nil => rfl
  | cons p rest ih =>
    rw [ofParts, List.foldr_cons, ← ofParts, ih]
    by_cases h : ∀ q ∈ rest, q.isFixed = true
    · have all : rest.all Part.isFixed = true := List.all_eq_true.mpr h
      rw [if_pos all]
      cases hp : p.isFixed with
      | true => simp [put, hp, all, Part.textOf]
      | false => simp [put, hp, rdropWhile_cons hp h, rtakeWhile_cons hp h, Part.textOf]
    · have all : rest.all Part.isFixed = false := by
        rw [← Bool.not_eq_true, List.all_eq_true]
        exact h
      rw [if_neg (by simp [all])]
      have back : (p :: rest).rtakeWhile Part.isFixed = rest.rtakeWhile Part.isFixed :=
        rtakeWhile_append h [p]
      cases hp : p.isFixed with
      | true => simp [put, hp, all, back, Part.textOf]
      | false =>
        -- what is fixed in front of the rest is behind a part that is not
        have middle : (p :: rest).rdropWhile Part.isFixed = p :: rest.rdropWhile Part.isFixed :=
          rdropWhile_append h [p]
        have front : rest.rdropWhile Part.isFixed = rest.takeWhile Part.isFixed ++
            (rest.dropWhile Part.isFixed).rdropWhile Part.isFixed := by
          rw [← rdropWhile_append, List.takeWhile_append_dropWhile]
          intro left
          refine h fun q hq => ?_
          rw [← List.takeWhile_append_dropWhile (p := Part.isFixed) (l := rest)] at hq
          rcases List.mem_append.mp hq with hq | hq
          · exact List.mem_takeWhile_imp hq
          · exact left q hq
        simp [put, hp, back, middle, front, Part.textOf, String.append_assoc]

/-- In front of a part that is not fixed there is nothing to strip. -/
theorem stripFront_put (text : String) (e : Edged) :
    stripFront (put ⟨false, text⟩ e) = put ⟨false, text⟩ e := by
  cases e <;> rfl

theorem stripFront_put_put (first second : String) (e : Edged) :
    stripFront (put ⟨true, first⟩ (put ⟨false, second⟩ e)) =
      put ⟨true, trimStartString first⟩ (put ⟨false, second⟩ e) := by
  cases e <;> simp [put, stripFront]

/-- What stands before a part that is not fixed is not stripped from the back. -/
theorem stripBack_put (text : String) (e : Edged) :
    stripBack (put ⟨false, text⟩ e) = put ⟨false, text⟩ (stripBack e) := by
  cases e <;> rfl

theorem stripBack_put_put (p : Part) (text : String) (e : Edged) :
    stripBack (put p (put ⟨false, text⟩ e)) = put p (stripBack (put ⟨false, text⟩ e)) := by
  cases e <;> cases h : p.isFixed <;> simp [put, h, stripBack]

/-- Stripping parts strips the fixed text at their edges. -/
theorem stripped_eq (parts : List Part) :
    Part.stripped parts = ((ofParts parts).stripFront.stripBack).text := by
  rw [ofParts_eq, Part.stripped]
  split
  · rfl
  · rfl

end Edged

/-! ## What a condensed tree writes -/

namespace Node

/-- What a condensed list of nodes writes, with the literal text at its edges told apart. -/
def writtenEdged (arguments : Value) : List Node → Rendering Edged
  | [] => pure (.fixed "")
  | node :: rest => do
    let text ← written arguments node
    return Edged.put ⟨isLiteral node, text⟩ (← writtenEdged arguments rest)

theorem text_writtenEdged (arguments : Value) (nodes : List Node) :
    Edged.text <$> writtenEdged arguments nodes = writtenAll arguments nodes := by
  induction nodes with
  | nil => rfl
  | cons node rest ih =>
    rw [writtenAll_cons, ← ih, writtenEdged]
    simp

/-- Fusing a node with the nodes behind it does not change what they write. -/
theorem writtenEdged_fuse (arguments : Value) (node : Node) (behind : List Node) :
    writtenEdged arguments (fuse node behind) = do
      let text ← written arguments node
      return Edged.put ⟨isLiteral node, text⟩ (← writtenEdged arguments behind) := by
  rcases fuse_cases node behind with ⟨apart, -⟩ | ⟨text, more, rest, rfl, rfl, one⟩
  · rw [apart, writtenEdged]
  · rw [one]
    simp [writtenEdged, Edged.put_put]

/-- Literal text in a list where no two neighbours are is the last node, or another node follows. -/
theorem Fused.following {text : String} {rest : List Node} (h : Fused (.literal text :: rest)) :
    rest = [] ∨ ∃ next others, rest = next :: others ∧ isLiteral next = false := by
  rcases rest with _ | ⟨next, others⟩
  · exact .inl rfl
  · refine .inr ⟨next, others, rfl, ?_⟩
    rcases (List.isChain_cons_cons.mp h).1 with hl | hl
    · cases hl
    · exact hl

/-- Trimming the front of an item strips what it writes from the front. -/
theorem writtenEdged_trimFront (arguments : Value) {item : List Node} (h : Fused item) :
    writtenEdged arguments (trimFront item) =
      Edged.stripFront <$> writtenEdged arguments item := by
  rcases item with _ | ⟨node, rest⟩
  · rfl
  · cases hn : isLiteral node with
    | false =>
      have same : trimFront (node :: rest) = node :: rest := by
        cases node with
        | literal text => cases hn
        | _ => rfl
      simp [same, writtenEdged, hn, Edged.stripFront_put]
    | true =>
      obtain ⟨text, rfl⟩ := exists_of_isLiteral hn
      have trimmed : writtenEdged arguments (trimFront (.literal text :: rest)) =
          Edged.put ⟨true, trimStartString text⟩ <$> writtenEdged arguments rest := by
        rw [trimFront]
        by_cases blank : trimStartString text = ""
        · simp [blank]
        · simp [blank, writtenEdged]
      rw [trimmed]
      -- what follows the text is not literal, so there is no more to strip
      rcases h.following with rfl | ⟨next, others, rfl, hl⟩
      · simp [writtenEdged, Edged.put, Edged.stripFront]
      · simp [writtenEdged, hl, Edged.stripFront_put_put]

/-- Trimming the back of an item strips what it writes from the back. -/
theorem writtenEdged_trimBack (arguments : Value) {item : List Node} (h : Fused item) :
    writtenEdged arguments (trimBack item) =
      Edged.stripBack <$> writtenEdged arguments item := by
  induction item with
  | nil => rfl
  | cons node rest ih =>
    have behind := ih h.tail
    cases hn : isLiteral node with
    | false =>
      rw [trimBack_cons (.inl hn), writtenEdged, behind]
      simp [writtenEdged, hn, Edged.stripBack_put]
    | true =>
      obtain ⟨text, rfl⟩ := exists_of_isLiteral hn
      rcases h.following with rfl | ⟨next, others, rfl, hl⟩
      · rw [trimBack]
        by_cases blank : trimEndString text = ""
        · simp [writtenEdged, Edged.put, Edged.stripBack, blank]
        · simp [writtenEdged, Edged.put, Edged.stripBack, blank]
      · rw [trimBack_cons (.inr (List.cons_ne_nil _ _)), writtenEdged, behind]
        simp [writtenEdged, hl, Edged.stripBack_put_put]

theorem fused_trimFront {item : List Node} (h : Fused item) : Fused (trimFront item) := by
  rcases trimFront_cases item with same | ⟨text, rest, rfl, ⟨-, none⟩ | shorter⟩
  · rwa [same]
  · rw [none]
    exact h.tail
  · rw [shorter]
    exact h.literal _

/-- A condensed item writes its text stripped of blanks. -/
theorem writtenAll_trimItem (arguments : Value) {item : List Node} (h : Fused item) :
    writtenAll arguments (trimItem item) =
      (fun e => e.stripFront.stripBack.text) <$> writtenEdged arguments item := by
  rw [trimItem, ← text_writtenEdged, writtenEdged_trimBack arguments (fused_trimFront h),
    writtenEdged_trimFront arguments h]
  simp

/-! ## Items that become one -/

/-- The texts of items, from the text of the first and the texts of the others. -/
def joinedFront (delimiter : Delimiter) (text rest : String) : String :=
  if text = "" then rest else if rest = "" then text else text ++ delimiter.text ++ rest

theorem joinedBehind_eq (delimiter : Delimiter) (texts : List String) :
    joinedBehind delimiter texts =
      if joined delimiter texts = "" then "" else delimiter.text ++ joined delimiter texts := by
  rw [joinedBehind, joined]
  rcases kept : texts.filter fun text => text ≠ "" with _ | ⟨first, rest⟩
  · simp
  · have mem : first ∈ texts.filter fun text => text ≠ "" := by
      rw [kept]
      exact List.mem_cons_self ..
    have something : first ≠ "" := by simpa using (List.mem_filter.mp mem).2
    rw [intercalate_cons, if_neg (by simp [something])]
    simp [String.append_assoc]

@[simp] theorem joinedFront_empty (delimiter : Delimiter) (text : String) :
    joinedFront delimiter text "" = text := by
  by_cases h : text = "" <;> simp [joinedFront, h]

@[simp] theorem empty_joinedFront (delimiter : Delimiter) : joinedFront delimiter "" = id := rfl

theorem joined_cons_eq (delimiter : Delimiter) (text : String) (texts : List String) :
    joined delimiter (text :: texts) = joinedFront delimiter text (joined delimiter texts) := by
  by_cases h : text = ""
  · rw [h, joined_cons_empty, empty_joinedFront]
    rfl
  · rw [joined_cons h, joinedBehind_eq, joinedFront, if_neg h]
    by_cases nothing : joined delimiter texts = ""
    · simp [nothing]
    · simp [nothing, String.append_assoc]

/-- Two texts that are not empty can be joined before the others are. -/
theorem joinedFront_joinedFront {delimiter : Delimiter} {first second : String} (h₁ : first ≠ "")
    (h₂ : second ≠ "") (rest : String) :
    joinedFront delimiter first (joinedFront delimiter second rest) =
      joinedFront delimiter (first ++ delimiter.text ++ second) rest := by
  by_cases h : rest = "" <;> simp [joinedFront, h₁, h₂, h, String.append_assoc]

/-- What the items of a list write, with the delimiter between them. -/
def writtenItems (arguments : Value) (delimiter : Delimiter) (items : List (List Node)) :
    Rendering String := joined delimiter <$> items.mapM (writtenAll arguments)

theorem writtenItems_cons (arguments : Value) (delimiter : Delimiter) (item : List Node)
    (rest : List (List Node)) :
    writtenItems arguments delimiter (item :: rest) = do
      let text ← writtenAll arguments item
      return joinedFront delimiter text (← writtenItems arguments delimiter rest) := by
  simp [writtenItems, joined_cons_eq]

@[simp] theorem writtenItems_nil (arguments : Value) (delimiter : Delimiter) :
    writtenItems arguments delimiter [] = pure "" := by
  simp [writtenItems, joined]

@[simp] theorem writtenAll_literal (arguments : Value) (text : String) :
    writtenAll arguments [.literal text] = pure text := by
  simp [writtenAll_cons]

/-- Putting an item in front of condensed items does not change what they write: two literal texts
that become one have the delimiter between them already. -/
theorem writtenItems_fuseItem (arguments : Value) {delimiter : Delimiter} {item : List Node}
    {behind : List (List Node)} (hi : item ≠ [.literal ""])
    (hb : [.literal ""] ∉ behind) :
    writtenItems arguments delimiter (fuseItem delimiter item behind) = do
      let text ← writtenAll arguments item
      return joinedFront delimiter text (← writtenItems arguments delimiter behind) := by
  rcases fuseItem_cases delimiter item behind with
    ⟨apart, -⟩ | ⟨text, more, rest, rfl, rfl, one⟩
  · rw [apart, writtenItems_cons]
  · have first : text ≠ "" := by
      rintro rfl
      exact hi rfl
    have second : more ≠ "" := by
      rintro rfl
      exact hb (List.mem_cons_self ..)
    rw [one]
    simp [writtenItems_cons, joinedFront_joinedFront first second]

/-- A list of condensed items writes the same when it is left out, or is literal text. -/
theorem writtenItems_eq (arguments : Value) (delimiter : Delimiter) (items : List (List Node)) :
    writtenItems arguments delimiter items =
      match list? delimiter items with
      | none => pure ""
      | some node => written arguments node := by
  rcases list?_cases delimiter items with ⟨rfl, left⟩ | ⟨text, rfl, literal⟩ | ⟨-, kept⟩
  · rw [left, writtenItems_nil]
  · rw [literal, writtenItems_cons]
    simp
  · rw [kept]
    exact (written_list arguments delimiter items).symm

/-! ## Condensing preserves rendering -/

/-- What a node writes once it is condensed: nothing, if it is left out. -/
def writtenCondensed (arguments : Value) (node : Node) : Rendering String :=
  match condense? node with
  | none => pure ""
  | some condensed => written arguments condensed

/-- A condensed node is put in front of what the nodes behind it write. A node that is left out
counts as fixed text there, and puts nothing in front. -/
theorem writtenEdged_condense_cons (arguments : Value) (node : Node) (rest : List Node) :
    writtenEdged arguments (condense (node :: rest)) = do
      let text ← writtenCondensed arguments node
      return Edged.put ⟨isFixed node, text⟩ (← writtenEdged arguments (condense rest)) := by
  rw [condense, writtenCondensed, ← literalAtMost_condense?]
  cases condense? node with
  | none => simp [literalAtMost]
  | some condensed => exact writtenEdged_fuse arguments condensed (condense rest)

/-- A condensed item is put in front of what the items behind it write, stripped of blanks. -/
theorem writtenItems_condenseItems_cons (arguments : Value) (delimiter : Delimiter)
    (item : List Node) (rest : List (List Node)) :
    writtenItems arguments delimiter (condenseItems delimiter (item :: rest)) = do
      let text ← writtenAll arguments (trimItem (condense item))
      return joinedFront delimiter text
        (← writtenItems arguments delimiter (condenseItems delimiter rest)) := by
  rw [condenseItems_cons]
  by_cases nothing : trimItem (condense item) = []
  · simp [nothing]
  · rw [if_neg nothing]
    refine writtenItems_fuseItem arguments ?_ ?_
    · intro empty
      cases isBlankText_of_trimItem (fused_condense item) empty
    · intro empty
      cases isBlankText_of_mem_condenseItems empty

mutual

/-- A node is rendered as it was read to what it writes once it is condensed. -/
theorem plain_eq (arguments : Value) : ∀ node : Node,
    plain arguments node = writtenCondensed arguments node
  | .literal text => (written_literal arguments text).symm
  | .value _ => rfl
  | .fallback name word => (written_fallback arguments name word).symm
  | .spread .. => rfl
  | .conditional name success failure => by
    -- whether it is left out or not, both branches are as they are once they are condensed
    have branches : plain arguments (.conditional name success failure) =
        written arguments (.conditional name (condense success) (condenseBranch? failure)) := by
      rw [written_conditional, plain]
      cases arguments.present? name with
      | some _ => exact textOf_plainParts arguments success
      | none => exact plainBranch_eq arguments failure
    rw [branches, writtenCondensed, condense?]
    -- a conditional is left out only if it writes nothing either way
    rcases conditional?_cases name (condense success) (condenseBranch? failure) with
      ⟨empty, absent, left⟩ | ⟨-, kept⟩
    · rw [left, empty, absent, written_conditional]
      cases arguments.present? name <;> rfl
    · rw [kept]
  | .list delimiter items => by
    rw [writtenCondensed, condense?, ← writtenItems_eq,
      ← joined_plainItems arguments delimiter items, plain]
    exact (map_eq_pure_bind _ _).symm

/-- Nodes are rendered as they were read to what they write once they are condensed, and the fixed
text at the edges is the same. -/
theorem ofParts_plainParts (arguments : Value) : ∀ nodes : List Node,
    Edged.ofParts <$> plainParts arguments nodes = writtenEdged arguments (condense nodes)
  | [] => rfl
  | node :: rest => by
    rw [writtenEdged_condense_cons, ← ofParts_plainParts arguments rest,
      ← plain_eq arguments node, plainParts]
    simp [Edged.ofParts]

theorem textOf_plainParts (arguments : Value) (nodes : List Node) :
    Part.textOf <$> plainParts arguments nodes = writtenAll arguments (condense nodes) := by
  rw [← text_writtenEdged, ← ofParts_plainParts arguments nodes]
  simp [Edged.text_ofParts]

theorem plainBranch_eq (arguments : Value) : ∀ branch : Option (List Node),
    plainBranch arguments branch = writtenBranch arguments (condenseBranch? branch)
  | none => rfl
  | some branch => by
    have whole : plainBranch arguments (some branch) = writtenAll arguments (condense branch) :=
      textOf_plainParts arguments branch
    rw [whole, condenseBranch?]
    cases condense branch <;> rfl

/-- The items of a list are rendered as they were read, and joined, to what they write once they
are condensed. -/
theorem joined_plainItems (arguments : Value) (delimiter : Delimiter) :
    ∀ items : List (List Node),
      joined delimiter <$> plainItems arguments items =
        writtenItems arguments delimiter (condenseItems delimiter items)
  | [] => (writtenItems_nil arguments delimiter).symm
  | item :: rest => by
    rw [writtenItems_condenseItems_cons, writtenAll_trimItem arguments (fused_condense item),
      ← ofParts_plainParts arguments item, ← joined_plainItems arguments delimiter rest, plainItems]
    simp [Edged.stripped_eq, joined_cons_eq]

end

/-- A silent node writes nothing and leaves the ledger as it is, whatever the arguments are. -/
theorem plain_of_isSilent {node : Node} (h : isSilent node = true) (arguments : Value) :
    plain arguments node = pure "" := by
  rw [← isNone_condense?, Option.isNone_iff_eq_none] at h
  rw [plain_eq, writtenCondensed, h]

/-- Condensing preserves rendering: the tree that a survey gives is rendered to the statement that
the template means as it was read, with the same text and the same values, or ends with the same
mismatch. -/
theorem toStatement_survey (nodes : List Node) (findings : Findings) (arguments : Value) :
    toStatement (survey nodes findings).1 arguments = plainStatement nodes arguments := by
  have whole : renderAll arguments (condense nodes) .empty =
      (Part.textOf <$> plainParts arguments nodes).write .empty := by
    rw [textOf_plainParts, write_writtenAll]
  rw [survey_fst, toStatement, whole, plainStatement, map_eq_pure_bind, Rendering.write_bind]
  simp only [StateT.run, Draft.ledger, Draft.empty]
  cases plainParts arguments nodes ⟨[], []⟩ with
  | error m => rfl
  | ok p =>
    simp only [Rendering.write_pure, Except.bind, Draft.write, Ledger.draft, String.empty_append]
    rfl

end Node

end SqlTemplate
