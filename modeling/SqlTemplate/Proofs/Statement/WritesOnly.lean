import SqlTemplate.Proofs.Statement.Points

/-!
# Nodes that write only some texts

Whether a node comes out empty, or blank, can be told from the tree. A name *vanishes* if it is
written as nothing, which happens to a name that is spread where it is met first and has an empty
list. The branch of a conditional that counts is that of the arguments, and of the items of a list
all have to come out empty but one, since a delimiter is neither empty nor blank.

`Node.WritesOnly` says this for any property of texts that placeholders and delimiters do not have
(`Separate`): exactly if it holds, what the node writes has the property (`Node.writesOnly_iff`).
-/

namespace SqlTemplate

open Piece (flat)

/-- A property of texts that a text has if its parts have it, and that neither placeholders nor
delimiters have. -/
structure Separate (allowed : String → Prop) : Prop where
  empty : allowed ""
  append : ∀ {text more : String}, allowed (text ++ more) ↔ allowed text ∧ allowed more
  placeholder : ∀ n, ¬allowed (Draft.placeholder n)
  delimiter : ∀ delimiter : Delimiter, ¬allowed delimiter.text

/-- To be empty is such a property. -/
theorem separate_empty : Separate (· = "") where
  empty := rfl
  append := by
    simp only [← String.toList_inj, String.toList_append, String.toList_empty,
      List.append_eq_nil_iff, implies_true]
  placeholder n := by simp [← String.toList_inj, Draft.placeholder]
  delimiter := Delimiter.text_ne_empty

/-! ## Names that vanish -/

/-- Whether a name is written as nothing after mentions: the first mention of it has no values. -/
def Vanishes (arguments : Value) (met : List Mention) (name : String) : Prop :=
  ∀ m ∈ Mention.firsts met, m.name = name → m.values arguments = []

section Vanishes

variable {arguments : Value} {met : List Mention} {allowed : String → Prop}

/-- A binding without values is written as nothing, and any other one with a placeholder. -/
theorem Binding.allowed_text_iff (separate : Separate allowed) (b : Binding) :
    allowed b.text ↔ b.values = [] := by
  constructor
  · intro holds
    by_contra filled
    have first : b.first ∈ b.numbers := by
      rw [numbers, List.mem_range'_1]
      have := List.length_pos_iff.mpr filled
      omega
    obtain ⟨front, back, whole⟩ := List.append_of_mem (mem_pieces first)
    rw [text, whole, Piece.flat_append, ← List.singleton_append, Piece.flat_append,
      Piece.flat_singleton] at holds
    exact separate.placeholder _ (separate.append.mp (separate.append.mp holds).2).1
  · intro none
    obtain ⟨mention, first, values⟩ := b
    obtain rfl : values = [] := none
    cases mention <;> exact separate.empty

/-- A name is written as an allowed text exactly if it vanishes. -/
theorem allowed_writtenAs_iff (separate : Separate allowed) (name : String) :
    allowed (flat (writtenAs arguments met name)) ↔ Vanishes arguments met name := by
  have mentions : (bindings arguments met).map Binding.mention = Mention.firsts met :=
    Binding.mentions_numbered arguments 1 _
  rw [writtenAs]
  cases found : (bindings arguments met).find? fun b => b.name = name with
  | none =>
    refine iff_of_true separate.empty fun m mem same => ?_
    rw [← mentions] at mem
    obtain ⟨b, here, rfl⟩ := List.mem_map.mp mem
    exact absurd (decide_eq_true same) (List.find?_eq_none.mp found b here)
  | some b =>
    have here := List.mem_of_find?_eq_some found
    have same : b.name = name := by simpa using List.find?_some found
    refine (b.allowed_text_iff separate).trans ?_
    rw [Binding.values_of_mem_numbered here]
    refine ⟨fun none m mem other => ?_, fun vanishes => ?_⟩
    · -- a name has one first mention
      have first : b.mention ∈ Mention.firsts met := mentions ▸ List.mem_map_of_mem here
      rwa [List.inj_on_of_nodup_map (Mention.nodup_names_firsts met) mem first
        (other.trans same.symm)]
    · exact vanishes _ (mentions ▸ List.mem_map_of_mem here) same

end Vanishes

namespace Node

/-! ## Nodes -/

mutual

/-- Whether a node writes nothing but allowed text, where `vanishes` tells the names that are
written as nothing. -/
def WritesOnly (arguments : Value) (vanishes allowed : String → Prop) : Node → Prop
  | .literal text => allowed text
  | .value name => vanishes name
  | .fallback name word =>
    match arguments.present? name with
    | none => allowed word
    | some _ => vanishes name
  | .conditional name success failure =>
    match arguments.present? name with
    | some _ => WritesOnlyIn arguments vanishes allowed success
    | none => WritesOnlyBranch arguments vanishes allowed failure
  | .spread name _ => vanishes name
  | .list _ items => WritesOnlyItems arguments vanishes allowed items

/-- Whether nodes write nothing but allowed text. -/
def WritesOnlyIn (arguments : Value) (vanishes allowed : String → Prop) : List Node → Prop
  | [] => True
  | node :: rest =>
    WritesOnly arguments vanishes allowed node ∧ WritesOnlyIn arguments vanishes allowed rest

/-- Whether the second branch of a conditional writes nothing but allowed text. -/
def WritesOnlyBranch (arguments : Value) (vanishes allowed : String → Prop) :
    Option (List Node) → Prop
  | none => True
  | some branch => WritesOnlyIn arguments vanishes allowed branch

/-- Whether the items of a list write nothing but allowed text: one of them at most writes
anything. -/
def WritesOnlyItems (arguments : Value) (vanishes allowed : String → Prop) :
    List (List Node) → Prop
  | [] => True
  | item :: rest =>
    WritesOnlyIn arguments vanishes (· = "") item ∧
        WritesOnlyItems arguments vanishes allowed rest ∨
      WritesOnlyIn arguments vanishes allowed item ∧
        WritesOnlyItems arguments vanishes (· = "") rest

end

/-- Nodes that write only allowed text are each a node that does. -/
theorem writesOnly_of_mem {arguments : Value} {vanishes allowed : String → Prop} {node : Node}
    {nodes : List Node} (h : WritesOnlyIn arguments vanishes allowed nodes) (mem : node ∈ nodes) :
    WritesOnly arguments vanishes allowed node := by
  induction nodes with
  | nil => cases mem
  | cons first rest ih =>
    rcases List.mem_cons.mp mem with rfl | behind
    · exact h.1
    · exact ih h.2 behind

/-- The text of items that are joined is allowed if that of one is and the others are empty. -/
theorem allowed_joined_cons_iff {allowed : String → Prop} (separate : Separate allowed)
    (delimiter : Delimiter) (text : String) (rest : List String) :
    allowed (joined delimiter (text :: rest)) ↔
      text = "" ∧ allowed (joined delimiter rest) ∨ allowed text ∧ joined delimiter rest = "" := by
  by_cases empty : text = ""
  · subst empty
    rw [joined_cons_empty]
    refine ⟨fun h => .inl ⟨rfl, h⟩, ?_⟩
    rintro (⟨-, h⟩ | ⟨-, none⟩)
    · exact h
    · exact none ▸ separate.empty
  · rw [joined_cons empty, joinedBehind, joined]
    cases others : rest.filter fun text => text ≠ "" with
    | nil => simp [empty]
    | cons next more =>
      -- a delimiter is written, so neither side holds
      have kept : next ∈ rest.filter fun text => text ≠ "" := others ▸ List.mem_cons_self ..
      have filled : next ≠ "" := by
        simpa using (List.mem_filter.mp kept).2
      refine iff_of_false (fun holds => ?_) ?_
      · rw [List.map_cons, String.join_cons] at holds
        exact separate.delimiter delimiter
          (separate.append.mp (separate.append.mp (separate.append.mp holds).2).1).1
      · rintro (⟨none, -⟩ | ⟨-, none⟩)
        · exact empty none
        · rw [intercalate_cons] at none
          exact filled (separate_empty.append.mp none).1

/-! ## What nodes write -/

section WritesOnly

variable {arguments : Value} {w : String → List Piece} {vanishes : String → Prop}

mutual

/-- What a node writes is allowed exactly if the tree says so. -/
theorem writesOnly_iff
    (hw : ∀ allowed, Separate allowed → ∀ name, allowed (flat (w name)) ↔ vanishes name) :
    ∀ {allowed : String → Prop}, Separate allowed → ∀ node : Node,
      allowed (flat (pieces arguments w node)) ↔ WritesOnly arguments vanishes allowed node
  | allowed, _, .literal text => by
    rw [pieces, Piece.flat_singleton]
    rfl
  | allowed, separate, .value name => hw allowed separate name
  | allowed, separate, .fallback name word => by
    rw [pieces, WritesOnly]
    cases arguments.present? name with
    | none =>
      rw [Piece.flat_singleton]
      rfl
    | some _ => exact hw allowed separate name
  | allowed, separate, .conditional name success failure => by
    rw [pieces, WritesOnly]
    cases arguments.present? name with
    | none => exact writesOnlyBranch_iff hw separate failure
    | some _ => exact writesOnlyIn_iff hw separate success
  | allowed, separate, .spread name _ => hw allowed separate name
  | allowed, separate, .list delimiter items => by
    have joined := writesOnlyItems_iff hw separate delimiter items
    rw [pieces, Piece.flat_between, WritesOnly, ← joined, Node.joined, List.filter_map]
    rfl

theorem writesOnlyIn_iff
    (hw : ∀ allowed, Separate allowed → ∀ name, allowed (flat (w name)) ↔ vanishes name) :
    ∀ {allowed : String → Prop}, Separate allowed → ∀ nodes : List Node,
      allowed (flat (piecesIn arguments w nodes)) ↔ WritesOnlyIn arguments vanishes allowed nodes
  | allowed, separate, [] => iff_of_true separate.empty trivial
  | allowed, separate, node :: rest => by
    rw [piecesIn, Piece.flat_append, separate.append, WritesOnlyIn,
      writesOnly_iff hw separate node, writesOnlyIn_iff hw separate rest]

theorem writesOnlyBranch_iff
    (hw : ∀ allowed, Separate allowed → ∀ name, allowed (flat (w name)) ↔ vanishes name) :
    ∀ {allowed : String → Prop}, Separate allowed → ∀ branch : Option (List Node),
      allowed (flat (piecesInBranch arguments w branch)) ↔
        WritesOnlyBranch arguments vanishes allowed branch
  | _, separate, none => iff_of_true separate.empty trivial
  | _, separate, some branch => writesOnlyIn_iff hw separate branch

theorem writesOnlyItems_iff
    (hw : ∀ allowed, Separate allowed → ∀ name, allowed (flat (w name)) ↔ vanishes name) :
    ∀ {allowed : String → Prop}, Separate allowed → ∀ (delimiter : Delimiter)
      (items : List (List Node)),
      allowed (joined delimiter ((piecesInItems arguments w items).map flat)) ↔
        WritesOnlyItems arguments vanishes allowed items
  | allowed, separate, _, [] => iff_of_true separate.empty trivial
  | allowed, separate, delimiter, item :: rest => by
    rw [piecesInItems, List.map_cons, allowed_joined_cons_iff separate, WritesOnlyItems,
      writesOnlyIn_iff hw separate item, writesOnlyIn_iff hw separate_empty item,
      writesOnlyItems_iff hw separate delimiter rest,
      writesOnlyItems_iff hw separate_empty delimiter rest]

end

end WritesOnly

end Node

end SqlTemplate
