import SqlTemplate.Proofs.Node.Normal
import SqlTemplate.Proofs.Statement.WritesOnly

/-!
# Lists and blanks

A list joins the texts of its items, without those that are empty. Blanks at the ends of an item are
trimmed from literal text when the template is condensed, and whether an item says anything is
decided by its length when it is rendered. Between the two a blank item can slip through: literal
text with a conditional on either side of it is left, blanks and all, where neither of them writes
anything (`Query.list_joins_blanks`).

This is the only way. An item that comes out blank has nodes of which the tree tells that they write
nothing but blank text, and it neither begins nor ends with literal text (`Query.joined_items`).
-/

namespace SqlTemplate

open SqlTemplate.Text

/-! ## Lists that a render comes to -/

/-- A delimiter and the items that it joins. -/
structure Joined where
  delimiter : Delimiter
  items : List (List Node)

namespace Node

mutual

/-- The lists that a render of a node comes to. All items of a list are rendered. -/
def reached (arguments : Value) : Node → List Joined
  | .literal _ => []
  | .value _ => []
  | .fallback .. => []
  | .spread .. => []
  | .conditional name success failure =>
    match arguments.present? name with
    | some _ => reachedIn arguments success
    | none => reachedInBranch arguments failure
  | .list delimiter items => ⟨delimiter, items⟩ :: reachedInItems arguments items

/-- The lists that a render of nodes comes to. -/
def reachedIn (arguments : Value) : List Node → List Joined
  | [] => []
  | node :: rest => reached arguments node ++ reachedIn arguments rest

/-- The lists that a render of the second branch of a conditional comes to. -/
def reachedInBranch (arguments : Value) : Option (List Node) → List Joined
  | none => []
  | some branch => reachedIn arguments branch

/-- The lists that a render of the items of a list comes to. -/
def reachedInItems (arguments : Value) : List (List Node) → List Joined
  | [] => []
  | item :: rest => reachedIn arguments item ++ reachedInItems arguments rest

end

section Reached

variable {arguments : Value}

mutual

/-- A render of a normal tree comes to normal lists only. -/
theorem normalItems_of_mem_reached : ∀ node : Node, Normal node →
    ∀ joined ∈ reached arguments node, NormalItems joined.items
  | .literal _, _, _, mem => nomatch mem
  | .value _, _, _, mem => nomatch mem
  | .fallback .., _, _, mem => nomatch mem
  | .spread .., _, _, mem => nomatch mem
  | .conditional name success failure, ⟨_, first, second⟩, joined, mem => by
    rw [reached] at mem
    cases present : arguments.present? name with
    | some _ =>
      rw [present] at mem
      exact normalItems_of_mem_reachedIn success first joined mem
    | none =>
      rw [present] at mem
      exact normalItems_of_mem_reachedInBranch failure second joined mem
  | .list delimiter items, ⟨_, _, normal⟩, joined, mem => by
    rcases List.mem_cons.mp mem with rfl | inside
    · exact normal
    · exact normalItems_of_mem_reachedInItems items normal joined inside

theorem normalItems_of_mem_reachedIn : ∀ nodes : List Node, NormalIn nodes →
    ∀ joined ∈ reachedIn arguments nodes, NormalItems joined.items
  | [], _, _, mem => nomatch mem
  | node :: rest, ⟨_, first, others⟩, joined, mem => by
    rcases List.mem_append.mp mem with here | behind
    · exact normalItems_of_mem_reached node first joined here
    · exact normalItems_of_mem_reachedIn rest others joined behind

theorem normalItems_of_mem_reachedInBranch : ∀ branch : Option (List Node), NormalBranch branch →
    ∀ joined ∈ reachedInBranch arguments branch, NormalItems joined.items
  | none, _, _, mem => nomatch mem
  | some branch, ⟨_, normal⟩, joined, mem => normalItems_of_mem_reachedIn branch normal joined mem

theorem normalItems_of_mem_reachedInItems : ∀ items : List (List Node), NormalItems items →
    ∀ joined ∈ reachedInItems arguments items, NormalItems joined.items
  | [], _, _, mem => nomatch mem
  | item :: rest, ⟨_, _, _, normal, others⟩, joined, mem => by
    rcases List.mem_append.mp mem with here | behind
    · exact normalItems_of_mem_reachedIn item normal joined here
    · exact normalItems_of_mem_reachedInItems rest others joined behind

end

end Reached

end Node

/-! ## Blank texts -/

/-- To be blank is to be put together from blank texts, which neither placeholders nor delimiters
are. -/
theorem separate_blank : Separate fun text => isBlankText text = true where
  empty := rfl
  append := by
    intro text more
    rw [isBlankText_append, Bool.and_eq_true]
  placeholder n := by
    simp [Draft.placeholder, isBlankText, isBlank, blankRanges]
  delimiter delimiter := by
    cases delimiter <;> simp [Delimiter.text, isBlankText, isBlank, blankRanges]

/-- The pieces of items are those of each of them. -/
theorem Node.piecesInItems_eq_map (arguments : Value) (w : String → List Piece)
    (items : List (List Node)) :
    piecesInItems arguments w items = items.map (piecesIn arguments w) := by
  induction items with
  | nil => rfl
  | cons item rest ih => rw [piecesInItems, ih, List.map_cons]

namespace Query

/-! ## What items come out as -/

/-- The pieces that nodes of a query are written with when the query is rendered. -/
def piecesOf (q : Query) (arguments : Value) (nodes : List Node) : List Piece :=
  Node.piecesIn arguments (writtenAs arguments (Node.mentionsIn arguments q.nodes)) nodes

/-- The text that nodes of a query are written as when the query is rendered. -/
def textOf (q : Query) (arguments : Value) (nodes : List Node) : String :=
  Piece.flat (q.piecesOf arguments nodes)

/-- An item that writes nothing but blank text of the template. Literal text of its own stands
between other nodes. -/
structure Hollow (q : Query) (arguments : Value) (item : List Node) : Prop where
  /-- literal text is blank, names vanish, and so on in the branches and lists that are come to -/
  nodes : Node.WritesOnlyIn arguments (Vanishes arguments (Node.mentionsIn arguments q.nodes))
    (fun text => isBlankText text = true) item
  /-- the first node is none that is trimmed -/
  front : ∀ text, item.head? ≠ some (.literal text)
  /-- and neither is the last one -/
  back : ∀ text, item.getLast? ≠ some (.literal text)

/-- A normal item that begins or ends with literal text is not blank. -/
theorem isBlankText_of_trimmed {text : String} (filled : text ≠ "")
    (h : (∀ c ∈ text.toList.head?, isBlank c = false) ∨
      ∀ c ∈ text.toList.getLast?, isBlank c = false) : isBlankText text = false := by
  rw [← Bool.not_eq_true, isBlankText, List.all_eq_true]
  intro blank
  have some : text.toList ≠ [] := by simpa using filled
  rcases h with first | last
  · have := first _ (List.head?_eq_some_head some)
    rw [blank _ (List.head_mem some)] at this
    cases this
  · have := last _ (List.getLast?_eq_some_getLast some)
    rw [blank _ (List.getLast_mem some)] at this
    cases this

/-- An item of a normal list comes out blank exactly if it is hollow. -/
theorem isBlankText_iff_hollow {q : Query} {arguments : Value} {item : List Node}
    (normal : Node.NormalIn item) (trimmed : Node.Trimmed item) :
    isBlankText (q.textOf arguments item) = true ↔ q.Hollow arguments item := by
  have only : isBlankText (q.textOf arguments item) = true ↔ Node.WritesOnlyIn arguments
      (Vanishes arguments (Node.mentionsIn arguments q.nodes)) (fun text => isBlankText text = true)
      item :=
    Node.writesOnlyIn_iff (fun _ => allowed_writtenAs_iff) separate_blank item
  rw [only]
  refine ⟨fun blank => ?_, Hollow.nodes⟩
  -- literal text at an end is written, and is not blank since it was trimmed
  have literal : ∀ text, .literal text ∈ item → text ≠ "" ∧ isBlankText text = true :=
    fun text mem => ⟨(Node.normalIn_iff.mp normal).2 _ mem, Node.writesOnly_of_mem blank mem⟩
  refine ⟨blank, fun text first => ?_, fun text last => ?_⟩
  · obtain ⟨filled, here⟩ := literal text (List.mem_of_mem_head? first)
    rw [isBlankText_of_trimmed filled (.inl (trimmed.front text first))] at here
    cases here
  · obtain ⟨filled, here⟩ := literal text (List.mem_of_mem_getLast? last)
    rw [isBlankText_of_trimmed filled (.inr (trimmed.back text last))] at here
    cases here

/-- A list that a render comes to is written as the texts of its items with the delimiter between
them, but for those that are empty. An item comes out blank exactly if it is hollow: of its nodes
the tree tells that they write nothing but blank text, and the ones at its ends are no literal
text. -/
theorem joined_items {source : String} {q : Query} (compiled : compile source = .ok q)
    {arguments : Value} {s : Statement} (done : q.generate arguments = .ok s) :
    s.text = q.textOf arguments q.nodes ∧
    ∀ joined ∈ Node.reachedIn arguments q.nodes,
      q.textOf arguments [.list joined.delimiter joined.items] = joined.delimiter.text.intercalate
        ((joined.items.map (q.textOf arguments)).filter fun text => text ≠ "") ∧
      ∀ item ∈ joined.items,
        isBlankText (q.textOf arguments item) = true ↔ q.Hollow arguments item := by
  rw [generate_eq compiled, Node.toStatement_eq] at done
  obtain ⟨-, -, rfl⟩ := map_eq_ok done
  obtain ⟨tree, read, rfl⟩ := eq_ofTree compiled
  have normal := Node.normalIn_condense tree (Node.texted_of_read read)
  refine ⟨rfl, fun joined mem => ⟨?_, fun item inside => ?_⟩⟩
  · rw [textOf, piecesOf, Node.piecesIn, Node.piecesIn, List.append_nil, Node.pieces,
      Piece.flat_between, Node.piecesInItems_eq_map, List.filter_map, List.map_map, List.filter_map]
    rfl
  · have items := Node.normalItems_of_mem_reachedIn _ normal joined mem
    obtain ⟨-, trimmed, normal⟩ := (Node.normalItems_iff.mp items).2 item inside
    exact isBlankText_iff_hollow normal trimmed

/-! ## A blank item -/

/-- A query with a list whose second item is two conditionals with a space between them. -/
def spaced : Query where
  source := "(,)[ a; @x?\x7bx\x7d @y?\x7by\x7d ]"
  nodes := [.list .comma [[.literal "a"],
    [.conditional "x" [.literal "x"] none, .literal " ", .conditional "y" [.literal "y"] none]]]
  isStatic := false
  keys := ["x", "y"]
  text := none

theorem compile_spaced : compile spaced.source = .ok spaced := by
  cbv

/-- Where both names are absent, the space is left and is joined. -/
theorem generate_spaced : spaced.generate (.map []) = .ok ⟨"a,  ", []⟩ := by
  cbv

/-- Both items of the list are joined, and the second one is hollow. -/
theorem joined_items_spaced :
    compile spaced.source = .ok spaced ∧ spaced.generate (.map []) = .ok ⟨"a,  ", []⟩ ∧
    "a,  " = spaced.textOf (.map []) spaced.nodes ∧
    spaced.textOf (.map []) spaced.nodes =
      Delimiter.comma.text.intercalate (["a", " "].filter fun text => text ≠ "") ∧
    spaced.Hollow (.map [])
      [.conditional "x" [.literal "x"] none, .literal " ",
        .conditional "y" [.literal "y"] none] := by
  obtain ⟨text, lists⟩ := joined_items compile_spaced generate_spaced
  obtain ⟨whole, items⟩ := lists _ (List.mem_cons_self ..)
  refine ⟨compile_spaced, generate_spaced, text, whole, (items _ ?_).mp ?_⟩
  · exact List.mem_cons_of_mem _ (List.mem_singleton_self _)
  · decide

/-- A delimiter can join a blank item. -/
theorem list_joins_blanks :
    ¬∀ (source : String) (q : Query) (arguments : Value) (s : Statement),
      compile source = .ok q → q.generate arguments = .ok s →
        ∀ joined ∈ Node.reachedIn arguments q.nodes, ∀ item ∈ joined.items,
          q.textOf arguments item ≠ "" → isBlankText (q.textOf arguments item) = false := by
  intro said
  have second := said _ spaced _ _ compile_spaced generate_spaced _ (List.mem_cons_self ..) _
    (List.mem_cons_of_mem _ (List.mem_singleton_self _))
  revert second
  decide

end Query

end SqlTemplate
