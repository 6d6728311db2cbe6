import SqlTemplate.Proofs.Query.Static
import SqlTemplate.Proofs.Statement.Points

/-!
# What references write

A reference *stands for* values in a statement if it is written with one placeholder for each of
them, in order, and these are the values at the placeholders' numbers (`Mention.Stands`). A
reference to a name asks for the name's value, a spread for the elements of its list.

Not every reference stands for what it asks for. The text of a name is kept when the name is first
written, and any reference to the name behind that writes it again, whichever kind it is. So each
reference stands for what the first live reference to its name asks for
(`Query.references_stand_as_first`), and where a template refers to a name in two ways, the second
way is written as the first one (`Query.references_disturbed`).

Which references are live is the same in a template and in its query: condensing leaves out none
(`Node.mentionsIn_condense`).
-/

namespace SqlTemplate

/-! ## Placeholders and values -/

/-- The value at a number. Numbers count from one. -/
def Statement.value? (s : Statement) : Nat → Option Value
  | 0 => none
  | n + 1 => s.values[n]?

/-- What a mention asks for is written: a placeholder for each of its values, in order. -/
def Mention.Stands (arguments : Value) (s : Statement) (m : Mention) (written : List Piece) :
    Prop :=
  ∃ numbers, written = m.pieces numbers ∧ numbers.map s.value? = (m.values arguments).map some

/-- The values at numbers that follow one another are those in a row behind the first of them. -/
theorem Statement.map_value?_range' (s : Statement) {first : Nat} {values : List Value}
    (pos : 1 ≤ first) (place : (s.values.drop (first - 1)).take values.length = values) :
    (List.range' first values.length).map s.value? = values.map some := by
  obtain ⟨n, rfl⟩ : ∃ n, first = n + 1 := ⟨first - 1, by omega⟩
  refine List.ext_getElem (by simp) fun i hi hj => ?_
  have bound : i < values.length := by simpa using hj
  have here : s.values[n + i]? = values[i]? := by
    rw [Nat.add_sub_cancel] at place
    rw [← List.getElem?_drop, ← List.getElem?_take_of_lt bound, place]
  rw [List.getElem_map, List.getElem_map, List.getElem_range', Nat.one_mul, Nat.succ_add]
  rw [Statement.value?, here, List.getElem?_eq_getElem bound]

/-! ## Live references -/

namespace Node

theorem mentionsIn_fuse (arguments : Value) (node : Node) (behind : List Node) :
    mentionsIn arguments (fuse node behind) =
      mentions arguments node ++ mentionsIn arguments behind := by
  rcases fuse_cases node behind with ⟨apart, -⟩ | ⟨_, _, _, rfl, rfl, one⟩
  · rw [apart, mentionsIn]
  · rw [one]
    rfl

theorem mentionsIn_trimItem (arguments : Value) (item : List Node) :
    mentionsIn arguments (trimItem item) = mentionsIn arguments item := by
  have front : mentionsIn arguments (trimFront item) = mentionsIn arguments item := by
    rcases trimFront_cases item with same | ⟨text, rest, rfl, ⟨-, none⟩ | shorter⟩
    · rw [same]
    · rw [none]
      rfl
    · rw [shorter]
      rfl
  have back : ∀ nodes : List Node,
      mentionsIn arguments (trimBack nodes) = mentionsIn arguments nodes := by
    intro nodes
    fun_induction trimBack nodes with
    | case1 => rfl
    | case2 => rfl
    | case3 node rest _ ih => rw [mentionsIn, ih, mentionsIn]
    | case4 => rfl
  exact (back _).trans front

theorem mentionsInItems_fuseItem (arguments : Value) (delimiter : Delimiter) (item : List Node)
    (behind : List (List Node)) :
    mentionsInItems arguments (fuseItem delimiter item behind) =
      mentionsIn arguments item ++ mentionsInItems arguments behind := by
  rcases fuseItem_cases delimiter item behind with ⟨apart, -⟩ | ⟨_, _, _, rfl, rfl, one⟩
  · rw [apart, mentionsInItems]
  · rw [one]
    rfl

theorem mentions_list? (arguments : Value) (delimiter : Delimiter) (items : List (List Node)) :
    (list? delimiter items).elim [] (mentions arguments) = mentionsInItems arguments items := by
  rcases list?_cases delimiter items with ⟨rfl, left⟩ | ⟨text, rfl, literal⟩ | ⟨-, kept⟩
  · rw [left]
    rfl
  · rw [literal]
    rfl
  · rw [kept]
    rfl

mutual

/-- A node mentions what it is condensed to mentions. -/
theorem mentions_condense? (arguments : Value) : ∀ node : Node,
    (condense? node).elim [] (mentions arguments) = mentions arguments node
  | .literal _ => rfl
  | .value _ => rfl
  | .fallback .. => rfl
  | .spread .. => rfl
  | .conditional name success failure => by
    have first := mentionsIn_condense arguments success
    have second := mentionsInBranch_condenseBranch? arguments failure
    rw [condense?, mentions, ← first, ← second]
    rcases conditional?_cases name (condense success) (condenseBranch? failure) with
      ⟨empty, absent, left⟩ | ⟨-, kept⟩
    · rw [left, empty, absent]
      cases arguments.present? name <;> rfl
    · rw [kept]
      rfl
  | .list delimiter items => by
    rw [condense?, mentions_list?, mentionsInItems_condenseItems arguments delimiter items]
    rfl

/-- Condensing leaves out no reference that a render comes to, and moves none. -/
theorem mentionsIn_condense (arguments : Value) : ∀ nodes : List Node,
    mentionsIn arguments (condense nodes) = mentionsIn arguments nodes
  | [] => rfl
  | node :: rest => by
    rw [mentionsIn, ← mentions_condense? arguments node, ← mentionsIn_condense arguments rest,
      condense]
    cases condense? node with
    | none => rfl
    | some condensed => exact mentionsIn_fuse arguments condensed (condense rest)

theorem mentionsInBranch_condenseBranch? (arguments : Value) : ∀ branch : Option (List Node),
    mentionsInBranch arguments (condenseBranch? branch) = mentionsInBranch arguments branch
  | none => rfl
  | some branch => by
    rw [mentionsInBranch, ← mentionsIn_condense arguments branch, condenseBranch?]
    cases condense branch <;> rfl

theorem mentionsInItems_condenseItems (arguments : Value) (delimiter : Delimiter) :
    ∀ items : List (List Node),
      mentionsInItems arguments (condenseItems delimiter items) = mentionsInItems arguments items
  | [] => rfl
  | item :: rest => by
    rw [mentionsInItems, ← mentionsIn_condense arguments item, ← mentionsIn_trimItem,
      ← mentionsInItems_condenseItems arguments delimiter rest, condenseItems]
    cases trimItem (condense item) with
    | nil => rfl
    | cons node others => exact mentionsInItems_fuseItem arguments delimiter (node :: others) _

end

/-! ## Pieces, one reference at a time -/

mutual

/-- The pieces that a node may be written with, if `P` says what each reference may be. -/
def Writes (arguments : Value) (P : Mention → List Piece → Prop) : Node → List Piece → Prop
  | .literal text, ps => ps = [.text text]
  | .value name, ps => P (.whole name) ps
  | .fallback name word, ps =>
    match arguments.present? name with
    | none => ps = [.text word]
    | some _ => P (.whole name) ps
  | .conditional name success failure, ps =>
    match arguments.present? name with
    | some _ => WritesAll arguments P success ps
    | none => WritesBranch arguments P failure ps
  | .spread name delimiter, ps => P (.spread name delimiter) ps
  | .list delimiter items, ps => ∃ parts, WritesItems arguments P items parts ∧
      ps = Piece.between delimiter (parts.filter fun part => Piece.flat part ≠ "")

/-- The pieces that nodes may be written with. -/
def WritesAll (arguments : Value) (P : Mention → List Piece → Prop) :
    List Node → List Piece → Prop
  | [], ps => ps = []
  | node :: rest, ps => ∃ first behind, Writes arguments P node first ∧
      WritesAll arguments P rest behind ∧ ps = first ++ behind

/-- The pieces that the second branch of a conditional may be written with. -/
def WritesBranch (arguments : Value) (P : Mention → List Piece → Prop) :
    Option (List Node) → List Piece → Prop
  | none, ps => ps = []
  | some branch, ps => WritesAll arguments P branch ps

/-- The pieces that each item of a list may be written with. -/
def WritesItems (arguments : Value) (P : Mention → List Piece → Prop) :
    List (List Node) → List (List Piece) → Prop
  | [], parts => parts = []
  | item :: rest, parts => ∃ part behind, WritesAll arguments P item part ∧
      WritesItems arguments P rest behind ∧ parts = part :: behind

end

section Writes

variable {arguments : Value} {P : Mention → List Piece → Prop} {w : String → List Piece}

mutual

/-- If names may be written as `w` says, a node may be written so. -/
theorem writes_pieces : ∀ node : Node, (∀ m ∈ mentions arguments node, P m (w m.name)) →
    Writes arguments P node (pieces arguments w node)
  | .literal _, _ => rfl
  | .value name, h => h _ (List.mem_singleton_self _)
  | .fallback name word, h => by
    simp only [mentions, Writes, pieces] at h ⊢
    cases present : arguments.present? name with
    | none => rfl
    | some _ =>
      rw [present] at h
      exact h _ (List.mem_singleton_self _)
  | .conditional name success failure, h => by
    simp only [mentions, Writes, pieces] at h ⊢
    cases present : arguments.present? name with
    | none =>
      rw [present] at h
      exact writesBranch_pieces failure h
    | some _ =>
      rw [present] at h
      exact writesAll_pieces success h
  | .spread name delimiter, h => h _ (List.mem_singleton_self _)
  | .list delimiter items, h => ⟨_, writesItems_pieces items h, rfl⟩

theorem writesAll_pieces : ∀ nodes : List Node,
    (∀ m ∈ mentionsIn arguments nodes, P m (w m.name)) →
      WritesAll arguments P nodes (piecesIn arguments w nodes)
  | [], _ => rfl
  | node :: rest, h =>
    ⟨_, _, writes_pieces node fun m mem => h m (List.mem_append_left _ mem),
      writesAll_pieces rest fun m mem => h m (List.mem_append_right _ mem), rfl⟩

theorem writesBranch_pieces : ∀ branch : Option (List Node),
    (∀ m ∈ mentionsInBranch arguments branch, P m (w m.name)) →
      WritesBranch arguments P branch (piecesInBranch arguments w branch)
  | none, _ => rfl
  | some branch, h => writesAll_pieces branch h

theorem writesItems_pieces : ∀ items : List (List Node),
    (∀ m ∈ mentionsInItems arguments items, P m (w m.name)) →
      WritesItems arguments P items (piecesInItems arguments w items)
  | [], _ => rfl
  | item :: rest, h =>
    ⟨_, _, writesAll_pieces item fun m mem => h m (List.mem_append_left _ mem),
      writesItems_pieces rest fun m mem => h m (List.mem_append_right _ mem), rfl⟩

end

end Writes

end Node

/-! ## What the first reference asks for -/

/-- The mention that a binding is of stands for its values. -/
theorem Binding.stands {arguments : Value} {met : List Mention} {b : Binding} {text : String}
    (h : b ∈ bindings arguments met) :
    b.mention.Stands arguments ⟨text, boundValues arguments met⟩ b.pieces := by
  have values := Binding.values_of_mem_numbered h
  obtain ⟨pos, place⟩ := Binding.take_drop_of_mem_numbered h
  refine ⟨b.numbers, rfl, ?_⟩
  rw [← values, Binding.numbers]
  exact Statement.map_value?_range' _ pos place

/-- A name that is mentioned is written as its first mention asks for. -/
theorem Mention.exists_first_stands {arguments : Value} {met : List Mention} {m : Mention}
    (h : m ∈ met) (text : String) : ∃ first ∈ Mention.firsts met, first.name = m.name ∧
      first.Stands arguments ⟨text, boundValues arguments met⟩
        (writtenAs arguments met m.name) := by
  have bound : m.name ∈ (bindings arguments met).map Binding.name := by
    rw [names_bindings, Mention.mem_names_firsts]
    exact List.mem_map_of_mem h
  obtain ⟨b, mem, same⟩ := List.mem_map.mp bound
  have first : b.mention ∈ Mention.firsts met := by
    rw [← Binding.mentions_numbered arguments 1 (Mention.firsts met)]
    exact List.mem_map_of_mem mem
  refine ⟨b.mention, first, same, ?_⟩
  rw [← same, Binding.writtenAs_of_mem mem]
  exact Binding.stands mem

namespace Query

/-- Each live reference of a template is written, and all references to a name are written alike:
with the placeholders of what the first live reference to the name asks for. -/
theorem references_stand_as_first {source : String} {q : Query} (compiled : compile source = .ok q)
    {arguments : Value} {s : Statement} (done : q.generate arguments = .ok s) :
    ∃ tree, Node.read source = .ok tree ∧
      Node.mentionsIn arguments q.nodes = Node.mentionsIn arguments tree ∧
      ∃ (w : String → List Piece) (written : List Piece), s.text = Piece.flat written ∧
        Node.WritesAll arguments (fun m part => part = w m.name ∧
          ∃ first ∈ Mention.firsts (Node.mentionsIn arguments tree), first.name = m.name ∧
            first.Stands arguments s part) q.nodes written := by
  rw [generate_eq compiled, Node.toStatement_eq] at done
  obtain ⟨-, -, rfl⟩ := map_eq_ok done
  obtain ⟨tree, read, rfl⟩ := eq_ofTree compiled
  have live : Node.mentionsIn arguments (ofTree source tree).nodes =
      Node.mentionsIn arguments tree := Node.mentionsIn_condense arguments tree
  refine ⟨tree, read, live, _, _, rfl, Node.writesAll_pieces _ fun m mem => ⟨rfl, ?_⟩⟩
  rw [live] at mem ⊢
  exact Mention.exists_first_stands mem _

/-- A spread keeps its own delimiter for the references behind it, be they spreads or not. -/
theorem references_stand_as_first_spread : ∃ q s,
    compile "(&)[...@ids] (,)[...@ids] @ids" = .ok q ∧
    q.generate (.map [("ids", .list [.bool true, .bool false])]) = .ok s ∧
    s.text = "$1 AND $2 $1 AND $2 $1 AND $2" ∧
    ∃ tree, Node.read "(&)[...@ids] (,)[...@ids] @ids" = .ok tree ∧
      Node.mentionsIn (.map [("ids", .list [.bool true, .bool false])]) q.nodes =
        Node.mentionsIn (.map [("ids", .list [.bool true, .bool false])]) tree ∧
      ∃ (w : String → List Piece) (written : List Piece), s.text = Piece.flat written ∧
        Node.WritesAll (.map [("ids", .list [.bool true, .bool false])]) (fun m part =>
          part = w m.name ∧ ∃ first ∈ Mention.firsts
            (Node.mentionsIn (.map [("ids", .list [.bool true, .bool false])]) tree),
            first.name = m.name ∧
            first.Stands (.map [("ids", .list [.bool true, .bool false])]) s part)
          q.nodes written := by
  have compiled : compile "(&)[...@ids] (,)[...@ids] @ids" =
      .ok ⟨"(&)[...@ids] (,)[...@ids] @ids",
        [.spread "ids" .and, .literal " ", .spread "ids" .comma, .literal " ", .value "ids"],
        false, ["ids"], none⟩ := by
    cbv
  have done : generate ⟨"(&)[...@ids] (,)[...@ids] @ids",
        [.spread "ids" .and, .literal " ", .spread "ids" .comma, .literal " ", .value "ids"],
        false, ["ids"], none⟩ (.map [("ids", .list [.bool true, .bool false])]) =
      .ok ⟨"$1 AND $2 $1 AND $2 $1 AND $2", [.bool true, .bool false]⟩ := by
    cbv
  exact ⟨_, _, compiled, done, rfl, references_stand_as_first compiled done⟩

/-- Not every reference stands for what it asks for: behind a reference to a list as a whole, a
spread of the list writes the one placeholder again. -/
theorem references_disturbed :
    ¬∀ (source : String) (q : Query) (arguments : Value) (s : Statement),
      compile source = .ok q → q.generate arguments = .ok s →
        ∃ written, s.text = Piece.flat written ∧
          Node.WritesAll arguments (Mention.Stands arguments s) q.nodes written := by
  intro undisturbed
  have compiled : compile "@ids (,)[...@ids]" = .ok ⟨"@ids (,)[...@ids]",
      [.value "ids", .literal " ", .spread "ids" .comma], false, ["ids"], none⟩ := by
    cbv
  have done : generate ⟨"@ids (,)[...@ids]",
        [.value "ids", .literal " ", .spread "ids" .comma], false, ["ids"], none⟩
        (.map [("ids", .list [.bool true, .bool false])]) =
      .ok ⟨"$1 $1", [.list [.bool true, .bool false]]⟩ := by
    cbv
  obtain ⟨_, -, _, _, -, ⟨_, _, -, ⟨_, _, ⟨numbers, -, spread⟩, -, -⟩, -⟩, -⟩ :=
    undisturbed _ _ _ _ compiled done
  -- the only value is the list, so no number is that of its first element
  have none : ∀ n, Statement.value? ⟨"$1 $1", [.list [.bool true, .bool false]]⟩ n ≠
      some (.bool true) := by
    rintro (_ | _ | n) <;> simp [Statement.value?]
  cases numbers with
  | nil => cases spread
  | cons n rest => exact none n (List.cons.inj spread).1

end Query

end SqlTemplate
