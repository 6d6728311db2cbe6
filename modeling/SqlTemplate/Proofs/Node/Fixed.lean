import Mathlib.Data.List.Chain
import Mathlib.Data.List.TakeWhile
import SqlTemplate.Node.Condensed

/-!
# Fixed parts of a tree

Two classes of nodes can be told from the tree as it was read.

* A node is *silent* if there is nothing to write in any part of it: a conditional with silent
  branches, or a list whose items are blank at most. This is meant branch by branch, and not all
  nodes that never write anything are silent: a conditional on `x` in the second branch of another
  conditional on `x` never takes its first branch, and yet what stands in that branch counts.
* A node is *fixed* if it stands for fixed text: literal text, a silent node, or a list of fixed
  text alone.

Condensing finds both of them: it leaves out the silent nodes, and no others
(`Node.isNone_condense?`), and it makes literal text of the fixed ones, and of no others
(`Node.literalAtMost_condense?`). On the way it keeps literal texts apart (`Node.fused_condense`),
so that the fixed text at either end of an item is one node at most, which is the one that gets
trimmed.
-/

namespace SqlTemplate

open SqlTemplate.Text

/-! ## Blank texts -/

namespace Text

/-- Whether a text has blanks at most. -/
def isBlankText (text : String) : Bool := text.toList.all isBlank

theorem isBlankText_append (text more : String) :
    isBlankText (text ++ more) = (isBlankText text && isBlankText more) := by
  simp [isBlankText, String.toList_append]

theorem trimStartString_eq_empty_iff {text : String} :
    trimStartString text = "" ↔ isBlankText text = true := by
  rw [← String.toList_inj, toList_trimStartString, trimStart, isBlankText, List.all_eq_true]
  exact List.dropWhile_eq_nil_iff

theorem trimEndString_eq_empty_iff {text : String} :
    trimEndString text = "" ↔ isBlankText text = true := by
  rw [← String.toList_inj, toList_trimEndString, trimEnd, isBlankText, List.all_eq_true,
    String.toList_empty, List.reverse_eq_nil_iff]
  simp [List.dropWhile_eq_nil_iff]

/-- A text stays blank, or not, without the blanks at its front. -/
theorem isBlankText_trimStartString (text : String) :
    isBlankText (trimStartString text) = isBlankText text := by
  have split : text.toList.takeWhile isBlank ++ text.toList.dropWhile isBlank = text.toList :=
    List.takeWhile_append_dropWhile
  rw [isBlankText, isBlankText, toList_trimStartString, trimStart, ← split, List.all_append,
    List.all_takeWhile, Bool.true_and, split]

/-- What trimming leaves of a text is not blank. -/
theorem isBlankText_trimEndString {text : String} (h : trimEndString text ≠ "") :
    isBlankText (trimEndString text) = false := by
  rw [← Bool.not_eq_true, isBlankText, List.all_eq_true]
  intro blank
  -- the last character of what is left is none that trimming takes away
  have left : text.toList.reverse.dropWhile isBlank ≠ [] := by
    intro nothing
    refine h (String.toList_inj.mp ?_)
    rw [toList_trimEndString, trimEnd, nothing, String.toList_empty, List.reverse_nil]
  have last := List.head_dropWhile_not isBlank left
  rw [blank _ (by
    rw [toList_trimEndString, trimEnd, List.mem_reverse]
    exact List.head_mem left)] at last
  cases last

end Text

namespace Node

/-! ## Silent nodes and fixed nodes -/

mutual

/-- Whether there is nothing to write in any part of a node, in either branch of each conditional.
In literal text there is: a tree that was read has none that is empty. -/
def isSilent : Node → Bool
  | .literal _ => false
  | .value _ => false
  | .fallback .. => false
  | .spread .. => false
  | .conditional _ success failure => allSilent success && branchSilent failure
  | .list _ items => allItemsBlank items

/-- Whether all nodes are silent. -/
def allSilent : List Node → Bool
  | [] => true
  | node :: rest => isSilent node && allSilent rest

/-- Whether the second branch of a conditional is silent, or not there. -/
def branchSilent : Option (List Node) → Bool
  | none => true
  | some branch => allSilent branch

/-- Whether every node is silent or a blank text. -/
def allBlank : List Node → Bool
  | [] => true
  | .literal text :: rest => isBlankText text && allBlank rest
  | node :: rest => isSilent node && allBlank rest

/-- Whether every item of a list comes out empty once it is stripped of blanks. -/
def allItemsBlank : List (List Node) → Bool
  | [] => true
  | item :: rest => allBlank item && allItemsBlank rest

end

mutual

/-- Whether a node stands for fixed text. -/
def isFixed : Node → Bool
  | .literal _ => true
  | .value _ => false
  | .fallback .. => false
  | .spread .. => false
  | .conditional name success failure => isSilent (.conditional name success failure)
  | .list _ items => allItemsFixed items

/-- Whether nodes stand for fixed text. -/
def allFixed : List Node → Bool
  | [] => true
  | node :: rest => isFixed node && allFixed rest

/-- Whether the items of a list stand for fixed text. -/
def allItemsFixed : List (List Node) → Bool
  | [] => true
  | item :: rest => allFixed item && allItemsFixed rest

end

/-! ## Literal texts stay apart -/

/-- Whether a node is literal text. -/
def isLiteral : Node → Bool
  | .literal _ => true
  | _ => false

@[simp] theorem isLiteral_literal (text : String) : isLiteral (.literal text) = true := rfl

/-- No two neighbours are literal text. -/
def Fused (nodes : List Node) : Prop :=
  nodes.IsChain fun node next => isLiteral node = false ∨ isLiteral next = false

theorem exists_of_isLiteral {node : Node} (h : isLiteral node = true) :
    ∃ text, node = .literal text := by
  cases node with
  | literal text => exact ⟨text, rfl⟩
  | _ => cases h

theorem fuse_of_not_isLiteral {node : Node} (h : isLiteral node = false) (behind : List Node) :
    fuse node behind = node :: behind := by
  cases node with
  | literal text => cases h
  | _ => rfl

/-- Putting a node in front of others makes it one with the next node, or keeps it apart. -/
theorem fuse_cases (node : Node) (behind : List Node) :
    fuse node behind = node :: behind ∧
        (isLiteral node = false ∨ ∀ next rest, behind = next :: rest → isLiteral next = false) ∨
      ∃ text more rest, node = .literal text ∧ behind = .literal more :: rest ∧
        fuse node behind = .literal (text ++ more) :: rest := by
  cases hn : isLiteral node with
  | false => exact .inl ⟨fuse_of_not_isLiteral hn behind, .inl rfl⟩
  | true =>
    obtain ⟨text, rfl⟩ := exists_of_isLiteral hn
    rcases behind with _ | ⟨next, rest⟩
    · exact .inl ⟨rfl, .inr (by simp)⟩
    · cases next with
      | literal more => exact .inr ⟨text, more, rest, rfl, rfl, rfl⟩
      | _ =>
        refine .inl ⟨rfl, .inr ?_⟩
        rintro _ _ ⟨⟩
        rfl

/-- Whether literal text has literal text next to it does not depend on the text. -/
theorem Fused.literal {text : String} {rest : List Node} (h : Fused (.literal text :: rest))
    (other : String) : Fused (.literal other :: rest) := by
  cases rest with
  | nil => exact List.isChain_singleton _
  | cons next rest =>
    rw [Fused, List.isChain_cons_cons] at h ⊢
    exact h

theorem fused_fuse (node : Node) {behind : List Node} (h : Fused behind) :
    Fused (fuse node behind) := by
  rcases fuse_cases node behind with ⟨apart, other⟩ | ⟨text, more, rest, rfl, rfl, one⟩
  · rw [apart]
    cases behind with
    | nil => exact List.isChain_singleton _
    | cons next rest =>
      exact List.isChain_cons_cons.mpr ⟨other.imp_right fun k => k next rest rfl, h⟩
  · rw [one]
    exact h.literal _

/-- In a condensed list of nodes no two neighbours are literal text. -/
theorem fused_condense (nodes : List Node) : Fused (condense nodes) := by
  induction nodes with
  | nil => exact List.isChain_nil
  | cons node rest ih =>
    rw [condense]
    split
    · exact fused_fuse _ ih
    · exact ih

/-- Where no two neighbours are literal text, there is another node unless there is one text at
most. -/
theorem Fused.cases {nodes : List Node} (h : Fused nodes) :
    nodes = [] ∨ (∃ text, nodes = [.literal text]) ∨ ∃ node ∈ nodes, isLiteral node = false := by
  cases nodes with
  | nil => exact .inl rfl
  | cons node rest =>
    cases hn : isLiteral node with
    | false => exact .inr (.inr ⟨node, by simp, hn⟩)
    | true =>
      cases rest with
      | nil =>
        obtain ⟨text, rfl⟩ := exists_of_isLiteral hn
        exact .inr (.inl ⟨text, rfl⟩)
      | cons next rest =>
        rcases (List.isChain_cons_cons.mp h).1 with hl | hl
        · rw [hn] at hl
          cases hl
        · exact .inr (.inr ⟨next, by simp, hl⟩)

/-! ## What trimming leaves -/

theorem trimBack_cons {node : Node} {rest : List Node} (h : isLiteral node = false ∨ rest ≠ []) :
    trimBack (node :: rest) = node :: trimBack rest := by
  rw [trimBack]
  rintro text rfl rfl
  rcases h with hl | hr
  · cases hl
  · exact hr rfl

/-- Trimming the front of an item leaves it as it is, or shortens the literal text that stands
first, or leaves that out. -/
theorem trimFront_cases (item : List Node) :
    trimFront item = item ∨ ∃ text rest, item = .literal text :: rest ∧
      (trimStartString text = "" ∧ trimFront item = rest ∨
        trimFront item = .literal (trimStartString text) :: rest) := by
  rcases item with _ | ⟨node, rest⟩
  · exact .inl rfl
  · cases node with
    | literal text =>
      refine .inr ⟨text, rest, rfl, ?_⟩
      by_cases blank : trimStartString text = ""
      · exact .inl ⟨blank, if_pos blank⟩
      · exact .inr (if_neg blank)
    | _ => exact .inl rfl

/-- Trimming takes nothing away but literal text. -/
theorem mem_trimItem {node : Node} (h : isLiteral node = false) {item : List Node}
    (mem : node ∈ item) : node ∈ trimItem item := by
  have front : node ∈ trimFront item := by
    rcases trimFront_cases item with same | ⟨text, rest, rfl, left⟩
    · rwa [same]
    · have behind : node ∈ rest := by
        rcases List.mem_cons.mp mem with rfl | behind
        · cases h
        · exact behind
      rcases left with ⟨-, none⟩ | shorter
      · rwa [none]
      · rw [shorter]
        exact List.mem_cons_of_mem _ behind
  have back : ∀ nodes : List Node, node ∈ nodes → node ∈ trimBack nodes := by
    intro nodes
    fun_induction trimBack nodes with
    | case1 text blank =>
      intro mem
      rw [List.mem_singleton.mp mem] at h
      cases h
    | case2 text left =>
      intro mem
      rw [List.mem_singleton.mp mem] at h
      cases h
    | case3 first rest other ih =>
      intro mem
      rcases List.mem_cons.mp mem with rfl | mem
      · exact List.mem_cons_self ..
      · exact List.mem_cons_of_mem _ (ih mem)
    | case4 => exact id
  exact back _ front

/-- Whether there is nothing but a literal text that has a property, if there is anything. -/
def textAtMost (p : String → Bool) : List Node → Bool
  | [] => true
  | [.literal text] => p text
  | _ => false

theorem textAtMost_of_mem {node : Node} (h : isLiteral node = false) {nodes : List Node}
    (mem : node ∈ nodes) (p : String → Bool) : textAtMost p nodes = false := by
  rcases nodes with _ | ⟨first, _ | ⟨second, rest⟩⟩
  · cases mem
  · rw [List.mem_singleton.mp mem] at h
    cases first with
    | literal text => cases h
    | _ => rfl
  · cases first <;> rfl

theorem textAtMost_fuse {p : String → Bool}
    (hp : ∀ text more, p (text ++ more) = (p text && p more)) (node : Node) (behind : List Node) :
    textAtMost p (fuse node behind) = (textAtMost p [node] && textAtMost p behind) := by
  rcases fuse_cases node behind with ⟨apart, hn | hb⟩ | ⟨text, more, rest, rfl, rfl, one⟩
  · rw [apart, textAtMost_of_mem hn (List.mem_cons_self ..),
      textAtMost_of_mem hn (List.mem_cons_self ..), Bool.false_and]
  · rw [apart]
    rcases behind with _ | ⟨next, rest⟩
    · exact (Bool.and_true _).symm
    · have hl := hb next rest rfl
      rw [textAtMost_of_mem hl (by simp), textAtMost_of_mem hl (List.mem_cons_self ..),
        Bool.and_false]
  · rw [one]
    rcases rest with _ | ⟨other, rest⟩
    · exact hp text more
    · exact (Bool.and_false _).symm

/-- A literal text without the blanks at its ends. -/
theorem trimItem_literal (text : String) :
    trimItem [.literal text] =
      if isBlankText text then [] else [.literal (trimEndString (trimStartString text))] := by
  by_cases blank : isBlankText text = true
  · simp [trimItem, trimFront, trimStartString_eq_empty_iff.mpr blank, trimBack, blank]
  · have front : trimStartString text ≠ "" := mt trimStartString_eq_empty_iff.mp blank
    have back : trimEndString (trimStartString text) ≠ "" := by
      rw [Ne, trimEndString_eq_empty_iff, isBlankText_trimStartString]
      exact blank
    simp [trimItem, trimFront, front, trimBack, back, blank]

/-- An item is left out exactly when it is blank. -/
theorem trimItem_eq_nil_iff {item : List Node} (h : Fused item) :
    trimItem item = [] ↔ textAtMost isBlankText item = true := by
  rcases h.cases with rfl | ⟨text, rfl⟩ | ⟨node, mem, other⟩
  · simp [trimItem, trimFront, trimBack, textAtMost]
  · rw [trimItem_literal, textAtMost]
    split <;> simp_all
  · rw [textAtMost_of_mem other mem]
    simpa using List.ne_nil_of_mem (mem_trimItem other mem)

/-- An item is one literal text at most, trimmed or not. -/
theorem textAtMost_trimItem {item : List Node} (h : Fused item) :
    textAtMost (fun _ => true) (trimItem item) = textAtMost (fun _ => true) item := by
  rcases h.cases with rfl | ⟨text, rfl⟩ | ⟨node, mem, other⟩
  · rfl
  · rw [trimItem_literal, textAtMost]
    split <;> rfl
  · rw [textAtMost_of_mem other mem, textAtMost_of_mem other (mem_trimItem other mem)]

/-- An item that is left as literal text is not blank. -/
theorem isBlankText_of_trimItem {item : List Node} (h : Fused item) {text : String}
    (left : trimItem item = [.literal text]) : isBlankText text = false := by
  rcases h.cases with rfl | ⟨whole, rfl⟩ | ⟨node, mem, other⟩
  · cases left
  · rw [trimItem_literal] at left
    by_cases blank : isBlankText whole = true
    · rw [if_pos blank] at left
      cases left
    · rw [if_neg blank, List.cons.injEq, Node.literal.injEq] at left
      rw [← left.1]
      refine isBlankText_trimEndString ?_
      rwa [Ne, trimEndString_eq_empty_iff, isBlankText_trimStartString]
  · have := mem_trimItem other mem
    rw [left, List.mem_singleton] at this
    rw [this] at other
    cases other

/-! ## The items of a condensed list -/

@[simp] theorem literal?_literal (text : String) : literal? [.literal text] = some text := rfl

@[simp] theorem fuseItem_nil (delimiter : Delimiter) (item : List Node) :
    fuseItem delimiter item [] = [item] := by
  cases hi : literal? item <;> simp [fuseItem, hi]

/-- Two items of literal text become one. -/
theorem fuseItem_literals (delimiter : Delimiter) (text more : String) (rest : List (List Node)) :
    fuseItem delimiter [.literal text] ([.literal more] :: rest) =
      [.literal (text ++ delimiter.text ++ more)] :: rest := by
  simp [fuseItem]

/-- Items stay apart if one of them is not literal text. -/
theorem fuseItem_cons {delimiter : Delimiter} {item next : List Node} {rest : List (List Node)}
    (h : literal? item = none ∨ literal? next = none) :
    fuseItem delimiter item (next :: rest) = item :: next :: rest := by
  rcases h with none | none
  · simp [fuseItem, none]
  · cases hi : literal? item <;> simp [fuseItem, hi, none]

/-- Putting an item in front of others makes it one with the next item, or keeps it apart. -/
theorem fuseItem_cases (delimiter : Delimiter) (item : List Node) (behind : List (List Node)) :
    fuseItem delimiter item behind = item :: behind ∧
        (behind = [] ∨ literal? item = none ∨ ∃ next rest, behind = next :: rest ∧
          literal? next = none) ∨
      ∃ text more rest, item = [.literal text] ∧ behind = [.literal more] :: rest ∧
        fuseItem delimiter item behind = [.literal (text ++ delimiter.text ++ more)] :: rest := by
  rcases behind with _ | ⟨next, rest⟩
  · exact .inl ⟨fuseItem_nil delimiter item, .inl rfl⟩
  · cases hi : literal? item with
    | none => exact .inl ⟨fuseItem_cons (.inl hi), .inr (.inl rfl)⟩
    | some text =>
      rw [literal?_eq_some_iff] at hi
      cases hn : literal? next with
      | none => exact .inl ⟨fuseItem_cons (.inr hn), .inr (.inr ⟨next, rest, rfl, hn⟩)⟩
      | some more =>
        rw [literal?_eq_some_iff] at hn
        refine .inr ⟨text, more, rest, hi, by rw [hn], ?_⟩
        rw [hi, hn, fuseItem_literals]

/-- An item that is not empty is put in front of the condensed items behind it. -/
theorem condenseItems_cons (delimiter : Delimiter) (item : List Node) (rest : List (List Node)) :
    condenseItems delimiter (item :: rest) =
      if trimItem (condense item) = [] then condenseItems delimiter rest
      else fuseItem delimiter (trimItem (condense item)) (condenseItems delimiter rest) := by
  rw [condenseItems]
  cases left : trimItem (condense item) with
  | nil => rfl
  | cons node others => exact (if_neg (List.cons_ne_nil node others)).symm

/-- A literal text among condensed items is not blank. -/
theorem isBlankText_of_mem_condenseItems {delimiter : Delimiter} {items : List (List Node)}
    {text : String} (h : [.literal text] ∈ condenseItems delimiter items) :
    isBlankText text = false := by
  induction items generalizing text with
  | nil => cases h
  | cons item rest ih =>
    rw [condenseItems_cons] at h
    split at h
    · exact ih h
    · rcases fuseItem_cases delimiter (trimItem (condense item)) (condenseItems delimiter rest)
        with ⟨apart, -⟩ | ⟨first, more, others, left, behind, one⟩
      · rw [apart] at h
        rcases List.mem_cons.mp h with left | mem
        · exact isBlankText_of_trimItem (fused_condense item) left.symm
        · exact ih mem
      · rw [one] at h
        rcases List.mem_cons.mp h with whole | mem
        · -- the text of two items is not blank, since the first one is not
          rw [List.cons.injEq, Node.literal.injEq] at whole
          rw [whole.1, isBlankText_append, isBlankText_append,
            isBlankText_of_trimItem (fused_condense item) left]
          rfl
        · refine ih ?_
          rw [behind]
          exact List.mem_cons_of_mem _ mem

/-- Whether condensed items are one literal text at most. -/
def itemAtMost : List (List Node) → Bool
  | [] => true
  | [item] => (literal? item).isSome
  | _ => false

theorem itemAtMost_fuseItem (delimiter : Delimiter) (item : List Node)
    (behind : List (List Node)) :
    itemAtMost (fuseItem delimiter item behind) =
      ((literal? item).isSome && itemAtMost behind) := by
  rcases fuseItem_cases delimiter item behind with
    ⟨apart, rfl | none | ⟨next, rest, rfl, none⟩⟩ | ⟨text, more, rest, rfl, rfl, one⟩
  · simp [itemAtMost]
  · rw [apart, none]
    cases behind <;> simp [itemAtMost, none]
  · rw [apart]
    cases rest <;> simp [itemAtMost, none]
  · rw [one]
    cases rest <;> simp [itemAtMost]

theorem isSome_literal? {item : List Node} (h : item ≠ []) :
    (literal? item).isSome = textAtMost (fun _ => true) item := by
  rcases item with _ | ⟨node, _ | ⟨next, rest⟩⟩
  · exact absurd rfl h
  · cases node <;> rfl
  · cases node <;> rfl

/-! ## What condensing leaves out, and what it makes literal text -/

/-- Whether there is nothing but literal text, if there is anything. -/
def literalAtMost : Option Node → Bool
  | none => true
  | some node => isLiteral node

/-- A list without items is left out, a list of one literal text is that text, and other lists are
kept. -/
theorem list?_cases (delimiter : Delimiter) (items : List (List Node)) :
    items = [] ∧ list? delimiter items = none ∨
      (∃ text, items = [[.literal text]] ∧ list? delimiter items = some (.literal text)) ∨
      itemAtMost items = false ∧ list? delimiter items = some (.list delimiter items) := by
  rcases items with _ | ⟨item, _ | ⟨next, rest⟩⟩
  · exact .inl ⟨rfl, rfl⟩
  · cases hi : literal? item with
    | none => exact .inr (.inr ⟨by rw [itemAtMost, hi]; rfl, by rw [list?, hi]⟩)
    | some text =>
      obtain rfl := literal?_eq_some_iff.mp hi
      exact .inr (.inl ⟨text, rfl, rfl⟩)
  · exact .inr (.inr ⟨rfl, rfl⟩)

/-- A conditional is left out if both branches are empty, and kept otherwise. -/
theorem conditional?_cases (name : String) (success : List Node) (failure : Option (List Node)) :
    success = [] ∧ failure = none ∧ conditional? name success failure = none ∨
      (success.isEmpty && failure.isNone) = false ∧
        conditional? name success failure = some (.conditional name success failure) := by
  rcases success with _ | ⟨node, rest⟩
  · cases failure with
    | none => exact .inl ⟨rfl, rfl, rfl⟩
    | some branch => exact .inr ⟨rfl, rfl⟩
  · exact .inr ⟨rfl, rfl⟩

theorem literalAtMost_list? (delimiter : Delimiter) (items : List (List Node)) :
    literalAtMost (list? delimiter items) = itemAtMost items := by
  rcases list?_cases delimiter items with
    ⟨rfl, left⟩ | ⟨text, rfl, literal⟩ | ⟨more, kept⟩
  · rw [left]
    rfl
  · rw [literal]
    rfl
  · rw [kept, more]
    rfl

/-- A list is condensed to a literal text only if that is not blank. -/
theorem isBlankText_of_condense?_list {delimiter : Delimiter} {items : List (List Node)}
    {text : String} (h : condense? (.list delimiter items) = some (.literal text)) :
    isBlankText text = false := by
  rw [condense?] at h
  rcases list?_cases delimiter (condenseItems delimiter items) with
    ⟨-, left⟩ | ⟨whole, single, literal⟩ | ⟨-, kept⟩
  · rw [left] at h
    cases h
  · rw [literal] at h
    cases h
    have mem : [.literal text] ∈ condenseItems delimiter items := by
      rw [single]
      exact List.mem_singleton_self _
    exact isBlankText_of_mem_condenseItems mem
  · rw [kept] at h
    cases h

theorem textAtMost_condense_cons {p : String → Bool}
    (hp : ∀ text more, p (text ++ more) = (p text && p more)) (node : Node) (rest : List Node) :
    textAtMost p (condense (node :: rest)) =
      ((condense? node).all (fun condensed => textAtMost p [condensed]) &&
        textAtMost p (condense rest)) := by
  rw [condense]
  cases condense? node with
  | none => rfl
  | some condensed => exact textAtMost_fuse hp condensed (condense rest)

/-- A node other than literal text is condensed to nothing, or to what is not blank. -/
theorem all_blank_condense? {node : Node} (h : isLiteral node = false) :
    (condense? node).all (fun condensed => textAtMost isBlankText [condensed]) =
      (condense? node).isNone := by
  cases condensed : condense? node with
  | none => rfl
  | some c =>
    cases hc : isLiteral c with
    | false => exact textAtMost_of_mem hc (List.mem_singleton_self _) _
    | true =>
      obtain ⟨text, rfl⟩ := exists_of_isLiteral hc
      -- only a list is condensed to a literal text that was none before
      cases node with
      | list delimiter items => exact isBlankText_of_condense?_list condensed
      | literal _ => cases h
      | conditional name success failure =>
        rw [condense?] at condensed
        rcases conditional?_cases name (condense success) (condenseBranch? failure) with
          ⟨-, -, left⟩ | ⟨-, kept⟩
        · rw [left] at condensed
          cases condensed
        · rw [kept] at condensed
          cases condensed
      | _ => cases condensed

theorem allBlank_cons {node : Node} (h : isLiteral node = false) (rest : List Node) :
    allBlank (node :: rest) = (isSilent node && allBlank rest) := by
  cases node with
  | literal text => cases h
  | _ => rfl

mutual

/-- Condensing leaves out the silent nodes, and no others. -/
theorem isNone_condense? : ∀ node : Node, (condense? node).isNone = isSilent node
  | .literal _ => rfl
  | .value _ => rfl
  | .fallback .. => rfl
  | .spread .. => rfl
  | .conditional name success failure => by
    rw [condense?, isSilent, ← isEmpty_condense success, ← isNone_condenseBranch? failure]
    rcases conditional?_cases name (condense success) (condenseBranch? failure) with
      ⟨empty, absent, left⟩ | ⟨something, kept⟩
    · rw [left, empty, absent]
      rfl
    · rw [kept, something]
      rfl
  | .list delimiter items => by
    rw [condense?, isSilent, ← isEmpty_condenseItems delimiter items]
    rcases list?_cases delimiter (condenseItems delimiter items) with
      ⟨none, left⟩ | ⟨text, single, literal⟩ | ⟨more, kept⟩
    · rw [left, none]
      rfl
    · rw [literal, single]
      rfl
    · rw [kept]
      cases condensed : condenseItems delimiter items with
      | nil =>
        rw [condensed] at more
        cases more
      | cons item others => rfl

theorem isEmpty_condense : ∀ nodes : List Node, (condense nodes).isEmpty = allSilent nodes
  | [] => rfl
  | node :: rest => by
    rw [allSilent, ← isNone_condense? node, ← isEmpty_condense rest, condense]
    cases condense? node with
    | none => rfl
    | some condensed =>
      rcases fuse_cases condensed (condense rest) with ⟨apart, -⟩ | ⟨_, _, _, -, -, one⟩
      · simp [apart]
      · simp [one]

theorem isNone_condenseBranch? :
    ∀ branch : Option (List Node), (condenseBranch? branch).isNone = branchSilent branch
  | none => rfl
  | some branch => by
    rw [condenseBranch?, branchSilent, ← isEmpty_condense branch]
    cases condense branch <;> rfl

theorem textAtMost_blank_condense :
    ∀ nodes : List Node, textAtMost isBlankText (condense nodes) = allBlank nodes
  | [] => rfl
  | node :: rest => by
    -- a blank text can be fused with blank texts only, so nodes are blank together if each is
    rw [textAtMost_condense_cons isBlankText_append, textAtMost_blank_condense rest]
    cases h : isLiteral node with
    | false => rw [all_blank_condense? h, isNone_condense? node, allBlank_cons h]
    | true =>
      obtain ⟨text, rfl⟩ := exists_of_isLiteral h
      rfl

theorem isEmpty_condenseItems (delimiter : Delimiter) :
    ∀ items : List (List Node), (condenseItems delimiter items).isEmpty = allItemsBlank items
  | [] => rfl
  | item :: rest => by
    rw [condenseItems_cons, allItemsBlank, ← textAtMost_blank_condense item,
      ← isEmpty_condenseItems delimiter rest]
    -- trimming looks at one node at either end, which is enough for nodes that are fused
    have left := trimItem_eq_nil_iff (fused_condense item)
    by_cases nothing : trimItem (condense item) = []
    · rw [if_pos nothing, left.mp nothing, Bool.true_and]
    · rw [if_neg nothing, eq_false_of_ne_true (mt left.mpr nothing), Bool.false_and]
      rcases fuseItem_cases delimiter (trimItem (condense item)) (condenseItems delimiter rest)
        with ⟨apart, -⟩ | ⟨_, _, _, -, -, one⟩
      · rw [apart]
        rfl
      · rw [one]
        rfl

end

mutual

/-- Condensing makes literal text of the fixed nodes that it does not leave out, and of no
others. -/
theorem literalAtMost_condense? : ∀ node : Node, literalAtMost (condense? node) = isFixed node
  | .literal _ => rfl
  | .value _ => rfl
  | .fallback .. => rfl
  | .spread .. => rfl
  | .conditional name success failure => by
    rw [isFixed, ← isNone_condense?, condense?]
    rcases conditional?_cases name (condense success) (condenseBranch? failure) with
      ⟨-, -, left⟩ | ⟨-, kept⟩
    · rw [left]
      rfl
    · rw [kept]
      rfl
  | .list delimiter items => by
    rw [condense?, literalAtMost_list?, isFixed, itemAtMost_condenseItems delimiter items]

theorem textAtMost_condense :
    ∀ nodes : List Node, textAtMost (fun _ => true) (condense nodes) = allFixed nodes
  | [] => rfl
  | node :: rest => by
    rw [textAtMost_condense_cons (fun _ _ => rfl), textAtMost_condense rest, allFixed,
      ← literalAtMost_condense? node]
    cases condense? node with
    | none => rfl
    | some condensed => cases condensed <;> rfl

theorem itemAtMost_condenseItems (delimiter : Delimiter) :
    ∀ items : List (List Node), itemAtMost (condenseItems delimiter items) = allItemsFixed items
  | [] => rfl
  | item :: rest => by
    rw [condenseItems_cons, allItemsFixed, ← itemAtMost_condenseItems delimiter rest,
      ← textAtMost_condense item, ← textAtMost_trimItem (fused_condense item)]
    by_cases nothing : trimItem (condense item) = []
    · rw [if_pos nothing, nothing]
      rfl
    · rw [if_neg nothing, itemAtMost_fuseItem, isSome_literal? nothing]

end

end Node

end SqlTemplate
