import Mathlib
import SqlTemplate.Proofs.Node.Derived
import SqlTemplate.Proofs.Query.Static
import SqlTemplate.Proofs.Token.Tiling

/-!
# Normal trees

Condensing comes to an end at once. What it gives is *normal* at every level (`Node.Normal`): no
literal text is empty or next to another one, no item of a list is empty or has blanks at its ends,
and nothing is left of a list or a conditional that need not be there. A normal tree stays as it is
(`Node.condense_of_normalIn`), so that condensing twice is condensing once.

Each operation of the pass keeps up what the ones before it made. Fusing and trimming are about the
ends of a list of nodes: literal text that is trimmed away leaves a node behind it that is none,
since no two of them were neighbours, and so there is nothing more to trim.
-/

namespace SqlTemplate

open SqlTemplate.Text

/-! ## Texts -/

namespace Text

/-- What a text stands for is not empty if the text is not. -/
theorem unescape_ne_nil {s : List Char} (h : s ≠ []) : unescape s ≠ [] := by
  have halved : ∀ (c : Char) (s : List Char), s ≠ [] → halve c s ≠ [] := by
    intro c s filled
    fun_cases halve c s with
    | case1 => exact List.cons_ne_nil _ _
    | case2 => exact List.cons_ne_nil _ _
    | case3 => exact List.cons_ne_nil _ _
    | case4 => exact absurd rfl filled
  rw [unescape]
  generalize doubled = marks
  induction marks generalizing s with
  | nil => exact h
  | cons c rest ih => exact ih (halved c s h)

/-- There is no blank in front of a text that was trimmed there. -/
theorem isBlank_head?_trimStartString (text : String) :
    ∀ c ∈ (trimStartString text).toList.head?, isBlank c = false := by
  intro c h
  rw [toList_trimStartString, trimStart] at h
  simpa [Option.mem_def.mp h] using List.head?_dropWhile_not isBlank text.toList

/-- There is no blank at the end of a text that was trimmed there. -/
theorem isBlank_getLast?_trimEndString (text : String) :
    ∀ c ∈ (trimEndString text).toList.getLast?, isBlank c = false := by
  intro c h
  rw [toList_trimEndString, trimEnd, List.getLast?_reverse] at h
  simpa [Option.mem_def.mp h] using List.head?_dropWhile_not isBlank text.toList.reverse

/-- Trimming the end of a text leaves its beginning, if it leaves anything. -/
theorem head?_trimEndString {text : String} {c : Char}
    (h : c ∈ (trimEndString text).toList.head?) : c ∈ text.toList.head? := by
  rw [toList_trimEndString] at h
  obtain ⟨taken, whole⟩ := List.rdropWhile_prefix isBlank (l := text.toList)
  rw [← whole]
  exact List.mem_head?_append_of_mem_head? h

/-- A text without a blank in front stays as it is when it is trimmed there. -/
theorem trimStartString_eq_self {text : String} (h : ∀ c ∈ text.toList.head?, isBlank c = false) :
    trimStartString text = text := by
  rw [← String.toList_inj, toList_trimStartString]
  cases chars : text.toList with
  | nil => rfl
  | cons c rest =>
    rw [chars] at h
    exact trimStart_cons_of_not_isBlank (h c rfl)

/-- A text without a blank at its end stays as it is when it is trimmed there. -/
theorem trimEndString_eq_self {text : String}
    (h : ∀ c ∈ text.toList.getLast?, isBlank c = false) : trimEndString text = text := by
  rw [← String.toList_inj, toList_trimEndString, trimEnd]
  rcases text.toList.eq_nil_or_concat' with chars | ⟨front, c, chars⟩
  · rw [chars]
    rfl
  · rw [chars] at h ⊢
    rw [List.reverse_concat, List.dropWhile_cons_of_neg (by simp [h c (List.getLast?_concat)]),
      List.reverse_cons, List.reverse_reverse]

end Text

namespace Node

/-! ## Normal form -/

/-- There is no blank at the ends of an item. -/
structure Trimmed (item : List Node) : Prop where
  /-- literal text that stands first does not begin with one -/
  front : ∀ text, item.head? = some (.literal text) →
    ∀ c ∈ text.toList.head?, isBlank c = false
  /-- literal text that stands last does not end with one -/
  back : ∀ text, item.getLast? = some (.literal text) →
    ∀ c ∈ text.toList.getLast?, isBlank c = false

/-- No two neighbours are each a single literal text. -/
def Apart (items : List (List Node)) : Prop :=
  items.IsChain fun item next => literal? item = none ∨ literal? next = none

mutual

/-- Whether there is nothing to condense in a node. -/
def Normal : Node → Prop
  | .literal text => text ≠ ""
  | .value _ => True
  | .fallback .. => True
  | .spread .. => True
  | .conditional _ success failure =>
    ¬(success = [] ∧ failure = none) ∧ NormalIn success ∧ NormalBranch failure
  | .list _ items => items ≠ [] ∧ (∀ text, items ≠ [[.literal text]]) ∧ NormalItems items

/-- Whether there is nothing to condense in nodes. -/
def NormalIn : List Node → Prop
  | [] => True
  | node :: rest => Fused (node :: rest) ∧ Normal node ∧ NormalIn rest

/-- Whether there is nothing to condense in the second branch of a conditional. -/
def NormalBranch : Option (List Node) → Prop
  | none => True
  | some branch => branch ≠ [] ∧ NormalIn branch

/-- Whether there is nothing to condense in the items of a list. -/
def NormalItems : List (List Node) → Prop
  | [] => True
  | item :: rest =>
    Apart (item :: rest) ∧ item ≠ [] ∧ Trimmed item ∧ NormalIn item ∧ NormalItems rest

end

/-- Nodes are normal if each of them is and no two neighbours are literal text. -/
theorem normalIn_iff {nodes : List Node} :
    NormalIn nodes ↔ Fused nodes ∧ ∀ node ∈ nodes, Normal node := by
  induction nodes with
  | nil => exact iff_of_true trivial ⟨List.isChain_nil, List.forall_mem_nil _⟩
  | cons node rest ih =>
    rw [NormalIn, ih, List.forall_mem_cons]
    exact ⟨fun ⟨fused, first, _, others⟩ => ⟨fused, first, others⟩,
      fun ⟨fused, first, others⟩ => ⟨fused, first, fused.tail, others⟩⟩

/-- Items are normal if each of them is and no two neighbours are literal text. -/
theorem normalItems_iff {items : List (List Node)} :
    NormalItems items ↔
      Apart items ∧ ∀ item ∈ items, item ≠ [] ∧ Trimmed item ∧ NormalIn item := by
  induction items with
  | nil => exact iff_of_true trivial ⟨List.isChain_nil, List.forall_mem_nil _⟩
  | cons item rest ih =>
    rw [NormalItems, ih, List.forall_mem_cons]
    exact ⟨fun ⟨apart, filled, trimmed, normal, _, others⟩ =>
        ⟨apart, ⟨filled, trimmed, normal⟩, others⟩,
      fun ⟨apart, ⟨filled, trimmed, normal⟩, others⟩ =>
        ⟨apart, filled, trimmed, normal, apart.tail, others⟩⟩

/-! ## What the operations keep up -/

theorem append_ne_empty {text : String} (h : text ≠ "") (more : String) : text ++ more ≠ "" := by
  rw [Ne, ← String.toList_inj, String.toList_append]
  intro empty
  exact h (String.toList_inj.mp (List.append_eq_nil_iff.mp empty).1)

/-- A normal node in front of normal nodes makes normal nodes. -/
theorem normalIn_fuse {node : Node} {behind : List Node} (h : Normal node)
    (k : NormalIn behind) : NormalIn (fuse node behind) := by
  obtain ⟨fused, others⟩ := normalIn_iff.mp k
  refine normalIn_iff.mpr ⟨fused_fuse node fused, ?_⟩
  rcases fuse_cases node behind with ⟨apart, -⟩ | ⟨text, more, rest, rfl, rfl, one⟩
  · rw [apart]
    exact List.forall_mem_cons.mpr ⟨h, others⟩
  · rw [one]
    exact List.forall_mem_cons.mpr
      ⟨append_ne_empty h more, fun node mem => others node (List.mem_cons_of_mem _ mem)⟩

/-- Trimming the back of an item leaves it as it is, or leaves out the blanks of the literal text
that stands last, or all of that. -/
theorem trimBack_cases (item : List Node) :
    trimBack item = item ∧ (∀ text, item.getLast? ≠ some (.literal text)) ∨
      ∃ front text, item = front ++ [.literal text] ∧
        (trimEndString text = "" ∧ trimBack item = front ∨
          trimEndString text ≠ "" ∧ trimBack item = front ++ [.literal (trimEndString text)]) := by
  fun_induction trimBack item with
  | case1 text blank => exact .inr ⟨[], text, rfl, .inl ⟨blank, rfl⟩⟩
  | case2 text left => exact .inr ⟨[], text, rfl, .inr ⟨left, rfl⟩⟩
  | case3 node rest other ih =>
    rcases ih with ⟨same, last⟩ | ⟨front, text, rfl, left⟩
    · refine .inl ⟨by rw [same], fun text => ?_⟩
      cases rest with
      | nil =>
        rintro ⟨⟩
        exact other text rfl rfl
      | cons next rest => exact last text
    · refine .inr ⟨node :: front, text, rfl, left.imp ?_ ?_⟩
      · rintro ⟨blank, gone⟩
        exact ⟨blank, by rw [gone]⟩
      · rintro ⟨filled, shorter⟩
        exact ⟨filled, by rw [shorter, List.cons_append]⟩
  | case4 => exact .inl ⟨rfl, fun text => (Option.some_ne_none _).symm⟩

/-- Behind literal text in front there is none. -/
theorem Fused.not_literal_next {text : String} {rest : List Node}
    (h : Fused (.literal text :: rest)) (other : String) :
    rest.head? ≠ some (.literal other) := by
  intro next
  obtain ⟨more, rfl⟩ := List.head?_eq_some_iff.mp next
  rcases (List.isChain_cons_cons.mp h).1 with first | second
  · cases first
  · cases second

/-- Before literal text at the back there is none. -/
theorem Fused.not_literal_before {text : String} {front : List Node}
    (h : Fused (front ++ [.literal text])) (other : String) :
    front.getLast? ≠ some (.literal other) := by
  intro last
  rcases (List.isChain_append.mp h).2.2 _ last _ rfl with first | second
  · cases first
  · cases second

/-- Whether literal text has literal text before it does not depend on the text. -/
theorem Fused.literal_back {text : String} {front : List Node}
    (h : Fused (front ++ [.literal text])) (other : String) :
    Fused (front ++ [.literal other]) := by
  obtain ⟨before, -, between⟩ := List.isChain_append.mp h
  refine List.isChain_append.mpr ⟨before, List.isChain_singleton _, ?_⟩
  rintro node last _ ⟨⟩
  exact between node last (.literal text) rfl

/-- Trimming the front of normal nodes leaves normal nodes, without a blank in front. -/
theorem normalIn_trimFront {item : List Node} (h : NormalIn item) :
    NormalIn (trimFront item) ∧ ∀ text, (trimFront item).head? = some (.literal text) →
      ∀ c ∈ text.toList.head?, isBlank c = false := by
  unfold trimFront
  split
  · rename_i text rest
    obtain ⟨fused, -, others⟩ := h
    split
    · exact ⟨others, fun other next => absurd next (fused.not_literal_next other)⟩
    · rename_i filled
      refine ⟨⟨fused.literal _, filled, others⟩, ?_⟩
      rintro _ ⟨⟩
      exact isBlank_head?_trimStartString text
  · rename_i other
    refine ⟨h, fun text first => ?_⟩
    obtain ⟨rest, rfl⟩ := List.head?_eq_some_iff.mp first
    exact absurd rfl (other text rest)

/-- Trimming the back of normal nodes without a blank in front leaves normal nodes that are
trimmed. -/
theorem normalIn_trimBack {item : List Node} (h : NormalIn item)
    (first : ∀ text, item.head? = some (.literal text) →
      ∀ c ∈ text.toList.head?, isBlank c = false) :
    NormalIn (trimBack item) ∧ Trimmed (trimBack item) := by
  rcases trimBack_cases item with ⟨same, last⟩ | ⟨front, text, rfl, ⟨-, gone⟩ | ⟨filled, shorter⟩⟩
  · rw [same]
    exact ⟨h, first, fun text literal => absurd literal (last text)⟩
  · obtain ⟨fused, each⟩ := normalIn_iff.mp h
    rw [gone]
    refine ⟨normalIn_iff.mpr ⟨(List.isChain_append.mp fused).1, fun node mem =>
      each node (List.mem_append_left _ mem)⟩, fun other head => ?_, fun other literal => ?_⟩
    · exact first other (List.mem_head?_append_of_mem_head? head)
    · exact absurd literal (fused.not_literal_before other)
  · obtain ⟨fused, each⟩ := normalIn_iff.mp h
    rw [shorter]
    refine ⟨normalIn_iff.mpr ⟨fused.literal_back _, fun node mem => ?_⟩, fun other head => ?_,
      fun other literal => ?_⟩
    · rcases List.mem_append.mp mem with before | last
      · exact each node (List.mem_append_left _ before)
      · rw [List.mem_singleton.mp last]
        exact filled
    · cases front with
      | nil =>
        -- what is left of a single text begins as the text does
        cases head
        exact fun c begins => first text rfl c (head?_trimEndString begins)
      | cons node front => exact first other head
    · rw [List.getLast?_concat] at literal
      cases literal
      exact isBlank_getLast?_trimEndString text

theorem normalIn_trimItem {item : List Node} (h : NormalIn item) :
    NormalIn (trimItem item) ∧ Trimmed (trimItem item) := by
  obtain ⟨normal, first⟩ := normalIn_trimFront h
  exact normalIn_trimBack normal first

theorem apart_fuseItem (delimiter : Delimiter) (item : List Node) {behind : List (List Node)}
    (h : Apart behind) : Apart (fuseItem delimiter item behind) := by
  rcases fuseItem_cases delimiter item behind with
    ⟨apart, other⟩ | ⟨text, more, rest, rfl, rfl, one⟩
  · rw [apart]
    cases behind with
    | nil => exact List.isChain_singleton _
    | cons next rest =>
      refine List.isChain_cons_cons.mpr ⟨?_, h⟩
      rcases other with none | item | ⟨_, _, same, next⟩
      · cases none
      · exact .inl item
      · cases same
        exact .inr next
  · rw [one]
    cases rest with
    | nil => exact List.isChain_singleton _
    | cons next rest =>
      obtain ⟨between, others⟩ := List.isChain_cons_cons.mp h
      refine List.isChain_cons_cons.mpr ⟨.inr ?_, others⟩
      rcases between with first | second
      · cases first
      · exact second

/-- Two texts with a delimiter between them begin as the first one and end as the second one. -/
theorem trimmed_literals {text more : String} (delimiter : Delimiter) (ht : text ≠ "")
    (hm : more ≠ "") (first : Trimmed [.literal text]) (second : Trimmed [.literal more]) :
    Trimmed [.literal (text ++ delimiter.text ++ more)] := by
  have front : text.toList ≠ [] := by simpa using ht
  have back : more.toList ≠ [] := by simpa using hm
  refine ⟨?_, ?_⟩
  · rintro _ ⟨⟩ c begins
    refine first.front text rfl c ?_
    rw [String.toList_append, String.toList_append, List.append_assoc,
      List.head?_append_of_ne_nil _ front] at begins
    exact begins
  · rintro _ ⟨⟩ c ends
    refine second.back more rfl c ?_
    rw [String.toList_append, List.getLast?_append_of_ne_nil _ back] at ends
    exact ends

/-- A normal item in front of normal items makes normal items. -/
theorem normalItems_fuseItem {delimiter : Delimiter} {item : List Node}
    {behind : List (List Node)} (filled : item ≠ []) (trimmed : Trimmed item)
    (normal : NormalIn item) (k : NormalItems behind) :
    NormalItems (fuseItem delimiter item behind) := by
  obtain ⟨apart, others⟩ := normalItems_iff.mp k
  refine normalItems_iff.mpr ⟨apart_fuseItem delimiter item apart, ?_⟩
  rcases fuseItem_cases delimiter item behind with
    ⟨same, -⟩ | ⟨text, more, rest, rfl, rfl, one⟩
  · rw [same]
    exact List.forall_mem_cons.mpr ⟨⟨filled, trimmed, normal⟩, others⟩
  · rw [one]
    obtain ⟨⟨-, next, nextNormal⟩, rest⟩ := List.forall_mem_cons.mp others
    have first : text ≠ "" := normal.2.1
    have second : more ≠ "" := nextNormal.2.1
    refine List.forall_mem_cons.mpr ⟨⟨List.cons_ne_nil _ _, ?_, ?_⟩, rest⟩
    · exact trimmed_literals delimiter first second trimmed next
    · exact ⟨List.isChain_singleton _, append_ne_empty (append_ne_empty first _) _, trivial⟩

/-! ## What condensing gives -/

/-- No literal text in nodes is empty. -/
def Texted (nodes : List Node) : Prop := ∀ text, .literal text ∈ lexemesIn nodes → text ≠ ""

mutual

/-- What a node is condensed to is normal, if no literal text in it is empty. -/
theorem normal_condense? : ∀ node : Node, (∀ text, .literal text ∈ lexemes node → text ≠ "") →
    ∀ condensed ∈ condense? node, Normal condensed
  | .literal text, h, _, rfl => h text (List.mem_singleton_self _)
  | .value _, _, _, rfl => trivial
  | .fallback .., _, _, rfl => trivial
  | .spread .., _, _, rfl => trivial
  | .conditional name success failure, h, condensed, mem => by
    have first : Texted success := fun text here => h text (by simp [lexemes, here])
    rw [condense?] at mem
    rcases conditional?_cases name (condense success) (condenseBranch? failure) with
      ⟨-, -, left⟩ | ⟨something, kept⟩
    · rw [left] at mem
      cases mem
    · rw [kept] at mem
      cases mem
      refine ⟨?_, normalIn_condense success first, normalBranch_condenseBranch? failure ?_⟩
      · rintro ⟨empty, absent⟩
        rw [empty, absent] at something
        cases something
      · exact fun text here => h text (by simp [lexemes, here])
  | .list delimiter items, h, condensed, mem => by
    have normal := normalItems_condenseItems delimiter items
      fun text here => h text (by simp [lexemes, here])
    rw [condense?] at mem
    rcases list?_cases delimiter (condenseItems delimiter items) with
      ⟨-, left⟩ | ⟨text, single, literal⟩ | ⟨more, kept⟩
    · rw [left] at mem
      cases mem
    · -- the text of a list that is a single literal is not empty, since its item is normal
      rw [literal] at mem
      cases mem
      rw [single] at normal
      exact (normalItems_iff.mp normal).2 _ (List.mem_singleton_self _) |>.2.2.2.1
    · rw [kept] at mem
      cases mem
      refine ⟨?_, fun text => ?_, normal⟩
      · intro empty
        rw [empty] at more
        cases more
      · intro single
        rw [single] at more
        cases more

/-- What nodes are condensed to is normal, if no literal text in them is empty. -/
theorem normalIn_condense : ∀ nodes : List Node, Texted nodes → NormalIn (condense nodes)
  | [], _ => trivial
  | node :: rest, h => by
    have behind := normalIn_condense rest fun text here => h text (List.mem_append_right _ here)
    have first := normal_condense? node fun text here => h text (List.mem_append_left _ here)
    rw [condense]
    cases condensed : condense? node with
    | none => exact behind
    | some kept => exact normalIn_fuse (first kept condensed) behind

theorem normalBranch_condenseBranch? : ∀ branch : Option (List Node),
    (∀ text, .literal text ∈ lexemesInBranch branch → text ≠ "") →
      NormalBranch (condenseBranch? branch)
  | none, _ => trivial
  | some branch, h => by
    have normal := normalIn_condense branch fun text here =>
      h text (by simp [lexemesInBranch, here])
    rw [condenseBranch?]
    cases condensed : condense branch with
    | nil => trivial
    | cons node rest =>
      rw [condensed] at normal
      exact ⟨List.cons_ne_nil _ _, normal⟩

/-- What the items of a list are condensed to is normal, if no literal text in them is empty. -/
theorem normalItems_condenseItems (delimiter : Delimiter) : ∀ items : List (List Node),
    (∀ text, .literal text ∈ lexemesInItems items → text ≠ "") →
      NormalItems (condenseItems delimiter items)
  | [], _ => trivial
  | item :: rest, h => by
    have behind := normalItems_condenseItems delimiter rest
      fun text here => h text (List.mem_append_right _ here)
    have normal := normalIn_condense item fun text here => h text (List.mem_append_left _ here)
    obtain ⟨normal, trimmed⟩ := normalIn_trimItem normal
    rw [condenseItems_cons]
    split
    · exact behind
    · rename_i filled
      exact normalItems_fuseItem filled trimmed normal behind

end

/-! ## Normal trees stay -/

theorem fuse_of_fused {node : Node} {rest : List Node} (h : Fused (node :: rest)) :
    fuse node rest = node :: rest := by
  rcases fuse_cases node rest with ⟨apart, -⟩ | ⟨text, more, others, rfl, rfl, -⟩
  · exact apart
  · exact absurd rfl (h.not_literal_next more)

theorem fuseItem_of_apart {delimiter : Delimiter} {item : List Node} {rest : List (List Node)}
    (h : Apart (item :: rest)) : fuseItem delimiter item rest = item :: rest := by
  cases rest with
  | nil => exact fuseItem_nil delimiter item
  | cons next rest => exact fuseItem_cons (List.isChain_cons_cons.mp h).1

/-- A normal item that is trimmed has nothing to trim. -/
theorem trimItem_eq_self {item : List Node} (normal : NormalIn item) (h : Trimmed item) :
    trimItem item = item := by
  have front : trimFront item = item := by
    unfold trimFront
    split
    · rename_i text rest
      rw [trimStartString_eq_self (h.front text rfl), if_neg normal.2.1]
    · rfl
  rw [trimItem, front]
  rcases trimBack_cases item with ⟨same, -⟩ | ⟨before, text, rfl, left⟩
  · exact same
  · have same := trimEndString_eq_self (h.back text List.getLast?_concat)
    have filled : text ≠ "" := (normalIn_iff.mp normal).2 (.literal text)
      (List.mem_append_right _ (List.mem_singleton_self _))
    rw [same] at left
    rcases left with ⟨empty, -⟩ | ⟨-, kept⟩
    · exact absurd empty filled
    · exact kept

mutual

/-- A normal node is condensed to itself. -/
theorem condense?_of_normal : ∀ node : Node, Normal node → condense? node = some node
  | .literal _, _ => rfl
  | .value _, _ => rfl
  | .fallback .., _ => rfl
  | .spread .., _ => rfl
  | .conditional name success failure, ⟨something, first, second⟩ => by
    rw [condense?, condense_of_normalIn success first, condenseBranch?_of_normal failure second]
    rcases conditional?_cases name success failure with ⟨empty, absent, -⟩ | ⟨-, kept⟩
    · exact absurd ⟨empty, absent⟩ something
    · exact kept
  | .list delimiter items, ⟨filled, more, normal⟩ => by
    rw [condense?, condenseItems_of_normal delimiter items normal]
    rcases list?_cases delimiter items with ⟨empty, -⟩ | ⟨text, single, -⟩ | ⟨-, kept⟩
    · exact absurd empty filled
    · exact absurd single (more text)
    · exact kept

/-- Normal nodes are condensed to themselves. -/
theorem condense_of_normalIn : ∀ nodes : List Node, NormalIn nodes → condense nodes = nodes
  | [], _ => rfl
  | node :: rest, ⟨fused, first, others⟩ => by
    rw [condense, condense?_of_normal node first, condense_of_normalIn rest others]
    exact fuse_of_fused fused

theorem condenseBranch?_of_normal : ∀ branch : Option (List Node), NormalBranch branch →
    condenseBranch? branch = branch
  | none, _ => rfl
  | some branch, ⟨filled, normal⟩ => by
    rw [condenseBranch?, condense_of_normalIn branch normal]
    cases branch with
    | nil => exact absurd rfl filled
    | cons node rest => rfl

theorem condenseItems_of_normal (delimiter : Delimiter) : ∀ items : List (List Node),
    NormalItems items → condenseItems delimiter items = items
  | [], _ => rfl
  | item :: rest, ⟨apart, filled, trimmed, normal, others⟩ => by
    rw [condenseItems_cons, condense_of_normalIn item normal, trimItem_eq_self normal trimmed,
      if_neg filled, condenseItems_of_normal delimiter rest others]
    exact fuseItem_of_apart apart

end

/-! ## Trees of templates -/

/-- The tree of a template has no empty literal text: a token takes at least one character. -/
theorem texted_of_read {template : String} {tree : List Node}
    (read : Node.read template = .ok tree) : Texted tree := by
  rintro _ mem rfl
  rw [Grammar.lexemesIn_eq (read_eq_ok_iff.mp read).1, Grammar.kept] at mem
  obtain ⟨l, kept, unescaped⟩ := List.mem_map.mp mem
  obtain ⟨t, token, rfl⟩ := List.mem_map.mp (List.mem_of_mem_filter kept)
  have tiles := Scan.tiles_segments false 0 template.toList
  obtain ⟨before, slice, behind, -, filled, -, -, spelled⟩ := tiles.exists_slice token
  obtain ⟨l, offset, length⟩ := t
  cases l with
  | literal text =>
    have empty : unescapeString text = "" := Lexeme.literal.inj unescaped
    cases spelled
    rw [← String.toList_inj, toList_unescapeString, String.toList_ofList] at empty
    exact unescape_ne_nil filled empty
  | _ => cases unescaped

/-- A survey of a normal tree gives the tree, and what can be told from it. -/
theorem survey_of_normalIn {nodes : List Node} (h : NormalIn nodes) :
    survey nodes .start = (nodes, ⟨allStatic nodes, keys nodes⟩) := by
  rw [survey_start, condense_of_normalIn nodes h]

/-- Condensing the tree of a template comes to a normal form and stops there. The condensed tree is
normal, and a normal tree is condensed to itself. Whatever tree was condensed to it, the same is
found in it: whether it is static, and its keys. So condensing twice is condensing once. -/
theorem survey_normal {template : String} {tree : List Node} (h : read template = .ok tree) :
    NormalIn (survey tree .start).1 ∧
    survey (survey tree .start).1 .start = survey tree .start ∧
    ∀ nodes, NormalIn nodes →
      survey nodes .start = (nodes, ⟨allStatic nodes, keys nodes⟩) ∧
      ∀ other, (survey other .start).1 = nodes → survey other .start = survey nodes .start := by
  have normal : NormalIn (survey tree .start).1 := by
    rw [survey_fst]
    exact normalIn_condense tree (texted_of_read h)
  have same : ∀ nodes, NormalIn nodes → ∀ other, (survey other .start).1 = nodes →
      survey other .start = survey nodes .start := by
    rintro _ normal other rfl
    rw [survey_of_normalIn normal, survey_fst, survey_start]
  exact ⟨normal, (same _ normal tree rfl).symm, fun nodes normal =>
    ⟨survey_of_normalIn normal, same nodes normal⟩⟩

/-- A list that folds to literal text in a list, which then folds too and joins the text before
it. -/
theorem survey_normal_nested : ∃ tree nodes,
    read "@y (&)[ (,)[a; b]; @x?{(|)[;]} c ]" = .ok tree ∧
    nodes = [.value "y", .literal " a, b AND c"] ∧ NormalIn nodes ∧
    survey nodes .start = (nodes, ⟨true, ["y"]⟩) ∧ survey tree .start = survey nodes .start := by
  have done : read "@y (&)[ (,)[a; b]; @x?{(|)[;]} c ]" = .ok
      [.value "y", .literal " ", .list .and
        [[.list .comma [[.literal "a"], [.literal "b"]]],
          [.conditional "x" [.list .or []] none, .literal " c"]]] := by
    cbv
  obtain ⟨normal, -, stays⟩ := survey_normal done
  have condensed : (survey [.value "y", .literal " ", .list .and
      [[.list .comma [[.literal "a"], [.literal "b"]]],
        [.conditional "x" [.list .or []] none, .literal " c"]]] .start).1 =
      [.value "y", .literal " a, b AND c"] := by
    cbv
  rw [condensed] at normal
  obtain ⟨found, same⟩ := stays _ normal
  exact ⟨_, _, done, rfl, normal, found, same _ condensed⟩

end Node

end SqlTemplate
