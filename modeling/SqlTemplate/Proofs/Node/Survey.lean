import SqlTemplate.Proofs.Node.Fixed

/-!
# What a survey finds

A survey condenses a tree and collects findings in one walk, while the findings are about the tree
that comes out of it. Here the two are taken apart: a survey gives the condensed tree, together with
what can be told from that tree alone (`Node.survey_eq`). Nothing that is moved, fused, trimmed or
left out on the way was found and should not have been, or the other way round.

* Fusing and trimming touch literal text only, in which there is nothing to find.
* A conditional that is left out has nothing in its branches, and its own name is not met.
-/

namespace SqlTemplate

namespace Node

namespace Findings

/-! ## Findings that are added -/

/-- Adds a name to names that were met, unless it is one of them. -/
def note (keys : List String) (name : String) : List String :=
  if name ∈ keys then keys else keys ++ [name]

/-- Adds what was found in a part of a template: whether it is static, and the names in it. -/
def adding (f : Findings) (isStatic : Bool) (names : List String) : Findings :=
  ⟨f.isStatic && isStatic, names.foldl note f.keys⟩

theorem meet_eq (f : Findings) (name : String) : f.meet name = f.adding true [name] := by
  by_cases met : name ∈ f.keys
  · simp [meet, adding, note, met]
  · simp [meet, adding, note, met]

theorem meetVarying_eq (f : Findings) (name : String) :
    f.meetVarying name = f.adding false [name] := by
  rw [meetVarying, meet_eq]
  simp [adding]

@[simp] theorem adding_nothing (f : Findings) : f.adding true [] = f := by
  simp [adding]

@[simp] theorem adding_adding (f : Findings) (s t : Bool) (names more : List String) :
    (f.adding s names).adding t more = f.adding (s && t) (names ++ more) := by
  simp [adding, Bool.and_assoc]

/-- Names that are added to others are those that are not among them, each once, in the order in
which they are first met. -/
theorem foldl_note (names keys : List String) :
    names.foldl note keys = keys ++ (names.removeAll keys).eraseDups := by
  induction names generalizing keys with
  | nil => simp [List.removeAll]
  | cons name rest ih =>
    rw [List.foldl_cons, ih, note]
    by_cases met : name ∈ keys
    · rw [if_pos met, List.cons_removeAll, if_neg (by simp [met])]
    · -- the name is new: what is left of the others is what is left with the name among the keys
      have left : (rest.removeAll keys).filter (fun other => !other == name) =
          rest.removeAll (keys ++ [name]) := by
        rw [List.removeAll, List.removeAll, List.filter_filter]
        refine List.filter_congr fun other _ => ?_
        by_cases same : other = name <;> simp [same]
      rw [if_neg met, List.cons_removeAll, if_pos (by simp [met]), List.eraseDups_cons, left]
      simp

end Findings

/-! ## What there is to find in a condensed tree -/

/-- Fusing nodes leaves what is found in them. -/
theorem allStatic_fuse (node : Node) (behind : List Node) :
    allStatic (fuse node behind) = (isStatic node && allStatic behind) := by
  rcases fuse_cases node behind with ⟨apart, -⟩ | ⟨_, _, _, rfl, rfl, one⟩
  · rw [apart, allStatic]
  · rw [one]
    rfl

theorem namesIn_fuse (node : Node) (behind : List Node) :
    namesIn (fuse node behind) = names node ++ namesIn behind := by
  rcases fuse_cases node behind with ⟨apart, -⟩ | ⟨_, _, _, rfl, rfl, one⟩
  · rw [apart, namesIn]
  · rw [one]
    rfl

/-- Trimming an item leaves what is found in it. -/
theorem found_trimItem (item : List Node) :
    allStatic (trimItem item) = allStatic item ∧ namesIn (trimItem item) = namesIn item := by
  have front : allStatic (trimFront item) = allStatic item ∧
      namesIn (trimFront item) = namesIn item := by
    rcases trimFront_cases item with same | ⟨text, rest, rfl, ⟨-, none⟩ | shorter⟩
    · rw [same]
      exact ⟨rfl, rfl⟩
    · rw [none]
      exact ⟨rfl, rfl⟩
    · rw [shorter]
      exact ⟨rfl, rfl⟩
  have back : ∀ nodes : List Node, allStatic (trimBack nodes) = allStatic nodes ∧
      namesIn (trimBack nodes) = namesIn nodes := by
    intro nodes
    fun_induction trimBack nodes with
    | case1 => exact ⟨rfl, rfl⟩
    | case2 => exact ⟨rfl, rfl⟩
    | case3 node rest _ ih =>
      rw [allStatic, namesIn, ih.1, ih.2]
      exact ⟨rfl, rfl⟩
    | case4 => exact ⟨rfl, rfl⟩
  exact ⟨(back _).1.trans front.1, (back _).2.trans front.2⟩

/-- Putting an item in front of others leaves what is found in them. -/
theorem found_fuseItem (delimiter : Delimiter) (item : List Node) (behind : List (List Node)) :
    allItemsStatic (fuseItem delimiter item behind) = (allStatic item && allItemsStatic behind) ∧
      namesInItems (fuseItem delimiter item behind) = namesIn item ++ namesInItems behind := by
  rcases fuseItem_cases delimiter item behind with ⟨apart, -⟩ | ⟨_, _, _, rfl, rfl, one⟩
  · rw [apart]
    exact ⟨rfl, rfl⟩
  · rw [one]
    exact ⟨rfl, rfl⟩

/-- What is found in the items of a list is found in what it is condensed to. -/
theorem found_list? (delimiter : Delimiter) (items : List (List Node)) :
    (list? delimiter items).all isStatic = allItemsStatic items ∧
      (list? delimiter items).elim [] names = namesInItems items := by
  rcases list?_cases delimiter items with ⟨rfl, left⟩ | ⟨text, rfl, literal⟩ | ⟨-, kept⟩
  · rw [left]
    exact ⟨rfl, rfl⟩
  · rw [literal]
    exact ⟨rfl, rfl⟩
  · rw [kept]
    exact ⟨rfl, rfl⟩

/-! ## Surveys -/

mutual

/-- Surveying a node condenses it, and finds what is in the condensed node. -/
theorem survey?_eq : ∀ (node : Node) (f : Findings),
    survey? node f = (condense? node,
      f.adding ((condense? node).all isStatic) ((condense? node).elim [] names))
  | .literal _, f => congrArg (Prod.mk _) f.adding_nothing.symm
  | .value name, f => congrArg (Prod.mk _) (f.meet_eq name)
  | .fallback name _, f => congrArg (Prod.mk _) (f.meetVarying_eq name)
  | .spread name _, f => congrArg (Prod.mk _) (f.meetVarying_eq name)
  | .conditional name success failure, f => by
    simp only [survey?, survey_eq success, surveyBranch?_eq failure, condense?]
    rcases conditional?_cases name (condense success) (condenseBranch? failure) with
      ⟨empty, absent, -⟩ | ⟨-, kept⟩
    · simp [empty, absent, conditional?, allStatic, namesIn, namesInBranch]
    · simp [kept, Findings.meetVarying_eq, names, isStatic]
  | .list delimiter items, f => by
    rw [survey?, surveyItems_eq delimiter items f, condense?]
    simp [found_list?]

/-- Surveying a list of nodes condenses it, and finds what is in the condensed nodes. -/
theorem survey_eq : ∀ (nodes : List Node) (f : Findings),
    survey nodes f =
      (condense nodes, f.adding (allStatic (condense nodes)) (namesIn (condense nodes)))
  | [], f => congrArg (Prod.mk _) f.adding_nothing.symm
  | node :: rest, f => by
    simp only [survey, survey?_eq node, survey_eq rest, condense]
    cases condense? node with
    | none => simp
    | some condensed => simp [allStatic_fuse, namesIn_fuse]

theorem surveyBranch?_eq : ∀ (branch : Option (List Node)) (f : Findings),
    surveyBranch? branch f = (condenseBranch? branch,
      f.adding ((condenseBranch? branch).all allStatic) (namesInBranch (condenseBranch? branch)))
  | none, f => congrArg (Prod.mk _) f.adding_nothing.symm
  | some branch, f => by
    rw [surveyBranch?, survey_eq branch f, condenseBranch?]
    cases condense branch with
    | nil => rfl
    | cons node rest => rfl

/-- Surveying the items of a list condenses them, and finds what is in the condensed items. -/
theorem surveyItems_eq (delimiter : Delimiter) : ∀ (items : List (List Node)) (f : Findings),
    surveyItems delimiter items f = (condenseItems delimiter items,
      f.adding (allItemsStatic (condenseItems delimiter items))
        (namesInItems (condenseItems delimiter items)))
  | [], f => congrArg (Prod.mk _) f.adding_nothing.symm
  | item :: rest, f => by
    simp only [surveyItems, survey_eq item, surveyItems_eq delimiter rest, condenseItems]
    -- what was found before the item was trimmed is in what is left of it
    rw [← (found_trimItem (condense item)).1, ← (found_trimItem (condense item)).2]
    cases trimItem (condense item) with
    | nil => simp [allStatic, namesIn]
    | cons node others => simp [found_fuseItem]

end

/-- The tree that a survey gives is the condensed tree. -/
@[simp] theorem survey_fst (nodes : List Node) (f : Findings) :
    (survey nodes f).1 = condense nodes := by
  rw [survey_eq]

/-- A template is static if its condensed tree is. -/
theorem isStatic_survey (nodes : List Node) :
    (survey nodes .start).2.isStatic = allStatic (condense nodes) := by
  simp [survey_eq, Findings.adding, Findings.start]

/-- The keys of a template are the names in its condensed tree, each once, where it is first met. -/
theorem keys_survey (nodes : List Node) :
    (survey nodes .start).2.keys = keys (condense nodes) := by
  simp [survey_eq, Findings.adding, Findings.start, Findings.foldl_note, keys]

end Node

end SqlTemplate
