import Mathlib.Data.List.Nodup
import SqlTemplate.Proofs.Statement.Account

/-!
# The points of a render

A render goes through many drafts, and what is said of the statement at the end is true of each of
them. The *points* of a render are the drafts between its steps: after each text and each reference,
after a delimiter that goes before an item, and after the text of an empty item has been cut off
again (`Node.points`). They end with the draft that the statement is made of (`Node.last_points`),
or where a mismatch ends the render.

At each point the bindings of the mentions so far account for what the draft holds
(`Draft.AccountedBy`): the texts that are kept are the placeholders of numbers that follow one
another, the numbers are those of the values, and each binding has the values of its name in its
place. From one point to the next, bindings are added and none is changed. At the end every number
is in the text: an item with a placeholder in it is not empty, so none is left out of a list with a
value that it has bound (`Node.points_accounted`).
-/

namespace SqlTemplate

/-! ## What bindings account for -/

namespace Binding

variable {arguments : Value}

/-- The numbers of bindings that are numbered from `n` on follow one another. -/
theorem flatMap_numbers (arguments : Value) (n : Nat) (met : List Mention) :
    (numbered arguments n met).flatMap numbers =
      List.range' n (met.flatMap (Mention.values arguments)).length := by
  induction met generalizing n with
  | nil => rfl
  | cons m rest ih =>
    rw [numbered, List.flatMap_cons, ih, List.flatMap_cons, List.length_append,
      ← List.range'_append_1]
    rfl

theorem values_of_mem_numbered {b : Binding} {n : Nat} {met : List Mention}
    (h : b ∈ numbered arguments n met) : b.values = b.mention.values arguments := by
  induction met generalizing n with
  | nil => cases h
  | cons m rest ih =>
    rcases List.mem_cons.mp h with rfl | h
    · rfl
    · exact ih h

/-- The values of a binding are those at its numbers. -/
theorem take_drop_of_mem_numbered {b : Binding} {n : Nat} {met : List Mention}
    (h : b ∈ numbered arguments n met) :
    n ≤ b.first ∧ ((met.flatMap (Mention.values arguments)).drop (b.first - n)).take
      b.values.length = b.values := by
  induction met generalizing n with
  | nil => cases h
  | cons m rest ih =>
    rcases List.mem_cons.mp h with rfl | h
    · simp
    · obtain ⟨later, place⟩ := ih h
      refine ⟨by omega, ?_⟩
      have skip : b.first - n = (m.values arguments).length +
          (b.first - (n + (m.values arguments).length)) := by omega
      rw [List.flatMap_cons, skip, List.drop_length_add_append]
      exact place

/-- The placeholders of a binding are in what its name is written with. -/
theorem mem_pieces {b : Binding} {n : Nat} (h : n ∈ b.numbers) : .placeholder n ∈ b.pieces := by
  obtain ⟨mention, first, values⟩ := b
  cases mention with
  | whole name => exact List.mem_map_of_mem h
  | spread name delimiter =>
    refine Piece.mem_between (List.mem_singleton_self _) delimiter ?_
    exact List.mem_map_of_mem (f := fun n => [Piece.placeholder n]) h

/-- A name that is bound is written as its binding says. -/
theorem writtenAs_of_mem {b : Binding} {met : List Mention} (h : b ∈ bindings arguments met) :
    writtenAs arguments met b.name = b.pieces := by
  have names : ((bindings arguments met).map name).Nodup := by
    rw [names_bindings]
    exact Mention.nodup_names_firsts met
  have found : ((bindings arguments met).find? fun other => other.name = b.name).isSome = true := by
    rw [List.find?_isSome]
    exact ⟨b, h, by simp⟩
  obtain ⟨other, ho⟩ := Option.isSome_iff_exists.mp found
  -- a lookup finds the first binding of a name, and a name has one binding only
  have same : other = b := List.inj_on_of_nodup_map names (List.mem_of_find?_eq_some ho) h
    (by simpa using List.find?_some ho)
  rw [writtenAs, ho, same]
  rfl

end Binding

/-- What a draft holds is accounted for by bindings. -/
structure Draft.AccountedBy (d : Draft) (arguments : Value) (bs : List Binding) : Prop where
  /-- the texts that are kept are those of the bindings, in order -/
  bound_eq : d.bound = bs.map fun b => (b.name, b.text)
  /-- no name is bound twice -/
  nodup_names : (bs.map Binding.name).Nodup
  /-- the numbers of the bindings are those of the values, in order -/
  numbers_eq : bs.flatMap Binding.numbers = List.range' 1 d.values.length
  /-- a binding has the value of its name, or the elements of its list -/
  values_eq : ∀ b ∈ bs, b.values = b.mention.values arguments
  /-- the values of a binding are those at its numbers -/
  values_at : ∀ b ∈ bs, (d.values.drop (b.first - 1)).take b.values.length = b.values

/-- A draft with the ledger of mentions is accounted for by their bindings. -/
theorem Draft.accountedBy_bindings {d : Draft} {arguments : Value} {met : List Mention}
    (h : d.ledger = ledgerOf arguments met) : d.AccountedBy arguments (bindings arguments met) := by
  have values : d.values = boundValues arguments met := congrArg Ledger.values h
  refine ⟨congrArg Ledger.bound h, ?_, ?_, ?_, ?_⟩
  · rw [names_bindings]
    exact Mention.nodup_names_firsts met
  · rw [values]
    exact Binding.flatMap_numbers arguments 1 (Mention.firsts met)
  · intro b hb
    exact Binding.values_of_mem_numbered hb
  · intro b hb
    rw [values]
    exact (Binding.take_drop_of_mem_numbered hb).2

/-! ## The drafts that a render goes through -/

namespace Node

/-- What comes after a step of a render, unless it ended the render. -/
def following (step : Except Mismatch Draft) (next : Draft → List Draft) : List Draft :=
  match step with
  | .ok d => next d
  | .error _ => []

mutual

/-- The drafts that a render of a node goes through behind a draft. -/
def drafts (arguments : Value) : Node → Draft → List Draft
  | .literal text, d => [d.write text]
  | .value name, d => [d.reference arguments name]
  | .fallback name word, d =>
    match arguments.present? name with
    | none => [d.write word]
    | some _ => [d.reference arguments name]
  | .conditional name success failure, d =>
    match arguments.present? name with
    | some _ => draftsAll arguments success d
    | none => draftsBranch arguments failure d
  | .spread name delimiter, d => following (d.spread arguments name delimiter) fun after => [after]
  | .list delimiter items, d => draftsItems arguments delimiter items false d

/-- The drafts that a render of nodes goes through. -/
def draftsAll (arguments : Value) : List Node → Draft → List Draft
  | [], _ => []
  | node :: rest, d =>
    drafts arguments node d ++
      following (render arguments node d) fun after => draftsAll arguments rest after

/-- The drafts that a render of the second branch of a conditional goes through. -/
def draftsBranch (arguments : Value) : Option (List Node) → Draft → List Draft
  | none, _ => []
  | some branch, d => draftsAll arguments branch d

/-- The drafts that a render of the items of a list goes through. -/
def draftsItems (arguments : Value) (delimiter : Delimiter) :
    List (List Node) → Bool → Draft → List Draft
  | [], _, _ => []
  | item :: rest, wrote, d =>
    d.opened delimiter wrote :: (draftsAll arguments item (d.opened delimiter wrote) ++
      following (renderAll arguments item (d.opened delimiter wrote)) fun after =>
        if (d.opened delimiter wrote).wroteNothing after then
          { after with text := d.text } ::
            draftsItems arguments delimiter rest wrote { after with text := d.text }
        else draftsItems arguments delimiter rest true after)

end

/-- The points of a render that starts with an empty draft. -/
def points (arguments : Value) (nodes : List Node) : List Draft :=
  .empty :: draftsAll arguments nodes .empty

/-! ### Where the points end -/

theorem getLastD_append (first second : List Draft) (d : Draft) :
    (first ++ second).getLastD d = second.getLastD (first.getLastD d) := by
  cases second with
  | nil => simp
  | cons e rest => simp [List.getLastD_eq_getLast?, List.getLast?_append]

mutual

/-- A render of a node ends with the last draft that it goes through. -/
theorem getLastD_drafts (arguments : Value) : ∀ (node : Node) {d after : Draft},
    render arguments node d = .ok after → (drafts arguments node d).getLastD d = after
  | .literal _, _, _, ok => Except.ok.inj ok
  | .value _, _, _, ok => Except.ok.inj ok
  | .fallback name _, _, _, ok => by
    simp only [render, drafts] at ok ⊢
    rcases present : arguments.present? name with _ | found
    · rw [present] at ok
      exact Except.ok.inj ok
    · rw [present] at ok
      exact Except.ok.inj ok
  | .conditional name success failure, _, _, ok => by
    simp only [render, drafts] at ok ⊢
    rcases present : arguments.present? name with _ | found
    · rw [present] at ok
      exact getLastD_draftsBranch arguments failure ok
    · rw [present] at ok
      exact getLastD_draftsAll arguments success ok
  | .spread name delimiter, d, _, ok => by
    have step : d.spread arguments name delimiter = .ok _ := ok
    rw [drafts, step]
    rfl
  | .list delimiter items, _, _, ok => getLastD_draftsItems arguments delimiter items ok

theorem getLastD_draftsAll (arguments : Value) : ∀ (nodes : List Node) {d after : Draft},
    renderAll arguments nodes d = .ok after → (draftsAll arguments nodes d).getLastD d = after
  | [], _, _, ok => Except.ok.inj ok
  | node :: rest, d, _, ok => by
    rw [renderAll_cons] at ok
    obtain ⟨next, step, ok⟩ := bind_eq_ok ok
    rw [draftsAll, getLastD_append, getLastD_drafts arguments node step, step]
    exact getLastD_draftsAll arguments rest ok

theorem getLastD_draftsBranch (arguments : Value) :
    ∀ (branch : Option (List Node)) {d after : Draft},
      renderBranch arguments branch d = .ok after →
        (draftsBranch arguments branch d).getLastD d = after
  | none, _, _, ok => Except.ok.inj ok
  | some branch, _, _, ok => getLastD_draftsAll arguments branch ok

theorem getLastD_draftsItems (arguments : Value) (delimiter : Delimiter) :
    ∀ (items : List (List Node)) {wrote : Bool} {d after : Draft},
      renderItems arguments delimiter items wrote d = .ok after →
        (draftsItems arguments delimiter items wrote d).getLastD d = after
  | [], _, _, _, ok => Except.ok.inj ok
  | item :: rest, wrote, d, _, ok => by
    rw [renderItems_cons] at ok
    obtain ⟨next, step, ok⟩ := bind_eq_ok ok
    rw [draftsItems, List.getLastD_cons, getLastD_append, getLastD_draftsAll arguments item step,
      step, following]
    by_cases nothing : (d.opened delimiter wrote).wroteNothing next = true
    · rw [if_pos nothing] at ok ⊢
      rw [List.getLastD_cons]
      exact getLastD_draftsItems arguments delimiter rest ok
    · rw [if_neg nothing] at ok ⊢
      exact getLastD_draftsItems arguments delimiter rest ok

end

/-- The points of a render end with the draft that the statement is made of. -/
theorem last_points {nodes : List Node} {arguments : Value} {s : Statement}
    (h : toStatement nodes arguments = .ok s) :
    ∃ d, (points arguments nodes).getLast? = some d ∧ s = ⟨d.text, d.values⟩ := by
  obtain ⟨d, run, made⟩ := bind_eq_ok h
  refine ⟨d, ?_, (Except.ok.inj made).symm⟩
  rw [points, List.getLast?_cons, ← getLastD_draftsAll arguments nodes run,
    List.getLastD_eq_getLast?]

/-! ## Points that are accounted for -/

/-- Drafts that a render goes through behind mentions, on its way to more of them. -/
structure Course (arguments : Value) (met ms : List Mention) (ds : List Draft) : Prop where
  /-- each draft has the ledger of some of the mentions -/
  ledger : ∀ d ∈ ds, ∃ part, part <+: ms ∧ d.ledger = ledgerOf arguments (met ++ part)
  /-- what is bound in a draft stays bound in those behind it -/
  steady : ds.Pairwise fun earlier later => earlier.bound <+: later.bound

theorem isPrefix_boundTexts {arguments : Value} {met more : List Mention} (h : met <+: more) :
    boundTexts arguments met <+: boundTexts arguments more := by
  obtain ⟨new, rfl⟩ := h
  exact (isPrefix_bindings arguments met new).map _

namespace Course

variable {arguments : Value} {met ms ns : List Mention} {d : Draft} {ds es : List Draft}

protected theorem nil : Course arguments met ms [] := ⟨by simp, List.Pairwise.nil⟩

theorem single (h : d.ledger = ledgerOf arguments (met ++ ms)) : Course arguments met ms [d] := by
  refine ⟨?_, List.pairwise_singleton _ _⟩
  intro e he
  rw [List.mem_singleton.mp he]
  exact ⟨ms, List.prefix_rfl, h⟩

/-- One course behind another is a course behind the mentions of both. -/
theorem append (h : Course arguments met ms ds) (k : Course arguments (met ++ ms) ns es) :
    Course arguments met (ms ++ ns) (ds ++ es) := by
  refine ⟨?_, List.pairwise_append.mpr ⟨h.steady, k.steady, ?_⟩⟩
  · intro e he
    rcases List.mem_append.mp he with he | he
    · obtain ⟨part, before, hl⟩ := h.ledger e he
      exact ⟨part, before.trans (List.prefix_append _ _), hl⟩
    · obtain ⟨part, before, hl⟩ := k.ledger e he
      refine ⟨ms ++ part, (List.prefix_append_right_inj ms).mpr before, ?_⟩
      rw [hl, List.append_assoc]
  · intro earlier he later hl
    obtain ⟨part, before, first⟩ := h.ledger earlier he
    obtain ⟨other, -, second⟩ := k.ledger later hl
    -- the mentions of the earlier draft are some of those of the later one
    have between : met ++ part <+: met ++ ms ++ other :=
      ((List.prefix_append_right_inj met).mpr before).trans (List.prefix_append _ _)
    rw [show earlier.bound = _ from congrArg Ledger.bound first,
      show later.bound = _ from congrArg Ledger.bound second]
    exact isPrefix_boundTexts between

/-- A draft with nothing new to it may go first. -/
theorem cons (h : d.ledger = ledgerOf arguments met) (k : Course arguments met ms ds) :
    Course arguments met ms (d :: ds) := by
  have first : Course arguments met [] [d] := single (by rw [List.append_nil, h])
  have rest : Course arguments (met ++ []) ms ds := by rwa [List.append_nil]
  exact first.append rest

/-- What comes after a part of a render that is accounted for goes on from the ledger of its
mentions. -/
theorem following {r : Rendering String} {result : (String → List Piece) → String}
    (account : r.Accounted arguments ms result) (h : d.ledger = ledgerOf arguments met)
    {from' : List Mention} {next : Draft → List Draft}
    (k : ∀ after : Draft, after.ledger = ledgerOf arguments (met ++ ms) →
      Course arguments from' ns (next after)) :
    Course arguments from' ns (Node.following (r.write d) next) := by
  rw [Rendering.write, h, account met []]
  cases forM ms (Mention.check arguments) with
  | error m => exact Course.nil
  | ok _ => exact k _ rfl

end Course

/-- A node that is rendered in one step is on course to its mentions. -/
theorem course_step (arguments : Value) (node : Node) {met : List Mention} {d : Draft}
    (h : d.ledger = ledgerOf arguments met) :
    Course arguments met (mentions arguments node)
      (following (render arguments node d) fun after => [after]) := by
  rw [← write_written]
  exact .following (accounted_written arguments node) h fun _ => .single

mutual

/-- A render of a node is on course to the mentions of the node. -/
theorem course_drafts (arguments : Value) : ∀ (node : Node) {met : List Mention} {d : Draft},
    d.ledger = ledgerOf arguments met →
      Course arguments met (mentions arguments node) (drafts arguments node d)
  | .literal text, _, _, h => course_step arguments (.literal text) h
  | .value name, _, _, h => course_step arguments (.value name) h
  | .fallback name word, _, _, h => by
    simp only [mentions, drafts]
    cases arguments.present? name with
    | none => exact course_step arguments (.literal word) h
    | some _ => exact course_step arguments (.value name) h
  | .conditional name success failure, _, _, h => by
    simp only [mentions, drafts]
    cases arguments.present? name with
    | none => exact course_draftsBranch arguments failure h
    | some _ => exact course_draftsAll arguments success h
  | .spread name delimiter, _, _, h => course_step arguments (.spread name delimiter) h
  | .list delimiter items, _, _, h => course_draftsItems arguments delimiter items h

theorem course_draftsAll (arguments : Value) : ∀ (nodes : List Node) {met : List Mention}
    {d : Draft}, d.ledger = ledgerOf arguments met →
      Course arguments met (mentionsIn arguments nodes) (draftsAll arguments nodes d)
  | [], _, _, _ => .nil
  | node :: rest, met, d, h => by
    -- the rest is on course from the mentions of the node, or does not begin
    rw [mentionsIn, draftsAll, ← write_written]
    refine (course_drafts arguments node h).append ?_
    exact .following (accounted_written arguments node) h fun _ => course_draftsAll arguments rest

theorem course_draftsBranch (arguments : Value) : ∀ (branch : Option (List Node))
    {met : List Mention} {d : Draft}, d.ledger = ledgerOf arguments met →
      Course arguments met (mentionsInBranch arguments branch) (draftsBranch arguments branch d)
  | none, _, _, _ => .nil
  | some branch, _, _, h => course_draftsAll arguments branch h

theorem course_draftsItems (arguments : Value) (delimiter : Delimiter) :
    ∀ (items : List (List Node)) {wrote : Bool} {met : List Mention} {d : Draft},
      d.ledger = ledgerOf arguments met →
        Course arguments met (mentionsInItems arguments items)
          (draftsItems arguments delimiter items wrote d)
  | [], _, _, _, _ => .nil
  | item :: rest, wrote, met, d, h => by
    have opened : (d.opened delimiter wrote).ledger = ledgerOf arguments met := by
      rwa [Draft.ledger_opened]
    rw [mentionsInItems, draftsItems, ← write_writtenAll]
    refine .cons opened ((course_draftsAll arguments item opened).append ?_)
    refine .following (accounted_writtenAll arguments item) opened fun after ha => ?_
    -- an empty item leaves its mentions in the ledger, and its text is cut off
    split
    · exact .cons ha (course_draftsItems arguments delimiter rest ha)
    · exact course_draftsItems arguments delimiter rest ha

end

/-! ## Numbers that stay in the text -/

mutual

/-- A placeholder that a mentioned name is written with is in the pieces of the node. -/
theorem mem_pieces (arguments : Value) {w : String → List Piece} {m : Mention} {n : Nat}
    (h : .placeholder n ∈ w m.name) : ∀ node : Node,
    m ∈ mentions arguments node → .placeholder n ∈ pieces arguments w node
  | .literal _, mem => by cases mem
  | .value name, mem => by
    rwa [List.mem_singleton.mp mem] at h
  | .fallback name word, mem => by
    simp only [mentions, pieces] at mem ⊢
    rcases present : arguments.present? name with _ | found
    · rw [present] at mem
      cases mem
    · rw [present] at mem
      rwa [List.mem_singleton.mp mem] at h
  | .conditional name success failure, mem => by
    simp only [mentions, pieces] at mem ⊢
    rcases present : arguments.present? name with _ | found
    · rw [present] at mem
      exact mem_piecesInBranch arguments h failure mem
    · rw [present] at mem
      exact mem_piecesIn arguments h success mem
  | .spread name delimiter, mem => by
    rwa [List.mem_singleton.mp mem] at h
  | .list delimiter items, mem => by
    obtain ⟨item, here, inside⟩ := mem_piecesInItems arguments h items mem
    -- an item with a placeholder in it is not empty, so it is not left out
    refine Piece.mem_between inside delimiter (List.mem_filter.mpr ⟨here, ?_⟩)
    simpa using Piece.flat_ne_empty inside

theorem mem_piecesIn (arguments : Value) {w : String → List Piece} {m : Mention} {n : Nat}
    (h : .placeholder n ∈ w m.name) : ∀ nodes : List Node,
    m ∈ mentionsIn arguments nodes → .placeholder n ∈ piecesIn arguments w nodes
  | [], mem => by cases mem
  | node :: rest, mem => by
    rcases List.mem_append.mp mem with mem | mem
    · exact List.mem_append_left _ (mem_pieces arguments h node mem)
    · exact List.mem_append_right _ (mem_piecesIn arguments h rest mem)

theorem mem_piecesInBranch (arguments : Value) {w : String → List Piece} {m : Mention} {n : Nat}
    (h : .placeholder n ∈ w m.name) : ∀ branch : Option (List Node),
    m ∈ mentionsInBranch arguments branch → .placeholder n ∈ piecesInBranch arguments w branch
  | none, mem => by cases mem
  | some branch, mem => mem_piecesIn arguments h branch mem

/-- A placeholder that a mentioned name is written with is in the pieces of one of the items. -/
theorem mem_piecesInItems (arguments : Value) {w : String → List Piece} {m : Mention} {n : Nat}
    (h : .placeholder n ∈ w m.name) : ∀ items : List (List Node),
    m ∈ mentionsInItems arguments items →
      ∃ item ∈ piecesInItems arguments w items, .placeholder n ∈ item
  | [], mem => by cases mem
  | item :: rest, mem => by
    rcases List.mem_append.mp mem with mem | mem
    · exact ⟨_, List.mem_cons_self .., mem_piecesIn arguments h item mem⟩
    · obtain ⟨ps, here, inside⟩ := mem_piecesInItems arguments h rest mem
      exact ⟨ps, List.mem_cons_of_mem _ here, inside⟩

end

/-- The number of every value that is bound is in the text. -/
theorem placeholder_mem_piecesIn (nodes : List Node) (arguments : Value) {n : Nat}
    (h : n ∈ List.range' 1 (boundValues arguments (mentionsIn arguments nodes)).length) :
    .placeholder n ∈
      piecesIn arguments (writtenAs arguments (mentionsIn arguments nodes)) nodes := by
  rw [boundValues, ← Binding.flatMap_numbers] at h
  obtain ⟨b, mem, hn⟩ := List.mem_flatMap.mp h
  have mentioned : b.mention ∈ Mention.firsts (mentionsIn arguments nodes) := by
    rw [← Binding.mentions_numbered arguments 1 (Mention.firsts _)]
    exact List.mem_map_of_mem mem
  refine mem_piecesIn arguments ?_ nodes (Mention.mem_of_mem_firsts mentioned)
  change _ ∈ writtenAs arguments _ b.name
  rw [Binding.writtenAs_of_mem mem]
  exact Binding.mem_pieces hn

/-- Every point of a render is accounted for by the bindings of the mentions so far, and what is
bound at a point stays bound at those behind it. A statement has the values that the first mentions
of names bind, in order, and the number of each of them is in its text. -/
theorem points_accounted (nodes : List Node) (arguments : Value) :
    (∀ d ∈ points arguments nodes, ∃ met, met <+: mentionsIn arguments nodes ∧
      d.AccountedBy arguments (bindings arguments met)) ∧
    ((points arguments nodes).Pairwise fun earlier later => earlier.bound <+: later.bound) ∧
    ∀ s, toStatement nodes arguments = .ok s →
      s.values = (Mention.firsts (mentionsIn arguments nodes)).flatMap (Mention.values arguments) ∧
      s.text = Piece.flat
        (piecesIn arguments (writtenAs arguments (mentionsIn arguments nodes)) nodes) ∧
      ∀ n ∈ List.range' 1 s.values.length, .placeholder n ∈
        piecesIn arguments (writtenAs arguments (mentionsIn arguments nodes)) nodes := by
  have course : Course arguments [] (mentionsIn arguments nodes) (points arguments nodes) :=
    .cons rfl (course_draftsAll arguments nodes rfl)
  refine ⟨?_, course.steady, ?_⟩
  · intro d hd
    obtain ⟨met, some, hl⟩ := course.ledger d hd
    exact ⟨met, some, Draft.accountedBy_bindings hl⟩
  · intro s hs
    rw [toStatement_eq] at hs
    obtain ⟨-, -, rfl⟩ := map_eq_ok hs
    exact ⟨rfl, rfl, fun n => placeholder_mem_piecesIn nodes arguments⟩

/-- An item that spreads no elements is left out, and its delimiter with it, while the number of the
value before it stays. -/
theorem points_accounted_empty_spread : ∃ s, toStatement
      [.list .comma [[.value "a"], [.spread "ids" .comma], [.fallback "a" "0"]]]
      (.map [("a", .bool true), ("ids", .list [])]) = .ok s ∧
    s.text = "$1, $1" ∧
    ∀ n ∈ List.range' 1 s.values.length, .placeholder n ∈
      piecesIn (.map [("a", .bool true), ("ids", .list [])])
        (writtenAs (.map [("a", .bool true), ("ids", .list [])])
          [.whole "a", .spread "ids" .comma, .whole "a"])
        [.list .comma [[.value "a"], [.spread "ids" .comma], [.fallback "a" "0"]]] := by
  have rendered : toStatement
      [.list .comma [[.value "a"], [.spread "ids" .comma], [.fallback "a" "0"]]]
      (.map [("a", .bool true), ("ids", .list [])]) = .ok ⟨"$1, $1", [.bool true]⟩ := by
    rfl
  obtain ⟨-, -, numbers⟩ := (points_accounted _ _).2.2 _ rendered
  exact ⟨_, rendered, rfl, numbers⟩

end Node

end SqlTemplate
