import SqlTemplate.Node.Condensed
import SqlTemplate.Proofs.Statement.Account

/-!
# What a statement depends on

A render looks at its arguments in two ways only: it asks whether a name is present, and how many
elements the list of a name has. Arguments that agree in both have the same *shape*, and a tree is
rendered with them to the same text (`Node.toStatement_of_sameShape`). What else is in the arguments
goes to the values alone, each of which is what the arguments have at a *place* that the shape
determines: the value of a name, or an element of its list.
-/

namespace SqlTemplate

/-! ## Shapes of arguments -/

namespace Value

/-- The elements of the list that a name has, if it has one. -/
def elements? (arguments : Value) (name : String) : Option (List Value) :=
  match arguments.present? name with
  | some (.list elements) => some elements
  | _ => none

/-- A name has the same shape in two arguments: it is present in both or in neither, and if it has a
list in one of them, it has one of the same length in the other. -/
structure SameShape (a b : Value) (name : String) : Prop where
  /-- the name is present in both or in neither -/
  presence : (a.present? name).isSome = (b.present? name).isSome
  /-- the name has lists of the same length, or none in either -/
  length : (a.elements? name).map List.length = (b.elements? name).map List.length

end Value

open Value (SameShape)

/-! ## Mentions of names of the same shape -/

namespace Mention

variable {a b : Value} {m : Mention}

theorem values_spread (arguments : Value) (name : String) (delimiter : Delimiter) :
    values arguments (.spread name delimiter) = (arguments.elements? name).getD [] := by
  simp only [values, Value.elements?]
  cases arguments.present? name with
  | none => rfl
  | some v => cases v <;> rfl

theorem isOk_check_spread (arguments : Value) (name : String) (delimiter : Delimiter) :
    (check arguments (.spread name delimiter)).isOk = (arguments.elements? name).isSome := by
  simp only [check, Value.elements?]
  cases arguments.present? name with
  | none => rfl
  | some v => cases v <;> rfl

/-- A mention of a name of the same shape binds as many values. -/
theorem length_values (h : SameShape a b m.name) :
    (m.values a).length = (m.values b).length := by
  cases m with
  | whole name => rfl
  | spread name delimiter =>
    have length_getD : ∀ o : Option (List Value),
        (o.getD []).length = (o.map List.length).getD 0 := by
      intro o
      cases o <;> rfl
    rw [values_spread, values_spread, length_getD, length_getD]
    exact congrArg (fun n => Option.getD n 0) h.length

/-- A mention of a name of the same shape is a mismatch in both arguments or in neither. -/
theorem isOk_check (h : SameShape a b m.name) : (m.check a).isOk = (m.check b).isOk := by
  cases m with
  | whole name => rfl
  | spread name delimiter =>
    have lists := congrArg Option.isSome h.length
    rw [Option.isSome_map, Option.isSome_map] at lists
    rw [isOk_check_spread, isOk_check_spread]
    exact lists

theorem isOk_forM_check (arguments : Value) (ms : List Mention) :
    (forM ms (check arguments)).isOk = ms.all fun m => (m.check arguments).isOk := by
  induction ms with
  | nil => rfl
  | cons m rest ih =>
    rw [List.forM_cons, List.all_cons, ← ih]
    cases m.check arguments <;> rfl

/-- Mentions of names of the same shape end a render in both arguments or in neither. -/
theorem isOk_forM_check_eq {ms : List Mention} (h : ∀ m ∈ ms, SameShape a b m.name) :
    (forM ms (check a)).isOk = (forM ms (check b)).isOk := by
  rw [isOk_forM_check, isOk_forM_check, Bool.eq_iff_iff, List.all_eq_true, List.all_eq_true]
  refine forall₂_congr fun m mem => ?_
  rw [isOk_check (h m mem)]

end Mention

/-- Names are written the same if mentions bind as many values. -/
theorem writtenAs_congr {a b : Value} {met : List Mention}
    (h : ∀ m ∈ met, (m.values a).length = (m.values b).length) :
    writtenAs a met = writtenAs b met := by
  have firsts : ∀ m ∈ Mention.firsts met, (m.values a).length = (m.values b).length :=
    fun m mem => h m (Mention.mem_of_mem_firsts mem)
  funext name
  rw [writtenAs, writtenAs, bindings, bindings]
  -- a binding and those behind it have numbers that depend on how many values come before
  generalize 1 = n
  generalize Mention.firsts met = first at firsts
  induction first generalizing n with
  | nil => rfl
  | cons m rest ih =>
    have same := firsts m (List.mem_cons_self ..)
    have others := ih (n + (m.values a).length)
      fun other mem => firsts other (List.mem_cons_of_mem _ mem)
    simp only [Binding.numbered, List.find?_cons, Binding.name]
    by_cases hm : m.name = name
    · simp [hm, Binding.pieces, Binding.numbers, same]
    · simpa [hm, Binding.name, same] using others

/-! ## Trees with names of the same shape -/

namespace Node

mutual

/-- A render mentions names that are in the tree. -/
theorem name_mem_names (arguments : Value) {m : Mention} : ∀ node : Node,
    m ∈ mentions arguments node → m.name ∈ names node
  | .literal _, mem => by cases mem
  | .value name, mem => by
    rw [List.mem_singleton.mp mem]
    exact List.mem_singleton_self _
  | .fallback name word, mem => by
    simp only [mentions] at mem
    split at mem
    · cases mem
    · rw [List.mem_singleton.mp mem]
      exact List.mem_singleton_self _
  | .conditional name success failure, mem => by
    simp only [mentions] at mem
    -- the names in the tree are those of both branches, whichever is taken
    refine List.mem_append_left _ (List.mem_append.mpr ?_)
    split at mem
    · exact .inl (name_mem_namesIn arguments success mem)
    · exact .inr (name_mem_namesInBranch arguments failure mem)
  | .spread name delimiter, mem => by
    rw [List.mem_singleton.mp mem]
    exact List.mem_singleton_self _
  | .list delimiter items, mem => name_mem_namesInItems arguments items mem

theorem name_mem_namesIn (arguments : Value) {m : Mention} : ∀ nodes : List Node,
    m ∈ mentionsIn arguments nodes → m.name ∈ namesIn nodes
  | [], mem => by cases mem
  | node :: rest, mem => by
    refine List.mem_append.mpr ((List.mem_append.mp mem).imp ?_ ?_)
    · exact name_mem_names arguments node
    · exact name_mem_namesIn arguments rest

theorem name_mem_namesInBranch (arguments : Value) {m : Mention} :
    ∀ branch : Option (List Node),
      m ∈ mentionsInBranch arguments branch → m.name ∈ namesInBranch branch
  | none, mem => by cases mem
  | some branch, mem => name_mem_namesIn arguments branch mem

theorem name_mem_namesInItems (arguments : Value) {m : Mention} : ∀ items : List (List Node),
    m ∈ mentionsInItems arguments items → m.name ∈ namesInItems items
  | [], mem => by cases mem
  | item :: rest, mem => by
    refine List.mem_append.mpr ((List.mem_append.mp mem).imp ?_ ?_)
    · exact name_mem_namesIn arguments item
    · exact name_mem_namesInItems arguments rest

end

/-- Whether the same names are present in two arguments, among some names. -/
def SamePresence (a b : Value) (names : List String) : Prop :=
  ∀ name ∈ names, (a.present? name).isSome = (b.present? name).isSome

section Presence

variable {a b : Value} {front back : List String}

theorem SamePresence.left (h : SamePresence a b (front ++ back)) : SamePresence a b front :=
  fun name mem => h name (List.mem_append_left _ mem)

theorem SamePresence.right (h : SamePresence a b (front ++ back)) : SamePresence a b back :=
  fun name mem => h name (List.mem_append_right _ mem)

theorem absent_or_present {name : String}
    (h : (a.present? name).isSome = (b.present? name).isSome) :
    a.present? name = none ∧ b.present? name = none ∨
      ∃ v w, a.present? name = some v ∧ b.present? name = some w := by
  rcases ha : a.present? name with _ | v
  · rcases hb : b.present? name with _ | w
    · exact .inl ⟨rfl, rfl⟩
    · rw [ha, hb] at h
      cases h
  · rcases hb : b.present? name with _ | w
    · rw [ha, hb] at h
      cases h
    · exact .inr ⟨v, w, rfl, rfl⟩

mutual

/-- A node takes the same way through arguments in which the same names are present. -/
theorem mentions_of_samePresence : ∀ node : Node, SamePresence a b (names node) →
    mentions a node = mentions b node ∧ ∀ w, pieces a w node = pieces b w node
  | .literal _, _ => ⟨rfl, fun _ => rfl⟩
  | .value _, _ => ⟨rfl, fun _ => rfl⟩
  | .fallback name word, h => by
    simp only [mentions, pieces]
    rcases absent_or_present (h name (List.mem_singleton_self _)) with
      ⟨ha, hb⟩ | ⟨v, w, ha, hb⟩
    · rw [ha, hb]
      exact ⟨rfl, fun _ => rfl⟩
    · rw [ha, hb]
      exact ⟨rfl, fun _ => rfl⟩
  | .conditional name success failure, h => by
    have same := h name (List.mem_append_right _ (List.mem_singleton_self _))
    simp only [mentions, pieces]
    rcases absent_or_present same with ⟨ha, hb⟩ | ⟨v, w, ha, hb⟩
    · rw [ha, hb]
      exact mentionsInBranch_of_samePresence failure h.left.right
    · rw [ha, hb]
      exact mentionsIn_of_samePresence success h.left.left
  | .spread .., _ => ⟨rfl, fun _ => rfl⟩
  | .list delimiter items, h => by
    obtain ⟨same, written⟩ := mentionsInItems_of_samePresence items h
    exact ⟨same, fun w => by rw [pieces, pieces, written]⟩

theorem mentionsIn_of_samePresence : ∀ nodes : List Node, SamePresence a b (namesIn nodes) →
    mentionsIn a nodes = mentionsIn b nodes ∧ ∀ w, piecesIn a w nodes = piecesIn b w nodes
  | [], _ => ⟨rfl, fun _ => rfl⟩
  | node :: rest, h => by
    obtain ⟨first, written⟩ := mentions_of_samePresence node h.left
    obtain ⟨others, writtenBehind⟩ := mentionsIn_of_samePresence rest h.right
    refine ⟨?_, fun w => ?_⟩
    · rw [mentionsIn, mentionsIn, first, others]
    · rw [piecesIn, piecesIn, written, writtenBehind]

theorem mentionsInBranch_of_samePresence : ∀ branch : Option (List Node),
    SamePresence a b (namesInBranch branch) →
      mentionsInBranch a branch = mentionsInBranch b branch ∧
        ∀ w, piecesInBranch a w branch = piecesInBranch b w branch
  | none, _ => ⟨rfl, fun _ => rfl⟩
  | some branch, h => mentionsIn_of_samePresence branch h

theorem mentionsInItems_of_samePresence : ∀ items : List (List Node),
    SamePresence a b (namesInItems items) →
      mentionsInItems a items = mentionsInItems b items ∧
        ∀ w, piecesInItems a w items = piecesInItems b w items
  | [], _ => ⟨rfl, fun _ => rfl⟩
  | item :: rest, h => by
    obtain ⟨first, written⟩ := mentionsIn_of_samePresence item h.left
    obtain ⟨others, writtenBehind⟩ := mentionsInItems_of_samePresence rest h.right
    refine ⟨?_, fun w => ?_⟩
    · rw [mentionsInItems, mentionsInItems, first, others]
    · rw [piecesInItems, piecesInItems, written, writtenBehind]

end

end Presence

end Node

/-! ## Places of values -/

/-- A place in arguments that a value can be taken from. -/
inductive Place where
  /-- what a name has, or null if it is absent -/
  | whole (name : String)
  /-- an element of the list that a name has -/
  | element (name : String) (index : Nat)
  deriving DecidableEq, Repr

/-- What arguments have at a place. -/
def Place.content? (arguments : Value) : Place → Option Value
  | .whole name => some (arguments.boundTo name)
  | .element name index => (arguments.elements? name).bind fun elements => elements[index]?

namespace Mention

/-- The places of the values that a mention binds, if it binds so many. -/
def places (count : Nat) : Mention → List Place
  | .whole name => [.whole name]
  | .spread name _ => (List.range count).map (.element name)

/-- The values that a mention binds are those at its places. -/
theorem content?_places (arguments : Value) (m : Mention) :
    (m.places (m.values arguments).length).map (Place.content? arguments) =
      (m.values arguments).map some := by
  cases m with
  | whole name => rfl
  | spread name delimiter =>
    rw [values_spread, places, List.map_map]
    refine List.ext_getElem? fun i => ?_
    cases elements : arguments.elements? name with
    | none => rfl
    | some vs =>
      rcases Nat.lt_or_ge i vs.length with inside | outside
      · simp [elements, Place.content?, inside]
      · simp [outside]

end Mention

/-- The places of the values that mentions bind. -/
def boundPlaces (arguments : Value) (met : List Mention) : List Place :=
  (Mention.firsts met).flatMap fun m => m.places (m.values arguments).length

/-- The values that mentions bind are those at their places. -/
theorem content?_boundPlaces (arguments : Value) (met : List Mention) :
    (boundPlaces arguments met).map (Place.content? arguments) =
      (boundValues arguments met).map some := by
  rw [boundPlaces, boundValues, List.map_flatMap, List.map_flatMap]
  exact congrArg (fun f => (Mention.firsts met).flatMap f)
    (funext fun m => Mention.content?_places arguments m)

/-- The places are the same if mentions bind as many values. -/
theorem boundPlaces_congr {a b : Value} {met : List Mention}
    (h : ∀ m ∈ met, (m.values a).length = (m.values b).length) :
    boundPlaces a met = boundPlaces b met := by
  rw [boundPlaces, boundPlaces, List.flatMap_def, List.flatMap_def]
  congr 1
  refine List.map_congr_left fun m mem => ?_
  rw [h m (Mention.mem_of_mem_firsts mem)]

/-- Two results differ in the contents of arguments only: both are mismatches, or both are
statements with the same text, and with the values that the arguments have at the same places. -/
def SameButContents (a b : Value) (r s : Except Mismatch Statement) : Prop :=
  (∃ m n, r = .error m ∧ s = .error n) ∨
    ∃ (text : String) (places : List Place) (valuesA valuesB : List Value),
      r = .ok ⟨text, valuesA⟩ ∧ s = .ok ⟨text, valuesB⟩ ∧
      places.map (Place.content? a) = valuesA.map some ∧
      places.map (Place.content? b) = valuesB.map some

/-- A tree is rendered with arguments of the same shape to the same text, and to the values at the
same places, or ends with a mismatch in both. -/
theorem Node.toStatement_of_sameShape {nodes : List Node} {a b : Value}
    (h : ∀ name ∈ namesIn nodes, SameShape a b name) :
    SameButContents a b (toStatement nodes a) (toStatement nodes b) := by
  obtain ⟨sameMentions, samePieces⟩ :=
    mentionsIn_of_samePresence nodes fun name mem => (h name mem).presence
  have shapes : ∀ m ∈ mentionsIn b nodes, SameShape a b m.name :=
    fun m mem => h m.name (name_mem_namesIn b nodes mem)
  have lengths : ∀ m ∈ mentionsIn b nodes, (m.values a).length = (m.values b).length :=
    fun m mem => Mention.length_values (shapes m mem)
  have ends := Mention.isOk_forM_check_eq shapes
  rw [toStatement_eq, toStatement_eq, sameMentions, samePieces, writtenAs_congr lengths]
  cases ha : forM (mentionsIn b nodes) (Mention.check a) with
  | error m =>
    cases hb : forM (mentionsIn b nodes) (Mention.check b) with
    | error n => exact .inl ⟨m, n, rfl, rfl⟩
    | ok _ =>
      rw [ha, hb] at ends
      cases ends
  | ok _ =>
    cases hb : forM (mentionsIn b nodes) (Mention.check b) with
    | error n =>
      rw [ha, hb] at ends
      cases ends
    | ok _ =>
      refine .inr ⟨_, boundPlaces a (mentionsIn b nodes), _, _, rfl, rfl, ?_, ?_⟩
      · exact content?_boundPlaces a (mentionsIn b nodes)
      · rw [boundPlaces_congr lengths]
        exact content?_boundPlaces b (mentionsIn b nodes)

end SqlTemplate
