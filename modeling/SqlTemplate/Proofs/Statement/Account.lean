import Mathlib.Data.List.Induction
import SqlTemplate.Proofs.Statement.Rendering

/-!
# The account of a render

Which references a render comes to, and in which order, can be told from the tree and from which
names are present. These *mentions* account for everything else that a render does.

* The first mention of each name binds it (`Mention.firsts`), and the numbers of the placeholders
  follow one another (`bindings`). So the ledger of a render that has come to some mentions is known
  from them alone (`ledgerOf`).
* A name is written in the same way wherever it is written (`writtenAs`), so the text is known from
  the tree and a way to write each name (`Node.pieces`).
* A render ends with a mismatch exactly if there is a mention of the elements of a name that has no
  list, and it is the first such mention that it ends with (`Mention.check`).

The main statement puts these together (`Node.toStatement_eq`). It is proved by going through the
tree once, with a property of parts of a render that can be put one behind the other
(`Rendering.Accounted`).
-/

namespace SqlTemplate

/-! ## Pieces of a text -/

/-- A piece of a statement's text: text of the template, or a placeholder. -/
inductive Piece where
  /-- text of the template -/
  | text (s : String)
  /-- the placeholder with a number -/
  | placeholder (n : Nat)
  deriving DecidableEq, Repr

namespace Piece

/-- How a piece is written. -/
def written : Piece → String
  | .text s => s
  | .placeholder n => Draft.placeholder n

/-- The text that pieces make up. -/
def flat (pieces : List Piece) : String := String.join (pieces.map written)

/-- Pieces with a delimiter between them. -/
def between (delimiter : Delimiter) (parts : List (List Piece)) : List Piece :=
  [.text delimiter.text].intercalate parts

@[simp] theorem flat_nil : flat [] = "" := rfl

@[simp] theorem flat_singleton (p : Piece) : flat [p] = p.written := by
  simp [flat]

@[simp] theorem flat_append (pieces more : List Piece) :
    flat (pieces ++ more) = flat pieces ++ flat more := by
  simp [flat]

/-- The text of pieces with a delimiter between them is their texts with the delimiter between
them. -/
theorem flat_between (delimiter : Delimiter) (parts : List (List Piece)) :
    flat (between delimiter parts) = delimiter.text.intercalate (parts.map flat) := by
  rw [between]
  induction parts with
  | nil => simp
  | cons first rest ih =>
    cases rest with
    | nil => simp
    | cons next rest =>
      rw [List.intercalate_cons_cons, flat_append, flat_append, ih, flat_singleton,
        List.map_cons, List.map_cons, List.map_cons, String.intercalate_cons_cons]
      rfl

/-- What is in one of the parts is in the parts with a delimiter between them. -/
theorem mem_between {p : Piece} {part : List Piece} (h : p ∈ part) (delimiter : Delimiter)
    {parts : List (List Piece)} (mem : part ∈ parts) : p ∈ between delimiter parts := by
  rw [between]
  induction parts with
  | nil => cases mem
  | cons first rest ih =>
    cases rest with
    | nil =>
      rw [List.intercalate_singleton, ← List.mem_singleton.mp mem]
      exact h
    | cons next rest =>
      rw [List.intercalate_cons_cons]
      rcases List.mem_cons.mp mem with rfl | mem
      · exact List.mem_append_left _ (List.mem_append_left _ h)
      · exact List.mem_append_right _ (ih mem)

/-- A placeholder is not empty, so pieces with one in them are not. -/
theorem flat_ne_empty {n : Nat} {pieces : List Piece} (h : .placeholder n ∈ pieces) :
    flat pieces ≠ "" := by
  obtain ⟨front, back, rfl⟩ := List.append_of_mem h
  intro empty
  have whole := congrArg String.toList empty
  simp [flat, written, Draft.placeholder] at whole

end Piece

/-! ## Mentions -/

/-- A reference that a render comes to. -/
inductive Mention where
  /-- to the value of a name -/
  | whole (name : String)
  /-- to the elements of the list that a name has -/
  | spread (name : String) (delimiter : Delimiter)

namespace Mention

/-- The name that a mention is of. -/
def name : Mention → String
  | .whole name => name
  | .spread name .. => name

/-- The values that a mention binds if its name has not been written before. -/
def values (arguments : Value) : Mention → List Value
  | .whole name => [arguments.boundTo name]
  | .spread name _ =>
    match arguments.present? name with
    | some (.list elements) => elements
    | _ => []

/-- Checks that a mention of the elements of a name is one of a list. -/
def check (arguments : Value) : Mention → Except Mismatch Unit
  | .whole _ => .ok ()
  | .spread name _ =>
    match arguments.present? name with
    | some (.list _) => .ok ()
    | found => .error ⟨name, found.map Value.kind⟩

/-- How a mention is written whose values get the placeholders with these numbers. -/
def pieces (numbers : List Nat) : Mention → List Piece
  | .whole _ => numbers.map .placeholder
  | .spread _ delimiter => Piece.between delimiter (numbers.map fun n => [.placeholder n])

/-- Adds a mention to those that are the first ones of their names, if it is one of them. -/
def note (met : List Mention) (m : Mention) : List Mention :=
  if m.name ∈ met.map name then met else met ++ [m]

/-- The mentions that are the first ones of their names. -/
def firsts (met : List Mention) : List Mention := met.foldl note []

theorem firsts_concat (met : List Mention) (m : Mention) :
    firsts (met ++ [m]) = note (firsts met) m := by
  simp [firsts]

/-- The names that are mentioned first are all the names that are mentioned. -/
theorem mem_names_firsts {name : String} {met : List Mention} :
    name ∈ (firsts met).map Mention.name ↔ name ∈ met.map Mention.name := by
  induction met using List.reverseRecOn generalizing name with
  | nil => rfl
  | append_singleton met m ih =>
    rw [firsts_concat, note]
    by_cases known : m.name ∈ (firsts met).map Mention.name
    · rw [if_pos known, List.map_append, List.mem_append, ih]
      refine ⟨.inl, ?_⟩
      rintro (mem | mem)
      · exact mem
      · rw [List.map_singleton, List.mem_singleton] at mem
        rwa [mem, ← ih]
    · rw [if_neg known, List.map_append, List.mem_append, ih, List.map_append, List.mem_append]

/-- A mention of a name that was mentioned before is not a first one. -/
theorem firsts_concat_of_mem {met : List Mention} {m : Mention}
    (h : m.name ∈ met.map Mention.name) : firsts (met ++ [m]) = firsts met := by
  rw [firsts_concat, note, if_pos (mem_names_firsts.mpr h)]

/-- The first mention of a new name comes behind the other first ones. -/
theorem firsts_concat_of_notMem {met : List Mention} {m : Mention}
    (h : m.name ∉ met.map Mention.name) : firsts (met ++ [m]) = firsts met ++ [m] := by
  rw [firsts_concat, note, if_neg (mt mem_names_firsts.mp h)]

/-- No two first mentions are of the same name. -/
theorem nodup_names_firsts (met : List Mention) : ((firsts met).map Mention.name).Nodup := by
  induction met using List.reverseRecOn with
  | nil => exact List.nodup_nil
  | append_singleton met m ih =>
    by_cases known : m.name ∈ met.map Mention.name
    · rwa [firsts_concat_of_mem known]
    · rw [firsts_concat_of_notMem known, List.map_append, List.map_singleton]
      refine List.nodup_append.mpr ⟨ih, by simp, ?_⟩
      intro name mem other last same
      rw [same, List.mem_singleton.mp last] at mem
      exact known (mem_names_firsts.mp mem)

/-- A first mention is one of the mentions. -/
theorem mem_of_mem_firsts {m : Mention} {met : List Mention} (h : m ∈ firsts met) : m ∈ met := by
  induction met using List.reverseRecOn with
  | nil => cases h
  | append_singleton met last ih =>
    by_cases known : last.name ∈ met.map Mention.name
    · rw [firsts_concat_of_mem known] at h
      exact List.mem_append_left _ (ih h)
    · rw [firsts_concat_of_notMem known] at h
      rcases List.mem_append.mp h with before | new
      · exact List.mem_append_left _ (ih before)
      · exact List.mem_append_right _ new

end Mention

/-! ## Bindings -/

/-- A mention that binds its name: the values that it binds get numbers that follow one another. -/
structure Binding where
  /-- the mention -/
  mention : Mention
  /-- the number of the first placeholder -/
  first : Nat
  /-- the values that are bound -/
  values : List Value

namespace Binding

/-- The name that is bound. -/
def name (b : Binding) : String := b.mention.name

/-- The numbers of the placeholders. -/
def numbers (b : Binding) : List Nat := List.range' b.first b.values.length

/-- How the name is written. -/
def pieces (b : Binding) : List Piece := b.mention.pieces b.numbers

/-- The text that the name is written with. -/
def text (b : Binding) : String := Piece.flat b.pieces

/-- The bindings of mentions, with numbers from `n` on. -/
def numbered (arguments : Value) : Nat → List Mention → List Binding
  | _, [] => []
  | n, m :: rest =>
    ⟨m, n, m.values arguments⟩ :: numbered arguments (n + (m.values arguments).length) rest

/-- A binding behind others has the numbers behind theirs. -/
theorem numbered_concat (arguments : Value) (n : Nat) (met : List Mention) (m : Mention) :
    numbered arguments n (met ++ [m]) = numbered arguments n met ++
      [⟨m, n + (met.flatMap (Mention.values arguments)).length, m.values arguments⟩] := by
  induction met generalizing n with
  | nil => rfl
  | cons first rest ih =>
    rw [List.cons_append, numbered, ih, numbered, List.flatMap_cons, List.length_append,
      Nat.add_assoc, List.cons_append]

theorem mentions_numbered (arguments : Value) (n : Nat) (met : List Mention) :
    (numbered arguments n met).map Binding.mention = met := by
  induction met generalizing n with
  | nil => rfl
  | cons first rest ih => rw [numbered, List.map_cons, ih]

end Binding

/-- The bindings of the names in mentions that a render has come to. -/
def bindings (arguments : Value) (met : List Mention) : List Binding :=
  Binding.numbered arguments 1 (Mention.firsts met)

/-- The values that mentions bind, each name's with the first mention of it. -/
def boundValues (arguments : Value) (met : List Mention) : List Value :=
  (Mention.firsts met).flatMap (Mention.values arguments)

/-- The text that each name is written with after mentions. -/
def boundTexts (arguments : Value) (met : List Mention) : Entries String :=
  (bindings arguments met).map fun b => (b.name, b.text)

/-- The ledger of a render that has come to mentions. -/
def ledgerOf (arguments : Value) (met : List Mention) : Ledger :=
  ⟨boundValues arguments met, boundTexts arguments met⟩

/-- How a name is written after mentions. -/
def writtenAs (arguments : Value) (met : List Mention) (name : String) : List Piece :=
  ((bindings arguments met).find? fun b => b.name = name).elim [] Binding.pieces

section Bindings

variable {arguments : Value} {met : List Mention} {m : Mention}

theorem names_bindings (arguments : Value) (met : List Mention) :
    (bindings arguments met).map Binding.name = (Mention.firsts met).map Mention.name := by
  have mentions := congrArg (List.map Mention.name)
    (Binding.mentions_numbered arguments 1 (Mention.firsts met))
  rwa [List.map_map] at mentions

/-- A mention of a name that was mentioned before binds nothing. -/
theorem bindings_concat_of_mem (h : m.name ∈ met.map Mention.name) :
    bindings arguments (met ++ [m]) = bindings arguments met := by
  rw [bindings, Mention.firsts_concat_of_mem h]
  rfl

/-- A mention of a new name binds its values behind those that are bound already. -/
theorem bindings_concat_of_notMem (h : m.name ∉ met.map Mention.name) :
    bindings arguments (met ++ [m]) = bindings arguments met ++
      [⟨m, (boundValues arguments met).length + 1, m.values arguments⟩] := by
  rw [bindings, Mention.firsts_concat_of_notMem h, Binding.numbered_concat, Nat.add_comm 1]
  rfl

theorem boundValues_concat_of_mem (h : m.name ∈ met.map Mention.name) :
    boundValues arguments (met ++ [m]) = boundValues arguments met := by
  rw [boundValues, Mention.firsts_concat_of_mem h]
  rfl

theorem boundValues_concat_of_notMem (h : m.name ∉ met.map Mention.name) :
    boundValues arguments (met ++ [m]) = boundValues arguments met ++ m.values arguments := by
  rw [boundValues, Mention.firsts_concat_of_notMem h, List.flatMap_append,
    List.flatMap_singleton]
  rfl

/-- What is bound stays bound. -/
theorem isPrefix_bindings (arguments : Value) (met more : List Mention) :
    bindings arguments met <+: bindings arguments (met ++ more) := by
  induction more using List.reverseRecOn with
  | nil => simp
  | append_singleton more m ih =>
    rw [← List.append_assoc]
    by_cases known : m.name ∈ (met ++ more).map Mention.name
    · rwa [bindings_concat_of_mem known]
    · rw [bindings_concat_of_notMem known]
      exact ih.trans (List.prefix_append _ _)

/-- A name that has been mentioned is written the same after more mentions. -/
theorem writtenAs_append {name : String} (h : name ∈ met.map Mention.name) (more : List Mention) :
    writtenAs arguments (met ++ more) name = writtenAs arguments met name := by
  obtain ⟨new, whole⟩ := isPrefix_bindings arguments met more
  have found : ((bindings arguments met).find? fun b => b.name = name).isSome = true := by
    rw [← Mention.mem_names_firsts, ← names_bindings arguments met] at h
    obtain ⟨b, mem, same⟩ := List.mem_map.mp h
    rw [List.find?_isSome]
    exact ⟨b, mem, by simpa using same⟩
  obtain ⟨b, hb⟩ := Option.isSome_iff_exists.mp found
  -- a lookup that finds the name among the earlier bindings does not reach the later ones
  rw [writtenAs, ← whole, List.find?_append, hb, writtenAs, hb]
  rfl

/-- The text that is kept for a name is what it is written with. -/
theorem find?_boundTexts (arguments : Value) (met : List Mention) (name : String) :
    Entries.find? name (boundTexts arguments met) =
      if name ∈ met.map Mention.name then some (Piece.flat (writtenAs arguments met name))
      else none := by
  have lookup : Entries.find? name (boundTexts arguments met) =
      ((bindings arguments met).find? fun b => b.name = name).map Binding.text := by
    rw [boundTexts]
    induction bindings arguments met with
    | nil => rfl
    | cons b rest ih =>
      rw [List.map_cons, Entries.find?_cons, ih, List.find?_cons]
      by_cases same : b.name = name <;> simp [same]
  rw [lookup, writtenAs]
  cases found : (bindings arguments met).find? fun b => b.name = name with
  | some b =>
    have mem : name ∈ (bindings arguments met).map Binding.name := by
      have same := List.find?_some found
      rw [decide_eq_true_eq] at same
      exact List.mem_map.mpr ⟨b, List.mem_of_find?_eq_some found, same⟩
    rw [names_bindings, Mention.mem_names_firsts] at mem
    rw [if_pos mem]
    rfl
  | none =>
    rw [if_neg]
    · rfl
    · rw [← Mention.mem_names_firsts, ← names_bindings arguments met]
      intro mem
      obtain ⟨b, hb, same⟩ := List.mem_map.mp mem
      have other := List.find?_eq_none.mp found b hb
      exact other (by simpa using same)

/-- A new name is written with the placeholders behind those of the values that are bound
already. -/
theorem writtenAs_concat (h : m.name ∉ met.map Mention.name) :
    writtenAs arguments (met ++ [m]) m.name =
      m.pieces (List.range' ((boundValues arguments met).length + 1)
        (m.values arguments).length) := by
  have before : ((bindings arguments met).find? fun b => b.name = m.name) = none := by
    rw [List.find?_eq_none]
    intro b hb same
    refine h ?_
    rw [← Mention.mem_names_firsts, ← names_bindings arguments met]
    exact List.mem_map.mpr ⟨b, hb, by simpa using same⟩
  rw [writtenAs, bindings_concat_of_notMem h, List.find?_append, before, Option.none_or,
    List.find?_cons_of_pos]
  · rfl
  · simp [Binding.name]

/-- A mention of a name that was mentioned before leaves the ledger as it is. -/
theorem ledgerOf_concat_of_mem (h : m.name ∈ met.map Mention.name) :
    ledgerOf arguments (met ++ [m]) = ledgerOf arguments met := by
  rw [ledgerOf, boundTexts, boundValues_concat_of_mem h, bindings_concat_of_mem h]
  rfl

/-- A mention of a new name adds its values, and the text that it is written with. -/
theorem ledgerOf_concat_of_notMem (h : m.name ∉ met.map Mention.name) :
    ledgerOf arguments (met ++ [m]) =
      ⟨boundValues arguments met ++ m.values arguments, boundTexts arguments met ++
        [(m.name, Piece.flat (writtenAs arguments (met ++ [m]) m.name))]⟩ := by
  rw [ledgerOf, boundTexts, boundValues_concat_of_notMem h, bindings_concat_of_notMem h,
    List.map_append, writtenAs_concat h]
  rfl

end Bindings

/-! ## Writing a mention -/

/-- Writes a mention: as its name was written before, or with new placeholders. -/
def Draft.meet (arguments : Value) (m : Mention) (d : Draft) : Draft :=
  match Entries.find? m.name d.bound with
  | some text => d.write text
  | none =>
    d.bind m.name (Piece.flat (m.pieces (List.range' (d.values.length + 1)
      (m.values arguments).length))) (m.values arguments)

/-- A reference writes the mention of a whole value. -/
theorem Draft.reference_eq_meet (arguments : Value) (name : String) (d : Draft) :
    d.reference arguments name = d.meet arguments (.whole name) := by
  have single : Piece.flat ((Mention.whole name).pieces (List.range' (d.values.length + 1) 1)) =
      Draft.placeholder (d.values.length + 1) := by
    simp [Mention.pieces, Piece.written]
  rw [reference, meet]
  cases h : Entries.find? name d.bound with
  | some text => simp only [Mention.name, h]
  | none =>
    simp only [Mention.name, h]
    exact congrArg (fun text => d.bind name text _) single.symm

/-- A spread writes the mention of the elements of a list, if there is one. -/
theorem Draft.spread_eq_meet (arguments : Value) (name : String) (delimiter : Delimiter)
    (d : Draft) :
    d.spread arguments name delimiter =
      (Mention.check arguments (.spread name delimiter)).map fun _ =>
        d.meet arguments (.spread name delimiter) := by
  have texts : Piece.flat ∘ (fun n => [Piece.placeholder n]) = Draft.placeholder := by
    funext n
    simp [Piece.written]
  simp only [spread, Mention.check, meet, Mention.name, Mention.values, Mention.pieces,
    Piece.flat_between, List.map_map, texts]
  cases arguments.present? name with
  | none => rfl
  | some found =>
    cases found with
    | list elements => cases Entries.find? name d.bound <;> rfl
    | _ => rfl

/-- Writing a mention behind others adds it to the ledger. -/
theorem Draft.meet_ledgerOf (arguments : Value) (met : List Mention) (m : Mention) :
    ((ledgerOf arguments met).draft "").meet arguments m =
      (ledgerOf arguments (met ++ [m])).draft
        (Piece.flat (writtenAs arguments (met ++ [m]) m.name)) := by
  have known := find?_boundTexts arguments met m.name
  rw [meet]
  by_cases h : m.name ∈ met.map Mention.name
  · rw [if_pos h] at known
    rw [ledgerOf_concat_of_mem h, writtenAs_append h]
    simp only [ledgerOf, Ledger.draft, known, Draft.write, String.empty_append]
  · rw [if_neg h] at known
    rw [ledgerOf_concat_of_notMem h, writtenAs_concat h]
    simp only [ledgerOf, Ledger.draft, known, Draft.bind, String.empty_append]

/-! ## Parts of a render that are accounted for -/

/-- A part of a render is accounted for by mentions if they are what it adds to the ledger, if it
ends with the first mismatch among them, and if what it comes to depends on nothing but the way in
which names are written at last. -/
def Rendering.Accounted {α : Type} (arguments : Value) (r : Rendering α) (ms : List Mention)
    (result : (String → List Piece) → α) : Prop :=
  ∀ met more, r (ledgerOf arguments met) = (forM ms (Mention.check arguments)).map fun _ =>
    (result (writtenAs arguments (met ++ ms ++ more)), ledgerOf arguments (met ++ ms))

namespace Rendering.Accounted

variable {arguments : Value}

protected theorem pure {α : Type} (a : α) : Accounted arguments (pure a) [] fun _ => a := by
  intro met more
  rw [List.append_nil]
  rfl

protected theorem map {α β : Type} {r : Rendering α} {ms : List Mention}
    {result : (String → List Piece) → α} (h : Accounted arguments r ms result) (f : α → β) :
    Accounted arguments (f <$> r) ms fun w => f (result w) := by
  intro met more
  rw [map_eq_pure_bind]
  change Except.bind (r (ledgerOf arguments met)) _ = _
  rw [h met more]
  cases forM ms (Mention.check arguments) <;> rfl

/-- Two parts, one behind the other, are accounted for by the mentions of both. -/
theorem both {α β γ : Type} {r : Rendering α} {s : Rendering β} {ms ns : List Mention}
    {result : (String → List Piece) → α} {other : (String → List Piece) → β}
    (h : Accounted arguments r ms result) (k : Accounted arguments s ns other)
    (f : α → β → γ) :
    Accounted arguments (do return f (← r) (← s)) (ms ++ ns) fun w => f (result w) (other w) := by
  intro met more
  change Except.bind (r (ledgerOf arguments met)) (fun p => Except.bind (s p.2) _) = _
  -- the mentions of the second part are yet to come when the first one is written
  rw [h met (ns ++ more), List.forM_append]
  cases forM ms (Mention.check arguments) with
  | error m => rfl
  | ok _ =>
    have second := k (met ++ ms) more
    simp only [Except.map, Except.bind] at second ⊢
    rw [second]
    simp only [List.append_assoc]
    change _ = Except.map _ (forM ns (Mention.check arguments))
    cases forM ns (Mention.check arguments) <;> rfl

/-- A reference is accounted for by its mention. -/
theorem refer (name : String) :
    Accounted arguments (.refer arguments name) [.whole name] fun w => Piece.flat (w name) := by
  intro met more
  have step : Rendering.refer arguments name (ledgerOf arguments met) = .ok
      (Piece.flat (writtenAs arguments (met ++ [.whole name]) name),
        ledgerOf arguments (met ++ [.whole name])) := by
    rw [Rendering.refer, Rendering.ofStep, Draft.reference_eq_meet, Draft.meet_ledgerOf]
    rfl
  rw [step, ← writtenAs_append (by simp [Mention.name]) more]
  rfl

/-- A spread is accounted for by its mention. -/
theorem spread (name : String) (delimiter : Delimiter) :
    Accounted arguments (.spread arguments name delimiter) [.spread name delimiter] fun w =>
      Piece.flat (w name) := by
  intro met more
  have step : Rendering.spread arguments name delimiter (ledgerOf arguments met) =
      (Mention.check arguments (.spread name delimiter)).map fun _ =>
        (Piece.flat (writtenAs arguments (met ++ [.spread name delimiter]) name),
          ledgerOf arguments (met ++ [.spread name delimiter])) := by
    rw [Rendering.spread, Rendering.ofStep, Draft.spread_eq_meet, Draft.meet_ledgerOf]
    cases Mention.check arguments (.spread name delimiter) <;> rfl
  rw [step, ← writtenAs_append (by simp [Mention.name]) more, List.forM_cons, List.forM_nil]
  cases Mention.check arguments (.spread name delimiter) <;> rfl

end Rendering.Accounted

/-! ## Mentions and pieces of a tree -/

namespace Node

mutual

/-- The references that a render of a node comes to, in order. -/
def mentions (arguments : Value) : Node → List Mention
  | .literal _ => []
  | .value name => [.whole name]
  | .fallback name _ =>
    match arguments.present? name with
    | none => []
    | some _ => [.whole name]
  | .conditional name success failure =>
    match arguments.present? name with
    | some _ => mentionsIn arguments success
    | none => mentionsInBranch arguments failure
  | .spread name delimiter => [.spread name delimiter]
  | .list _ items => mentionsInItems arguments items

/-- The references that a render of nodes comes to. -/
def mentionsIn (arguments : Value) : List Node → List Mention
  | [] => []
  | node :: rest => mentions arguments node ++ mentionsIn arguments rest

/-- The references that a render of the second branch of a conditional comes to. -/
def mentionsInBranch (arguments : Value) : Option (List Node) → List Mention
  | none => []
  | some branch => mentionsIn arguments branch

/-- The references that a render of the items of a list comes to. -/
def mentionsInItems (arguments : Value) : List (List Node) → List Mention
  | [] => []
  | item :: rest => mentionsIn arguments item ++ mentionsInItems arguments rest

end

mutual

/-- The pieces that a node is written with, if `w` says how names are written. -/
def pieces (arguments : Value) (w : String → List Piece) : Node → List Piece
  | .literal text => [.text text]
  | .value name => w name
  | .fallback name word =>
    match arguments.present? name with
    | none => [.text word]
    | some _ => w name
  | .conditional name success failure =>
    match arguments.present? name with
    | some _ => piecesIn arguments w success
    | none => piecesInBranch arguments w failure
  | .spread name _ => w name
  | .list delimiter items =>
    Piece.between delimiter ((piecesInItems arguments w items).filter fun ps => Piece.flat ps ≠ "")

/-- The pieces that nodes are written with. -/
def piecesIn (arguments : Value) (w : String → List Piece) : List Node → List Piece
  | [] => []
  | node :: rest => pieces arguments w node ++ piecesIn arguments w rest

/-- The pieces that the second branch of a conditional is written with. -/
def piecesInBranch (arguments : Value) (w : String → List Piece) :
    Option (List Node) → List Piece
  | none => []
  | some branch => piecesIn arguments w branch

/-- The pieces that each item of a list is written with. -/
def piecesInItems (arguments : Value) (w : String → List Piece) :
    List (List Node) → List (List Piece)
  | [] => []
  | item :: rest => piecesIn arguments w item :: piecesInItems arguments w rest

end

/-! ## The account -/

open Rendering (Accounted)

mutual

/-- A node is accounted for by its mentions, and writes its pieces. -/
theorem accounted_written (arguments : Value) : ∀ node : Node,
    Accounted arguments (written arguments node) (mentions arguments node) fun w =>
      Piece.flat (pieces arguments w node)
  | .literal text => by
    simpa [pieces, mentions, Piece.written] using Accounted.pure text
  | .value name => Accounted.refer name
  | .fallback name word => by
    rw [written_fallback]
    simp only [mentions, pieces]
    cases arguments.present? name with
    | none => simpa [Piece.written] using Accounted.pure word
    | some _ => exact Accounted.refer name
  | .conditional name success failure => by
    rw [written_conditional]
    simp only [mentions, pieces]
    cases arguments.present? name with
    | none => exact accounted_writtenBranch arguments failure
    | some _ => exact accounted_writtenAll arguments success
  | .spread name delimiter => Accounted.spread name delimiter
  | .list delimiter items => by
    rw [written_list]
    have texts := (accounted_items arguments items).map (joined delimiter)
    simpa [pieces, mentions, Piece.flat_between, joined, List.filter_map,
      Function.comp_def] using texts

/-- Nodes are accounted for by their mentions, and write their pieces. -/
theorem accounted_writtenAll (arguments : Value) : ∀ nodes : List Node,
    Accounted arguments (writtenAll arguments nodes) (mentionsIn arguments nodes) fun w =>
      Piece.flat (piecesIn arguments w nodes)
  | [] => Accounted.pure ""
  | node :: rest => by
    rw [writtenAll_cons]
    simp only [mentionsIn, piecesIn, Piece.flat_append]
    exact (accounted_written arguments node).both (accounted_writtenAll arguments rest) _

theorem accounted_writtenBranch (arguments : Value) : ∀ branch : Option (List Node),
    Accounted arguments (writtenBranch arguments branch) (mentionsInBranch arguments branch)
      fun w => Piece.flat (piecesInBranch arguments w branch)
  | none => Accounted.pure ""
  | some branch => accounted_writtenAll arguments branch

theorem accounted_items (arguments : Value) : ∀ items : List (List Node),
    Accounted arguments (items.mapM (writtenAll arguments)) (mentionsInItems arguments items)
      fun w => (piecesInItems arguments w items).map Piece.flat
  | [] => Accounted.pure []
  | item :: rest => by
    rw [List.mapM_cons]
    simp only [mentionsInItems, piecesInItems, List.map_cons]
    exact (accounted_writtenAll arguments item).both (accounted_items arguments rest) _

end

/-- A tree is rendered to its pieces, with each name written as its first mention has it, and to
the values of the first mentions. It is not if a spread is mentioned whose name has no list. -/
theorem toStatement_eq (nodes : List Node) (arguments : Value) :
    toStatement nodes arguments =
      (forM (mentionsIn arguments nodes) (Mention.check arguments)).map fun _ =>
        ⟨Piece.flat (piecesIn arguments (writtenAs arguments (mentionsIn arguments nodes)) nodes),
          boundValues arguments (mentionsIn arguments nodes)⟩ := by
  have whole := accounted_writtenAll arguments nodes [] []
  rw [List.nil_append, List.append_nil] at whole
  have render : renderAll arguments nodes .empty =
      (writtenAll arguments nodes (ledgerOf arguments [])).map fun p => p.2.draft p.1 := by
    rw [← write_writtenAll]
    rfl
  rw [toStatement, render, whole]
  cases forM (mentionsIn arguments nodes) (Mention.check arguments) <;> rfl

end Node

end SqlTemplate
