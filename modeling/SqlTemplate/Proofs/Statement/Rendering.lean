import SqlTemplate.Proofs.Steps
import SqlTemplate.Statement

/-!
# What a render writes

A render goes from draft to draft. It never looks at the text that has been written, and only adds
to it, so a node writes the same whatever the text before it (`Node.render_behind`). What a node
writes is therefore a thing of its own, `Node.written`: a text that depends on the *ledger* alone,
the part of a draft that is not its text. It is put together from what the parts of the node write.

* A list of nodes writes what its nodes write, one behind another (`Node.writtenAll_cons`).
* A delimited list writes the texts of its items that are not empty, with the delimiter between
  them (`Node.written_list`). Writing a delimiter first and cutting it off again where an item turns
  out empty comes to the same.
-/

namespace SqlTemplate

/-! ## Text in front of a draft -/

namespace Draft

/-- A draft with text in front of its own. -/
def behind (text : String) (d : Draft) : Draft := { d with text := text ++ d.text }

@[simp] theorem values_behind (text : String) (d : Draft) : (d.behind text).values = d.values := rfl

@[simp] theorem bound_behind (text : String) (d : Draft) : (d.behind text).bound = d.bound := rfl

theorem write_behind (text more : String) (d : Draft) :
    (d.behind text).write more = (d.write more).behind text := by
  simp [behind, write, String.append_assoc]

theorem bind_behind (text name more : String) (d : Draft) (values : List Value) :
    (d.behind text).bind name more values = (d.bind name more values).behind text := by
  simp [behind, bind, String.append_assoc]

theorem reference_behind (arguments : Value) (text name : String) (d : Draft) :
    (d.behind text).reference arguments name = (d.reference arguments name).behind text := by
  simp only [reference, bound_behind, values_behind]
  cases Entries.find? name d.bound with
  | some written => exact write_behind text written d
  | none => exact bind_behind text name _ d _

theorem spread_behind (arguments : Value) (text name : String) (delimiter : Delimiter)
    (d : Draft) :
    (d.behind text).spread arguments name delimiter =
      (d.spread arguments name delimiter).map (behind text) := by
  simp only [spread, bound_behind, values_behind]
  split
  · cases Entries.find? name d.bound with
    | some written => exact congrArg Except.ok (write_behind text written d)
    | none => exact congrArg Except.ok (bind_behind text name _ d _)
  · rfl

/-- Whether a step wrote nothing does not depend on the text in front of both drafts. -/
theorem wroteNothing_behind (text : String) (d after : Draft) :
    (d.behind text).wroteNothing (after.behind text) = d.wroteNothing after := by
  rw [wroteNothing, wroteNothing, Bool.eq_iff_iff, beq_iff_eq, beq_iff_eq]
  simp only [behind, String.utf8ByteSize_append]
  omega

/-- The draft that an item of a list is rendered behind: with a delimiter, if an earlier item wrote
something. -/
def opened (d : Draft) (delimiter : Delimiter) (wrote : Bool) : Draft :=
  if wrote then d.write delimiter.text else d

theorem opened_behind (text : String) (d : Draft) (delimiter : Delimiter) (wrote : Bool) :
    (d.behind text).opened delimiter wrote = (d.opened delimiter wrote).behind text := by
  cases wrote with
  | false => rfl
  | true => exact write_behind text delimiter.text d

end Draft

namespace Node

open Draft (behind)

/-! ## One step of a render -/

theorem renderAll_cons (arguments : Value) (node : Node) (rest : List Node) (d : Draft) :
    renderAll arguments (node :: rest) d =
      (render arguments node d).bind (renderAll arguments rest) := by
  rw [renderAll]
  rfl

theorem renderItems_cons (arguments : Value) (delimiter : Delimiter) (item : List Node)
    (rest : List (List Node)) (wrote : Bool) (d : Draft) :
    renderItems arguments delimiter (item :: rest) wrote d =
      (renderAll arguments item (d.opened delimiter wrote)).bind fun after =>
        if (d.opened delimiter wrote).wroteNothing after then
          renderItems arguments delimiter rest wrote { after with text := d.text }
        else renderItems arguments delimiter rest true after := by
  rw [renderItems]
  rfl

/-! ## A render does not look back -/

mutual

/-- A node is rendered the same way whatever text stands in front of the draft. -/
theorem render_behind (arguments : Value) (text : String) : ∀ (node : Node) (d : Draft),
    render arguments node (d.behind text) = (render arguments node d).map (behind text)
  | .literal word, d => congrArg Except.ok (Draft.write_behind text word d)
  | .value name, d => congrArg Except.ok (Draft.reference_behind arguments text name d)
  | .fallback name word, d => by
    simp only [render]
    cases arguments.present? name with
    | none => exact congrArg Except.ok (Draft.write_behind text word d)
    | some _ => exact congrArg Except.ok (Draft.reference_behind arguments text name d)
  | .spread name delimiter, d => Draft.spread_behind arguments text name delimiter d
  | .conditional name success failure, d => by
    simp only [render]
    cases arguments.present? name with
    | none => exact renderBranch_behind arguments text failure d
    | some _ => exact renderAll_behind arguments text success d
  | .list delimiter items, d => renderItems_behind arguments text delimiter items false d

theorem renderAll_behind (arguments : Value) (text : String) : ∀ (nodes : List Node) (d : Draft),
    renderAll arguments nodes (d.behind text) = (renderAll arguments nodes d).map (behind text)
  | [], _ => rfl
  | node :: rest, d => by
    rw [renderAll_cons, renderAll_cons, render_behind arguments text node d]
    cases render arguments node d with
    | error m => rfl
    | ok after => exact renderAll_behind arguments text rest after

theorem renderBranch_behind (arguments : Value) (text : String) :
    ∀ (branch : Option (List Node)) (d : Draft),
      renderBranch arguments branch (d.behind text) =
        (renderBranch arguments branch d).map (behind text)
  | none, _ => rfl
  | some branch, d => renderAll_behind arguments text branch d

theorem renderItems_behind (arguments : Value) (text : String) (delimiter : Delimiter) :
    ∀ (items : List (List Node)) (wrote : Bool) (d : Draft),
      renderItems arguments delimiter items wrote (d.behind text) =
        (renderItems arguments delimiter items wrote d).map (behind text)
  | [], _, _ => rfl
  | item :: rest, wrote, d => by
    rw [renderItems_cons, renderItems_cons, Draft.opened_behind,
      renderAll_behind arguments text item]
    cases renderAll arguments item (d.opened delimiter wrote) with
    | error m => rfl
    | ok after =>
      simp only [Except.map, Except.bind, Draft.wroteNothing_behind]
      split
      · exact renderItems_behind arguments text delimiter rest wrote { after with text := d.text }
      · exact renderItems_behind arguments text delimiter rest true after

end

end Node

/-! ## Ledgers -/

/-- What a draft holds beside its text. -/
structure Ledger where
  /-- the values that have been bound, in order -/
  values : List Value
  /-- the text that each name is written with, in the order in which the names were bound -/
  bound : Entries String

/-- The ledger of a draft. -/
def Draft.ledger (d : Draft) : Ledger := ⟨d.values, d.bound⟩

/-- The draft with a text and a ledger. -/
def Ledger.draft (l : Ledger) (text : String) : Draft := ⟨text, l.values, l.bound⟩

@[simp] theorem Ledger.ledger_draft (l : Ledger) (text : String) : (l.draft text).ledger = l := rfl

@[simp] theorem Ledger.text_draft (l : Ledger) (text : String) : (l.draft text).text = text := rfl

theorem Draft.wroteNothing_draft (d : Draft) (l : Ledger) (text : String) :
    d.wroteNothing (l.draft (d.text ++ text)) = true ↔ text = "" := by
  simp [wroteNothing, String.utf8ByteSize_append]

@[simp] theorem Draft.ledger_opened (d : Draft) (delimiter : Delimiter) (wrote : Bool) :
    (d.opened delimiter wrote).ledger = d.ledger := by
  cases wrote <;> rfl

/-- A part of a render: it keeps the ledger, and may end with a mismatch. -/
abbrev Rendering := StateT Ledger (Except Mismatch)

namespace Rendering

/-- What a step from draft to draft writes when no text stands in front. -/
def ofStep (step : Draft → Except Mismatch Draft) : Rendering String := fun l =>
  (step (l.draft "")).map fun d => (d.text, d.ledger)

/-- Goes on from a draft with what a part of a render writes. -/
def write (r : Rendering String) (d : Draft) : Except Mismatch Draft :=
  (r d.ledger).map fun (text, l) => l.draft (d.text ++ text)

/-- A step that does not look back does the same as writing what it writes. -/
theorem write_ofStep {step : Draft → Except Mismatch Draft}
    (h : ∀ text d, step (d.behind text) = (step d).map (Draft.behind text)) (d : Draft) :
    (ofStep step).write d = step d := by
  -- every draft is one without a text, with its own text in front
  have front : (d.ledger.draft "").behind d.text = d := by
    simp [Draft.behind, Ledger.draft, Draft.ledger]
  have looked := h d.text (d.ledger.draft "")
  rw [front] at looked
  rw [looked]
  rw [write, ofStep]
  cases step (d.ledger.draft "") with
  | error m => rfl
  | ok after => rfl

/-- A rendering is what it writes when no text stands in front. -/
theorem ofStep_write (r : Rendering String) : ofStep r.write = r := by
  funext l
  rw [ofStep, write, Ledger.ledger_draft]
  cases r l with
  | error m => rfl
  | ok p => simp [Except.map]

/-- Renderings that go on from every draft in the same way are the same. -/
theorem ext_write {r s : Rendering String} (h : ∀ d, r.write d = s.write d) : r = s := by
  rw [← ofStep_write r, ← ofStep_write s, funext h]

/-- Two renderings, one behind the other. -/
theorem write_append (first second : Rendering String) (d : Draft) :
    Rendering.write (do return (← first) ++ (← second)) d =
      (first.write d).bind second.write := by
  unfold write
  change Except.map _ (Except.bind (first d.ledger) fun p =>
    Except.bind (second p.2) fun q => .ok (p.1 ++ q.1, q.2)) = _
  cases first d.ledger with
  | error m => rfl
  | ok p =>
    simp only [Except.bind, Except.map, Ledger.ledger_draft, Ledger.text_draft]
    cases second p.2 with
    | error m => rfl
    | ok q => simp [String.append_assoc]

/-- A rendering that goes on with what another one has come to. -/
theorem write_bind {α : Type} (first : Rendering α) (next : α → Rendering String) (d : Draft) :
    Rendering.write (first >>= next) d =
      (first d.ledger).bind fun (a, l) => (next a).write (l.draft d.text) := by
  unfold write
  change Except.map _ (Except.bind (first d.ledger) fun p => next p.1 p.2) = _
  cases first d.ledger with
  | error m => rfl
  | ok p => rfl

/-- Writing a text leaves the ledger as it is. -/
theorem write_pure (text : String) (d : Draft) :
    (pure text : Rendering String).write d = .ok (d.write text) := rfl

/-- Refers to a name: writes its placeholder, and binds its value if it has none yet. -/
def refer (arguments : Value) (name : String) : Rendering String :=
  ofStep fun d => .ok (d.reference arguments name)

/-- Spreads a name: writes the placeholders of its elements, and binds them if it has none yet. -/
def spread (arguments : Value) (name : String) (delimiter : Delimiter) : Rendering String :=
  ofStep fun d => d.spread arguments name delimiter

end Rendering

namespace Node

/-! ## What nodes write -/

/-- What a node writes. -/
def written (arguments : Value) (node : Node) : Rendering String :=
  .ofStep (render arguments node)

/-- What a list of nodes writes. -/
def writtenAll (arguments : Value) (nodes : List Node) : Rendering String :=
  .ofStep (renderAll arguments nodes)

/-- What the second branch of a conditional writes, if there is one. -/
def writtenBranch (arguments : Value) : Option (List Node) → Rendering String
  | none => pure ""
  | some branch => writtenAll arguments branch

theorem write_written (arguments : Value) (node : Node) (d : Draft) :
    (written arguments node).write d = render arguments node d :=
  Rendering.write_ofStep (fun text => render_behind arguments text node) d

theorem write_writtenAll (arguments : Value) (nodes : List Node) (d : Draft) :
    (writtenAll arguments nodes).write d = renderAll arguments nodes d :=
  Rendering.write_ofStep (fun text => renderAll_behind arguments text nodes) d

theorem write_writtenBranch (arguments : Value) (branch : Option (List Node)) (d : Draft) :
    (writtenBranch arguments branch).write d = renderBranch arguments branch d := by
  cases branch with
  | none => simp [writtenBranch, Rendering.write_pure, renderBranch, Draft.write]
  | some nodes => exact write_writtenAll arguments nodes d

@[simp] theorem written_literal (arguments : Value) (text : String) :
    written arguments (.literal text) = pure text := by
  refine Rendering.ext_write fun d => ?_
  rw [write_written, Rendering.write_pure, render]

@[simp] theorem written_value (arguments : Value) (name : String) :
    written arguments (.value name) = .refer arguments name := rfl

@[simp] theorem written_spread (arguments : Value) (name : String) (delimiter : Delimiter) :
    written arguments (.spread name delimiter) = .spread arguments name delimiter := rfl

@[simp] theorem written_fallback (arguments : Value) (name word : String) :
    written arguments (.fallback name word) =
      match arguments.present? name with
      | none => pure word
      | some _ => .refer arguments name := by
  refine Rendering.ext_write fun d => ?_
  rw [write_written, render]
  cases arguments.present? name with
  | none => rfl
  | some _ => exact (write_written arguments (.value name) d).symm

@[simp] theorem written_conditional (arguments : Value) (name : String) (success : List Node)
    (failure : Option (List Node)) :
    written arguments (.conditional name success failure) =
      match arguments.present? name with
      | some _ => writtenAll arguments success
      | none => writtenBranch arguments failure := by
  refine Rendering.ext_write fun d => ?_
  rw [write_written, render]
  cases arguments.present? name with
  | none => exact (write_writtenBranch arguments failure d).symm
  | some _ => exact (write_writtenAll arguments success d).symm

@[simp] theorem writtenAll_nil (arguments : Value) : writtenAll arguments [] = pure "" := rfl

/-- A list of nodes writes what its nodes write, one behind another. -/
theorem writtenAll_cons (arguments : Value) (node : Node) (rest : List Node) :
    writtenAll arguments (node :: rest) = do
      return (← written arguments node) ++ (← writtenAll arguments rest) := by
  refine Rendering.ext_write fun d => ?_
  rw [Rendering.write_append, write_writtenAll, write_written, renderAll_cons]
  congr 1
  funext after
  exact (write_writtenAll arguments rest after).symm

/-! ## What a delimited list writes -/

/-- The texts of items: those that are not empty, with the delimiter between them. -/
def joined (delimiter : Delimiter) (texts : List String) : String :=
  delimiter.text.intercalate (texts.filter fun text => text ≠ "")

/-- The texts of items that stand behind others: those that are not empty, each behind a
delimiter. -/
def joinedBehind (delimiter : Delimiter) (texts : List String) : String :=
  String.join ((texts.filter fun text => text ≠ "").map (delimiter.text ++ ·))

theorem joined_cons_empty (delimiter : Delimiter) (texts : List String) :
    joined delimiter ("" :: texts) = joined delimiter texts := by
  simp [joined]

/-- A text between texts can be put in front of each but the first. -/
theorem intercalate_cons (between first : String) (rest : List String) :
    between.intercalate (first :: rest) = first ++ String.join (rest.map (between ++ ·)) := by
  induction rest generalizing first with
  | nil => simp
  | cons next rest ih =>
    rw [String.intercalate_cons_cons, ih]
    simp [String.append_assoc]

theorem joined_cons {text : String} (h : text ≠ "") (delimiter : Delimiter) (texts : List String) :
    joined delimiter (text :: texts) = text ++ joinedBehind delimiter texts := by
  rw [joined, List.filter_cons_of_pos (by simpa using h), intercalate_cons]
  rfl

theorem joinedBehind_cons_empty (delimiter : Delimiter) (texts : List String) :
    joinedBehind delimiter ("" :: texts) = joinedBehind delimiter texts := by
  simp [joinedBehind]

theorem joinedBehind_cons {text : String} (h : text ≠ "") (delimiter : Delimiter)
    (texts : List String) :
    joinedBehind delimiter (text :: texts) =
      delimiter.text ++ text ++ joinedBehind delimiter texts := by
  simp [joinedBehind, h]

/-- What the items of a list write: with the delimiter in front of each, if an earlier item wrote
something. -/
theorem renderItems_eq_write (arguments : Value) (delimiter : Delimiter)
    (items : List (List Node)) (wrote : Bool) (d : Draft) :
    renderItems arguments delimiter items wrote d =
      Rendering.write ((if wrote then joinedBehind delimiter else joined delimiter) <$>
        items.mapM (writtenAll arguments)) d := by
  induction items generalizing wrote d with
  | nil =>
    cases wrote
    · simp [renderItems, joined, Rendering.write_pure, Draft.write]
    · simp [renderItems, joinedBehind, Rendering.write_pure, Draft.write]
  | cons item rest ih =>
    -- a delimiter that goes first changes the text, and not the ledger
    have step : renderAll arguments item (d.opened delimiter wrote) =
        (writtenAll arguments item d.ledger).map fun (text, l) =>
          l.draft ((d.opened delimiter wrote).text ++ text) := by
      rw [← write_writtenAll, Rendering.write, Draft.ledger_opened]
    rw [renderItems_cons, step, List.mapM_cons, map_bind, Rendering.write_bind]
    cases writtenAll arguments item d.ledger with
    | error m => rfl
    | ok p =>
      obtain ⟨text, l⟩ := p
      simp only [Except.map, Except.bind, map_bind, map_pure, Draft.wroteNothing_draft]
      by_cases h : text = ""
      · -- the delimiter is cut off again, and whether there was text before stays as it was
        subst h
        rw [if_pos rfl]
        refine (ih wrote (l.draft d.text)).trans ?_
        simp only [map_eq_pure_bind]
        cases wrote <;> simp [joined_cons_empty, joinedBehind_cons_empty]
      · rw [if_neg h]
        refine (ih true _).trans ?_
        simp only [map_eq_pure_bind, Rendering.write_bind, Rendering.write_pure,
          Ledger.ledger_draft, Ledger.text_draft]
        congr 1
        funext x
        cases wrote
        · simp [Draft.write, Draft.opened, Ledger.draft, joined_cons h, String.append_assoc]
        · simp [Draft.write, Draft.opened, Ledger.draft, joinedBehind_cons h, String.append_assoc]

/-- A delimited list writes the texts of its items that are not empty, with the delimiter between
them. -/
@[simp] theorem written_list (arguments : Value) (delimiter : Delimiter)
    (items : List (List Node)) :
    written arguments (.list delimiter items) =
      joined delimiter <$> items.mapM (writtenAll arguments) := by
  refine Rendering.ext_write fun d => ?_
  rw [write_written, render, renderItems_eq_write]
  rfl

end Node

end SqlTemplate
