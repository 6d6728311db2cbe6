import Mathlib
import SqlTemplate.Proofs.Statement.Rendering
import SqlTemplate.Text.Width

/-!
# Lists that are rendered in place

A render writes into one text from beginning to end and only ever adds to it, and to the values and
the names that are bound (`Node.renderAll_extends`).

A delimited list gives its items turns. Whether an item writes anything is known only when it has
been rendered, so in its turn the delimiter is written first, if an item before it wrote something,
and the text is cut off again at the place before the delimiter if it has not grown since. The cut
takes away the delimiter and nothing else, since all that was written by then is still there
(`Node.turned_of_turn`). So the turns come to the texts of the items that are not empty, with the
delimiter between them (`Node.render_in_place`).
-/

namespace SqlTemplate

namespace Text

/-! ## Cutting off a text -/

/-- The characters that end within the first bytes of a text. -/
def takeBytes : Nat → List Char → List Char
  | _, [] => []
  | n, c :: s => if c.utf8Size ≤ n then c :: takeBytes (n - c.utf8Size) s else []

/-- Within the bytes of a text there are its characters. -/
theorem takeBytes_width (s t : List Char) : takeBytes (width s) (s ++ t) = s := by
  induction s with
  | nil =>
    cases t with
    | nil => rfl
    | cons c t =>
      have beyond : ¬c.utf8Size ≤ 0 := Nat.not_le_of_gt c.utf8Size_pos
      rw [width_nil, List.nil_append, takeBytes, if_neg beyond]
  | cons c s ih =>
    rw [width_cons, List.cons_append, takeBytes, if_pos (Nat.le_add_right ..),
      Nat.add_sub_cancel_left, ih]

end Text

namespace Draft

/-- Cuts off the text behind a number of bytes. -/
def truncate (d : Draft) (bytes : Nat) : Draft :=
  { d with text := String.ofList (Text.takeBytes bytes d.text.toList) }

/-- What is cut off behind the bytes of a text is what stands behind the text. -/
theorem truncate_of_text_eq {d : Draft} {text cut : String} (h : d.text = text ++ cut) :
    d.truncate text.utf8ByteSize = { d with text } := by
  rw [truncate, h, String.toList_append, Text.utf8ByteSize_eq_width, Text.takeBytes_width,
    String.ofList_toList]

/-! ## Drafts that are added to -/

/-- A draft has all that an earlier one has, and more behind it. -/
structure Extends (d after : Draft) : Prop where
  /-- the text begins as before -/
  text : ∃ added, after.text = d.text ++ added
  /-- the values that were bound are the first ones -/
  values : d.values <+: after.values
  /-- and so are the names -/
  bound : d.bound <+: after.bound

namespace Extends

variable {d next after : Draft}

theorem refl (d : Draft) : d.Extends d := ⟨⟨"", by simp⟩, List.prefix_rfl, List.prefix_rfl⟩

theorem trans (h : d.Extends next) (k : next.Extends after) : d.Extends after := by
  obtain ⟨first, hf⟩ := h.text
  obtain ⟨second, hs⟩ := k.text
  refine ⟨⟨first ++ second, ?_⟩, h.values.trans k.values, h.bound.trans k.bound⟩
  rw [hs, hf, String.append_assoc]

theorem write (d : Draft) (text : String) : d.Extends (d.write text) :=
  ⟨⟨text, rfl⟩, List.prefix_rfl, List.prefix_rfl⟩

theorem bind (d : Draft) (name text : String) (values : List Value) :
    d.Extends (d.bind name text values) :=
  ⟨⟨text, rfl⟩, List.prefix_append _ _, List.prefix_append _ _⟩

theorem reference (d : Draft) (arguments : Value) (name : String) :
    d.Extends (d.reference arguments name) := by
  rw [Draft.reference]
  cases Entries.find? name d.bound with
  | some text => exact write d text
  | none => exact bind d name _ _

theorem spread {arguments : Value} {name : String} {delimiter : Delimiter}
    (ok : d.spread arguments name delimiter = .ok after) : d.Extends after := by
  rw [Draft.spread] at ok
  split at ok
  · cases known : Entries.find? name d.bound with
    | some text =>
      rw [known] at ok
      cases ok
      exact write d text
    | none =>
      rw [known] at ok
      cases ok
      exact bind d name _ _
  · cases ok

theorem opened (d : Draft) (delimiter : Delimiter) (wrote : Bool) :
    d.Extends (d.opened delimiter wrote) := by
  cases wrote with
  | false => exact refl d
  | true => exact write d delimiter.text

/-- A draft extends another one also with the text of that one. -/
theorem withText (h : d.Extends after) : d.Extends { after with text := d.text } :=
  ⟨⟨"", by simp⟩, h.values, h.bound⟩

end Extends

end Draft

namespace Node

open Draft (Extends)

/-! ## A render only adds -/

mutual

/-- A render of a node adds to the draft before it. -/
theorem render_extends (arguments : Value) : ∀ (node : Node) {d after : Draft},
    render arguments node d = .ok after → d.Extends after
  | .literal text, d, _, ok => by
    cases ok
    exact .write d text
  | .value name, d, _, ok => by
    cases ok
    exact .reference d arguments name
  | .fallback name word, d, _, ok => by
    rw [render] at ok
    cases present : arguments.present? name with
    | none =>
      rw [present] at ok
      cases ok
      exact .write d word
    | some found =>
      rw [present] at ok
      cases ok
      exact .reference d arguments name
  | .conditional name success failure, _, _, ok => by
    rw [render] at ok
    cases present : arguments.present? name with
    | none =>
      rw [present] at ok
      exact renderBranch_extends arguments failure ok
    | some found =>
      rw [present] at ok
      exact renderAll_extends arguments success ok
  | .spread name delimiter, _, _, ok => .spread ok
  | .list delimiter items, _, _, ok => renderItems_extends arguments delimiter items false ok

theorem renderAll_extends (arguments : Value) : ∀ (nodes : List Node) {d after : Draft},
    renderAll arguments nodes d = .ok after → d.Extends after
  | [], d, _, ok => by
    cases ok
    exact .refl d
  | node :: rest, _, _, ok => by
    rw [renderAll_cons] at ok
    obtain ⟨next, first, others⟩ := bind_eq_ok ok
    exact (render_extends arguments node first).trans (renderAll_extends arguments rest others)

theorem renderBranch_extends (arguments : Value) :
    ∀ (branch : Option (List Node)) {d after : Draft},
      renderBranch arguments branch d = .ok after → d.Extends after
  | none, d, _, ok => by
    cases ok
    exact .refl d
  | some branch, _, _, ok => renderAll_extends arguments branch ok

theorem renderItems_extends (arguments : Value) (delimiter : Delimiter) :
    ∀ (items : List (List Node)) (wrote : Bool) {d after : Draft},
      renderItems arguments delimiter items wrote d = .ok after → d.Extends after
  | [], _, d, _, ok => by
    cases ok
    exact .refl d
  | item :: rest, wrote, d, _, ok => by
    rw [renderItems_cons] at ok
    obtain ⟨next, first, others⟩ := bind_eq_ok ok
    have here : d.Extends next :=
      (Extends.opened d delimiter wrote).trans (renderAll_extends arguments item first)
    by_cases nothing : (d.opened delimiter wrote).wroteNothing next = true
    · rw [if_pos nothing] at others
      exact here.withText.trans (renderItems_extends arguments delimiter rest wrote others)
    · rw [if_neg nothing] at others
      exact here.trans (renderItems_extends arguments delimiter rest true others)

end

/-! ## Turns -/

/-- The turn of an item, with whether an item before it wrote something: a delimiter is written
first if so, and the text is cut off at the place before it if the item writes no byte. -/
def turn (arguments : Value) (delimiter : Delimiter) :
    Bool × Draft → List Node → Except Mismatch (Bool × Draft)
  | (wrote, d), item => do
    let mark := d.text.utf8ByteSize
    let opened := d.opened delimiter wrote
    let after ← renderAll arguments item opened
    if opened.wroteNothing after then return (wrote, after.truncate mark)
    else return (true, after)

/-- What a turn comes to, if the item writes `text` behind the delimiter. -/
inductive Turned (delimiter : Delimiter) (wrote : Bool) (d : Draft) (text : String) :
    Bool × Draft → Prop
  /-- the text is the one before the turn, without the delimiter -/
  | empty {next : Draft} (nothing : text = "") (kept : next.text = d.text) :
      Turned delimiter wrote d text (wrote, next)
  /-- the delimiter stays, behind the text of an earlier item and before that of this one -/
  | filled {next : Draft} (something : text ≠ "")
      (added : next.text = (d.opened delimiter wrote).text ++ text) :
      Turned delimiter wrote d text (true, next)

section Turns

variable {arguments : Value} {delimiter : Delimiter}

/-- To cut off the text in a turn is to put the text of before. -/
theorem turn_eq (arguments : Value) (delimiter : Delimiter) (wrote : Bool) (d : Draft)
    (item : List Node) :
    turn arguments delimiter (wrote, d) item =
      (renderAll arguments item (d.opened delimiter wrote)).bind fun after =>
        if (d.opened delimiter wrote).wroteNothing after then
          .ok (wrote, { after with text := d.text })
        else .ok (true, after) := by
  have unfolded : turn arguments delimiter (wrote, d) item =
      (renderAll arguments item (d.opened delimiter wrote)).bind fun after =>
        if (d.opened delimiter wrote).wroteNothing after then
          .ok (wrote, after.truncate d.text.utf8ByteSize)
        else .ok (true, after) := rfl
  rw [unfolded]
  cases rendered : renderAll arguments item (d.opened delimiter wrote) with
  | error m => rfl
  | ok after =>
    have opened := Extends.opened d delimiter wrote
    obtain ⟨cut, text⟩ := (opened.trans (renderAll_extends arguments item rendered)).text
    simp only [Except.bind, Draft.truncate_of_text_eq text]

/-- A list is rendered by giving its items turns. -/
theorem renderItems_eq_foldlM (items : List (List Node)) (wrote : Bool) (d : Draft) :
    renderItems arguments delimiter items wrote d =
      (items.foldlM (turn arguments delimiter) (wrote, d)).map Prod.snd := by
  induction items generalizing wrote d with
  | nil => rfl
  | cons item rest ih =>
    rw [renderItems_cons, List.foldlM_cons, turn_eq]
    cases renderAll arguments item (d.opened delimiter wrote) with
    | error m => rfl
    | ok after =>
      change (if (d.opened delimiter wrote).wroteNothing after then _ else _) =
        Except.map Prod.snd (Except.bind (if _ then _ else _) _)
      split
      · exact ih wrote { after with text := d.text }
      · exact ih true after

theorem wroteNothing_iff {d after : Draft} {text : String} (h : after.text = d.text ++ text) :
    d.wroteNothing after = true ↔ text = "" := by
  simp [Draft.wroteNothing, h, String.utf8ByteSize_append]

/-- A turn takes nothing away from the text before it. It leaves the delimiter only where an item
before wrote something and the item itself does. -/
theorem turned_of_turn {wrote : Bool} {d : Draft} {item : List Node} {next : Bool × Draft}
    (ok : turn arguments delimiter (wrote, d) item = .ok next) :
    ∃ after text, renderAll arguments item (d.opened delimiter wrote) = .ok after ∧
      after.text = (d.opened delimiter wrote).text ++ text ∧ next.2.ledger = after.ledger ∧
      Turned delimiter wrote d text next := by
  rw [turn_eq] at ok
  obtain ⟨after, rendered, ok⟩ := bind_eq_ok ok
  obtain ⟨text, added⟩ := (renderAll_extends arguments item rendered).text
  refine ⟨after, text, rendered, added, ?_⟩
  by_cases nothing : text = ""
  · rw [if_pos ((wroteNothing_iff added).mpr nothing)] at ok
    cases ok
    exact ⟨rfl, .empty nothing rfl⟩
  · rw [if_neg (mt (wroteNothing_iff added).mp nothing)] at ok
    cases ok
    exact ⟨rfl, .filled nothing added⟩

end Turns

/-! ## Items without delimiters -/

/-- Items are rendered one behind another, and write the texts. -/
inductive InTurn (arguments : Value) : Draft → List (List Node) → List String → Draft → Prop
  | nil (d : Draft) : InTurn arguments d [] [] d
  | cons {d next last : Draft} {item : List Node} {rest : List (List Node)} {text : String}
      {texts : List String} (rendered : renderAll arguments item d = .ok next)
      (added : next.text = d.text ++ text) (others : InTurn arguments next rest texts last) :
      InTurn arguments d (item :: rest) (text :: texts) last

theorem mapM_writtenAll_cons (arguments : Value) (item : List Node) (rest : List (List Node))
    (l : Ledger) :
    (item :: rest).mapM (writtenAll arguments) l =
      (writtenAll arguments item l).bind fun (text, l) =>
        (rest.mapM (writtenAll arguments) l).bind fun (texts, l) => .ok (text :: texts, l) := by
  rw [List.mapM_cons]
  rfl

/-- What items write one behind another is told by the ledger that they are rendered behind. -/
theorem inTurn_iff {arguments : Value} {items : List (List Node)} {d last : Draft}
    {texts : List String} :
    InTurn arguments d items texts last ↔ ∃ l,
      items.mapM (writtenAll arguments) d.ledger = .ok (texts, l) ∧
        last = l.draft (d.text ++ String.join texts) := by
  induction items generalizing d texts with
  | nil =>
    have same (d : Draft) : d.ledger.draft (d.text ++ String.join []) = d := by
      simp [Ledger.draft, Draft.ledger]
    rw [List.mapM_nil]
    constructor
    · rintro ⟨⟩
      exact ⟨last.ledger, rfl, (same last).symm⟩
    · rintro ⟨l, ⟨⟩, rfl⟩
      rw [same]
      exact .nil d
  | cons item rest ih =>
    rw [mapM_writtenAll_cons]
    constructor
    · rintro (_ | ⟨rendered, added, others⟩)
      rw [← write_writtenAll, Rendering.write] at rendered
      obtain ⟨⟨text, l⟩, wrote, rfl⟩ := map_eq_ok rendered
      obtain rfl := (String.append_right_inj _).mp added
      obtain ⟨l', done, rfl⟩ := ih.mp others
      rw [Ledger.ledger_draft] at done
      refine ⟨l', ?_, by simp [String.append_assoc]⟩
      rw [wrote]
      simp only [Except.bind, done]
    · rintro ⟨l', done, rfl⟩
      obtain ⟨⟨text, l⟩, wrote, done⟩ := bind_eq_ok done
      obtain ⟨⟨texts, behind⟩, done, ⟨⟩⟩ := bind_eq_ok done
      have rendered : renderAll arguments item d = .ok (l.draft (d.text ++ text)) := by
        rw [← write_writtenAll, Rendering.write, wrote]
        rfl
      refine .cons rendered rfl (ih.mpr ⟨l', done, by simp [String.append_assoc]⟩)

theorem render_list (arguments : Value) (delimiter : Delimiter) (items : List (List Node))
    (d : Draft) :
    render arguments (.list delimiter items) d =
      (items.mapM (writtenAll arguments) d.ledger).map fun (texts, l) =>
        l.draft (d.text ++ joined delimiter texts) := by
  rw [← write_written, written_list, map_eq_pure_bind, Rendering.write_bind]
  cases items.mapM (writtenAll arguments) d.ledger with
  | error m => rfl
  | ok wrote => apply Rendering.write_pure

/-- A list is rendered exactly if its items can be rendered one behind another, and it writes the
texts that are not empty, with the delimiter between them. -/
theorem render_list_eq_ok_iff {arguments : Value} {delimiter : Delimiter}
    {items : List (List Node)} {d after : Draft} :
    render arguments (.list delimiter items) d = .ok after ↔
      ∃ texts last, InTurn arguments d items texts last ∧
        after = last.ledger.draft (d.text ++ joined delimiter texts) := by
  rw [render_list]
  constructor
  · intro ok
    obtain ⟨⟨texts, l⟩, done, rfl⟩ := map_eq_ok ok
    exact ⟨texts, _, inTurn_iff.mpr ⟨l, done, rfl⟩, rfl⟩
  · rintro ⟨texts, last, rendered, rfl⟩
    obtain ⟨l, done, rfl⟩ := inTurn_iff.mp rendered
    rw [done]
    rfl

/-- A render only adds to the draft before it. A list gives its items turns, in which a delimiter is
written first and the text is cut off again; no turn takes away anything that was in the text before
it, and the delimiter stays only between the texts of two items. What a list adds is the texts that
its items write one behind another, without those that are empty and with the delimiter between
them. -/
theorem render_in_place (arguments : Value) :
    (∀ (nodes : List Node) (d after : Draft), renderAll arguments nodes d = .ok after →
      d.Extends after) ∧
    ∀ (delimiter : Delimiter),
      (∀ (items : List (List Node)) (d : Draft), render arguments (.list delimiter items) d =
        (items.foldlM (turn arguments delimiter) (false, d)).map Prod.snd) ∧
      (∀ (wrote : Bool) (d : Draft) (item : List Node) (next : Bool × Draft),
        turn arguments delimiter (wrote, d) item = .ok next →
          ∃ after text, renderAll arguments item (d.opened delimiter wrote) = .ok after ∧
            after.text = (d.opened delimiter wrote).text ++ text ∧
            next.2.ledger = after.ledger ∧ Turned delimiter wrote d text next) ∧
      ∀ (items : List (List Node)) (d after : Draft),
        render arguments (.list delimiter items) d = .ok after ↔
          ∃ texts last, InTurn arguments d items texts last ∧
            after = last.ledger.draft
              (d.text ++ delimiter.text.intercalate (texts.filter fun text => text ≠ "")) := by
  refine ⟨?_, ?_⟩
  · intro nodes d after
    apply renderAll_extends
  · intro delimiter
    refine ⟨?_, ?_, ?_⟩
    · intro items d
      rw [render, renderItems_eq_foldlM]
    · intro wrote d item next
      apply turned_of_turn
    · intro items d after
      apply render_list_eq_ok_iff

/-- Behind a text that was there before, a list of three items leaves out the one that spreads no
elements. In its turn the text is cut off before the delimiter. -/
theorem render_in_place_spread :
    let arguments : Value := .map [("ids", .list [])]
    let d : Draft := ⟨"x ", [.bool true], [("n", "$1")]⟩
    ∃ after next,
      renderAll arguments
        [.list .comma [[.value "n"], [.spread "ids" .comma], [.value "m"]]] d = .ok after ∧
      after.text = "x $1, $2" ∧ after.values = [.bool true, .null] ∧ d.Extends after ∧
      turn arguments .comma (true, d) [.spread "ids" .comma] = .ok next ∧ next.2.text = "x " ∧
      ∃ spread text,
        renderAll arguments [.spread "ids" .comma] (d.opened .comma true) = .ok spread ∧
        spread.text = (d.opened .comma true).text ++ text ∧ next.2.ledger = spread.ledger ∧
        Turned .comma true d text next := by
  intro arguments d
  obtain ⟨extended, lists⟩ := render_in_place arguments
  obtain ⟨-, turned, -⟩ := lists .comma
  have rendered : renderAll arguments
      [.list .comma [[.value "n"], [.spread "ids" .comma], [.value "m"]]] d =
      .ok ⟨"x $1, $2", [.bool true, .null], [("n", "$1"), ("ids", ""), ("m", "$2")]⟩ := by
    cbv
  have taken : turn arguments .comma (true, d) [.spread "ids" .comma] =
      .ok (true, ⟨"x ", [.bool true], [("n", "$1"), ("ids", "")]⟩) := by
    rw [turn_eq]
    cbv
  exact ⟨_, _, rendered, rfl, rfl, extended _ _ _ rendered, taken, rfl, turned _ _ _ _ taken⟩

end Node

end SqlTemplate
