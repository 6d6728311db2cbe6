import SqlTemplate.Node.Reading
import SqlTemplate.Proofs.Node.Grammar

/-!
# Reading what the grammar says

A template is read with a stack, one lexeme at a time. What the grammar derives from lexemes is read
from them: a fragment adds its node to a reading, and leaves what is open as it was
(`Reading.after?_fragments`). A token may be pending before the fragment and behind it, so readings
are compared as they are once they are settled (`Reading.At`).

Whether a lexeme can stand where it stands does not depend on its place in the template, which shows
in errors only (`Reading.step_eq_ok_iff`). So readings go by lexemes here, not by tokens.
-/

namespace SqlTemplate

open Grammar

namespace Reading

/-! ## Reading lexemes -/

/-- The reading behind a lexeme, if the lexeme can stand there. -/
def next? (r : Reading) (l : Lexeme) : Option Reading := (r.step ⟨l, 0, 0⟩).toOption

/-- The reading behind lexemes, if they can stand there. -/
def after? (r : Reading) (ls : List Lexeme) : Option Reading := ls.foldlM next? r

@[simp] theorem after?_nil (r : Reading) : r.after? [] = some r := rfl

theorem after?_cons (r : Reading) (l : Lexeme) (ls : List Lexeme) :
    r.after? (l :: ls) = (r.next? l).bind fun next => next.after? ls := rfl

theorem after?_append (r : Reading) (ls more : List Lexeme) :
    r.after? (ls ++ more) = (r.after? ls).bind fun next => next.after? more := by
  rw [after?, List.foldlM_append]
  rfl

/-- Where a token is placed depends on its lexeme only. Its place shows in the error. -/
theorem place_eq (r : Reading) (l : Lexeme) (offset length : Nat) :
    r.place ⟨l, offset, length⟩ = (r.place ⟨l, 0, 0⟩).mapError fun e => { e with offset } := by
  cases l with
  | listOpen delimiter =>
    simp only [place, enter]
    split <;> rfl
  | separator | listClose | blockClose =>
    simp only [place]
    rcases r.stack with _ | ⟨frame, stack⟩
    · rfl
    · cases frame <;> rfl
  | _ => rfl

/-- What a token does depends on its lexeme only. Its place shows in the error. -/
theorem step_eq (r : Reading) (l : Lexeme) (offset length : Nat) :
    r.step ⟨l, offset, length⟩ = (r.step ⟨l, 0, 0⟩).mapError fun e => { e with offset } := by
  rw [step, step]
  cases r.pending with
  | settled => exact place_eq r l offset length
  | key name =>
    cases l with
    | fallback word => rfl
    | conditionalOpen =>
      simp only [enter]
      split <;> rfl
    | _ => exact place_eq r.settle _ offset length
  | opened delimiter =>
    cases l with
    | spread => rfl
    | _ => exact place_eq r.settle _ offset length
  | spread delimiter => cases l <;> rfl
  | spreadKey delimiter name => cases l <;> rfl
  | branch name success =>
    cases l with
    | elseOpen => rfl
    | _ => exact place_eq r.settle _ offset length

theorem toOption_step (r : Reading) (t : Token) : (r.step t).toOption = r.next? t.lexeme := by
  obtain ⟨l, offset, length⟩ := t
  rw [next?, step_eq]
  cases r.step ⟨l, 0, 0⟩ <;> rfl

/-- A token can be read exactly if its lexeme can. -/
theorem step_eq_ok_iff {r next : Reading} {t : Token} :
    r.step t = .ok next ↔ r.next? t.lexeme = some next := by
  rw [← toOption_step]
  cases r.step t <;> simp [Except.toOption]

/-- Tokens are read to a tree if their lexemes lead to a reading that can end there. -/
theorem run_eq_ok_iff {r : Reading} {stop : Nat} {ts : List Token} {tree : List Node} :
    r.run stop ts = .ok tree ↔
      ∃ last, r.after? (ts.map Token.lexeme) = some last ∧ last.finish stop = .ok tree := by
  induction ts generalizing r with
  | nil => simp
  | cons t ts ih =>
    rw [run_cons, List.map_cons, after?_cons]
    cases h : r.step t with
    | error e =>
      have none : r.next? t.lexeme = .none := by
        rw [← toOption_step, h]
        rfl
      simp [none]
    | ok next =>
      rw [step_eq_ok_iff] at h
      simpa [h] using ih

/-! ## Readings once settled -/

/-- Whether the next lexeme may be anything: what is pending does not ask for one. -/
def isFree (r : Reading) : Bool :=
  match r.pending with
  | .spread _ => false
  | .spreadKey .. => false
  | _ => true

/-- A reading that comes to a stack and to nodes once it is settled. -/
structure At (r : Reading) (stack : List Frame) (nodes : List Node) : Prop where
  /-- nothing particular has to come next -/
  free : r.isFree = true
  /-- what is pending belongs to the nodes or to the stack -/
  settle_eq : r.settle = ⟨stack, nodes, .settled⟩

/-- The lexemes that go on with what is pending. All others settle it. -/
def goesOn : Lexeme → Bool
  | .fallback _ => true
  | .conditionalOpen => true
  | .elseOpen => true
  | .spread => true
  | _ => false

section At

variable {r : Reading} {stack : List Frame} {nodes : List Node}

theorem at_settled (stack : List Frame) (nodes : List Node) :
    At ⟨stack, nodes, .settled⟩ stack nodes :=
  ⟨rfl, rfl⟩

theorem At.next? (h : r.At stack nodes) {l : Lexeme} (fresh : goesOn l = false) :
    r.next? l = (place ⟨stack, nodes, .settled⟩ ⟨l, 0, 0⟩).toOption := by
  obtain ⟨free, settled⟩ := h
  rw [← settled, Reading.next?, step]
  cases pending : r.pending with
  | settled => simp [settle, pending]
  | key name => cases l <;> first | rfl | cases fresh
  | opened delimiter => cases l <;> first | rfl | cases fresh
  | branch name success => cases l <;> first | rfl | cases fresh
  | spread delimiter => simp [isFree, pending] at free
  | spreadKey delimiter name => simp [isFree, pending] at free

/-- Literal text is a node as soon as it is read. -/
theorem At.next?_literal (h : r.At stack nodes) (text : String) :
    r.next? (.literal text) =
      some ⟨stack, .literal (Text.unescapeString text) :: nodes, .settled⟩ :=
  h.next? rfl

theorem At.next?_key (h : r.At stack nodes) (name : String) :
    r.next? (.key name) = some ⟨stack, nodes, .key name⟩ :=
  h.next? rfl

theorem At.next?_listOpen (h : r.At stack nodes) (room : stack.length ≠ maxDepth)
    (delimiter : Delimiter) :
    r.next? (.listOpen delimiter) = some ⟨stack, nodes, .opened delimiter⟩ := by
  rw [h.next? rfl]
  simp [place, enter, room, Except.toOption]

/-- The first branch of a conditional is read when it is closed, and is pending then. -/
theorem At.after?_branch (h : r.At stack nodes) (room : stack.length ≠ maxDepth) {name : String}
    {ls : List Lexeme} {inside : Reading} {success : List Node}
    (read : after? ⟨.success nodes name :: stack, [], .settled⟩ ls = some inside)
    (there : inside.At (.success nodes name :: stack) success) :
    r.after? (.key name :: .conditionalOpen :: ls ++ [.blockClose]) =
      some ⟨stack, nodes, .branch name success.reverse⟩ := by
  have opened : Reading.next? ⟨stack, nodes, .key name⟩ .conditionalOpen =
      some ⟨.success nodes name :: stack, [], .settled⟩ := by
    simp [Reading.next?, step, enter, room, Except.toOption]
  rw [List.cons_append, List.cons_append, after?_cons, h.next?_key, Option.bind_some, after?_cons,
    opened, Option.bind_some, after?_append, read, Option.bind_some, after?_cons, there.next? rfl]
  rfl

end At

theorem next?_elseOpen (stack : List Frame) (nodes : List Node) (name : String)
    (success : List Node) :
    next? ⟨stack, nodes, .branch name success⟩ .elseOpen =
      some ⟨.failure nodes name success :: stack, [], .settled⟩ := rfl

/-- A filled item is put to the items before it. -/
theorem withItem_reverse {item : List Node} (h : item ≠ []) (items : List (List Node)) :
    withItem items item.reverse = item :: items := by
  unfold withItem
  split
  · rename_i empty
    exact absurd (List.reverse_eq_nil_iff.mp empty) h
  · rw [List.reverse_reverse]

/-! ## From the grammar to the reading -/

/-- Whether so many conditionals and lists may be opened inside each other on a stack: they stay
within the limit, or the stack is past it. -/
def Room (stack : List Frame) (depth : Nat) : Prop :=
  stack.length + depth ≤ maxDepth ∨ maxDepth < stack.length

section Room

variable {stack : List Frame} {depth : Nat}

theorem Room.mono (h : Room stack depth) {less : Nat} (le : less ≤ depth) : Room stack less :=
  h.imp (fun within => by omega) id

theorem Room.inside (h : Room stack (depth + 1)) (frame : Frame) : Room (frame :: stack) depth := by
  rw [Room, List.length_cons]
  exact h.imp (fun within => by omega) fun past => by omega

theorem Room.ne (h : Room stack (depth + 1)) : stack.length ≠ maxDepth := by
  rcases h with within | past <;> omega

end Room

/-- Separators put the item before them to the items, if there is one. -/
theorem after?_separators {outer : List Node} {delimiter : Delimiter} {stack : List Frame}
    (count : Nat) : ∀ {r : Reading} {items : List (List Node)} {nodes : List Node},
      r.At (.list outer delimiter items :: stack) nodes → (count = 0 → nodes = []) →
      ∃ last, r.after? (List.replicate count .separator) = some last ∧
        last.At (.list outer delimiter (withItem items nodes) :: stack) [] := by
  induction count with
  | zero =>
    intro r items nodes h empty
    obtain rfl := empty rfl
    exact ⟨r, rfl, h⟩
  | succ count ih =>
    intro r items nodes h _
    have closed := at_settled (.list outer delimiter (withItem items nodes) :: stack) []
    obtain ⟨last, run, there⟩ := ih closed fun _ => rfl
    refine ⟨last, ?_, there⟩
    rw [List.replicate_succ, after?_cons, h.next? rfl]
    exact run

open Node (depth depthIn depthInBranch depthInItems)

mutual

/-- Fragments are read by adding their nodes. -/
theorem after?_fragments {ls : List Lexeme} {nodes : List Node} : Fragments ls nodes →
    ∀ {r : Reading} {stack : List Frame} {before : List Node}, r.At stack before →
      Room stack (depthIn nodes) →
        ∃ last, r.after? ls = some last ∧ last.At stack (nodes.reverse ++ before)
  | .nil, r, _, _, h, _ => ⟨r, rfl, h⟩
  | .cons first rest, r, stack, before, h, room => by
    obtain ⟨next, read, there⟩ := after?_fragment first h (room.mono (Nat.le_max_left ..))
    obtain ⟨last, readRest, done⟩ := after?_fragments rest there (room.mono (Nat.le_max_right ..))
    refine ⟨last, ?_, ?_⟩
    · rw [after?_append, read]
      exact readRest
    · rw [List.reverse_cons, List.append_assoc]
      exact done

/-- A fragment is read by adding its node. -/
theorem after?_fragment {ls : List Lexeme} {node : Node} : Fragment ls node →
    ∀ {r : Reading} {stack : List Frame} {before : List Node}, r.At stack before →
      Room stack (depth node) →
        ∃ last, r.after? ls = some last ∧ last.At stack (node :: before)
  | .literal text, r, stack, before, h, _ => by
    refine ⟨_, ?_, at_settled stack _⟩
    rw [after?_cons, h.next?_literal]
    rfl
  | .value name, r, stack, before, h, _ => by
    refine ⟨⟨stack, before, .key name⟩, ?_, rfl, rfl⟩
    rw [after?_cons, h.next?_key]
    rfl
  | .fallback name word, r, stack, before, h, _ => by
    refine ⟨_, ?_, at_settled stack _⟩
    rw [after?_cons, h.next?_key]
    rfl
  | @Fragment.conditional _ name success inside, r, stack, before, h, room => by
    obtain ⟨next, read, there⟩ := after?_fragments inside (at_settled _ [])
      ((room.mono (Nat.succ_le_succ (Nat.le_max_left ..))).inside (.success before name))
    rw [List.append_nil] at there
    refine ⟨⟨stack, before, .branch name success⟩, ?_, rfl, rfl⟩
    rw [h.after?_branch room.ne read there, List.reverse_reverse]
  | @Fragment.alternative ls more name success failure inside other, r, stack, before, h, room => by
    obtain ⟨next, read, there⟩ := after?_fragments inside (at_settled _ [])
      ((room.mono (Nat.succ_le_succ (Nat.le_max_left ..))).inside (.success before name))
    obtain ⟨last, readElse, thereElse⟩ := after?_fragments other (at_settled _ [])
      ((room.mono (Nat.succ_le_succ (Nat.le_max_right ..))).inside (.failure before name success))
    rw [List.append_nil] at there thereElse
    have first : r.after? (.key name :: .conditionalOpen :: ls ++ [.blockClose]) =
        some ⟨stack, before, .branch name success⟩ := by
      rw [h.after?_branch room.ne read there, List.reverse_reverse]
    have second : after? ⟨stack, before, .branch name success⟩
        (.elseOpen :: more ++ [.blockClose]) =
          some ⟨stack, .conditional name success (some failure) :: before, .settled⟩ := by
      rw [List.cons_append, after?_cons, next?_elseOpen, Option.bind_some, after?_append, readElse,
        Option.bind_some, after?_cons, thereElse.next? rfl]
      simp [place, put, Except.toOption]
    refine ⟨_, ?_, at_settled stack _⟩
    rw [after?_append, first, Option.bind_some, second]
  | .spread delimiter name, r, stack, before, h, room => by
    refine ⟨_, ?_, at_settled stack _⟩
    rw [after?_cons, h.next?_listOpen room.ne]
    rfl
  | @Fragment.list _ delimiter nested items, r, stack, before, h, room => by
    have opened : At ⟨stack, before, .opened delimiter⟩ (.list before delimiter [] :: stack) [] :=
      ⟨rfl, rfl⟩
    obtain ⟨last, done, nodes, read, there, closed⟩ :=
      after?_items items opened (fun _ => rfl) (room.inside _)
    have all : withItem done nodes = nested.reverse := by simpa [withItem] using closed
    refine ⟨_, ?_, at_settled stack _⟩
    rw [List.cons_append, after?_cons, h.next?_listOpen room.ne, Option.bind_some, after?_append,
      read, Option.bind_some, after?_cons, there.next? rfl]
    simp [place, put, all, Except.toOption]

/-- Items are read by adding them to the list that is open. -/
theorem after?_items {least : Nat} {ls : List Lexeme} {items : List (List Node)} :
    Items least ls items → ∀ {r : Reading} {outer : List Node} {delimiter : Delimiter}
      {done : List (List Node)} {stack : List Frame} {nodes : List Node},
      r.At (.list outer delimiter done :: stack) nodes → (least = 0 → nodes = []) →
      Room (.list outer delimiter done :: stack) (depthInItems items) →
        ∃ last done' nodes', r.after? ls = some last ∧
          last.At (.list outer delimiter done' :: stack) nodes' ∧
          withItem done' nodes' = items.reverse ++ withItem done nodes
  | .done _ count, r, outer, delimiter, done, stack, nodes, h, _, _ => by
    -- without separators the item before stays where it is, and with some it is put to the others
    rcases Nat.eq_zero_or_pos count with rfl | some
    · exact ⟨r, done, nodes, rfl, h, rfl⟩
    · obtain ⟨last, read, there⟩ := after?_separators count h fun none => by omega
      exact ⟨last, _, [], read, there, rfl⟩
  | @Items.item _ count _ _ _ _ enough here filled rest, r, outer, delimiter, done, stack, nodes,
      h, empty, room => by
    obtain ⟨front, readFront, atFront⟩ := after?_separators count h fun none => empty (by omega)
    obtain ⟨next, read, there⟩ := after?_fragments here atFront (room.mono (Nat.le_max_left ..))
    obtain ⟨last, done', nodes', readRest, atLast, closed⟩ :=
      after?_items rest there nofun (room.mono (Nat.le_max_right ..))
    refine ⟨last, done', nodes', ?_, atLast, ?_⟩
    · rw [after?_append, after?_append, readFront, Option.bind_some, read]
      exact readRest
    · rw [closed, List.append_nil, withItem_reverse filled, List.reverse_cons, List.append_assoc]
      rfl

end

end Reading

end SqlTemplate
