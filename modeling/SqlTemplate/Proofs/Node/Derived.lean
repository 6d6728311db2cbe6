import Mathlib
import SqlTemplate.Proofs.Node.Reading

/-!
# What a reading has read

At every point of a reading, what was read so far can be told from it (`Reading.Tells`). Three
parts lie behind one another: what leads up to the innermost conditional or list that is open, the
nodes in that, and what is pending. Each is derived by the grammar as far as it goes. Every step
keeps this up (`Reading.Tells.step`), so that a reading which ends has derived the whole template.

With the other direction, reading is what the grammar says: a template is read to a tree exactly if
the tree is derived from its lexemes and is not nested too deep (`Node.read_eq_ok_iff`).

A stack that is higher than the limit never meets it, since it is tested for only where the stack is
exactly so high. On such a stack trees of any depth are read, and so no two trees at all are derived
from the same lexemes (`Reading.fragments_unique`).
-/

namespace SqlTemplate

open Grammar

namespace Reading

open Node (depth depthIn depthInBranch depthInItems)

/-! ## Nodes and items that were read -/

/-- Nodes that lexemes say, the last one first, with room for them inside of `level` conditionals
and lists. -/
structure Derived (level : Nat) (ls : List Lexeme) (nodes : List Node) : Prop where
  /-- the nodes are derived from the lexemes -/
  fragments : Fragments ls nodes.reverse
  /-- the nodes are not nested too deep -/
  shallow : level + depthIn nodes ≤ maxDepth

/-- Items that lexemes say, the last one first, with a separator behind each. -/
structure Listed (level : Nat) (ls : List Lexeme) (items : List (List Node)) : Prop where
  /-- any other items may come behind them -/
  before : ∀ {more : List Lexeme} {rest : List (List Node)}, Items 0 more rest →
    Items 0 (ls ++ more) (items.reverse ++ rest)
  /-- the items are not nested too deep -/
  shallow : level + depthInItems items ≤ maxDepth

section Derived

variable {level : Nat} {ls more : List Lexeme} {nodes : List Node} {items : List (List Node)}

theorem Derived.nil (room : level ≤ maxDepth) : Derived level [] [] :=
  ⟨.nil, room⟩

theorem Derived.level_le (h : Derived level ls nodes) : level ≤ maxDepth :=
  Nat.le_trans (Nat.le_add_right ..) h.shallow

/-- A fragment behind nodes is one more node. -/
theorem Derived.put (h : Derived level ls nodes) {node : Node} (next : Fragment more node)
    (room : level + depth node ≤ maxDepth) : Derived level (ls ++ more) (node :: nodes) := by
  obtain ⟨fragments, shallow⟩ := h
  refine ⟨?_, ?_⟩
  · rw [List.reverse_cons]
    exact fragments.append (.single next)
  · rw [depthIn]
    omega

theorem Listed.nil (room : level ≤ maxDepth) : Listed level [] [] :=
  ⟨id, room⟩

theorem shallow_withItem (h : level + depthInItems items ≤ maxDepth)
    (item : level + depthIn nodes ≤ maxDepth) :
    level + depthInItems (withItem items nodes) ≤ maxDepth := by
  cases nodes with
  | nil => exact h
  | cons node rest =>
    change level + depthInItems ((node :: rest).reverse :: items) ≤ maxDepth
    rw [depthInItems, Node.depthIn_reverse]
    omega

/-- The nodes behind items are one more item, if there are any. -/
theorem Listed.withItem_before (h : Listed level ls items) (item : Derived level more nodes)
    {behind : List Lexeme} {rest : List (List Node)} (next : Items 1 behind rest) :
    Items 0 (ls ++ more ++ behind) ((withItem items nodes).reverse ++ rest) := by
  rw [List.append_assoc]
  cases nodes with
  | nil =>
    cases item.fragments
    exact h.before (next.mono (Nat.zero_le 1))
  | cons node nodes =>
    change Items 0 _ (((node :: nodes).reverse :: items).reverse ++ rest)
    rw [List.reverse_cons, List.append_assoc]
    exact h.before (.item (Nat.le_refl 0) item.fragments (by simp) next)

/-- A separator puts the item before it to the items, if there is one. -/
theorem Listed.separator (h : Listed level ls items) (item : Derived level more nodes) :
    Listed level (ls ++ more ++ [.separator]) (withItem items nodes) := by
  refine ⟨fun rest => ?_, shallow_withItem h.shallow item.shallow⟩
  rw [List.append_assoc]
  exact h.withItem_before item (rest.behind_separators (Nat.le_refl 1))

/-- The end of a list puts the item before it to the items, if there is one. -/
theorem Listed.close (h : Listed level ls items) (item : Derived level more nodes) :
    Items 0 (ls ++ more) (withItem items nodes).reverse := by
  simpa using h.withItem_before item (.done 1 0)

end Derived

/-! ## What is open, and what is pending -/

/-- What was read up to the innermost conditional or list that is open. -/
inductive Opened : List Lexeme → List Frame → Prop
  | nil : Opened [] []
  | success {before ls : List Lexeme} {stack : List Frame} {outer : List Node} (name : String) :
      Opened before stack → Derived stack.length ls outer → stack.length < maxDepth →
        Opened (before ++ ls ++ [.key name, .conditionalOpen]) (.success outer name :: stack)
  | failure {before ls inner : List Lexeme} {stack : List Frame} {outer success : List Node}
      (name : String) : Opened before stack → Derived stack.length ls outer →
        Derived (stack.length + 1) inner success.reverse →
        Opened (before ++ ls ++ (.key name :: .conditionalOpen :: inner ++ [.blockClose]) ++
          [.elseOpen]) (.failure outer name success :: stack)
  | list {before ls inner : List Lexeme} {stack : List Frame} {outer : List Node}
      {items : List (List Node)} (delimiter : Delimiter) :
      Opened before stack → Derived stack.length ls outer → Listed (stack.length + 1) inner items →
        Opened (before ++ ls ++ [.listOpen delimiter] ++ inner)
          (.list outer delimiter items :: stack)

/-- What was read of that which is pending. -/
inductive Waiting (level : Nat) : List Lexeme → Pending → Prop
  | settled : Waiting level [] .settled
  | key (name : String) : Waiting level [.key name] (.key name)
  | opened (delimiter : Delimiter) : level < maxDepth →
      Waiting level [.listOpen delimiter] (.opened delimiter)
  | spread (delimiter : Delimiter) : level < maxDepth →
      Waiting level [.listOpen delimiter, .spread] (.spread delimiter)
  | spreadKey (delimiter : Delimiter) (name : String) : level < maxDepth →
      Waiting level [.listOpen delimiter, .spread, .key name] (.spreadKey delimiter name)
  | branch {inner : List Lexeme} {success : List Node} (name : String) :
      Derived (level + 1) inner success.reverse →
        Waiting level (.key name :: .conditionalOpen :: inner ++ [.blockClose])
          (.branch name success)

/-- What a reading tells was read: what is open, the nodes in it, and what is pending. -/
inductive Tells : List Lexeme → Reading → Prop
  | intro {before ls waiting : List Lexeme} {stack : List Frame} {nodes : List Node}
      {pending : Pending} : Opened before stack → Derived stack.length ls nodes →
        Waiting stack.length waiting pending →
        Tells (before ++ ls ++ waiting) ⟨stack, nodes, pending⟩

section Tells

variable {ls before more : List Lexeme} {r next : Reading} {stack : List Frame} {nodes : List Node}

/-- Something may be opened where the limit is not reached. -/
theorem enter_eq_ok_iff {t : Token} {inside : Reading} :
    r.enter t inside = .ok next ↔ r.stack.length ≠ maxDepth ∧ inside = next := by
  rw [enter]
  split <;> simp [*, unexpected]

/-- A reading with nothing pending. -/
theorem Tells.settled (h : Opened before stack) (k : Derived stack.length ls nodes) :
    Tells (before ++ ls) ⟨stack, nodes, .settled⟩ := by
  simpa using Tells.intro h k .settled

/-- A fragment behind what is open is one more node. -/
theorem Tells.put (h : Opened before stack) (k : Derived stack.length ls nodes) {node : Node}
    (fragment : Fragment more node) (room : stack.length + depth node ≤ maxDepth) :
    Tells (before ++ ls ++ more) ⟨stack, node :: nodes, .settled⟩ := by
  rw [List.append_assoc]
  exact .settled h (k.put fragment room)

/-- Settling what is pending changes nothing in what was read. -/
theorem Tells.settle (h : Tells ls r) : Tells ls r.settle := by
  cases h with
  | intro h k pending =>
    cases pending with
    | settled => exact .intro h k .settled
    | key name => exact .put h k (.value name) k.level_le
    | opened delimiter room =>
      have opened := Opened.list delimiter h k (.nil room)
      simpa [Reading.settle] using Tells.settled opened (.nil room)
    | spread delimiter room => exact .intro h k (.spread delimiter room)
    | spreadKey delimiter name room => exact .intro h k (.spreadKey delimiter name room)
    | branch name success =>
      have inside := success.shallow
      rw [Node.depthIn_reverse] at inside
      refine .put h k (.conditional name ?_) ?_
      · simpa using success.fragments
      · simp only [depth, depthInBranch]
        omega

/-- Placing a lexeme keeps up what a settled reading tells. -/
theorem Tells.place (h : Opened before stack) (k : Derived stack.length ls nodes) {t : Token}
    (placed : Reading.place ⟨stack, nodes, .settled⟩ t = .ok next) :
    Tells (before ++ ls ++ [t.lexeme]) next := by
  obtain ⟨l, offset, length⟩ := t
  cases l with
  | literal text =>
    cases placed
    exact .put h k (.literal text) k.level_le
  | key name =>
    cases placed
    exact .intro h k (.key name)
  | listOpen delimiter =>
    obtain ⟨room, rfl⟩ := enter_eq_ok_iff.mp placed
    exact .intro h k (.opened delimiter (Nat.lt_of_le_of_ne k.level_le room))
  | separator =>
    cases h with
    | list delimiter h outer listed =>
      cases placed
      have opened := Opened.list delimiter h outer (listed.separator k)
      simpa using Tells.settled opened (.nil k.level_le)
    | _ => cases placed
  | listClose =>
    cases h with
    | list delimiter h outer listed =>
      cases placed
      have room := shallow_withItem listed.shallow k.shallow
      have whole := Tells.put h outer (.list delimiter (listed.close k)) (by
        simp only [depth, Node.depthInItems_reverse]
        omega)
      simpa [Reading.put] using whole
    | _ => cases placed
  | blockClose =>
    cases h with
    | success name h outer room =>
      cases placed
      have branch := k
      rw [← List.reverse_reverse nodes] at branch
      simpa using Tells.intro h outer (.branch name branch)
    | failure name h outer inner =>
      cases placed
      have first := inner.shallow
      have second := k.shallow
      rw [Node.depthIn_reverse] at first
      have fragments := inner.fragments
      rw [List.reverse_reverse] at fragments
      have whole := Tells.put h outer (.alternative name fragments k.fragments) (by
        simp only [depth, depthInBranch, Node.depthIn_reverse]
        rw [List.length_cons] at second
        omega)
      simpa [Reading.put] using whole
    | _ => cases placed
  | _ => cases placed

/-- A lexeme that settles what is pending keeps up what a reading tells. -/
theorem Tells.settle_place (h : Tells ls r) (free : r.settle.pending = .settled) {t : Token}
    (placed : r.settle.place t = .ok next) : Tells (ls ++ [t.lexeme]) next := by
  have settled := h.settle
  generalize r.settle = s at *
  cases settled with
  | intro opened k pending =>
    cases free
    cases pending
    rw [List.append_nil]
    exact .place opened k placed

/-- A step keeps up what a reading tells. -/
theorem Tells.step (h : Tells ls r) {t : Token} (stepped : r.step t = .ok next) :
    Tells (ls ++ [t.lexeme]) next := by
  have settled : r.settle.pending = .settled → r.settle.place t = .ok next →
      Tells (ls ++ [t.lexeme]) next := fun free placed => h.settle_place free placed
  obtain ⟨l, offset, length⟩ := t
  cases h with
  | intro opened k pending =>
    cases pending with
    | settled => exact settled rfl stepped
    | key name =>
      cases l with
      | fallback word =>
        cases stepped
        simpa [Reading.put] using Tells.put opened k (.fallback name word) k.level_le
      | conditionalOpen =>
        obtain ⟨room, rfl⟩ := enter_eq_ok_iff.mp stepped
        have room := Nat.lt_of_le_of_ne k.level_le room
        simpa using Tells.settled (.success name opened k room) (.nil room)
      | _ => exact settled rfl stepped
    | opened delimiter room =>
      cases l with
      | spread =>
        cases stepped
        simpa using Tells.intro opened k (.spread delimiter room)
      | _ => exact settled rfl stepped
    | spread delimiter room =>
      cases l with
      | key name =>
        cases stepped
        simpa using Tells.intro opened k (.spreadKey delimiter name room)
      | _ => cases stepped
    | spreadKey delimiter name room =>
      cases l with
      | listClose =>
        cases stepped
        simpa [Reading.put] using Tells.put opened k (.spread delimiter name) room
      | _ => cases stepped
    | branch name success =>
      cases l with
      | elseOpen =>
        cases stepped
        simpa using Tells.settled (.failure name opened k success) (.nil success.level_le)
      | _ => exact settled rfl stepped

/-- What is read at last tells all that was read. -/
theorem Tells.after? (h : Tells before r) (read : r.after? ls = some next) :
    Tells (before ++ ls) next := by
  induction ls generalizing before r with
  | nil =>
    cases read
    rwa [List.append_nil]
  | cons l ls ih =>
    rw [after?_cons] at read
    obtain ⟨middle, first, rest⟩ := Option.bind_eq_some_iff.mp read
    rw [List.append_cons]
    exact ih (h.step (step_eq_ok_iff (t := ⟨l, 0, 0⟩).mpr first)) rest

end Tells

/-! ## The end of a template -/

theorem pending_settle {r : Reading} (free : r.isFree = true) : r.settle.pending = .settled := by
  obtain ⟨stack, nodes, pending⟩ := r
  cases pending <;> first | rfl | cases free

/-- Where nothing particular has to come next, what is open decides whether a reading can end. -/
theorem finish_of_isFree {r : Reading} (free : r.isFree = true) (stop : Nat) :
    r.finish stop =
      match r.settle.stack with
      | [] => .ok r.settle.nodes.reverse
      | _ => endsEarly stop r.settle.closer := by
  obtain ⟨stack, nodes, pending⟩ := r
  cases pending <;> first | rfl | cases free

/-- A reading can end exactly where nothing is open or still has to come. -/
theorem finish_eq_ok_iff {r : Reading} {stop : Nat} {tree : List Node} :
    r.finish stop = .ok tree ↔ r.At [] tree.reverse := by
  cases free : r.isFree with
  | false =>
    obtain ⟨stack, nodes, pending⟩ := r
    refine ⟨fun h => ?_, fun h => absurd h.free (by simp [free])⟩
    cases pending <;> first | cases h | cases free
  | true =>
    have settled := pending_settle free
    rw [finish_of_isFree free]
    refine ⟨fun h => ⟨free, ?_⟩, fun h => ?_⟩
    · generalize r.settle = s at h settled ⊢
      obtain ⟨stack, nodes, pending⟩ := s
      cases stack with
      | nil =>
        cases settled
        rw [← Except.ok.inj h, List.reverse_reverse]
      | cons frame stack => cases h
    · rw [h.settle_eq, List.reverse_reverse]

/-- A reading from the start ends with the nodes that the lexemes say. -/
theorem derived_of_at {ls : List Lexeme} {last : Reading} {nodes : List Node}
    (read : start.after? ls = some last) (done : last.At [] nodes) :
    Derived 0 ls nodes := by
  have told : Tells [] start := Tells.settled .nil (.nil (Nat.zero_le maxDepth))
  have whole := (told.after? read).settle
  rw [done.settle_eq, List.nil_append] at whole
  cases whole with
  | intro opened k pending =>
    cases opened
    cases pending
    simpa using k

/-- No two trees are derived from the same lexemes. -/
theorem fragments_unique {ls : List Lexeme} {tree other : List Node} (h : Fragments ls tree)
    (k : Fragments ls other) : other = tree := by
  -- on a stack past the limit both trees can be read, however deep they are
  let past : List Frame := List.replicate (maxDepth + 1) (.success [] "")
  have room : ∀ depth, Room past depth := fun _ => .inr (by simp [past])
  obtain ⟨last, read, done⟩ := after?_fragments h (at_settled past []) (room _)
  obtain ⟨again, reread, redone⟩ := after?_fragments k (at_settled past []) (room _)
  obtain rfl : again = last := Option.some.inj (reread.symm.trans read)
  have same := redone.settle_eq.symm.trans done.settle_eq
  simpa using congrArg Reading.nodes same

end Reading

/-! ## Reading a template -/

/-- The lexemes of a scan. -/
def Scan.lexemes (s : Scan) : List Lexeme := s.tokens.map Token.lexeme

namespace Node

/-- A template is read to a tree exactly if its lexemes are derived to it and it is not nested too
deep. -/
theorem read_eq_ok_iff {template : String} {tree : List Node} :
    read template = .ok tree ↔
      Fragments (Scan.ofTemplate template).lexemes tree ∧ depthIn tree ≤ maxDepth := by
  rw [read, Reading.run_eq_ok_iff]
  constructor
  · rintro ⟨last, run, ends⟩
    obtain ⟨fragments, shallow⟩ :=
      Reading.derived_of_at run (Reading.finish_eq_ok_iff.mp ends)
    rw [List.reverse_reverse] at fragments
    rw [depthIn_reverse, Nat.zero_add] at shallow
    exact ⟨fragments, shallow⟩
  · rintro ⟨fragments, shallow⟩
    have room : Reading.Room [] (depthIn tree) := .inl (by simpa using shallow)
    obtain ⟨last, run, done⟩ :=
      Reading.after?_fragments fragments (Reading.at_settled [] []) room
    rw [List.append_nil] at done
    exact ⟨last, run, Reading.finish_eq_ok_iff.mpr done⟩

/-- A template is read to a tree exactly if the grammar derives the tree from its lexemes and no
more conditionals and lists are nested in it than are allowed. The tree is the only one that is
derived, it has every lexeme but the separators, each once and in order, with the literal text
unescaped, and no list in it has an empty item. -/
theorem read_iff_derived (template : String) :
    (∀ tree, read template = .ok tree ↔
      Fragments (Scan.ofTemplate template).lexemes tree ∧ depthIn tree ≤ maxDepth) ∧
    ∀ tree, Fragments (Scan.ofTemplate template).lexemes tree →
      (∀ other, Fragments (Scan.ofTemplate template).lexemes other → other = tree) ∧
      lexemesIn tree = kept (Scan.ofTemplate template).lexemes ∧ FilledIn tree :=
  ⟨fun _ => read_eq_ok_iff, fun _ derived =>
    ⟨fun _ => Reading.fragments_unique derived, lexemesIn_eq derived, filledIn derived⟩⟩

/-- Separators in front, in a row and behind make no item, and neither does a comment. -/
theorem read_iff_derived_separators :
    ∃ tree, read "(,)[;a;;b; ;@x?\x7b(&)[...@y]\x7d:\x7b\x7d;/**/;]" = .ok tree ∧
      tree = [.list .comma [[.literal "a;b"], [.conditional "x" [.spread "y" .and] (some [])]]] ∧
      depthIn tree = 3 ∧
      (∀ other, Fragments (Scan.ofTemplate
        "(,)[;a;;b; ;@x?\x7b(&)[...@y]\x7d:\x7b\x7d;/**/;]").lexemes other → other = tree) ∧
      lexemesIn tree = kept (Scan.ofTemplate
        "(,)[;a;;b; ;@x?\x7b(&)[...@y]\x7d:\x7b\x7d;/**/;]").lexemes ∧
      FilledIn tree := by
  have done : read "(,)[;a;;b; ;@x?\x7b(&)[...@y]\x7d:\x7b\x7d;/**/;]" = .ok
      [.list .comma [[.literal "a;b"], [.conditional "x" [.spread "y" .and] (some [])]]] := by
    cbv
  obtain ⟨derived, -⟩ := ((read_iff_derived _).1 _).mp done
  exact ⟨_, done, rfl, rfl, (read_iff_derived _).2 _ derived⟩

end Node

end SqlTemplate
