import SqlTemplate.Proofs.Node.Derived
import SqlTemplate.Proofs.Node.Uses
import SqlTemplate.Proofs.Token.Tiling

/-!
# Where names are met

A tree is looked through from left to right, and a conditional is met behind its branches: only then
it is known whether they say anything. So the names in a tree come in another order than the keys in
its template do. In terms of the template, a key is met where it stands, unless it is the test of a
conditional. Then it is met where the conditional ends (`Meeting.ofTokens`).

* The names of the meetings in a template are the names in its tree, in the same order
  (`Meeting.names_ofTemplate`).
* The places of the meetings ascend (`Meeting.pairwise_ofTemplate`). So of two names that one comes
  first which is first met at a smaller place.
* Condensing takes away the idle uses and keeps the others in order (`Node.namesIn_condense`).
-/

namespace SqlTemplate

/-! ## Which of two comes first -/

section First

variable {α β : Type} [DecidableEq α] {a b : α}

/-- An element in front comes before all others. -/
theorem idxOf_cons_lt_iff {c : α} {l : List α} :
    (c :: l).idxOf a < (c :: l).idxOf b ↔ c ≠ b ∧ (c = a ∨ l.idxOf a < l.idxOf b) := by
  by_cases hb : c = b
  · simp [List.idxOf_cons, hb]
  · rw [List.idxOf_cons_ne _ hb]
    by_cases ha : c = a
    · subst ha
      simp [hb]
    · simp [ha, hb, List.idxOf_cons_ne _ ha]

/-- Of two elements the same one comes first where others are left out. -/
theorem idxOf_map_filter_lt_iff {f : β → α} {p : β → Bool} {l : List β}
    (kept : ∀ u ∈ l, f u = a ∨ f u = b → p u = true) :
    ((l.filter p).map f).idxOf a < ((l.filter p).map f).idxOf b ↔
      (l.map f).idxOf a < (l.map f).idxOf b := by
  induction l with
  | nil => rfl
  | cons u rest ih =>
    have others := ih fun v mem => kept v (List.mem_cons_of_mem _ mem)
    have here := kept u (List.mem_cons_self ..)
    by_cases left : p u = true
    · rw [List.filter_cons_of_pos left, List.map_cons, List.map_cons, idxOf_cons_lt_iff,
        idxOf_cons_lt_iff, others]
    · -- an element that is left out is neither of the two
      have ha : f u ≠ a := fun same => left (here (.inl same))
      have hb : f u ≠ b := fun same => left (here (.inr same))
      rw [List.filter_cons_of_neg left, List.map_cons, idxOf_cons_lt_iff, others]
      simp [ha, hb]

/-- Of two elements the same one comes first where each element is left once. -/
theorem idxOf_eraseDups_lt_iff (l : List α) :
    l.eraseDups.idxOf a < l.eraseDups.idxOf b ↔ l.idxOf a < l.idxOf b := by
  cases l with
  | nil => rfl
  | cons c rest =>
    rw [List.eraseDups_cons, idxOf_cons_lt_iff, idxOf_cons_lt_iff,
      idxOf_eraseDups_lt_iff (rest.filter fun other => !other == c)]
    by_cases ha : c = a
    · simp [ha]
    by_cases hb : c = b
    · simp [hb]
    have kept : ∀ u ∈ rest, id u = a ∨ id u = b → (!u == c) = true := by
      rintro u - (rfl | rfl)
      · simpa using Ne.symm ha
      · simpa using Ne.symm hb
    have filtered := idxOf_map_filter_lt_iff kept
    rw [List.map_id, List.map_id] at filtered
    rw [filtered]
termination_by l.length
decreasing_by
  exact Nat.lt_succ_of_le (List.length_filter_le ..)

end First

/-! ## Uses in the order in which they are met -/

namespace Node

mutual

/-- The uses of names in a node, in the order in which they are met: a conditional is met behind its
branches. -/
def met : Node → List Use
  | .literal _ => []
  | .value name => [⟨name, false⟩]
  | .fallback name _ => [⟨name, false⟩]
  | .conditional name success failure =>
    metIn success ++ metInBranch failure ++ [⟨name, allSilent success && branchSilent failure⟩]
  | .spread name _ => [⟨name, false⟩]
  | .list _ items => metInItems items

/-- The uses of names in nodes, in the order in which they are met. -/
def metIn : List Node → List Use
  | [] => []
  | node :: rest => met node ++ metIn rest

/-- The uses of names in the second branch of a conditional, in the order in which they are met. -/
def metInBranch : Option (List Node) → List Use
  | none => []
  | some branch => metIn branch

/-- The uses of names in the items of a list, in the order in which they are met. -/
def metInItems : List (List Node) → List Use
  | [] => []
  | item :: rest => metIn item ++ metInItems rest

end

mutual

/-- All uses are met. -/
theorem mem_met {u : Use} : ∀ node : Node, u ∈ met node ↔ u ∈ uses node
  | .literal _ => Iff.rfl
  | .value _ => Iff.rfl
  | .fallback .. => Iff.rfl
  | .spread .. => Iff.rfl
  | .conditional name success failure => by
    rw [met, uses, List.mem_append, List.mem_append, mem_metIn success, mem_metInBranch failure,
      List.mem_singleton, List.cons_append, List.mem_cons, List.mem_append, or_comm]
  | .list _ items => mem_metInItems items

theorem mem_metIn {u : Use} : ∀ nodes : List Node, u ∈ metIn nodes ↔ u ∈ usesIn nodes
  | [] => Iff.rfl
  | node :: rest => by
    rw [metIn, usesIn, List.mem_append, List.mem_append, mem_met node, mem_metIn rest]

theorem mem_metInBranch {u : Use} : ∀ branch : Option (List Node),
    u ∈ metInBranch branch ↔ u ∈ usesInBranch branch
  | none => Iff.rfl
  | some branch => mem_metIn branch

theorem mem_metInItems {u : Use} : ∀ items : List (List Node),
    u ∈ metInItems items ↔ u ∈ usesInItems items
  | [] => Iff.rfl
  | item :: rest => by
    rw [metInItems, usesInItems, List.mem_append, List.mem_append, mem_metIn item,
      mem_metInItems rest]

end

mutual

/-- The names of the uses are the names in a node, in the same order. -/
theorem map_name_met : ∀ node : Node, (met node).map Use.name = names node
  | .literal _ => rfl
  | .value _ => rfl
  | .fallback .. => rfl
  | .spread .. => rfl
  | .conditional name success failure => by
    rw [met, names, List.map_append, List.map_append, map_name_metIn success,
      map_name_metInBranch failure]
    rfl
  | .list _ items => map_name_metInItems items

theorem map_name_metIn : ∀ nodes : List Node, (metIn nodes).map Use.name = namesIn nodes
  | [] => rfl
  | node :: rest => by
    rw [metIn, namesIn, List.map_append, map_name_met node, map_name_metIn rest]

theorem map_name_metInBranch : ∀ branch : Option (List Node),
    (metInBranch branch).map Use.name = namesInBranch branch
  | none => rfl
  | some branch => map_name_metIn branch

theorem map_name_metInItems : ∀ items : List (List Node),
    (metInItems items).map Use.name = namesInItems items
  | [] => rfl
  | item :: rest => by
    rw [metInItems, namesInItems, List.map_append, map_name_metIn item, map_name_metInItems rest]

end

/-- The names of uses that are not idle. -/
def liveNames (us : List Use) : List String := (us.filter fun u => !u.idle).map Use.name

theorem liveNames_append (us more : List Use) :
    liveNames (us ++ more) = liveNames us ++ liveNames more := by
  rw [liveNames, List.filter_append, List.map_append]
  rfl

mutual

/-- The names in what a node is condensed to are those of its uses that are not idle. -/
theorem names_condense? : ∀ node : Node,
    (condense? node).elim [] names = liveNames (met node)
  | .literal _ => rfl
  | .value _ => rfl
  | .fallback .. => rfl
  | .spread .. => rfl
  | .conditional name success failure => by
    have first := namesIn_condense success
    have second := namesInBranch_condenseBranch? failure
    rw [condense?, met, liveNames_append, liveNames_append, ← first, ← second,
      ← isEmpty_condense, ← isNone_condenseBranch?]
    rcases conditional?_cases name (condense success) (condenseBranch? failure) with
      ⟨empty, absent, left⟩ | ⟨live, kept⟩
    · rw [left, empty, absent]
      rfl
    · rw [kept, live]
      rfl
  | .list delimiter items => by
    rw [condense?, (found_list? delimiter _).2]
    exact namesInItems_condenseItems delimiter items

/-- The names in a condensed tree are those of the uses in the tree that are not idle, in the order
in which they are met. -/
theorem namesIn_condense : ∀ nodes : List Node,
    namesIn (condense nodes) = liveNames (metIn nodes)
  | [] => rfl
  | node :: rest => by
    rw [metIn, liveNames_append, ← names_condense? node, ← namesIn_condense rest, condense]
    cases condense? node with
    | none => rfl
    | some condensed => exact namesIn_fuse condensed (condense rest)

theorem namesInBranch_condenseBranch? : ∀ branch : Option (List Node),
    namesInBranch (condenseBranch? branch) = liveNames (metInBranch branch)
  | none => rfl
  | some branch => by
    rw [metInBranch, ← namesIn_condense branch, condenseBranch?]
    cases condense branch <;> rfl

theorem namesInItems_condenseItems (delimiter : Delimiter) : ∀ items : List (List Node),
    namesInItems (condenseItems delimiter items) = liveNames (metInItems items)
  | [] => rfl
  | item :: rest => by
    rw [metInItems, liveNames_append, ← namesIn_condense item,
      ← namesInItems_condenseItems delimiter rest, ← (found_trimItem (condense item)).2,
      condenseItems]
    cases trimItem (condense item) with
    | nil => rfl
    | cons node others => exact (found_fuseItem delimiter (node :: others) _).2

end

end Node

/-! ## Meetings in a template -/

/-- A place of a template where a name is met. -/
structure Meeting where
  /-- the name -/
  name : String
  /-- the place, in bytes -/
  place : Nat
  deriving DecidableEq, Repr

namespace Meeting

/-- What is met at a token with the lexeme `next` behind it, and the tests of the conditionals that
are open then, the innermost one first. A key is met where it stands. But if it opens a conditional,
it is met at the token that ends the conditional: the brace that closes the first branch, or the
second one if there is one. -/
def atToken (tests : List String) (t : Token) (next : Option Lexeme) :
    List Meeting × List String :=
  match t.lexeme, tests with
  | .key name, _ =>
    if next = some .conditionalOpen then ([], name :: tests) else ([⟨name, t.offset⟩], tests)
  | .blockClose, name :: outer =>
    if next = some .elseOpen then ([], tests) else ([⟨name, t.offset⟩], outer)
  | _, _ => ([], tests)

/-- The lexeme that comes first. -/
def next? (ts : List Token) : Option Lexeme := ts.head?.map Token.lexeme

@[simp] theorem next?_cons (t : Token) (rest : List Token) :
    next? (t :: rest) = some t.lexeme := rfl

/-- The meetings in tokens, inside of conditionals with the given tests. -/
def ofTokens (tests : List String) : List Token → List Meeting
  | [] => []
  | t :: rest =>
    (atToken tests t (next? rest)).1 ++ ofTokens (atToken tests t (next? rest)).2 rest

/-- The meetings in a template. -/
def ofTemplate (template : String) : List Meeting := ofTokens [] (Scan.ofTemplate template).tokens

/-- The place where a name is first met. -/
def first? (ms : List Meeting) (name : String) : Option Nat :=
  (ms.find? fun m => m.name = name).map place

section Tokens

variable {tests : List String} {t u : Token} {rest : List Token} {test : String}

theorem ofTokens_cons (tests : List String) (t : Token) (rest : List Token) :
    ofTokens tests (t :: rest) =
      (atToken tests t (next? rest)).1 ++ ofTokens (atToken tests t (next? rest)).2 rest := rfl

theorem ofTokens_key (key : t.lexeme = .key test) (other : next? rest ≠ some .conditionalOpen) :
    ofTokens tests (t :: rest) = ⟨test, t.offset⟩ :: ofTokens tests rest := by
  simp [ofTokens_cons, atToken, key, other]

theorem ofTokens_test (key : t.lexeme = .key test) (opens : next? rest = some .conditionalOpen) :
    ofTokens tests (t :: rest) = ofTokens (test :: tests) rest := by
  simp [ofTokens_cons, atToken, key, opens]

theorem ofTokens_close (close : t.lexeme = .blockClose) (ends : next? rest ≠ some .elseOpen) :
    ofTokens (test :: tests) (t :: rest) = ⟨test, t.offset⟩ :: ofTokens tests rest := by
  simp [ofTokens_cons, atToken, close, ends]

theorem ofTokens_else (close : t.lexeme = .blockClose) (goesOn : next? rest = some .elseOpen) :
    ofTokens (test :: tests) (t :: rest) = ofTokens (test :: tests) rest := by
  simp [ofTokens_cons, atToken, close, goesOn]

/-- Other tokens meet nothing. -/
theorem ofTokens_other (key : ∀ name, t.lexeme ≠ .key name) (close : t.lexeme ≠ .blockClose) :
    ofTokens tests (t :: rest) = ofTokens tests rest := by
  have nothing : atToken tests t (next? rest) = ([], tests) := by
    unfold atToken
    split
    · exact absurd ‹_› (key _)
    · exact absurd ‹_› close
    · rfl
  rw [ofTokens_cons, nothing]
  rfl

/-- The two tokens that open a conditional meet nothing, and add its test to those that are open. -/
theorem ofTokens_opened (key : t.lexeme = .key test) (opens : u.lexeme = .conditionalOpen) :
    ofTokens tests (t :: u :: rest) = ofTokens (test :: tests) rest := by
  rw [ofTokens_test key (by simp [opens]), ofTokens_other (by simp [opens]) (by simp [opens])]

/-- No second part of a conditional comes next, so what is before is complete. -/
def Settled (ts : List Token) : Prop :=
  next? ts ≠ some .conditionalOpen ∧ next? ts ≠ some .elseOpen

theorem next?_append {ts : List Token} {l : Lexeme} {ls : List Lexeme}
    (lexemes : ts.map Token.lexeme = l :: ls) (rest : List Token) :
    next? (ts ++ rest) = some l := by
  obtain ⟨t, more, rfl, rfl, -⟩ := List.map_eq_cons_iff.mp lexemes
  rfl

open Grammar

/-- A fragment begins with literal text, a key or the opening of a list. -/
theorem settled_fragment {ls : List Lexeme} {node : Node} (h : Fragment ls node) {ts : List Token}
    (lexemes : ts.map Token.lexeme = ls) (rest : List Token) : Settled (ts ++ rest) := by
  cases h <;> exact ⟨by simp [next?_append lexemes], by simp [next?_append lexemes]⟩

theorem settled_fragments {ls : List Lexeme} {nodes : List Node} (h : Fragments ls nodes)
    {ts : List Token} (lexemes : ts.map Token.lexeme = ls) {rest : List Token}
    (settled : Settled rest) : Settled (ts ++ rest) := by
  cases h with
  | nil =>
    rw [List.map_eq_nil_iff.mp lexemes]
    exact settled
  | cons first more =>
    obtain ⟨front, behind, rfl, here, -⟩ := List.map_eq_append_iff.mp lexemes
    rw [List.append_assoc]
    exact settled_fragment first here _

theorem settled_separators {count : Nat} {ts : List Token}
    (lexemes : ts.map Token.lexeme = List.replicate count .separator) {rest : List Token}
    (settled : Settled rest) : Settled (ts ++ rest) := by
  cases count with
  | zero =>
    rw [List.map_eq_nil_iff.mp lexemes]
    exact settled
  | succ count => exact ⟨by simp [next?_append lexemes], by simp [next?_append lexemes]⟩

theorem settled_items {least : Nat} {ls : List Lexeme} {items : List (List Node)} :
    Items least ls items → ∀ {ts : List Token}, ts.map Token.lexeme = ls →
      ∀ {rest : List Token}, Settled rest → Settled (ts ++ rest)
  | .done _ count, ts, lexemes, rest, settled => settled_separators lexemes settled
  | .item _ here _ others, ts, lexemes, rest, settled => by
    obtain ⟨front, behind, rfl, first, last⟩ := List.map_eq_append_iff.mp lexemes
    obtain ⟨before, inside, rfl, separators, item⟩ := List.map_eq_append_iff.mp first
    rw [List.append_assoc, List.append_assoc]
    exact settled_separators separators
      (settled_fragments here item (settled_items others last settled))

/-- Separators meet nothing. -/
theorem ofTokens_separators {count : Nat} {ts : List Token}
    (lexemes : ts.map Token.lexeme = List.replicate count .separator) (rest : List Token) :
    ofTokens tests (ts ++ rest) = ofTokens tests rest := by
  induction count generalizing ts with
  | zero =>
    rw [List.map_eq_nil_iff.mp lexemes]
    rfl
  | succ count ih =>
    obtain ⟨t, more, rfl, separator, others⟩ := List.map_eq_cons_iff.mp lexemes
    rw [List.cons_append, ofTokens_other (by simp [separator]) (by simp [separator]), ih others]

mutual

/-- The tokens of nodes meet the names in them, and leave the tests that are open as they were. -/
theorem names_ofTokens_fragments {ls : List Lexeme} {nodes : List Node} :
    Fragments ls nodes → ∀ {ts : List Token}, ts.map Token.lexeme = ls →
      ∀ {rest : List Token}, Settled rest → ∀ tests : List String,
        (ofTokens tests (ts ++ rest)).map Meeting.name =
          Node.namesIn nodes ++ (ofTokens tests rest).map Meeting.name
  | .nil, ts, lexemes, rest, _, tests => by
    rw [List.map_eq_nil_iff.mp lexemes]
    rfl
  | .cons first more, ts, lexemes, rest, settled, tests => by
    obtain ⟨front, behind, rfl, here, others⟩ := List.map_eq_append_iff.mp lexemes
    rw [List.append_assoc, names_ofTokens_fragment first here
      (settled_fragments more others settled), names_ofTokens_fragments more others settled,
      Node.namesIn, List.append_assoc]

theorem names_ofTokens_fragment {ls : List Lexeme} {node : Node} :
    Fragment ls node → ∀ {ts : List Token}, ts.map Token.lexeme = ls →
      ∀ {rest : List Token}, Settled rest → ∀ tests : List String,
        (ofTokens tests (ts ++ rest)).map Meeting.name =
          Node.names node ++ (ofTokens tests rest).map Meeting.name
  | .literal text, ts, lexemes, rest, _, tests => by
    obtain ⟨t, rfl, literal⟩ := List.map_eq_singleton_iff.mp lexemes
    rw [List.singleton_append, ofTokens_other (by simp [literal]) (by simp [literal])]
    rfl
  | .value name, ts, lexemes, rest, settled, tests => by
    obtain ⟨t, rfl, key⟩ := List.map_eq_singleton_iff.mp lexemes
    rw [List.singleton_append, ofTokens_key key settled.1]
    rfl
  | .fallback name word, ts, lexemes, rest, settled, tests => by
    obtain ⟨t, _, rfl, key, last⟩ := List.map_eq_cons_iff.mp lexemes
    obtain ⟨u, rfl, fallback⟩ := List.map_eq_singleton_iff.mp last
    have other : next? (u :: rest) ≠ some .conditionalOpen := by simp [fallback]
    rw [List.cons_append, List.singleton_append, ofTokens_key key other,
      ofTokens_other (by simp [fallback]) (by simp [fallback])]
    rfl
  | .conditional name success, ts, lexemes, rest, settled, tests => by
    obtain ⟨t, _, rfl, key, behind⟩ := List.map_eq_cons_iff.mp lexemes
    obtain ⟨u, _, rfl, opens, behind⟩ := List.map_eq_cons_iff.mp behind
    obtain ⟨inside, _, rfl, here, last⟩ := List.map_eq_append_iff.mp behind
    obtain ⟨c, rfl, close⟩ := List.map_eq_singleton_iff.mp last
    have closed : Settled (c :: rest) := by simp [Settled, close]
    rw [List.cons_append, List.cons_append, ofTokens_opened key opens, List.append_assoc,
      List.singleton_append, names_ofTokens_fragments success here closed,
      ofTokens_close close settled.2]
    simp [Node.names, Node.namesInBranch]
  | .alternative name success failure, ts, lexemes, rest, settled, tests => by
    obtain ⟨front, back, rfl, first, second⟩ := List.map_eq_append_iff.mp lexemes
    obtain ⟨t, _, rfl, key, behind⟩ := List.map_eq_cons_iff.mp first
    obtain ⟨u, _, rfl, opens, behind⟩ := List.map_eq_cons_iff.mp behind
    obtain ⟨inside, _, rfl, here, last⟩ := List.map_eq_append_iff.mp behind
    obtain ⟨c, rfl, close⟩ := List.map_eq_singleton_iff.mp last
    obtain ⟨e, _, rfl, goesOn, behind⟩ := List.map_eq_cons_iff.mp second
    obtain ⟨other, _, rfl, there, last⟩ := List.map_eq_append_iff.mp behind
    obtain ⟨d, rfl, ends⟩ := List.map_eq_singleton_iff.mp last
    have closed : Settled (c :: e :: (other ++ d :: rest)) := by simp [Settled, close]
    have ended : Settled (d :: rest) := by simp [Settled, ends]
    have split : (t :: u :: (inside ++ [c]) ++ e :: (other ++ [d])) ++ rest =
        t :: u :: (inside ++ c :: e :: (other ++ d :: rest)) := by simp
    rw [split, ofTokens_opened key opens, names_ofTokens_fragments success here closed,
      ofTokens_else close (by simp [goesOn]),
      ofTokens_other (by simp [goesOn]) (by simp [goesOn]),
      names_ofTokens_fragments failure there ended, ofTokens_close ends settled.2]
    simp [Node.names, Node.namesInBranch]
  | .spread delimiter name, ts, lexemes, rest, settled, tests => by
    obtain ⟨o, _, rfl, opens, behind⟩ := List.map_eq_cons_iff.mp lexemes
    obtain ⟨d, _, rfl, dots, behind⟩ := List.map_eq_cons_iff.mp behind
    obtain ⟨t, _, rfl, key, last⟩ := List.map_eq_cons_iff.mp behind
    obtain ⟨c, rfl, close⟩ := List.map_eq_singleton_iff.mp last
    have closed : next? (c :: rest) ≠ some .conditionalOpen := by simp [close]
    rw [List.cons_append, List.cons_append, List.cons_append, List.singleton_append,
      ofTokens_other (by simp [opens]) (by simp [opens]),
      ofTokens_other (by simp [dots]) (by simp [dots]), ofTokens_key key closed,
      ofTokens_other (by simp [close]) (by simp [close])]
    rfl
  | .list delimiter items, ts, lexemes, rest, settled, tests => by
    obtain ⟨o, _, rfl, opens, behind⟩ := List.map_eq_cons_iff.mp lexemes
    obtain ⟨inside, _, rfl, here, last⟩ := List.map_eq_append_iff.mp behind
    obtain ⟨c, rfl, close⟩ := List.map_eq_singleton_iff.mp last
    have closed : Settled (c :: rest) := by simp [Settled, close]
    rw [List.cons_append, ofTokens_other (by simp [opens]) (by simp [opens]), List.append_assoc,
      List.singleton_append, names_ofTokens_items items here closed,
      ofTokens_other (by simp [close]) (by simp [close])]
    rfl

theorem names_ofTokens_items {least : Nat} {ls : List Lexeme} {items : List (List Node)} :
    Items least ls items → ∀ {ts : List Token}, ts.map Token.lexeme = ls →
      ∀ {rest : List Token}, Settled rest → ∀ tests : List String,
        (ofTokens tests (ts ++ rest)).map Meeting.name =
          Node.namesInItems items ++ (ofTokens tests rest).map Meeting.name
  | .done _ count, ts, lexemes, rest, _, tests => by
    rw [ofTokens_separators lexemes]
    rfl
  | .item _ here _ others, ts, lexemes, rest, settled, tests => by
    obtain ⟨front, behind, rfl, first, last⟩ := List.map_eq_append_iff.mp lexemes
    obtain ⟨before, inside, rfl, separators, item⟩ := List.map_eq_append_iff.mp first
    rw [List.append_assoc, List.append_assoc, ofTokens_separators separators,
      names_ofTokens_fragments here item (settled_items others last settled),
      names_ofTokens_items others last settled, Node.namesInItems, List.append_assoc]

end

end Tokens

/-! ## Places of the meetings -/

/-- A name is met at a token, so the places of the meetings are among those of the tokens. -/
theorem sublist_places (tests : List String) (ts : List Token) :
    ((ofTokens tests ts).map place).Sublist (ts.map Token.offset) := by
  induction ts generalizing tests with
  | nil => exact List.Sublist.refl _
  | cons t rest ih =>
    have here : ((atToken tests t (next? rest)).1.map place).Sublist [t.offset] := by
      unfold atToken
      split <;> (try split) <;> simp
    rw [ofTokens_cons, List.map_append]
    exact here.append (ih _)

/-- The places of the meetings in a template ascend. -/
theorem pairwise_ofTemplate (template : String) :
    (ofTemplate template).Pairwise fun m n => m.place < n.place := by
  have tokens := (Scan.tiles_segments false 0 template.toList).pairwise_offset
  exact List.pairwise_map.mp
    ((List.pairwise_map.mpr tokens).sublist (sublist_places [] _))

/-- The names of the meetings in a template are the names in its tree. -/
theorem names_ofTemplate {template : String} {tree : List Node}
    (h : Node.read template = .ok tree) :
    (ofTemplate template).map Meeting.name = Node.namesIn tree := by
  have derived := (Node.read_eq_ok_iff.mp h).1
  have settled : Settled [] := ⟨nofun, nofun⟩
  have names := names_ofTokens_fragments derived rfl settled []
  rwa [List.append_nil, ofTokens, List.map_nil, List.append_nil] at names

/-- A name that is met is first met at the place of one of the meetings. -/
theorem exists_first? {ms : List Meeting} {name : String} (h : name ∈ ms.map Meeting.name) :
    ∃ m ∈ ms, first? ms name = some m.place := by
  obtain ⟨m, mem, same⟩ := List.mem_map.mp h
  have found : (ms.find? fun m => m.name = name).isSome = true := by
    rw [List.find?_isSome]
    exact ⟨m, mem, by simpa using same⟩
  obtain ⟨first, is_first⟩ := Option.isSome_iff_exists.mp found
  exact ⟨first, List.mem_of_find?_eq_some is_first, by rw [first?, is_first]; rfl⟩

/-- Of two names that one comes first which is first met at a smaller place. -/
theorem idxOf_lt_iff_of_pairwise {ms : List Meeting}
    (ascending : ms.Pairwise fun m n => m.place < n.place) {a b : String}
    (ha : a ∈ ms.map Meeting.name) (hb : b ∈ ms.map Meeting.name) :
    ∃ x y, first? ms a = some x ∧ first? ms b = some y ∧
      ((ms.map Meeting.name).idxOf a < (ms.map Meeting.name).idxOf b ↔ x < y) := by
  induction ms with
  | nil => cases ha
  | cons m rest ih =>
    obtain ⟨behind, others⟩ := List.pairwise_cons.mp ascending
    rw [List.map_cons, List.mem_cons] at ha hb
    have here : ∀ {name}, m.name = name → first? (m :: rest) name = some m.place := by
      rintro _ rfl
      simp [first?]
    have later : ∀ {name}, m.name ≠ name → first? (m :: rest) name = first? rest name := by
      intro name other
      simp [first?, other]
    rw [List.map_cons, idxOf_cons_lt_iff]
    by_cases isA : m.name = a <;> by_cases isB : m.name = b
    · exact ⟨_, _, here isA, here isB, by simp [isB]⟩
    · obtain ⟨n, mem, found⟩ := exists_first? (hb.resolve_left (Ne.symm isB))
      exact ⟨_, _, here isA, (later isB).trans found,
        iff_of_true ⟨isB, .inl isA⟩ (behind n mem)⟩
    · obtain ⟨n, mem, found⟩ := exists_first? (ha.resolve_left (Ne.symm isA))
      exact ⟨_, _, (later isA).trans found, here isB, by
        simp [isB, Nat.le_of_lt (behind n mem)]⟩
    · obtain ⟨x, y, first, second, order⟩ :=
        ih others (ha.resolve_left (Ne.symm isA)) (hb.resolve_left (Ne.symm isB))
      exact ⟨x, y, (later isA).trans first, (later isB).trans second, by simp [isA, isB, order]⟩

/-! ## First keys -/

/-- The place of the first key of a name in tokens, and whether it opens a conditional. -/
def firstKey? (name : String) : List Token → Option (Nat × Bool)
  | [] => none
  | t :: rest =>
    if t.lexeme = .key name then some (t.offset, decide (next? rest = some .conditionalOpen))
    else firstKey? name rest

section FirstKey

variable {name : String} {tests : List String} {p : Nat} {opens : Bool}

/-- At a token that is no key of a name, the name is not met, unless it is one of the tests that are
open. -/
theorem notMem_atToken {t : Token} (new : name ∉ tests) (other : t.lexeme ≠ .key name)
    (next : Option Lexeme) : (∀ m ∈ (atToken tests t next).1, m.name ≠ name) ∧
      name ∉ (atToken tests t next).2 := by
  unfold atToken
  split
  · rename_i key lexeme
    have apart : key ≠ name := fun same => other (same ▸ lexeme)
    split <;> simp [new, apart, Ne.symm apart]
  · rw [List.mem_cons, not_or] at new
    split <;> simp [new.1, new.2, Ne.symm new.1]
  · simp [new]

/-- A name is met at its first key, if that does not open a conditional. -/
theorem first?_of_firstKey? (new : name ∉ tests) {ts : List Token}
    (key : firstKey? name ts = some (p, false)) : first? (ofTokens tests ts) name = some p := by
  induction ts generalizing tests with
  | nil => cases key
  | cons t rest ih =>
    rw [firstKey?] at key
    split at key
    · rename_i here
      obtain ⟨rfl, noTest⟩ := Prod.mk.inj (Option.some.inj key)
      rw [ofTokens_key here (of_decide_eq_false noTest)]
      simp [first?]
    · rename_i other
      obtain ⟨here, later⟩ := notMem_atToken new other (next? rest)
      rw [ofTokens_cons, first?, List.find?_append,
        List.find?_eq_none.mpr fun m mem => by simpa using here m mem, Option.none_or]
      exact ih later key

/-- A name is met at its first key or behind it. -/
theorem exists_firstKey?_le (new : name ∉ tests) {ts : List Token}
    (ascending : ts.Pairwise fun t u => t.offset < u.offset) {m : Meeting}
    (mem : m ∈ ofTokens tests ts) (same : m.name = name) :
    ∃ p opens, firstKey? name ts = some (p, opens) ∧ p ≤ m.place := by
  induction ts generalizing tests with
  | nil => cases mem
  | cons t rest ih =>
    obtain ⟨behind, others⟩ := List.pairwise_cons.mp ascending
    rw [firstKey?]
    split
    · refine ⟨_, _, rfl, ?_⟩
      have place := (sublist_places tests (t :: rest)).subset (List.mem_map_of_mem mem)
      obtain ⟨u, at_u, there⟩ := List.mem_map.mp place
      rw [← there]
      rcases List.mem_cons.mp at_u with rfl | later
      · exact Nat.le_refl _
      · exact Nat.le_of_lt (behind u later)
    · rename_i other
      obtain ⟨here, later⟩ := notMem_atToken new other (next? rest)
      rw [ofTokens_cons] at mem
      rcases List.mem_append.mp mem with now | later'
      · exact absurd same (here m now)
      · exact ih later others later'

end FirstKey

/-- A name that is met in a template has a key in it. It is met at the first one or behind that, and
at the first one if that does not open a conditional. -/
theorem exists_firstKey? {template name : String} {x : Nat}
    (met : first? (ofTemplate template) name = some x) :
    ∃ p opens, firstKey? name (Scan.ofTemplate template).tokens = some (p, opens) ∧ p ≤ x ∧
      (opens = false → x = p) := by
  have ascending := (Scan.tiles_segments false 0 template.toList).pairwise_offset
  obtain ⟨m, found, rfl⟩ := Option.map_eq_some_iff.mp met
  have same : m.name = name := by simpa using List.find?_some found
  obtain ⟨p, opens, key, le⟩ := exists_firstKey?_le (List.not_mem_nil) ascending
    (List.mem_of_find?_eq_some found) same
  refine ⟨p, opens, key, le, ?_⟩
  rintro rfl
  have first := first?_of_firstKey? (List.not_mem_nil (a := name)) key
  exact Option.some.inj (met.symm.trans first)

end Meeting

end SqlTemplate
