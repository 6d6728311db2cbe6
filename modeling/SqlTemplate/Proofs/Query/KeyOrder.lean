import SqlTemplate.Proofs.Node.Meetings
import SqlTemplate.Proofs.Query.Keys

/-!
# The order of keys

The keys of a query are in the order in which their names are met. A name that tests a conditional
is met behind the branches, at the brace that ends the conditional, and any other name where it
stands (`Query.keys_order`). So the keys are in the order in which they stand in the template, as
far as the first key of each name is no test.

Where it is one, the order can be another: in a conditional around a second name, the second name
comes first (`Query.keys_out_of_order`).
-/

namespace SqlTemplate

namespace Query

open Meeting (first? firstKey? ofTemplate)

/-- Of two names that are not used in vain, that one comes first among the keys which is met first.
A name is met at its first key or behind that, and at the first key if that is not the test of a
conditional. -/
theorem keys_order {source : String} {q : Query} (h : compile source = .ok q) :
    ∃ tree, Node.read source = .ok tree ∧ ∀ a ∈ q.keys, ∀ b ∈ q.keys,
      (∀ u ∈ Node.usesIn tree, u.name = a ∨ u.name = b → u.idle = false) →
      ∃ x y, first? (ofTemplate source) a = some x ∧ first? (ofTemplate source) b = some y ∧
        (q.keys.idxOf a < q.keys.idxOf b ↔ x < y) ∧
        (∃ place opens, firstKey? a (Scan.ofTemplate source).tokens = some (place, opens) ∧
          place ≤ x ∧ (opens = false → x = place)) ∧
        ∃ place opens, firstKey? b (Scan.ofTemplate source).tokens = some (place, opens) ∧
          place ≤ y ∧ (opens = false → y = place) := by
  obtain ⟨tree, read, rfl⟩ := eq_ofTree h
  have names := Meeting.names_ofTemplate read
  refine ⟨tree, read, fun a ha b hb live => ?_⟩
  have inTree : ∀ name ∈ (ofTree source tree).keys,
      name ∈ (ofTemplate source).map Meeting.name := by
    intro name mem
    have use := (Node.mem_namesIn_condense tree).mp ((mem_keys_iff h).mp mem)
    rw [names, ← Node.map_name_metIn]
    exact List.mem_map_of_mem ((Node.mem_metIn tree).mpr use)
  have kept : ∀ u ∈ Node.metIn tree, u.name = a ∨ u.name = b → (!u.idle) = true := by
    intro u mem isOne
    rw [live u ((Node.mem_metIn tree).mp mem) isOne]
    rfl
  obtain ⟨x, y, first, second, order⟩ := Meeting.idxOf_lt_iff_of_pairwise
    (Meeting.pairwise_ofTemplate source) (inTree a ha) (inTree b hb)
  refine ⟨x, y, first, second, ?_, Meeting.exists_firstKey? first,
    Meeting.exists_firstKey? second⟩
  calc (ofTree source tree).keys.idxOf a < (ofTree source tree).keys.idxOf b
      ↔ (Node.liveNames (Node.metIn tree)).idxOf a <
          (Node.liveNames (Node.metIn tree)).idxOf b := by
        rw [← Node.namesIn_condense]
        exact idxOf_eraseDups_lt_iff _
    _ ↔ ((Node.metIn tree).map Node.Use.name).idxOf a <
          ((Node.metIn tree).map Node.Use.name).idxOf b := idxOf_map_filter_lt_iff kept
    _ ↔ x < y := by
        rw [Node.map_name_metIn, ← names]
        exact order

/-- The name `b` is met in the first branch, before the conditional around it ends. -/
theorem keys_order_nested : ∃ q, compile "@a?\x7b@b\x7d:\x7b@c\x7d@d@b" = .ok q ∧
    q.keys = ["b", "c", "a", "d"] ∧
    ∃ tree, Node.read "@a?\x7b@b\x7d:\x7b@c\x7d@d@b" = .ok tree ∧
      (∀ u ∈ Node.usesIn tree, u.name = "a" ∨ u.name = "b" → u.idle = false) ∧
      ∃ x y, first? (ofTemplate "@a?\x7b@b\x7d:\x7b@c\x7d@d@b") "a" = some x ∧
        first? (ofTemplate "@a?\x7b@b\x7d:\x7b@c\x7d@d@b") "b" = some y ∧
        (q.keys.idxOf "a" < q.keys.idxOf "b" ↔ x < y) := by
  have compiled : compile "@a?\x7b@b\x7d:\x7b@c\x7d@d@b" =
      .ok ⟨"@a?\x7b@b\x7d:\x7b@c\x7d@d@b",
        [.conditional "a" [.value "b"] (some [.value "c"]), .value "d", .value "b"], false,
        ["b", "c", "a", "d"], none⟩ := by
    cbv
  have known : Node.read "@a?\x7b@b\x7d:\x7b@c\x7d@d@b" = .ok
      [.conditional "a" [.value "b"] (some [.value "c"]), .value "d", .value "b"] := by
    cbv
  obtain ⟨tree, read, order⟩ := keys_order compiled
  obtain rfl := Except.ok.inj (read.symm.trans known)
  have live : ∀ u ∈ Node.usesIn
      [.conditional "a" [.value "b"] (some [.value "c"]), .value "d", .value "b"],
      u.name = "a" ∨ u.name = "b" → u.idle = false := by
    decide
  obtain ⟨x, y, first, second, iff, -⟩ := order "a" (by decide) "b" (by decide) live
  exact ⟨_, compiled, rfl, _, read, live, x, y, first, second, iff⟩

/-- Keys are not always in the order in which they first stand in the template: the name that tests
a conditional comes behind a name in one of the branches. -/
theorem keys_out_of_order :
    ¬∀ (source : String) (q : Query) (tree : List Node), compile source = .ok q →
      Node.read source = .ok tree → ∀ a ∈ q.keys, ∀ b ∈ q.keys, a ≠ b →
        (∀ u ∈ Node.usesIn tree, u.name = a ∨ u.name = b → u.idle = false) →
        ∀ x y, (firstKey? a (Scan.ofTemplate source).tokens).map Prod.fst = some x →
          (firstKey? b (Scan.ofTemplate source).tokens).map Prod.fst = some y →
          (q.keys.idxOf a < q.keys.idxOf b ↔ x < y) := by
  intro claim
  have compiled : compile "@a?\x7b@b\x7d" =
      .ok ⟨"@a?\x7b@b\x7d", [.conditional "a" [.value "b"] none], false, ["b", "a"], none⟩ := by
    cbv
  have read : Node.read "@a?\x7b@b\x7d" = .ok [.conditional "a" [.value "b"] none] := by
    cbv
  have tokens : (Scan.ofTemplate "@a?\x7b@b\x7d").tokens = [⟨.key "a", 0, 2⟩,
      ⟨.conditionalOpen, 2, 2⟩, ⟨.key "b", 4, 2⟩, ⟨.blockClose, 6, 1⟩] := by
    cbv
  have order := claim _ _ _ compiled read "a" (by decide) "b" (by decide) (by decide) (by decide)
    0 4 (by rw [tokens]; rfl) (by rw [tokens]; rfl)
  exact absurd (order.mpr (by decide)) (by decide)

end Query

end SqlTemplate
