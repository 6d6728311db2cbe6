import SqlTemplate.Proofs.Node.Derived
import SqlTemplate.Proofs.Node.Uses
import SqlTemplate.Proofs.Query.Shape

/-!
# Keys

The keys of a query are the names that matter to it, and all of them.

* They are the names in its condensed tree. In terms of the template they are the names of the keys
  in it, without those that are used for nothing but to choose between branches that say nothing.
* Arguments that agree on the keys give the same statement, or the same mismatch
  (`Node.toStatement_of_agreeOn`). Whatever else is in the arguments is never looked at.
-/

namespace SqlTemplate

/-! ## Arguments that agree -/

/-- Names have the same values in two arguments, or are absent from both. -/
def Value.AgreeOn (a b : Value) (names : List String) : Prop :=
  ∀ name ∈ names, a.present? name = b.present? name

section Agree

open Value (AgreeOn)

variable {a b : Value}

/-- A mention looks at nothing but the value of its name. -/
theorem Mention.values_of_present?_eq {m : Mention} (h : a.present? m.name = b.present? m.name) :
    m.values a = m.values b ∧ m.check a = m.check b := by
  cases m with
  | whole name =>
    have bound : a.boundTo name = b.boundTo name := congrArg (fun found => found.getD Value.null) h
    exact ⟨congrArg (fun v => [v]) bound, rfl⟩
  | spread name delimiter =>
    have same : a.present? name = b.present? name := h
    exact ⟨by rw [Mention.values, Mention.values, same], by rw [Mention.check, Mention.check, same]⟩

theorem forM_check_congr {ms : List Mention} (h : ∀ m ∈ ms, m.check a = m.check b) :
    forM ms (Mention.check a) = forM ms (Mention.check b) := by
  induction ms with
  | nil => rfl
  | cons m rest ih =>
    rw [List.forM_cons, List.forM_cons, h m (List.mem_cons_self ..),
      ih fun other mem => h other (List.mem_cons_of_mem _ mem)]

theorem boundValues_congr {met : List Mention} (h : ∀ m ∈ met, m.values a = m.values b) :
    boundValues a met = boundValues b met := by
  rw [boundValues, boundValues, List.flatMap_def, List.flatMap_def]
  congr 1
  exact List.map_congr_left fun m mem => h m (Mention.mem_of_mem_firsts mem)

/-- A tree is rendered in the same way with arguments that agree on the names in it. -/
theorem Node.toStatement_of_agreeOn {nodes : List Node} (h : AgreeOn a b (namesIn nodes)) :
    toStatement nodes a = toStatement nodes b := by
  obtain ⟨sameMentions, samePieces⟩ :=
    mentionsIn_of_samePresence nodes fun name mem => congrArg Option.isSome (h name mem)
  have same : ∀ m ∈ mentionsIn b nodes, m.values a = m.values b ∧ m.check a = m.check b :=
    fun m mem => Mention.values_of_present?_eq (h m.name (name_mem_namesIn b nodes mem))
  have values : ∀ m ∈ mentionsIn b nodes, m.values a = m.values b := fun m mem => (same m mem).1
  rw [toStatement_eq, toStatement_eq, sameMentions, samePieces,
    writtenAs_congr fun m mem => congrArg List.length (values m mem), boundValues_congr values,
    forM_check_congr fun m mem => (same m mem).2]

/-- Setting an entry of a map leaves the values of the other names. -/
theorem Value.agreeOn_put {names : List String} {name : String} (h : name ∉ names) (v : Value)
    (entries : Entries Value) : AgreeOn (.map (entries.put name v)) (.map entries) names := by
  intro other mem
  have apart : name ≠ other := fun same => h (same ▸ mem)
  rw [present?, present?, Entries.find?_put, if_neg apart]

/-- A null entry is as good as none. -/
theorem Value.present?_put_null {name : String} {entries : Entries Value}
    (h : Entries.find? name entries = none) (other : String) :
    present? (.map (entries.put name .null)) other = present? (.map entries) other := by
  rw [present?, present?, Entries.find?_put]
  by_cases same : name = other
  · subst same
    rw [if_pos rfl, h]
    rfl
  · rw [if_neg same]

/-- Arguments that are no map are as good as a map without entries. -/
theorem Value.present?_of_no_map {v : Value} (h : ∀ entries, v ≠ .map entries) (name : String) :
    v.present? name = present? (.map []) name := by
  cases v with
  | map entries => exact absurd rfl (h entries)
  | _ => rfl

end Agree

/-! ## The keys of a query -/

namespace Node

/-- Noting a name keeps names apart. -/
theorem Findings.nodup_note {keys : List String} (h : keys.Nodup) (name : String) :
    (note keys name).Nodup := by
  rw [note]
  split
  · exact h
  · rename_i new
    rw [List.nodup_append]
    refine ⟨h, List.nodup_singleton name, ?_⟩
    rintro key mem _ last rfl
    exact new (List.mem_singleton.mp last ▸ mem)

theorem Findings.nodup_foldl_note {keys : List String} (h : keys.Nodup) (names : List String) :
    (names.foldl note keys).Nodup := by
  induction names generalizing keys with
  | nil => exact h
  | cons name rest ih => exact ih (nodup_note h name)

/-- A tree has each of its names once among its keys. -/
theorem nodup_keys (nodes : List Node) : (keys nodes).Nodup := by
  have noted := Findings.nodup_foldl_note List.nodup_nil (namesIn nodes)
  rw [Findings.foldl_note] at noted
  simpa [keys] using noted

end Node

namespace Query

open Value (AgreeOn)

/-- The keys of a query, each once, are the names in its tree. -/
theorem mem_keys_iff {source : String} {q : Query} (h : compile source = .ok q) {name : String} :
    name ∈ q.keys ↔ name ∈ Node.namesIn q.nodes := by
  obtain ⟨tree, -, rfl⟩ := eq_ofTree h
  exact List.mem_eraseDups

/-- A query generates the same statement, or the same mismatch, with arguments that agree on its
keys. -/
theorem generate_of_agreeOn {source : String} {q : Query} (h : compile source = .ok q)
    {a b : Value} (agree : AgreeOn a b q.keys) : q.generate a = q.generate b := by
  rw [generate_eq h, generate_eq h]
  exact Node.toStatement_of_agreeOn fun name mem => agree name (mem_keys h mem)

/-- The keys of a query are exact. They are the names in its condensed tree, each once, and of the
names that the keys of the template have they are those with a use that is not idle. They are also
sufficient: arguments that agree on them give the same result. So other entries, null entries and
arguments that are no map change nothing. -/
theorem keys_exact {source : String} {q : Query} (h : compile source = .ok q) :
    q.keys.Nodup ∧ (∀ name, name ∈ q.keys ↔ name ∈ Node.namesIn q.nodes) ∧
    (∃ tree, Node.read source = .ok tree ∧
      (Node.usesIn tree).map Node.Use.name =
        (Scan.ofTemplate source).lexemes.filterMap Lexeme.key? ∧
      ∀ name, name ∈ q.keys ↔
        name ∈ (Scan.ofTemplate source).lexemes.filterMap Lexeme.key? ∧
          ¬∀ u ∈ Node.usesIn tree, u.name = name → u.idle = true) ∧
    (∀ a b, AgreeOn a b q.keys → q.generate a = q.generate b) ∧
    (∀ (entries : Entries Value) (name : String) (v : Value), name ∉ q.keys →
      q.generate (.map (entries.put name v)) = q.generate (.map entries)) ∧
    (∀ (entries : Entries Value) (name : String), Entries.find? name entries = none →
      q.generate (.map (entries.put name .null)) = q.generate (.map entries)) ∧
    ∀ v, (∀ entries, v ≠ .map entries) → q.generate v = q.generate (.map []) := by
  have agrees : ∀ a b, AgreeOn a b q.keys → q.generate a = q.generate b :=
    fun a b => generate_of_agreeOn h
  refine ⟨?_, fun name => mem_keys_iff h, ?_, agrees, ?_, ?_, ?_⟩
  · obtain ⟨tree, -, rfl⟩ := eq_ofTree h
    exact Node.nodup_keys _
  · obtain ⟨tree, read, rfl⟩ := eq_ofTree h
    have derived := (Node.read_eq_ok_iff.mp read).1
    have keyed : (Node.usesIn tree).map Node.Use.name =
        (Scan.ofTemplate source).lexemes.filterMap Lexeme.key? := by
      rw [← Node.filterMap_lexemesIn, Grammar.lexemesIn_eq derived, Node.filterMap_kept]
    refine ⟨tree, read, keyed, fun name => ?_⟩
    rw [mem_keys_iff h, ← keyed]
    refine (Node.mem_namesIn_condense tree).trans ⟨fun live => ⟨?_, ?_⟩, ?_⟩
    · exact List.mem_map_of_mem live
    · intro idle
      cases idle _ live rfl
    · rintro ⟨-, live⟩
      by_contra none
      apply live
      rintro ⟨other, idle⟩ mem rfl
      cases idle with
      | true => rfl
      | false => exact absurd mem none
  · intro entries name v other
    exact agrees _ _ (Value.agreeOn_put other v entries)
  · intro entries name absent
    exact agrees _ _ fun other _ => Value.present?_put_null absent other
  · intro v no_map
    exact agrees _ _ fun name _ => Value.present?_of_no_map no_map name

/-- The key `x` only chooses between branches that say nothing, and so does the first key `y`, which
stands in one of them. -/
theorem keys_exact_idle :
    ∃ q, compile "@x?\x7b@y?\x7b\x7d \x7d@y??0@z" = .ok q ∧ q.keys = ["y", "z"] ∧
    (∃ tree, Node.read "@x?\x7b@y?\x7b\x7d \x7d@y??0@z" = .ok tree ∧
      Node.usesIn tree = [⟨"x", true⟩, ⟨"y", true⟩, ⟨"y", false⟩, ⟨"z", false⟩] ∧
      ∀ name, name ∈ q.keys ↔
        name ∈ (Scan.ofTemplate "@x?\x7b@y?\x7b\x7d \x7d@y??0@z").lexemes.filterMap Lexeme.key? ∧
          ¬∀ u ∈ Node.usesIn tree, u.name = name → u.idle = true) ∧
    AgreeOn (.map [("x", .bool true), ("z", .null)]) (.map [("y", .null)]) q.keys ∧
    q.generate (.map [("x", .bool true), ("z", .null)]) = q.generate (.map [("y", .null)]) ∧
    "x" ∉ q.keys ∧
    q.generate (.map [("z", .null), ("x", .bool true)]) = q.generate (.map [("z", .null)]) ∧
    Entries.find? "y" [("z", Value.null)] = none ∧
    q.generate (.map [("z", .null), ("y", .null)]) = q.generate (.map [("z", .null)]) ∧
    (∀ entries, Value.bool true ≠ .map entries) ∧
    q.generate (.bool true) = q.generate (.map []) := by
  have compiled : compile "@x?\x7b@y?\x7b\x7d \x7d@y??0@z" =
      .ok ⟨"@x?\x7b@y?\x7b\x7d \x7d@y??0@z", [.fallback "y" "0", .value "z"], false, ["y", "z"],
        none⟩ := by
    cbv
  have agree : AgreeOn (.map [("x", .bool true), ("z", .null)]) (.map [("y", .null)])
      ["y", "z"] := by
    intro name mem
    rcases List.mem_pair.mp mem with rfl | rfl <;> rfl
  have other : "x" ∉ ["y", "z"] := by
    decide
  have no_map : ∀ entries, Value.bool true ≠ .map entries := by
    rintro _ ⟨⟩
  obtain ⟨-, -, ⟨tree, read, -, uses⟩, agreed, put, put_null, empty⟩ := keys_exact compiled
  have known : Node.read "@x?\x7b@y?\x7b\x7d \x7d@y??0@z" = .ok
      [.conditional "x" [.conditional "y" [] none] none, .fallback "y" "0", .value "z"] := by
    cbv
  obtain rfl := Except.ok.inj (read.symm.trans known)
  exact ⟨_, compiled, rfl, ⟨_, read, rfl, uses⟩, agree, agreed _ _ agree, other,
    put [("z", .null)] "x" (.bool true) other, rfl, put_null [("z", .null)] "y" rfl, no_map,
    empty _ no_map⟩

end Query

end SqlTemplate
