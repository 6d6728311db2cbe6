import Mathlib
import SqlTemplate.Proofs.Node.Derived
import SqlTemplate.Proofs.Token.Tiling

/-!
# Where reading stops

A template that is not read to a tree has a first token that cannot stand where it stands, or it
ends too early. The syntax error points there: what is before can still be gone on with to lexemes
that the grammar accepts (`Grammar.Viable`), and with what is met next it cannot
(`Node.read_error_earliest`).

Two facts carry this. Whatever was read can be closed (`Reading.exists_completion`), so the lexemes
that lead from the start to some reading are the viable ones (`Reading.viable_iff`). And a lexeme
that ends a reading is not in any tree behind what was read, since a tree would have been read
(`Reading.after?_fragments`). What an error says is then told from the reading that it ends, one
kind of reading at a time (`Reading.Stops`).
-/

namespace SqlTemplate

open Grammar

/-! ## What can come next -/

namespace Grammar

/-- The grammar derives a tree from the lexemes, and no more conditionals and lists are nested in it
than are allowed. -/
def Accepts (ls : List Lexeme) : Prop :=
  ∃ tree, Fragments ls tree ∧ Node.depthIn tree ≤ maxDepth

/-- The lexemes stand in front of some lexemes that the grammar accepts. -/
def Viable (ls : List Lexeme) : Prop := ∃ more, Accepts (ls ++ more)

/-- What comes next can come behind the lexemes: a lexeme, or the end of the template. -/
def Follows (ls : List Lexeme) : Option Lexeme → Prop
  | none => Accepts ls
  | some l => Viable (ls ++ [l])

/-- The kind of what comes next: of a lexeme, or of the end of the template. -/
def kindOf (next : Option Lexeme) : TokenKind := (next.map Lexeme.kind).getD .eof

/-- There is something of the kind, and all of that can come behind the lexemes. -/
def Allows (ls : List Lexeme) (kind : TokenKind) : Prop :=
  (∃ next, kindOf next = kind) ∧ ∀ next, kindOf next = kind → Follows ls next

/-- Only the end of the template is of its kind. -/
theorem kindOf_eq_eof_iff {next : Option Lexeme} : kindOf next = .eof ↔ next = none := by
  cases next with
  | none => exact iff_of_true rfl rfl
  | some l => exact iff_of_false l.kind_ne_eof (Option.some_ne_none l)

/-- There is a lexeme of each kind but the end of the template. -/
theorem exists_kindOf_eq (kind : TokenKind) : ∃ next, kindOf next = kind := by
  cases kind with
  | literal => exact ⟨some (.literal ""), rfl⟩
  | key => exact ⟨some (.key ""), rfl⟩
  | fallback => exact ⟨some (.fallback ""), rfl⟩
  | conditionalOpen => exact ⟨some .conditionalOpen, rfl⟩
  | elseOpen => exact ⟨some .elseOpen, rfl⟩
  | blockClose => exact ⟨some .blockClose, rfl⟩
  | listOpen delimiter => exact ⟨some (.listOpen delimiter), rfl⟩
  | listClose => exact ⟨some .listClose, rfl⟩
  | separator => exact ⟨some .separator, rfl⟩
  | spread => exact ⟨some .spread, rfl⟩
  | eof => exact ⟨none, rfl⟩

end Grammar

/-- The lexeme that closes what a frame stands for. -/
def Frame.closing : Frame → Lexeme
  | .success .. => .blockClose
  | .failure .. => .blockClose
  | .list .. => .listClose

/-- No other lexeme is of the kind of a closing one. -/
theorem Frame.eq_closing {frame : Frame} {next : Option Lexeme}
    (h : kindOf next = frame.closing.kind) : next = some frame.closing := by
  cases frame <;> rcases next with _ | l <;> first | cases h | cases l <;> first | rfl | cases h

namespace Reading

variable {r : Reading} {stack : List Frame} {nodes : List Node}

/-! ## Closing what is open -/

/-- A reading comes to its own stack and nodes, unless something particular has to come next. -/
theorem at_settle (free : r.isFree = true) : r.At r.settle.stack r.settle.nodes := by
  refine ⟨free, ?_⟩
  rw [← pending_settle free]

/-- The closing lexeme of the innermost frame leaves the frames around it. -/
theorem At.next?_closing {frame : Frame} (h : r.At (frame :: stack) nodes) :
    ∃ next nodes', r.next? frame.closing = some next ∧ next.At stack nodes' := by
  cases frame with
  | success outer name =>
    exact ⟨⟨stack, outer, .branch name nodes.reverse⟩, _, h.next? rfl, rfl, rfl⟩
  | failure outer name success => exact ⟨_, _, h.next? rfl, at_settled stack _⟩
  | list outer delimiter items => exact ⟨_, _, h.next? rfl, at_settled stack _⟩

theorem At.exists_completion (h : r.At stack nodes) :
    ∃ more last nodes', r.after? more = some last ∧ last.At [] nodes' := by
  induction stack generalizing r nodes with
  | nil => exact ⟨[], r, nodes, rfl, h⟩
  | cons frame stack ih =>
    obtain ⟨next, _, read, there⟩ := h.next?_closing
    obtain ⟨more, last, nodes', rest, done⟩ := ih there
    refine ⟨frame.closing :: more, last, nodes', ?_, done⟩
    rw [after?_cons, read, Option.bind_some, rest]

/-- Whatever was read can be gone on with to a reading that can end. -/
theorem exists_completion (r : Reading) :
    ∃ more last nodes, r.after? more = some last ∧ last.At [] nodes := by
  obtain ⟨stack, nodes, pending⟩ := r
  cases pending with
  | spread delimiter =>
    obtain ⟨more, last, nodes', rest, done⟩ :=
      (at_settled stack (.spread "" delimiter :: nodes)).exists_completion
    exact ⟨.key "" :: .listClose :: more, last, nodes', rest, done⟩
  | spreadKey delimiter name =>
    obtain ⟨more, last, nodes', rest, done⟩ :=
      (at_settled stack (.spread name delimiter :: nodes)).exists_completion
    exact ⟨.listClose :: more, last, nodes', rest, done⟩
  | _ => exact (at_settle rfl).exists_completion

/-! ## Readings and the grammar -/

/-- The lexemes that the grammar accepts are those that lead to a reading which can end. -/
theorem accepts_iff {ls : List Lexeme} :
    Accepts ls ↔ ∃ last nodes, start.after? ls = some last ∧ last.At [] nodes := by
  constructor
  · rintro ⟨tree, fragments, shallow⟩
    have room : Room [] (Node.depthIn tree) := .inl (by simpa using shallow)
    obtain ⟨last, read, done⟩ := after?_fragments fragments (at_settled [] []) room
    exact ⟨last, _, read, done⟩
  · rintro ⟨last, nodes, read, done⟩
    obtain ⟨fragments, shallow⟩ := derived_of_at read done
    rw [Nat.zero_add, ← Node.depthIn_reverse] at shallow
    exact ⟨nodes.reverse, fragments, shallow⟩

/-- The viable lexemes are those that lead to a reading at all. -/
theorem viable_iff {ls : List Lexeme} : Viable ls ↔ ∃ r, start.after? ls = some r := by
  constructor
  · rintro ⟨more, accepted⟩
    obtain ⟨last, _, read, -⟩ := accepts_iff.mp accepted
    rw [after?_append] at read
    obtain ⟨r, here, -⟩ := Option.bind_eq_some_iff.mp read
    exact ⟨r, here⟩
  · rintro ⟨r, read⟩
    obtain ⟨more, last, nodes, rest, done⟩ := r.exists_completion
    refine ⟨more, accepts_iff.mpr ⟨last, nodes, ?_, done⟩⟩
    rw [after?_append, read, Option.bind_some, rest]

/-- What comes next can be read: a lexeme leads on, and at the end nothing is open. -/
def Reads (r : Reading) : Option Lexeme → Prop
  | none => ∃ nodes, r.At [] nodes
  | some l => ∃ next, r.next? l = some next

/-- Behind viable lexemes, the grammar lets come next what can be read. -/
theorem follows_iff {ls : List Lexeme} (read : start.after? ls = some r) {next : Option Lexeme} :
    Follows ls next ↔ r.Reads next := by
  cases next with
  | none => simp [Follows, Reads, accepts_iff, read]
  | some l => simp [Follows, Reads, viable_iff, after?_append, read, after?_cons]

/-! ## What ends a reading -/

/-- An error that ends a reading, where `next` comes next and stands at byte `offset`. -/
structure Stops (r : Reading) (next : Option Lexeme) (offset : Nat) (e : SyntaxError) : Prop where
  /-- what comes next cannot be read -/
  refused : ¬r.Reads next
  /-- the error names its kind -/
  found : e.found = kindOf next
  /-- the error names its place -/
  offset_eq : e.offset = offset
  /-- all of the kind that the error asks for can be read -/
  expected : ∀ kind ∈ e.expected, ∀ other, kindOf other = kind → r.Reads other
  /-- only the end of the list can come behind the key of a spread, and the error asks for it -/
  spreadKey : ∀ delimiter name, r.pending = .spreadKey delimiter name →
    e.expected = some .listClose

/-- The kind that the error asks for is another one than it finds, which cannot be read. -/
theorem Stops.ne_found {next : Option Lexeme} {offset : Nat} {e : SyntaxError}
    (h : r.Stops next offset e) {kind : TokenKind} (mem : kind ∈ e.expected) : kind ≠ e.found := by
  rintro rfl
  exact h.refused (h.expected _ mem next h.found.symm)

/-- Where nothing particular has to come next, what closes the innermost frame can be read, or the
end of the template if nothing is open. -/
theorem At.reads_closer (h : r.At stack nodes) {next : Option Lexeme}
    (kind : kindOf next = closer ⟨stack, nodes, .settled⟩) : r.Reads next := by
  cases stack with
  | nil =>
    obtain rfl := kindOf_eq_eof_iff.mp kind
    exact ⟨nodes, h⟩
  | cons frame stack =>
    have closing : closer ⟨frame :: stack, nodes, .settled⟩ = frame.closing.kind := by
      cases frame <;> rfl
    obtain rfl := Frame.eq_closing (kind.trans closing)
    obtain ⟨last, -, read, -⟩ := h.next?_closing
    exact ⟨last, read⟩

/-- If the error of a token that ends a settled reading asks for anything, then for what closes the
reading. -/
theorem place_eq_error {t : Token} {e : SyntaxError}
    (h : place ⟨stack, nodes, .settled⟩ t = .error e) :
    e.found = t.kind ∧ e.offset = t.offset ∧
      ∀ kind ∈ e.expected, kind = closer ⟨stack, nodes, .settled⟩ := by
  obtain ⟨l, offset, length⟩ := t
  cases l with
  | literal text => cases h
  | key name => cases h
  | listOpen delimiter =>
    simp only [place, enter] at h
    split at h
    · cases h
      exact ⟨rfl, rfl, fun _ mem => absurd mem (Option.not_mem_none _)⟩
    · cases h
  | separator =>
    rcases stack with _ | ⟨_ | _ | _, _⟩ <;> cases h <;>
      exact ⟨rfl, rfl, fun _ mem => (Option.some.inj mem).symm⟩
  | listClose =>
    rcases stack with _ | ⟨_ | _ | _, _⟩ <;> cases h <;>
      exact ⟨rfl, rfl, fun _ mem => (Option.some.inj mem).symm⟩
  | blockClose =>
    rcases stack with _ | ⟨_ | _ | _, _⟩ <;> cases h <;>
      exact ⟨rfl, rfl, fun _ mem => (Option.some.inj mem).symm⟩
  | _ =>
    cases h
    exact ⟨rfl, rfl, fun _ mem => absurd mem (Option.not_mem_none _)⟩

/-- A token that settles what is pending, and then cannot be placed, ends the reading. -/
theorem stops_of_place (free : r.isFree = true) {t : Token} {e : SyntaxError}
    (refused : ¬r.Reads (some t.lexeme)) (placed : r.settle.place t = .error e) :
    r.Stops (some t.lexeme) t.offset e := by
  have here := at_settle free
  rw [here.settle_eq] at placed
  obtain ⟨found, offset, expected⟩ := place_eq_error placed
  refine ⟨refused, found, offset, fun kind mem => ?_, fun delimiter name pending => ?_⟩
  · exact fun _ same => here.reads_closer (same.trans (expected kind mem))
  · simp [isFree, pending] at free

/-- Any key can come behind the dots of a spread. -/
theorem reads_key {delimiter : Delimiter} {next : Option Lexeme} (kind : kindOf next = .key) :
    Reads ⟨stack, nodes, .spread delimiter⟩ next := by
  rcases next with _ | l
  · cases kind
  · cases l <;> first | exact ⟨_, rfl⟩ | cases kind

/-- The end of the list can come behind the key of a spread. -/
theorem reads_listClose {delimiter : Delimiter} {name : String} {next : Option Lexeme}
    (kind : kindOf next = .listClose) : Reads ⟨stack, nodes, .spreadKey delimiter name⟩ next := by
  rcases next with _ | l
  · cases kind
  · cases l <;> first | exact ⟨_, rfl⟩ | cases kind

/-- Behind the dots of a spread the error asks for a key. -/
theorem stops_of_spread {delimiter : Delimiter} {next : Option Lexeme}
    (refused : ¬Reads ⟨stack, nodes, .spread delimiter⟩ next) (offset : Nat) :
    Stops ⟨stack, nodes, .spread delimiter⟩ next offset ⟨kindOf next, some .key, offset⟩ := by
  refine ⟨refused, rfl, rfl, ?_, by rintro _ _ ⟨⟩⟩
  rintro _ ⟨⟩
  exact fun _ => reads_key

/-- Behind the key of a spread the error asks for the end of the list. -/
theorem stops_of_spreadKey {delimiter : Delimiter} {name : String} {next : Option Lexeme}
    (refused : ¬Reads ⟨stack, nodes, .spreadKey delimiter name⟩ next) (offset : Nat) :
    Stops ⟨stack, nodes, .spreadKey delimiter name⟩ next offset
      ⟨kindOf next, some .listClose, offset⟩ := by
  refine ⟨refused, rfl, rfl, ?_, fun _ _ _ => rfl⟩
  rintro _ ⟨⟩
  exact fun _ => reads_listClose

/-- The error of a step tells what ended the reading. -/
theorem stops_of_step {t : Token} {e : SyntaxError} (h : r.step t = .error e) :
    r.Stops (some t.lexeme) t.offset e := by
  have refused : ¬r.Reads (some t.lexeme) := by
    rintro ⟨next, read⟩
    rw [step_eq_ok_iff.mpr read] at h
    cases h
  obtain ⟨l, offset, length⟩ := t
  obtain ⟨stack, nodes, pending⟩ := r
  cases pending with
  | settled => exact stops_of_place rfl refused h
  | key name =>
    cases l with
    | fallback word => cases h
    | conditionalOpen =>
      simp only [step, enter] at h
      split at h
      · cases h
        exact ⟨refused, rfl, rfl, fun _ mem => absurd mem (Option.not_mem_none _),
          by rintro _ _ ⟨⟩⟩
      · cases h
    | _ => exact stops_of_place rfl refused h
  | opened delimiter =>
    cases l with
    | spread => cases h
    | _ => exact stops_of_place rfl refused h
  | branch name success =>
    cases l with
    | elseOpen => cases h
    | _ => exact stops_of_place rfl refused h
  | spread delimiter =>
    cases l with
    | key name => cases h
    | _ =>
      cases h
      exact stops_of_spread refused offset
  | spreadKey delimiter name =>
    cases l with
    | listClose => cases h
    | _ =>
      cases h
      exact stops_of_spreadKey refused offset

/-- The error of a template that ends too early tells what is open or still has to come. -/
theorem stops_of_finish {stop : Nat} {e : SyntaxError} (h : r.finish stop = .error e) :
    r.Stops none stop e := by
  have refused : ¬r.Reads none := by
    rintro ⟨nodes, done⟩
    rw [← List.reverse_reverse nodes] at done
    rw [finish_eq_ok_iff.mpr done] at h
    cases h
  cases free : r.isFree with
  | true =>
    have here := at_settle free
    rw [finish_of_isFree free] at h
    split at h
    · cases h
    · cases h
      refine ⟨refused, rfl, rfl, fun kind mem => ?_, fun delimiter name pending => ?_⟩
      · obtain rfl := Option.some.inj mem
        refine fun other closes => here.reads_closer ?_
        rw [closes, here.settle_eq]
      · simp [isFree, pending] at free
  | false =>
    obtain ⟨stack, nodes, pending⟩ := r
    cases pending with
    | spread delimiter =>
      cases h
      exact stops_of_spread refused stop
    | spreadKey delimiter name =>
      cases h
      exact stops_of_spreadKey refused stop
    | _ => cases free

/-- A run that fails was cut by its error: all before it was read, and what comes next cannot be. -/
theorem exists_of_run_eq_error {stop : Nat} {ts : List Token} {e : SyntaxError}
    (h : r.run stop ts = .error e) :
    ∃ before after last, ts = before ++ after ∧
      r.after? (before.map Token.lexeme) = some last ∧
      last.Stops (after.head?.map Token.lexeme) ((after.head?.map Token.offset).getD stop) e := by
  induction ts generalizing r with
  | nil => exact ⟨[], [], r, rfl, rfl, stops_of_finish h⟩
  | cons t ts ih =>
    rw [run_cons] at h
    cases stepped : r.step t with
    | error e' =>
      rw [stepped] at h
      cases h
      exact ⟨[], t :: ts, r, rfl, rfl, stops_of_step stepped⟩
    | ok next =>
      rw [stepped] at h
      obtain ⟨before, after, last, rfl, read, stops⟩ := ih h
      refine ⟨t :: before, after, last, rfl, ?_, stops⟩
      rw [List.map_cons, after?_cons, step_eq_ok_iff.mp stepped, Option.bind_some, read]

/-! ## Behind a key -/

/-- Behind a key the key is pending, alone or as that of a spread. -/
theorem pending_of_next?_key {name : String} {next : Reading}
    (h : r.next? (.key name) = some next) :
    next.pending = .key name ∨ ∃ delimiter, next.pending = .spreadKey delimiter name := by
  obtain ⟨stack, nodes, pending⟩ := r
  cases pending with
  | spread delimiter =>
    cases h
    exact .inr ⟨delimiter, rfl⟩
  | spreadKey delimiter name => cases h
  | _ =>
    cases h
    exact .inl rfl

/-- A fallback that cannot come behind a key stands behind that of a spread. -/
theorem pending_of_not_reads_fallback {name word : String} {next : Reading}
    (read : r.next? (.key name) = some next) (refused : ¬next.Reads (some (.fallback word))) :
    ∃ delimiter, next.pending = .spreadKey delimiter name := by
  rcases pending_of_next?_key read with key | spread
  · obtain ⟨stack, nodes, pending⟩ := next
    cases key
    exact absurd ⟨_, rfl⟩ refused
  · exact spread

/-- The key of a spread is pending behind the opening of a list, the dots and the key. -/
theorem exists_of_pending_spreadKey {ls : List Lexeme} (read : start.after? ls = some r)
    {delimiter : Delimiter} {name : String} (pending : r.pending = .spreadKey delimiter name) :
    ∃ front, ls = front ++ [.listOpen delimiter, .spread, .key name] := by
  have nothing : Tells [] start := Tells.settled .nil (.nil (Nat.zero_le maxDepth))
  have told := nothing.after? read
  rw [List.nil_append] at told
  cases told with
  | intro opened derived waiting =>
    cases pending
    cases waiting
    exact ⟨_, rfl⟩

end Reading

/-! ## Templates that are not read -/

namespace Node

/-- What a syntax error says of a template whose tokens before the one that the error points at are
`before`, and whose tokens from there on are `after`. -/
structure Refused (template : String) (before after : List Token) (e : SyntaxError) : Prop where
  /-- these are the tokens of the template -/
  tokens_eq : (Scan.ofTemplate template).tokens = before ++ after
  /-- what is before can be gone on with to something that the grammar accepts -/
  viable : Viable (before.map Token.lexeme)
  /-- with what comes next it cannot -/
  refused : ¬Follows (before.map Token.lexeme) (after.head?.map Token.lexeme)
  /-- the error names the kind of that -/
  found : e.found = kindOf (after.head?.map Token.lexeme)
  /-- the error names the place of that -/
  offset_eq : e.offset = (after.head?.map Token.offset).getD template.utf8ByteSize
  /-- the template ends there only if it ends too early -/
  eof_iff : e.found = .eof ↔ e.offset = template.utf8ByteSize
  /-- the kind that the error asks for is another one, and could come next -/
  expected : ∀ kind ∈ e.expected, kind ≠ e.found ∧ Allows (before.map Token.lexeme) kind
  /-- a fallback is wrong only behind the key of a spread, where the list has to end -/
  fallback : e.found = .fallback → e.expected = some .listClose ∧
    ∃ front delimiter name,
      before.map Token.lexeme = front ++ [.listOpen delimiter, .spread, .key name]

/-- A fallback is found to be wrong only behind the key of a spread. -/
theorem pending_of_fallback {template : String} {before after : List Token} {t : Token}
    (tokens : (Scan.ofTemplate template).tokens = before ++ t :: after) {word : String}
    (lexeme : t.lexeme = .fallback word) {last : Reading}
    (read : Reading.start.after? (before.map Token.lexeme) = some last)
    (refused : ¬last.Reads (some (.fallback word))) :
    ∃ delimiter name, last.pending = .spreadKey delimiter name := by
  have tiles := Scan.tiles_segments false 0 template.toList
  obtain ⟨-, ⟨⟩⟩ | ⟨earlier, key, rfl, kind⟩ := tiles.key_before tokens lexeme
  obtain ⟨l, offset, length⟩ := key
  cases l with
  | key name =>
    rw [List.map_append, Reading.after?_append] at read
    obtain ⟨middle, -, behind⟩ := Option.bind_eq_some_iff.mp read
    obtain ⟨next, step, rest⟩ := Option.bind_eq_some_iff.mp behind
    cases rest
    obtain ⟨delimiter, pending⟩ := Reading.pending_of_not_reads_fallback step refused
    exact ⟨delimiter, name, pending⟩
  | _ => cases kind

/-- A token starts before the end of the template. -/
theorem offset_lt_of_mem {template : String} {t : Token}
    (mem : t ∈ (Scan.ofTemplate template).tokens) : t.offset < template.utf8ByteSize := by
  have tiles := Scan.tiles_segments false 0 template.toList
  obtain ⟨before, slice, behind, text, filled, offset, -, -⟩ := tiles.exists_slice mem
  have some := Text.width_pos filled
  rw [← String.ofList_toList (s := template), text, Text.utf8ByteSize_ofList, offset,
    Text.width_append, Text.width_append]
  omega

/-- A template that is not read to a tree is refused at the earliest place that is wrong. What is
before can be gone on with to something that the grammar accepts, and with what comes next it
cannot. The error names the kind and the place of that. If it asks for a kind, then for one that
could come next; and it finds a fallback only behind the key of a spread. -/
theorem read_error_earliest {template : String} {e : SyntaxError} (h : read template = .error e) :
    ∃ before after, Refused template before after e := by
  have ends : (Scan.ofTemplate template).stop = template.utf8ByteSize := by
    rw [Scan.stop_ofTemplate, ← Text.utf8ByteSize_ofList, String.ofList_toList]
  rw [read, ends] at h
  obtain ⟨before, after, last, tokens, read, stops⟩ := Reading.exists_of_run_eq_error h
  refine ⟨before, after, tokens, Reading.viable_iff.mpr ⟨last, read⟩, ?_, stops.found,
    stops.offset_eq, ?_, fun kind mem => ?_, fun found => ?_⟩
  · rw [Reading.follows_iff read]
    exact stops.refused
  · rw [stops.found, stops.offset_eq, kindOf_eq_eof_iff]
    cases after with
    | nil => exact iff_of_true rfl rfl
    | cons t after =>
      have mem : t ∈ (Scan.ofTemplate template).tokens := by simp [tokens]
      exact iff_of_false (Option.some_ne_none _) (Nat.ne_of_lt (offset_lt_of_mem mem))
  · exact ⟨stops.ne_found mem, exists_kindOf_eq kind, fun next same =>
      (Reading.follows_iff read).mpr (stops.expected kind mem next same)⟩
  · have refused := stops.refused
    rw [stops.found] at found
    rcases after with _ | ⟨⟨l, offset, length⟩, after⟩
    · cases found
    cases l with
    | fallback word =>
      obtain ⟨delimiter, name, pending⟩ := pending_of_fallback tokens rfl read refused
      obtain ⟨front, lexemes⟩ := Reading.exists_of_pending_spreadKey read pending
      exact ⟨stops.spreadKey delimiter name pending, front, delimiter, name, lexemes⟩
    | _ => cases found

/-- A fallback behind the key of a spread, where the list has to end. -/
theorem read_error_earliest_fallback :
    read "(&)[ ...@ids??0 ]" = .error ⟨.fallback, some .listClose, 12⟩ ∧
    ∃ before after,
      Refused "(&)[ ...@ids??0 ]" before after ⟨.fallback, some .listClose, 12⟩ := by
  have refused : read "(&)[ ...@ids??0 ]" = .error ⟨.fallback, some .listClose, 12⟩ := by
    cbv
  exact ⟨refused, read_error_earliest refused⟩

end Node

end SqlTemplate
