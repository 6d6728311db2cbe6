import SqlTemplate.Proofs.Node.Derived
import SqlTemplate.Proofs.Query.Static
import SqlTemplate.Proofs.Token.Comments

/-!
# Comments and what a template compiles to

What a comment says is never looked at. With another text in it a template has the same lexemes, at
other places. A place shows in a syntax error and nowhere else (`Reading.step_eq`), so the template
compiles to the same query, or is refused for the same reason (`Query.compile_reworded`).
-/

namespace SqlTemplate

/-- What a syntax error says without the place. -/
def SyntaxError.reason (e : SyntaxError) : TokenKind × Option TokenKind := (e.found, e.expected)

namespace Reading

/-- How a reading ends does not depend on where the template does, except for the error's place. -/
theorem finish_reason (r : Reading) (stop stop' : Nat) :
    (r.finish stop).mapError SyntaxError.reason = (r.finish stop').mapError SyntaxError.reason := by
  cases free : r.isFree with
  | true =>
    rw [finish_of_isFree free, finish_of_isFree free]
    rcases r.settle.stack with _ | _ <;> rfl
  | false =>
    obtain ⟨stack, nodes, pending⟩ := r
    cases pending <;> first | rfl | cases free

/-- The same lexemes are read to the same tree, or end for the same reason, wherever they stand. -/
theorem run_reason {r : Reading} {stop stop' : Nat} {ts ts' : List Token}
    (same : ts.map Token.lexeme = ts'.map Token.lexeme) :
    (r.run stop ts).mapError SyntaxError.reason =
      (r.run stop' ts').mapError SyntaxError.reason := by
  induction ts generalizing r ts' with
  | nil =>
    obtain rfl := List.map_eq_nil_iff.mp same.symm
    exact finish_reason r stop stop'
  | cons t ts ih =>
    obtain ⟨t', ts', rfl, first, rest⟩ := List.map_eq_cons_iff.mp same.symm
    obtain ⟨l, offset, length⟩ := t
    obtain ⟨l', offset', length'⟩ := t'
    obtain rfl : l' = l := first
    rw [run_cons, run_cons, step_eq, step_eq r l' offset' length']
    cases r.step ⟨l', 0, 0⟩ with
    | ok next => exact ih rest.symm
    | error e => rfl

end Reading

/-- Templates with the same lexemes are read to the same tree, or not for the same reason. -/
theorem Node.read_reason {template template' : String}
    (same : (Scan.ofTemplate template').lexemes = (Scan.ofTemplate template).lexemes) :
    (read template').mapError SyntaxError.reason = (read template).mapError SyntaxError.reason :=
  Reading.run_reason same

/-- The text that segments are cut from. -/
def Segment.joined (gs : List Segment) : String := String.ofList (gs.flatMap Segment.slice)

/-- The lexemes of a scan are those of its segments, and a comment is none. -/
theorem Scan.lexemes_ofSegments_comment (offset : Nat) (gs rest : List Segment)
    (slice : List Char) :
    (ofSegments offset (gs ++ ⟨.comment, slice⟩ :: rest)).lexemes =
      (ofSegments offset (gs ++ rest)).lexemes := by
  rw [lexemes, lexemes, lexemes_ofSegments, lexemes_ofSegments, List.filterMap_append,
    List.filterMap_append]
  rfl

namespace Query

/-- Two ways in which compiling ended that differ in the template and in places only. -/
inductive SameOutcome (template' : String) : Except Error Query → Except Error Query → Prop
  | compiled (q : Query) : SameOutcome template' (.ok q) (.ok { q with source := template' })
  | refused {e e' : SyntaxError} : e'.found = e.found → e'.expected = e.expected →
      SameOutcome template' (.error (.grammar e)) (.error (.grammar e'))

/-- Templates with the same lexemes compile to the same query, or do not for the same reason. -/
theorem sameOutcome_of_lexemes {template template' : String}
    (same : (Scan.ofTemplate template').lexemes = (Scan.ofTemplate template).lexemes) :
    SameOutcome template' (compile template) (compile template') := by
  have reason := Node.read_reason same
  rw [compile_eq, compile_eq]
  cases first : Node.read template with
  | ok tree =>
    rw [first] at reason
    cases second : Node.read template' with
    | ok tree' =>
      rw [second] at reason
      cases reason
      exact .compiled (ofTree template tree)
    | error e =>
      rw [second] at reason
      cases reason
  | error e =>
    rw [first] at reason
    cases second : Node.read template' with
    | ok tree' =>
      rw [second] at reason
      cases reason
    | error e' =>
      rw [second] at reason
      obtain ⟨found, expected⟩ := Prod.mk.inj (Except.error.inj reason)
      exact .refused found expected

/-- What a comment says never matters. With any other text in a comment that it can hold, a template
is cut into the same segments but for the comment itself, so that it has the same lexemes, and it
compiles to the same query or is refused for the same reason. -/
theorem compile_reworded {template : String} {gs rest : List Segment} {slice slice' : List Char}
    (cut : Segment.segments false template.toList = gs ++ ⟨.comment, slice⟩ :: rest)
    (re : Mark.Reworded slice slice') :
    template = Segment.joined (gs ++ ⟨.comment, slice⟩ :: rest) ∧
    ∃ template', template' = Segment.joined (gs ++ ⟨.comment, slice'⟩ :: rest) ∧
      Segment.segments false template'.toList = gs ++ ⟨.comment, slice'⟩ :: rest ∧
      (Scan.ofTemplate template').lexemes = (Scan.ofTemplate template).lexemes ∧
      SameOutcome template' (compile template) (compile template') := by
  have whole := Segment.flatMap_slice_segments false template.toList
  have recut : Segment.segments false (Segment.joined (gs ++ ⟨.comment, slice'⟩ :: rest)).toList =
      gs ++ ⟨.comment, slice'⟩ :: rest := by
    rw [Segment.joined, String.toList_ofList, List.flatMap_append, List.flatMap_cons]
    exact Segment.segments_reworded re cut
  have lexemes : (Scan.ofTemplate (Segment.joined (gs ++ ⟨.comment, slice'⟩ :: rest))).lexemes =
      (Scan.ofTemplate template).lexemes := by
    rw [Scan.ofTemplate, Scan.ofTemplate, cut, recut, Scan.lexemes_ofSegments_comment,
      Scan.lexemes_ofSegments_comment]
  refine ⟨?_, _, rfl, recut, lexemes, sameOutcome_of_lexemes lexemes⟩
  rw [Segment.joined, ← cut, whole, String.ofList_toList]

/-- A comment with a name in it, and another text for it that would begin a block comment. -/
theorem compile_reworded_line : ∃ gs rest,
    Segment.segments false "@b??c -- @d\n[".toList =
      gs ++ ⟨.comment, [' ', '-', '-', ' ', '@', 'd']⟩ :: rest ∧
    Mark.Reworded [' ', '-', '-', ' ', '@', 'd'] [' ', '-', '-', '/', '*', ']'] ∧
    ∃ template', template' = "@b??c --/*]\n[" ∧
      (Scan.ofTemplate template').lexemes = [.key "b", .fallback "c", .literal "\n["] ∧
      SameOutcome template' (compile "@b??c -- @d\n[") (compile template') := by
  have cut : Segment.segments false "@b??c -- @d\n[".toList =
      [⟨.lexeme (.key "b"), ['@', 'b']⟩, ⟨.lexeme (.fallback "c"), ['?', '?', 'c']⟩] ++
        ⟨.comment, [' ', '-', '-', ' ', '@', 'd']⟩ ::
          [⟨.lexeme (.literal "\n["), ['\n', '[']⟩] := by
    cbv
  have re : Mark.Reworded ([' '] ++ '-' :: '-' :: [' ', '@', 'd'])
      ([' '] ++ '-' :: '-' :: ['/', '*', ']']) :=
    .line (List.all_eq_true.mp (by decide)) (List.all_eq_true.mp (by decide)) (by decide)
  have lexemes : (Scan.ofTemplate "@b??c -- @d\n[").lexemes =
      [.key "b", .fallback "c", .literal "\n["] := by
    cbv
  obtain ⟨-, template', text, -, same, outcome⟩ := compile_reworded cut re
  exact ⟨_, _, cut, re, template', text, same.trans lexemes, outcome⟩

end Query

end SqlTemplate
