import SqlTemplate.Proofs.Token.Comments

/-!
# What a scan cannot see behind it

A scan tries its rules on the rest of a template, where they see no character before the rest. They
find the same there as they do with the character before the rest in sight, so nothing is lost by
the cut (`Scan.ofTemplate_lookBehind`).

A rule looks back for one thing only, the control character that it begins with itself. To lose
something, the same control character would have to stand on both sides of the cut.

* A mark that ends with such a character does not stand in front of another one
  (`Mark.Spelled.head?_ne`). A run, like a name or a line comment, goes on for as long as it can.
* Literal text may end with one. But it ends where a rule has found something with the last
  character of the text in sight, and no other rule finds anything there.

So a control character that makes a token has no other one beside it in the whole template.
-/

namespace SqlTemplate

open SqlTemplate.Text

namespace Mark

/-! ## Rules that look back -/

section Rules

variable {before : Option Char} {afterKey : Bool} {c d : Char} {s : List Char} {f : Found}

/-- The characters that a rule may look back for. -/
def sought : List Char := ['@', '}', ']', ';', '.']

theorem key?_some (h : c ∈ sought → s.head? ≠ some c) : key? (some c) s = key? none s := by
  unfold key?
  split
  · have other : c ≠ '@' := by
      rintro rfl
      exact h (by decide) rfl
    simp [other]
  · rfl

theorem alone?_some {count : Nat} (pos : 0 < count) (hd : d ∈ sought)
    (h : c ∈ sought → s.head? ≠ some c) : alone? d count (some c) s = alone? d count none s := by
  simp only [alone?]
  refine if_congr (and_congr_right fun taken => and_congr_right fun _ => ?_) rfl rfl
  refine iff_of_true ?_ fun looked => (Option.some_ne_none _).symm looked.2
  rintro ⟨noBlanks, same⟩
  obtain rfl := Option.some.inj same
  -- the text would begin with the character that stands before it
  rw [noBlanks, List.drop_zero] at taken
  obtain ⟨more, rfl⟩ := Nat.exists_eq_add_of_lt pos
  cases s with
  | nil => cases taken
  | cons e rest => exact h hd (congrArg some (List.cons.inj taken).1)

/-- A rule finds the same with a character before the text as it finds without, unless the text
begins with the character, and that is one that rules look back for. -/
theorem Rule.find?_some (h : c ∈ sought → s.head? ≠ some c) (r : Rule) :
    r.find? (some c) afterKey s = r.find? none afterKey s := by
  cases r <;> simp only [find?]
  case key => exact key?_some h
  case blockClose => rw [alone?_some Nat.one_pos (by decide) h]
  case listClose => rw [alone?_some Nat.one_pos (by decide) h]
  case separator => rw [alone?_some Nat.one_pos (by decide) h]
  case spread => rw [alone?_some (by decide) (by decide) h]

/-- What a rule finds where no fallback can stand, it finds behind a key too. -/
theorem Rule.find?_afterKey {r : Rule} (h : r.find? before false s = some f) :
    r.find? before afterKey s = some f := by
  cases r <;> first | exact h | cases h

/-- Where a mark stands behind a character and not behind a key, all rules find the same with the
character in sight as without. -/
theorem Rule.find?_eq_of_at? (h : at? before false s = some f) (r : Rule) :
    r.find? before afterKey s = r.find? none afterKey s := by
  obtain ⟨r', here⟩ := exists_rule_of_at? h
  have here : r'.find? before afterKey s = some f := Rule.find?_afterKey here
  by_cases same : r = r'
  · rw [same, here, Rule.find?_of_before here]
  · -- another rule finds nothing, with the character in sight or without
    have nothing : ∀ before', r.find? before' afterKey s = none := fun before' =>
      Option.eq_none_iff_forall_ne_some.mpr fun f' there => same (Rule.eq_of_find? there here)
    rw [nothing, nothing]

theorem exists_name_of_key? (h : key? before s = some f) :
    ∃ name, f.mark = .lexeme (.key name) := by
  unfold key? at h
  split at h
  · dsimp only at h
    split at h <;> cases h
    exact ⟨_, rfl⟩
  · cases h

theorem exists_word_of_fallback? (h : fallback? s = some f) :
    ∃ word, f.mark = .lexeme (.fallback word) := by
  unfold fallback? at h
  split at h
  · dsimp only at h
    split at h <;> cases h
    exact ⟨_, rfl⟩
  · cases h

/-- No rule finds literal text. -/
theorem Rule.mark_ne_literal {r : Rule} (h : r.find? before afterKey s = some f) (text : String) :
    f.mark ≠ .lexeme (.literal text) := by
  intro mark
  cases r <;> simp only [Rule.find?, Option.map_eq_some_iff] at h
  case key =>
    obtain ⟨name, same⟩ := exists_name_of_key? h
    cases same.symm.trans mark
  case fallback =>
    split at h
    · obtain ⟨word, same⟩ := exists_word_of_fallback? h
      cases same.symm.trans mark
    · cases h
  all_goals
    obtain ⟨n, -, rfl⟩ := h
    cases mark

end Rules

/-! ## What a mark ends with -/

section Ends

variable {p : Char → Bool} {c d : Char} {count : Nat} {slice behind : List Char}

/-- Behind a run there is no other character of its kind, so none that it ends with. -/
theorem IsRun.head?_ne (h : IsRun p slice behind) (last : slice.getLast? = some c) :
    behind.head? ≠ some c := by
  intro next
  have same := h.longest c next
  rw [h.all c (List.mem_of_getLast? last)] at same
  cases same

/-- Behind a run with something before it, there is no character that the two of them end with,
if there is none behind what is before the run. -/
theorem IsRun.head?_ne_append {front run : List Char} (h : IsRun p run behind)
    (empty : run = [] → front.getLast? = some c → behind.head? ≠ some c)
    (last : (front ++ run).getLast? = some c) : behind.head? ≠ some c := by
  rcases run.eq_nil_or_concat' with rfl | ⟨more, e, rfl⟩
  · exact empty rfl (by simpa using last)
  · refine h.head?_ne ?_
    rwa [← List.append_assoc, List.getLast?_concat, ← List.getLast?_concat] at last

theorem Alone.getLast? (h : Alone d count slice behind) (pos : 0 < count) :
    slice.getLast? = some d := by
  obtain ⟨-, -⟩ := h
  obtain ⟨more, rfl⟩ := Nat.exists_eq_add_of_lt pos
  rw [List.replicate_succ', ← List.append_assoc, List.getLast?_concat]

theorem Alone.head?_ne (h : Alone d count slice behind) (pos : 0 < count)
    (last : slice.getLast? = some c) : behind.head? ≠ some c := by
  rw [h.getLast? pos] at last
  obtain rfl := Option.some.inj last
  obtain ⟨-, single⟩ := h
  exact single

theorem Blanked.ne_nil (h : Blanked d count slice behind) (pos : 0 < count) : slice ≠ [] := by
  obtain ⟨alone, -⟩ := h
  refine List.append_ne_nil_of_left_ne_nil ?_ _
  rintro rfl
  cases alone.getLast? pos

theorem Blanked.head?_ne (h : Blanked d count slice behind) (pos : 0 < count)
    (last : slice.getLast? = some c) : behind.head? ≠ some c := by
  obtain ⟨alone, run⟩ := h
  refine run.head?_ne_append ?_ last
  rintro rfl
  exact alone.head?_ne pos

theorem Block.head?_ne (h : Block d slice behind) (last : slice.getLast? = some c) :
    behind.head? ≠ some c := by
  obtain ⟨-, blanked⟩ := h
  have filled := blanked.ne_nil Nat.one_pos
  rw [List.getLast?_append_of_ne_nil _ (List.cons_ne_nil _ _),
    List.getLast?_cons_of_ne_nil filled] at last
  exact blanked.head?_ne Nat.one_pos last

/-- A mark that ends with a character which rules look back for does not stand in front of the same
character. -/
theorem Spelled.head?_ne {mark : Mark} (h : Spelled mark slice behind)
    (notLiteral : ∀ text, mark ≠ .lexeme (.literal text)) (looked : c ∈ sought)
    (last : slice.getLast? = some c) : behind.head? ≠ some c := by
  cases h with
  | literal text => exact absurd rfl (notLiteral _)
  | key named run =>
    rw [List.getLast?_cons_of_ne_nil named] at last
    exact run.head?_ne last
  | fallback filled run =>
    rw [List.getLast?_cons_of_ne_nil (List.cons_ne_nil _ _),
      List.getLast?_cons_of_ne_nil filled] at last
    exact run.head?_ne last
  | conditionalOpen block => exact block.head?_ne last
  | elseOpen block => exact block.head?_ne last
  | blockClose alone => exact alone.head?_ne Nat.one_pos last
  | @listOpen _ slice _ blanked =>
    have filled := blanked.ne_nil Nat.one_pos
    have last : slice.getLast? = some c := by
      rwa [List.getLast?_cons_of_ne_nil (List.cons_ne_nil _ _),
        List.getLast?_cons_of_ne_nil (List.cons_ne_nil _ _),
        List.getLast?_cons_of_ne_nil filled] at last
    exact blanked.head?_ne Nat.one_pos last
  | listClose alone => exact alone.head?_ne Nat.one_pos last
  | separator blanked => exact blanked.head?_ne Nat.one_pos last
  | spread blanked => exact blanked.head?_ne (by decide) last
  | @lineComment front text _ _ run =>
    rw [show front ++ '-' :: '-' :: text = front ++ ['-', '-'] ++ text by simp] at last
    refine run.head?_ne_append ?_ last
    -- a comment without text ends with a hyphen, which no rule looks back for
    rintro - hyphen
    rw [List.getLast?_append_of_ne_nil _ (List.cons_ne_nil _ _)] at hyphen
    obtain rfl := Option.some.inj hyphen
    exact absurd looked (by decide)
  | @blockComment text =>
    rw [List.getLast?_append_of_ne_nil _ (List.cons_ne_nil _ _)] at last
    obtain rfl := Option.some.inj last
    exact absurd looked (by decide)

end Ends
end Mark

namespace Segment

variable {afterKey : Bool} {s t : List Char} {g : Segment} {gs rest : List Segment}

/-! ## The character before a cut -/

/-- Literal text ends where it is cut. -/
theorem endsLiteral_of_literalLength {lit : List Char} {c last : Char}
    (h : literalLength c (lit ++ t) = lit.length) (isLast : (c :: lit).getLast? = some last) :
    endsLiteral last t = true := by
  induction lit generalizing c with
  | nil =>
    obtain rfl : c = last := Option.some.inj isLast
    cases t with
    | nil => rfl
    | cons d more =>
      by_contra other
      rw [List.nil_append, literalLength, if_neg other] at h
      cases h
  | cons d lit ih =>
    rw [List.cons_append, literalLength] at h
    split at h
    · cases h
    · exact ih (Nat.succ.inj h) isLast

/-- Behind a segment, the rules find the same with the segment's last character in sight as they do
without. -/
theorem Leads.find?_behind (h : Leads afterKey g t) (afterKey' : Bool) (r : Mark.Rule) :
    r.find? g.slice.getLast? afterKey' t = r.find? none afterKey' t := by
  obtain ⟨last, isLast⟩ : ∃ last, g.slice.getLast? = some last :=
    ⟨_, List.getLast?_eq_some_getLast h.ne_nil⟩
  cases found : Mark.at? none afterKey (g.slice ++ t) with
  | some f =>
    obtain rfl := h.eq_of_at? found
    obtain ⟨r', here⟩ := Mark.exists_rule_of_at? found
    rw [isLast]
    exact Mark.Rule.find?_some
      (fun looked => h.spelled.head?_ne (Mark.Rule.mark_ne_literal here) looked isLast) r
  | none =>
    obtain ⟨c, lit, rfl, length⟩ := h.literal found
    have ends := endsLiteral_of_literalLength length isLast
    rw [isLast]
    cases t with
    | nil =>
      refine Mark.Rule.find?_some (fun _ => ?_) r
      exact (Option.some_ne_none last).symm
    | cons d more =>
      obtain ⟨-, f, stands⟩ := endsLiteral_cons_iff.mp ends
      exact Mark.Rule.find?_eq_of_at? stands r

/-- Behind the segments of a text up to a cut, the rules find the same with the character before the
cut in sight as they do without. -/
theorem find?_behind (h : segments afterKey s = gs ++ rest) (afterKey' : Bool) (r : Mark.Rule) :
    r.find? (gs.flatMap slice).getLast? afterKey' (rest.flatMap slice) =
      r.find? none afterKey' (rest.flatMap slice) := by
  rcases gs.eq_nil_or_concat' with rfl | ⟨earlier, g, rfl⟩
  · rfl
  · rw [List.append_assoc] at h
    obtain ⟨_, leads⟩ := exists_leads h
    rw [List.flatMap_append, List.flatMap_singleton,
      List.getLast?_append_of_ne_nil _ leads.ne_nil]
    exact leads.find?_behind afterKey' r

end Segment

/-! ## Control characters -/

/-- The control character that a lexeme is told by, and how often it stands there in a row. The
opening of a conditional or a list is told by the brace or the bracket at its end. -/
def Lexeme.control? : Lexeme → Option (Char × Nat)
  | .literal _ => none
  | .key _ => some ('@', 1)
  | .fallback _ => none
  | .conditionalOpen => some ('{', 1)
  | .elseOpen => some ('{', 1)
  | .blockClose => some ('}', 1)
  | .listOpen _ => some ('[', 1)
  | .listClose => some (']', 1)
  | .separator => some (';', 1)
  | .spread => some ('.', 3)

namespace Mark

section Controls

variable {c d : Char} {count : Nat} {slice behind : List Char}

/-- A character stands in a slice in one row of so many, and not behind the row. -/
def OneRow (c : Char) (count : Nat) (slice behind : List Char) : Prop :=
  ∃ inner outer, slice = inner ++ List.replicate count c ++ outer ∧ c ∉ inner ∧ c ∉ outer ∧
    (outer ++ behind).head? ≠ some c

theorem not_mem_blanks {front : List Char} (hc : isAsciiBlank c = false)
    (blank : ∀ b ∈ front, isAsciiBlank b = true) : c ∉ front := by
  intro mem
  rw [blank c mem] at hc
  cases hc

theorem OneRow.append_front (h : OneRow c count slice behind) {front : List Char}
    (hc : c ∉ front) : OneRow c count (front ++ slice) behind := by
  obtain ⟨inner, outer, rfl, inFront, atBack, ends⟩ := h
  refine ⟨front ++ inner, outer, by simp, ?_, atBack, ends⟩
  rw [List.mem_append, not_or]
  exact ⟨hc, inFront⟩

theorem Alone.oneRow (hc : isAsciiBlank c = false) (h : Alone c count slice behind) :
    OneRow c count slice behind := by
  obtain ⟨blank, single⟩ := h
  exact ⟨_, [], (List.append_nil _).symm, not_mem_blanks hc blank, List.not_mem_nil, single⟩

theorem Blanked.oneRow (hc : isAsciiBlank c = false) (h : Blanked c count slice behind) :
    OneRow c count slice behind := by
  obtain ⟨alone, run⟩ := h
  rename_i slice back
  obtain ⟨inner, outer, rfl, inFront, atBack, ends⟩ := alone.oneRow hc
  refine ⟨inner, outer ++ back, by simp, inFront, ?_, by rwa [List.append_assoc]⟩
  rw [List.mem_append, not_or]
  exact ⟨atBack, not_mem_blanks hc run.all⟩

theorem Block.oneRow (hd : '{' ≠ d) (h : Block d slice behind) : OneRow '{' 1 slice behind := by
  obtain ⟨blank, blanked⟩ := h
  rename_i front slice
  rw [List.append_cons]
  refine (blanked.oneRow (by decide)).append_front ?_
  rw [List.mem_append, not_or, List.mem_singleton]
  exact ⟨not_mem_blanks (by decide) blank, hd⟩

/-- The control character of a lexeme stands in the slice in one row. -/
theorem Spelled.oneRow {l : Lexeme} (h : Spelled (.lexeme l) slice behind)
    (control : l.control? = some (c, count)) : OneRow c count slice behind := by
  cases h <;> cases control
  case key name named run =>
    have other : '@' ∉ name := fun mem => absurd (run.all _ mem) (by decide)
    refine ⟨[], name, rfl, List.not_mem_nil, other, ?_⟩
    rw [List.head?_append_of_ne_nil _ named]
    exact fun first => other (List.mem_of_head? first)
  case conditionalOpen block => exact block.oneRow (by decide)
  case elseOpen block => exact block.oneRow (by decide)
  case blockClose alone => exact alone.oneRow (by decide)
  case listOpen delimiter slice blanked =>
    have other : '[' ∉ ['(', listSign delimiter, ')'] := by cases delimiter <;> decide
    exact (blanked.oneRow (by decide)).append_front other
  case listClose alone => exact alone.oneRow (by decide)
  case separator blanked => exact blanked.oneRow (by decide)
  case spread blanked => exact blanked.oneRow (by decide)

/-- What stands alone does not stand behind its like. -/
theorem alone?_cons_eq_none (hc : isAsciiBlank c = false) (rest : List Char) :
    alone? c count (some c) (c :: rest) = none :=
  if_neg fun found => found.2.2 ⟨blanks_cons_of_neg hc rest, rfl⟩

theorem not_isAsciiBlank_of_control? {l : Lexeme} (control : l.control? = some (c, count)) :
    isAsciiBlank c = false := by
  cases l <;> cases control <;> decide

/-- Where a rule finds a lexeme, the text does not begin with the control character of the lexeme if
that stands before the text too. -/
theorem Rule.head?_ne {r : Rule} {afterKey : Bool} {s : List Char} {f : Found} {l : Lexeme}
    (h : r.find? (some c) afterKey s = some f) (mark : f.mark = .lexeme l)
    (control : l.control? = some (c, count)) : s.head? ≠ some c := by
  intro first
  obtain ⟨rest, rfl⟩ := List.head?_eq_some_iff.mp first
  have blank := not_isAsciiBlank_of_control? control
  have opening := Rule.opening_isPrefix h
  rw [drop_blanks_cons blank] at opening
  cases r <;> simp only [Rule.find?, Option.map_eq_some_iff] at h
  case key =>
    obtain ⟨rfl, -⟩ := List.cons_prefix_cons.mp opening
    simp [key?] at h
  case fallback =>
    obtain ⟨rfl, -⟩ := List.cons_prefix_cons.mp opening
    cases l <;> cases control
  all_goals
    obtain ⟨n, found, rfl⟩ := h
    cases mark <;> cases control
  -- an opening begins with another character than the one that it ends with
  case conditionalOpen => cases (List.cons_prefix_cons.mp opening).1
  case elseOpen => cases (List.cons_prefix_cons.mp opening).1
  case listOpen => cases (List.cons_prefix_cons.mp opening).1
  all_goals cases (alone?_cons_eq_none blank rest).symm.trans found

end Controls

end Mark

/-! ## Tokens in a template -/

namespace Scan

/-- Each token of a scan is one of its segments. -/
theorem exists_segment_of_mem {offset : Nat} {gs : List Segment} {t : Token}
    (mem : t ∈ (ofSegments offset gs).tokens) :
    ∃ before g behind, gs = before ++ g :: behind ∧ g.mark = .lexeme t.lexeme ∧
      t.offset = offset + width (before.flatMap Segment.slice) ∧ t.length = width g.slice := by
  induction gs generalizing offset with
  | nil => cases mem
  | cons g gs ih =>
    have later : t ∈ (ofSegments (offset + width g.slice) gs).tokens →
        ∃ before g' behind, g :: gs = before ++ g' :: behind ∧ g'.mark = .lexeme t.lexeme ∧
          t.offset = offset + width (before.flatMap Segment.slice) ∧
          t.length = width g'.slice := by
      intro mem
      obtain ⟨before, g', behind, rfl, mark, there, length⟩ := ih mem
      refine ⟨g :: before, g', behind, rfl, mark, ?_, length⟩
      rw [there, List.flatMap_cons, width_append, Nat.add_assoc]
    obtain ⟨mark, slice⟩ := g
    cases mark with
    | comment => exact later mem
    | lexeme l =>
      rcases List.mem_cons.mp mem with rfl | mem
      · exact ⟨[], _, gs, rfl, rfl, rfl, rfl⟩
      · exact later mem

end Scan

namespace Segment

variable {afterKey : Bool} {s : List Char} {g : Segment} {gs rest : List Segment} {l : Lexeme}
  {c : Char} {count : Nat}

/-- A segment that has a control character stands there with the character before it in sight. -/
theorem exists_rule_behind (h : segments afterKey s = gs ++ g :: rest) (mark : g.mark = .lexeme l)
    (control : l.control? = some (c, count)) :
    ∃ (r : Mark.Rule) (afterKey' : Bool) (f : Mark.Found),
      r.find? (gs.flatMap slice).getLast? afterKey' (g.slice ++ rest.flatMap slice) = some f ∧
      f.mark = .lexeme l := by
  obtain ⟨afterKey', leads⟩ := exists_leads h
  cases found : Mark.at? none afterKey' (g.slice ++ rest.flatMap slice) with
  | some f =>
    obtain rfl := leads.eq_of_at? found
    obtain ⟨r, here⟩ := Mark.exists_rule_of_at? found
    rw [← List.flatMap_cons, ← find?_behind h, List.flatMap_cons] at here
    exact ⟨r, afterKey', _, here, mark⟩
  | none =>
    obtain ⟨_, _, rfl, -⟩ := leads.literal found
    cases mark
    cases control

/-- The control character of a segment stands in its slice in one row, and not beside the row in the
whole text. -/
theorem exists_control (h : segments afterKey s = gs ++ g :: rest) (mark : g.mark = .lexeme l)
    (control : l.control? = some (c, count)) :
    ∃ inner outer, g.slice = inner ++ List.replicate count c ++ outer ∧ c ∉ inner ∧ c ∉ outer ∧
      (gs.flatMap slice ++ inner).getLast? ≠ some c ∧
      (outer ++ rest.flatMap slice).head? ≠ some c := by
  have spelled := spelled_of_segments h
  rw [mark] at spelled
  obtain ⟨inner, outer, whole, inFront, atBack, ends⟩ := spelled.oneRow control
  refine ⟨inner, outer, whole, inFront, atBack, ?_, ends⟩
  rcases inner.eq_nil_or_concat' with rfl | ⟨more, d, rfl⟩
  · obtain ⟨r, afterKey', f, found, same⟩ := exists_rule_behind h mark control
    rw [List.append_nil]
    intro last
    rw [last] at found
    refine Mark.Rule.head?_ne found same control ?_
    rw [whole]
    cases l <;> cases control <;> rfl
  · rw [← List.append_assoc, List.getLast?_concat]
    rintro ⟨⟩
    exact inFront (List.mem_append_right _ (List.mem_singleton_self c))

end Segment

namespace Scan

/-- At every place that a scan reaches, each rule finds in the rest of the template what it finds
there with the character before the rest in sight. So the control character of a token stands in the
token's slice in one row, and not beside the row in the whole template. -/
theorem ofTemplate_lookBehind (template : String) :
    (∀ place ∈ reached template, ∃ before behind : String, template = before ++ behind ∧
      place = before.utf8ByteSize ∧ ∀ afterKey,
        (∀ r : Mark.Rule, r.find? none afterKey behind.toList =
          r.find? before.toList.getLast? afterKey behind.toList) ∧
        Mark.at? none afterKey behind.toList =
          Mark.at? before.toList.getLast? afterKey behind.toList) ∧
    ∀ t ∈ (ofTemplate template).tokens, ∀ c count, t.lexeme.control? = some (c, count) →
      ∃ before inner outer behind : List Char,
        template.toList = before ++ (inner ++ List.replicate count c ++ outer) ++ behind ∧
        t.offset = width before ∧ t.length = width (inner ++ List.replicate count c ++ outer) ∧
        c ∉ inner ∧ c ∉ outer ∧ (before ++ inner).getLast? ≠ some c ∧
        (outer ++ behind).head? ≠ some c := by
  have tiled := Segment.flatMap_slice_segments false template.toList
  constructor
  · intro place mem
    obtain ⟨front, rest, cut, rfl⟩ := Segment.exists_append_of_mem_places mem
    have same := fun afterKey r => (Segment.find?_behind cut afterKey r).symm
    rw [cut, List.flatMap_append] at tiled
    refine ⟨String.ofList (front.flatMap Segment.slice),
      String.ofList (rest.flatMap Segment.slice), ?_, ?_, ?_⟩
    · rw [← String.ofList_append, tiled, String.ofList_toList]
    · rw [utf8ByteSize_ofList, Nat.zero_add]
    · intro afterKey
      rw [String.toList_ofList, String.toList_ofList]
      exact ⟨same afterKey, congrArg (List.findSome? · Mark.Rule.all) (funext (same afterKey))⟩
  · intro t mem c count control
    obtain ⟨gs, g, rest, cut, mark, offset, length⟩ := exists_segment_of_mem mem
    obtain ⟨inner, outer, whole, sides⟩ := Segment.exists_control cut mark control
    refine ⟨gs.flatMap Segment.slice, inner, outer, rest.flatMap Segment.slice, ?_, ?_, ?_, sides⟩
    · rw [← whole, ← tiled, cut]
      simp
    · rw [offset, Nat.zero_add]
    · rw [length, whole]

/-- A bracket behind a key, in a template that has two side by side elsewhere. -/
theorem ofTemplate_lookBehind_doubled :
    (∃ before behind : String, "]]@a]" = before ++ behind ∧ 4 = before.utf8ByteSize ∧
      Mark.at? none true behind.toList = Mark.at? before.toList.getLast? true behind.toList) ∧
    ⟨.listClose, 4, 1⟩ ∈ (ofTemplate "]]@a]").tokens ∧
    Lexeme.control? .listClose = some (']', 1) ∧
    ∃ before inner outer behind : List Char,
      "]]@a]".toList = before ++ (inner ++ [']'] ++ outer) ++ behind ∧ 4 = width before ∧
      (before ++ inner).getLast? ≠ some ']' ∧ (outer ++ behind).head? ≠ some ']' := by
  have tokens : (ofTemplate "]]@a]").tokens =
      [⟨.literal "]]", 0, 2⟩, ⟨.key "a", 2, 2⟩, ⟨.listClose, 4, 1⟩] := by
    cbv
  have places : reached "]]@a]" = [0, 2, 4, 5] := by
    cbv
  have mem : ⟨.listClose, 4, 1⟩ ∈ (ofTemplate "]]@a]").tokens := by
    rw [tokens]
    decide
  have here : 4 ∈ reached "]]@a]" := by
    rw [places]
    decide
  obtain ⟨cut, controls⟩ := ofTemplate_lookBehind "]]@a]"
  obtain ⟨before, behind, text, width, same⟩ := cut 4 here
  obtain ⟨front, inner, outer, rest, whole, offset, -, -, -, sides⟩ := controls _ mem _ _ rfl
  exact ⟨⟨before, behind, text, width, (same true).2⟩, mem, rfl, front, inner, outer, rest, whole,
    offset, sides⟩

end Scan

end SqlTemplate
