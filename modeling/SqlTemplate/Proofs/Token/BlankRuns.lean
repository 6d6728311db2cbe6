import Mathlib.Order.Bounds.Basic
import SqlTemplate.Proofs.Token.Bytes

/-!
# Passing over runs of blanks

The search for the end of literal text passes over the blanks that continue a run. A *plain* search
tries every place, and it comes to the same end (`Segment.literalLength_eq`). So a scan gives the
tokens that a plain scan gives (`Scan.ofTemplate_plain`).

A mark that stands in front of a blank begins with blanks, which its rule passes over before it
looks at anything else. So the mark stands at the blank before as well
(`Mark.isSome_at?_cons_blank`), and where no mark stands at the first blank of a run, none stands at
the others. The run in front of the text is no exception: no mark stands there, or there would be no
literal text.

The same holds for bytes, whether they are UTF-8 or not (`Bytes.isLeast_literalEnd`): each byte can
be read as the character of its number.
-/

namespace SqlTemplate

open SqlTemplate.Text

namespace Mark

/-! ## Marks in a run of blanks -/

/-- Whether a rule passes over blanks before it looks at anything else. -/
def Rule.passesBlanks : Rule → Bool
  | .conditionalOpen => true
  | .elseOpen => true
  | .blockClose => true
  | .listClose => true
  | .separator => true
  | .spread => true
  | .lineComment => true
  | _ => false

section Blanks

variable {before before' : Option Char} {afterKey afterKey' : Bool} {b c : Char} {s : List Char}
  {r : Rule}

theorem isSome_blockOpen?_cons {sign : Char} (hb : isAsciiBlank b = true)
    (h : (blockOpen? sign s).isSome) : (blockOpen? sign (b :: s)).isSome := by
  simp only [blockOpen?, blanks_cons_of_pos hb, List.drop_succ_cons] at h ⊢
  split at h
  · split at h
    · rename_i same
      rw [if_pos same]
      rwa [Option.isSome_map] at h ⊢
    · cases h
  · cases h

/-- Behind a blank, the character before the blank does not matter. -/
theorem isSome_alone?_cons {count : Nat} (hb : isAsciiBlank b = true)
    (h : (alone? c count before s).isSome) : (alone? c count before' (b :: s)).isSome := by
  simp only [alone?, blanks_cons_of_pos hb, List.drop_succ_cons] at h ⊢
  split at h
  · rename_i found
    rw [if_pos ⟨found.1, found.2.1, fun looked => Nat.succ_ne_zero _ looked.1⟩]
    rfl
  · cases h

theorem isSome_lineComment?_cons (hb : isAsciiBlank b = true) (h : (lineComment? s).isSome) :
    (lineComment? (b :: s)).isSome := by
  simp only [lineComment?, blanks_cons_of_pos hb, List.drop_succ_cons] at h ⊢
  split at h
  · rfl
  · cases h

/-- What a rule finds that passes over blanks, it finds from the blank before as well. -/
theorem Rule.isSome_find?_cons (passes : r.passesBlanks = true) (hb : isAsciiBlank b = true)
    (h : (r.find? before afterKey s).isSome) : (r.find? before' afterKey' (b :: s)).isSome := by
  cases r <;> simp only [Rule.find?, Option.isSome_map] at h ⊢
  case conditionalOpen => exact isSome_blockOpen?_cons hb h
  case elseOpen => exact isSome_blockOpen?_cons hb h
  case blockClose => exact isSome_alone?_cons hb h
  case listClose => exact isSome_alone?_cons hb h
  case separator => exact isSome_alone?_cons hb h
  case spread => exact isSome_alone?_cons hb h
  case lineComment => exact isSome_lineComment?_cons hb h
  all_goals cases passes

/-- A rule that does not pass over blanks finds nothing at a blank. -/
theorem Rule.passesBlanks_of_blank (hc : isAsciiBlank c = true)
    (h : (r.find? before false (c :: s)).isSome) : r.passesBlanks = true := by
  have other : ∀ d, isAsciiBlank d = false → c ≠ d := by
    rintro d hd rfl
    rw [hc] at hd
    cases hd
  cases r <;> simp only [Rule.find?, Option.isSome_map] at h
  case key => simp [key?, other '@' (by decide)] at h
  case fallback => cases h
  case listOpen => simp [listOpen?, other '(' (by decide)] at h
  case blockComment => simp [blockComment?, other '/' (by decide)] at h
  all_goals rfl

/-- Where a mark stands at a blank behind another one, a mark stands at that one too. -/
theorem isSome_at?_cons_blank (hb : isAsciiBlank b = true) (hc : isAsciiBlank c = true)
    (h : (at? before false (c :: s)).isSome) : (at? before' afterKey (b :: c :: s)).isSome := by
  rw [at?, List.findSome?_isSome_iff] at h ⊢
  obtain ⟨r, mem, found⟩ := h
  exact ⟨r, mem, Rule.isSome_find?_cons (Rule.passesBlanks_of_blank hc found) hb found⟩

end Blanks

end Mark

namespace Segment

/-! ## The plain search -/

/-- The number of characters that literal text has behind its character `before` if it ends at the
first place where a mark stands. -/
def plainLength (before : Char) : List Char → Nat
  | [] => 0
  | c :: rest =>
    if (Mark.at? (some before) false (c :: rest)).isSome then 0 else plainLength c rest + 1

/-- The places where literal text in front of a text can end: the end of the text, and each place
behind the first character where a mark stands. -/
def endings (s : List Char) : Set Nat :=
  {i | 1 ≤ i ∧ (i = s.length ∨ (Mark.at? s[i - 1]? false (s.drop i)).isSome)}

/-- Behind its second character, a text has the endings that it has without its first one. -/
theorem add_two_mem_endings_iff {c d : Char} {rest : List Char} {i : Nat} :
    i + 2 ∈ endings (c :: d :: rest) ↔ i + 1 ∈ endings (d :: rest) := by
  simp [endings]

/-- The plain search finds the first ending. -/
theorem isLeast_endings (c : Char) (rest : List Char) :
    IsLeast (endings (c :: rest)) (plainLength c rest + 1) := by
  induction rest generalizing c with
  | nil => exact ⟨⟨Nat.le_refl 1, .inl rfl⟩, fun i least => least.1⟩
  | cons d rest ih =>
    rw [plainLength]
    split
    · rename_i stands
      exact ⟨⟨Nat.le_refl 1, .inr stands⟩, fun i least => least.1⟩
    · rename_i nothing
      obtain ⟨here, first⟩ := ih d
      refine ⟨add_two_mem_endings_iff.mpr here, fun i ends => ?_⟩
      rcases i with _ | _ | i
      · cases ends.1
      · -- the text does not end behind its first character, and no mark stands there
        rcases ends.2 with short | stands
        · cases short
        · exact absurd stands nothing
      · exact Nat.succ_le_succ (first (add_two_mem_endings_iff.mp ends))

/-- Where no mark stands in front of a text, the search that passes over the blanks in a run and the
plain one come to the same end. -/
theorem literalLength_eq {before' : Option Char} {afterKey : Bool} {before : Char} {s : List Char}
    (h : Mark.at? before' afterKey (before :: s) = none) :
    literalLength before s = plainLength before s := by
  induction s generalizing before' afterKey before with
  | nil => rfl
  | cons c rest ih =>
    have ends : endsLiteral before (c :: rest) =
        (Mark.at? (some before) false (c :: rest)).isSome := by
      rw [endsLiteral]
      cases inRun : isAsciiBlank before && isAsciiBlank c with
      | false => rfl
      | true =>
        -- a mark at this blank would stand at the one before it too
        obtain ⟨hb, hc⟩ := Bool.and_eq_true_iff.mp inRun
        rw [Bool.not_true, Bool.false_and, eq_comm, ← Bool.not_eq_true]
        intro stands
        have earlier : (Mark.at? before' afterKey (before :: c :: rest)).isSome :=
          Mark.isSome_at?_cons_blank hb hc stands
        rw [h] at earlier
        cases earlier
    rw [literalLength, plainLength, ends]
    cases found : Mark.at? (some before) false (c :: rest) with
    | some f => rfl
    | none => exact congrArg Nat.succ (ih found)

end Segment

/-! ## Bytes -/

namespace Bytes

/-- The places where literal text in front of bytes can end: their end, and each place behind the
first byte where a mark stands. -/
def endings (s : List UInt8) : Set Nat :=
  {i | 1 ≤ i ∧ (i = s.length ∨ (matchAt s i false).isSome)}

/-- Bytes have the endings of the characters of their numbers. -/
theorem mem_endings_iff {s : List UInt8} {i : Nat} (inside : i ≤ s.length) :
    i ∈ endings s ↔ i ∈ Segment.endings (s.map Char.ofUInt8) := by
  refine and_congr_right fun pos => or_congr (by rw [List.length_map]) ?_
  have stands := Encoding.latin_stands inside
  have before : ((s.take i).map Char.ofUInt8).getLast? = (s.map Char.ofUInt8)[i - 1]? := by
    rw [List.map_take, List.getLast?_take, if_neg (by omega),
      List.getElem?_eq_getElem (by rw [List.length_map]; omega), Option.some_or]
  rw [stands.matchAt_eq, Option.isSome_map, Bool.false_and, before, List.map_drop]

/-- Literal text in front of bytes ends at the first of all places where it can. -/
theorem isLeast_literalEnd {s : List UInt8} (filled : s ≠ []) {afterKey : Bool}
    (nothing : matchAt s 0 afterKey = none) : IsLeast (endings s) (literalEnd s) := by
  obtain ⟨b, bytes, rfl⟩ := List.exists_cons_of_ne_nil filled
  have start := Encoding.latin_stands (Nat.zero_le (b :: bytes).length)
  rw [start.matchAt_eq, Option.map_eq_none_iff] at nothing
  -- each character is one byte
  have size : ∀ n ≤ (b :: bytes).length,
      Encoding.latin.size ((b :: bytes).map Char.ofUInt8) n = n := by
    intro n inside
    rw [Encoding.size, ← List.map_take, Encoding.latin_encode_map, List.length_take,
      Nat.min_eq_left inside]
  have short := Segment.literalLength_le (Char.ofUInt8 b) (bytes.map Char.ofUInt8)
  rw [List.length_map] at short
  have place : literalEnd (b :: bytes) =
      Segment.literalLength (Char.ofUInt8 b) (bytes.map Char.ofUInt8) + 1 := by
    rw [← Encoding.latin_encode_map (b :: bytes), List.map_cons, literalEnd_encode,
      ← List.map_cons, size _ (Nat.succ_le_succ short)]
  obtain ⟨ends, first⟩ := Segment.isLeast_endings (Char.ofUInt8 b) (bytes.map Char.ofUInt8)
  rw [← Segment.literalLength_eq nothing, ← place] at ends first
  refine ⟨(mem_endings_iff (place ▸ Nat.succ_le_succ short)).mpr ends, fun i other => ?_⟩
  by_cases inside : i ≤ (b :: bytes).length
  · exact first ((mem_endings_iff inside).mp other)
  · exact Nat.le_trans (place ▸ Nat.succ_le_succ short) (Nat.le_of_not_le inside)

end Bytes

namespace Segment

/-! ## The plain scan -/

/-- What stands in front of the text `c :: rest`, where the end of literal text is searched for at
every place. -/
def plainFront (afterKey : Bool) (c : Char) (rest : List Char) : Mark.Found :=
  match Mark.at? none afterKey (c :: rest) with
  | some found => found
  | none =>
    let n := plainLength c rest
    ⟨.lexeme (.literal (String.ofList (c :: rest.take n))), n + 1⟩

theorem front_eq_plainFront (afterKey : Bool) (c : Char) (rest : List Char) :
    front afterKey c rest = plainFront afterKey c rest := by
  rw [front, plainFront]
  cases found : Mark.at? none afterKey (c :: rest) with
  | some f => rfl
  | none =>
    dsimp only
    rw [literalLength_eq found]

/-- The segments of a text, where the end of literal text is searched for at every place. -/
def plainSegments (afterKey : Bool) : List Char → List Segment
  | [] => []
  | c :: rest =>
    let found := plainFront afterKey c rest
    ⟨found.mark, (c :: rest).take found.length⟩ ::
      plainSegments (keyBefore afterKey found.mark) ((c :: rest).drop found.length)
termination_by s => s.length
decreasing_by
  have := length_pos_front afterKey c rest
  rw [front_eq_plainFront] at this
  simp only [List.length_drop, List.length_cons]
  omega

theorem segments_eq_plainSegments (afterKey : Bool) (s : List Char) :
    segments afterKey s = plainSegments afterKey s := by
  fun_induction plainSegments afterKey s with
  | case1 => exact segments_nil _
  | case2 afterKey c rest found ih => rw [segments_cons, front_eq_plainFront, ih]

end Segment

namespace Scan

/-- Cuts a template into its tokens, where literal text is searched for its end at every place. -/
def plain (template : String) : Scan :=
  .ofSegments 0 (Segment.plainSegments false template.toList)

/-- Literal text ends at the first of all places behind its first character where a mark stands. So
a scan of a template, which passes over blanks that continue a run, gives what a plain one gives. -/
theorem ofTemplate_plain :
    (∀ afterKey c rest, Mark.at? none afterKey (c :: rest) = none →
      IsLeast (Segment.endings (c :: rest)) (Segment.literalLength c rest + 1)) ∧
    ∀ template, ofTemplate template = plain template := by
  constructor
  · intro afterKey c rest nothing
    rw [Segment.literalLength_eq nothing]
    exact Segment.isLeast_endings c rest
  · intro template
    rw [ofTemplate, plain, Segment.segments_eq_plainSegments]

/-- Literal text that begins with blanks ends at the first blank of a later run. -/
theorem ofTemplate_plain_two_runs :
    Mark.at? none true [' ', ' ', 'x', ' ', '\t', ';'] = none ∧
    IsLeast (Segment.endings [' ', ' ', 'x', ' ', '\t', ';']) 3 ∧
    ofTemplate "  x \t;" = plain "  x \t;" := by
  have nothing : Mark.at? none true [' ', ' ', 'x', ' ', '\t', ';'] = none := by decide
  exact ⟨nothing, ofTemplate_plain.1 true ' ' _ nothing, ofTemplate_plain.2 "  x \t;"⟩

end Scan

end SqlTemplate
