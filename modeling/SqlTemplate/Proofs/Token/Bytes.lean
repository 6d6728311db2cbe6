import Mathlib.Data.List.TakeWhile
import SqlTemplate.Proofs.Token.Encoding
import SqlTemplate.Proofs.Token.Spelled
import SqlTemplate.Token.Segment

/-!
# Marks in bytes

At a place between two characters, each rule finds in the bytes what it finds in the characters, and
takes the bytes of the characters that it takes there (`Encoding.Stands.find?_eq`). Inside a
character no rule finds anything, since all of them begin with ASCII characters
(`matchAt_eq_none_of_le`). So literal text ends where it ends in the characters, and what stands in
front of the bytes is what stands in front of the characters (`front_encode`).
-/

namespace SqlTemplate.Bytes

open SqlTemplate.Text

/-! ## The rules -/

/-- What a rule finds in characters, told in bytes. -/
def Found.inBytes (E : Encoding) (s : List Char) : Mark.Found → Found
  | ⟨.comment, n⟩ => .comment (E.size s n)
  | ⟨.lexeme l, n⟩ => .token l.kind (E.size s n) (l.text?.map fun text => E.encode text.toList)

/-- Two things found under one condition. -/
theorem ite_none_eq_map {α β : Type} {p q : Prop} [Decidable p] [Decidable q] {x : Option β}
    {y : Option α} {g : α → β} (iff : p ↔ q) (same : q → x = y.map g) :
    (if p then x else none) = (if q then y else none).map g := by
  by_cases h : q
  · rw [if_pos (iff.mpr h), if_pos h, same h]
  · rw [if_neg (mt iff.mp h), if_neg h, Option.map_none]

namespace Encoding.Stands

variable {E : Encoding} {s : List UInt8} {i n : Nat} {front rest : List Char} {c d sign : Char}

/-- The byte at the front of a text is that of an ASCII character if the character is in front. -/
theorem getElem?_cons_iff (h : E.Stands s i front (d :: rest)) (hc : c.toNat < 128) :
    s[i]? = some c.toUInt8 ↔ d = c := by
  rw [h.getElem?_eq_iff hc, List.head?_cons, Option.some_inj]

/-- Where the byte of an ASCII character stands, the place moves on by the character. -/
theorem exists_next (h : E.Stands s i front rest) (hc : c.toNat < 128)
    (here : s[i]? = some c.toUInt8) :
    ∃ more, rest = c :: more ∧ E.Stands s (i + 1) (front ++ [c]) more := by
  obtain ⟨more, rfl⟩ := List.head?_eq_some_iff.mp ((h.getElem?_eq_iff hc).mp here)
  exact ⟨more, rfl, h.next hc⟩

/-- The bytes between a place and the end of a run behind it are those of the run. -/
theorem extract_pass (h : E.Stands s i front rest) {q : UInt8 → Bool} {p : Char → Bool}
    (tells : E.Tells q p) : s.extract i (pass q s i) = E.encode (rest.takeWhile p) := by
  rw [List.extract_eq_take_drop, pass, Nat.add_sub_cancel_left,
    ← takeWhile_encode tells, h.drop_eq]
  exact (List.prefix_iff_eq_take.mp (List.takeWhile_prefix q)).symm

/-- A run is empty in bytes if it has no characters. -/
theorem pass_ne_iff (h : E.Stands s i front rest) {q : UInt8 → Bool} {p : Char → Bool}
    (tells : E.Tells q p) : pass q s i ≠ i ↔ rest.takeWhile p ≠ [] := by
  rw [pass, h.drop_eq, takeWhile_encode tells, Ne, Nat.add_eq_left, List.length_eq_zero_iff,
    encode_eq_nil]

theorem key?_eq (h : E.Stands s i front rest) :
    key? s i = (Mark.key? front.getLast? rest).map (Found.inBytes E rest) := by
  unfold key?
  by_cases first : s[i]? = some '@'.toUInt8
  · obtain ⟨rest, rfl, after⟩ := h.exists_next (by decide) first
    have rule : Mark.key? front.getLast? ('@' :: rest) =
        if front.getLast? ≠ some '@' ∧ rest.takeWhile isNameChar ≠ [] then
          some ⟨.lexeme (.key (String.ofList (rest.takeWhile isNameChar))),
            (rest.takeWhile isNameChar).length + 1⟩
        else none := by
      simp only [Mark.key?, ← not_or, ite_not]
    rw [rule]
    refine ite_none_eq_map ?_ fun _ => ?_
    · rw [and_iff_right first, h.precededBy_iff (by decide), after.pass_ne_iff tells_isName]
    · rw [after.extract_pass tells_isName, after.pass_eq tells_isName, Nat.add_assoc,
        Nat.add_sub_cancel_left]
      simp only [Option.map_some, Found.inBytes, Lexeme.kind, Lexeme.text?, String.toList_ofList,
        size_cons_of_ascii (show '@'.toNat < 128 by decide), Mark.run]
  · have rule : Mark.key? front.getLast? rest = none := by
      unfold Mark.key?
      split
      · exact absurd ((h.getElem?_cons_iff (by decide)).mpr rfl) first
      · rfl
    rw [rule]
    exact if_neg fun found => first found.1

theorem fallback?_eq (h : E.Stands s 0 [] rest) :
    fallback? s = (Mark.fallback? rest).map (Found.inBytes E rest) := by
  unfold fallback?
  by_cases both : s[0]? = some '?'.toUInt8 ∧ s[1]? = some '?'.toUInt8
  · obtain ⟨rest, rfl, second⟩ := h.exists_next (by decide) both.1
    obtain ⟨rest, rfl, after⟩ := second.exists_next (by decide) both.2
    have rule : Mark.fallback? ('?' :: '?' :: rest) =
        if rest.takeWhile Mark.isWordChar ≠ [] then
          some ⟨.lexeme (.fallback (String.ofList (rest.takeWhile Mark.isWordChar))),
            (rest.takeWhile Mark.isWordChar).length + 2⟩
        else none := by
      simp only [Mark.fallback?, ite_not]
    rw [rule]
    refine ite_none_eq_map ?_ fun _ => ?_
    · rw [← and_assoc, and_iff_right both, after.pass_ne_iff tells_isWord]
    · rw [after.extract_pass tells_isWord, after.pass_eq tells_isWord]
      simp only [Option.map_some, Found.inBytes, Lexeme.kind, Lexeme.text?, String.toList_ofList,
        size_cons_of_ascii (show '?'.toNat < 128 by decide), Mark.run, ← Nat.add_assoc]
  · have rule : Mark.fallback? rest = none := by
      unfold Mark.fallback?
      split
      · have first := (h.getElem?_cons_iff (by decide)).mpr rfl
        have second := ((h.next (by decide)).getElem?_cons_iff (by decide)).mpr rfl
        exact absurd ⟨first, second⟩ both
      · rfl
    rw [rule]
    exact if_neg fun found => both ⟨found.1, found.2.1⟩

/-- Behind an ASCII character, the bytes are counted on. -/
theorem size_through {text more : List Char} {m : Nat} (behind : text.drop m = d :: more)
    (hd : d.toNat < 128) (n : Nat) :
    E.size text (m + 1 + n) = E.size text m + 1 + E.size more n := by
  rw [Nat.add_assoc, size_add, behind, Nat.add_comm 1 n, size_cons_of_ascii hd, Nat.add_assoc]

theorem opening?_eq (h : E.Stands s i front rest) (hc : c.toNat < 128) :
    opening? c.toUInt8 s i = (Mark.opening? c rest).map (i + E.size rest ·) := by
  have moved := h.forward (Mark.blanks rest)
  unfold opening? Mark.opening?
  rw [h.passBlanks_eq]
  cases behind : rest.drop (Mark.blanks rest) with
  | nil =>
    rw [behind] at moved
    refine if_neg fun found => ?_
    obtain ⟨_, none, -⟩ := moved.exists_next hc found.1
    cases none
  | cons d more =>
    rw [behind] at moved
    refine ite_none_eq_map ?_ fun found => ?_
    · rw [moved.getElem?_cons_iff hc]
      refine and_congr_right fun same => not_congr ?_
      exact (moved.next (same ▸ hc)).getElem?_eq_iff hc
    · obtain ⟨rfl, -⟩ := found
      rw [(moved.next hc).passBlanks_eq, Option.map_some, size_through behind hc]
      simp only [Nat.add_assoc]

theorem blockOpen?_eq (h : E.Stands s i front rest) (hc : sign.toNat < 128) :
    blockOpen? sign.toUInt8 s i = (Mark.blockOpen? sign rest).map (i + E.size rest ·) := by
  have moved := h.forward (Mark.blanks rest)
  unfold blockOpen? Mark.blockOpen?
  rw [h.passBlanks_eq]
  cases behind : rest.drop (Mark.blanks rest) with
  | nil =>
    rw [behind] at moved
    refine if_neg fun found => ?_
    obtain ⟨_, none, -⟩ := moved.exists_next hc found
    cases none
  | cons d more =>
    rw [behind] at moved
    refine ite_none_eq_map (moved.getElem?_cons_iff hc) fun same => ?_
    subst same
    rw [(moved.next hc).opening?_eq (by decide), Option.map_map]
    congr 1
    funext n
    rw [Function.comp_apply, size_through behind hc]
    simp only [Nat.add_assoc]

theorem listOpen?_eq (h : E.Stands s i front rest) (hc : sign.toNat < 128) :
    listOpen? sign.toUInt8 s i = (Mark.listOpen? sign rest).map (i + E.size rest ·) := by
  unfold Mark.listOpen?
  split
  · rename_i d rest
    unfold listOpen?
    have second := h.next (by decide)
    refine ite_none_eq_map ?_ fun same => ?_
    · rw [h.getElem?_cons_iff (by decide), second.getElem?_cons_iff hc]
      refine ⟨fun found => found.2.1, fun same => ⟨rfl, same, ?_⟩⟩
      exact ((second.next (same ▸ hc)).getElem?_cons_iff (by decide)).mpr rfl
    · subst same
      have after := (second.next hc).next (by decide)
      rw [after.opening?_eq (by decide), Option.map_map]
      congr 1
      funext n
      rw [Function.comp_apply, Nat.add_comm 3 n, size_cons_of_ascii (by decide),
        size_cons_of_ascii hc, size_cons_of_ascii (by decide)]
      simp only [Nat.add_assoc]
  · rename_i other
    refine if_neg fun found => ?_
    obtain ⟨rest, rfl, second⟩ := h.exists_next (by decide) found.1
    obtain ⟨rest, rfl, third⟩ := second.exists_next hc found.2.1
    obtain ⟨rest, rfl, -⟩ := third.exists_next (by decide) found.2.2
    exact other _ _ rfl

/-- The bytes begin with a number of equal ASCII characters if the characters do. -/
theorem take_encode_eq_iff (hc : c.toNat < 128) (text : List Char) (n : Nat) :
    (E.encode text).take n = List.replicate n c.toUInt8 ↔ text.take n = List.replicate n c := by
  induction n generalizing text with
  | zero => exact iff_of_true rfl rfl
  | succ n ih =>
    cases text with
    | nil => exact iff_of_false nofun nofun
    | cons d text =>
      rw [encode_cons, List.take_succ_cons, List.replicate_succ, List.replicate_succ,
        List.cons.injEq, ← ih]
      by_cases hd : d.toNat < 128
      · rw [E.ascii hd, List.singleton_append, List.take_succ_cons, List.cons.injEq,
          eq_toUInt8_iff hc (E.ascii hd ▸ List.mem_singleton_self _)]
      · obtain ⟨b, more, bytes⟩ := List.exists_cons_of_ne_nil (bytes_ne_nil (E := E) (c := d))
        rw [bytes, List.cons_append, List.take_succ_cons, List.cons.injEq,
          eq_toUInt8_iff hc (bytes ▸ List.mem_cons_self ..)]
        refine iff_of_false ?_ ?_ <;>
        · rintro ⟨rfl, -⟩
          exact hd hc

theorem size_eq_of_replicate (hc : c.toNat < 128) {text : List Char}
    (h : text.take n = List.replicate n c) : E.size text n = n := by
  rw [size, h, encode, List.flatMap_replicate, E.ascii hc]
  simp

/-- Behind blanks, an ASCII character that is no blank comes directly before a place only if there
are no blanks. -/
theorem precededBy_passBlanks_iff (h : E.Stands s i front rest) (hc : c.toNat < 128)
    (filled : isAsciiBlank c = false) :
    precededBy s (passBlanks s i) c.toUInt8 = true ↔
      Mark.blanks rest = 0 ∧ front.getLast? = some c := by
  have moved := h.forward (Mark.blanks rest)
  rw [h.passBlanks_eq, moved.precededBy_iff hc, Mark.blanks, take_run, Mark.run,
    List.length_eq_zero_iff]
  rcases List.eq_nil_or_concat (rest.takeWhile isAsciiBlank) with none | ⟨before, b, some⟩
  · rw [none, List.append_nil]
    exact (and_iff_right rfl).symm
  · have blank : isAsciiBlank b = true := by
      refine List.mem_takeWhile_imp (l := rest) ?_
      rw [some, List.concat_eq_append]
      exact List.mem_append_right _ (List.mem_singleton_self b)
    rw [some, List.concat_eq_append, ← List.append_assoc, List.getLast?_concat, Option.some_inj]
    refine iff_of_false ?_ fun none => List.append_ne_nil_of_right_ne_nil _ (by simp) none.1
    rintro rfl
    rw [blank] at filled
    cases filled

theorem alone?_eq (h : E.Stands s i front rest) (hc : c.toNat < 128)
    (filled : isAsciiBlank c = false) :
    alone? c.toUInt8 n s i = (Mark.alone? c n front.getLast? rest).map (i + E.size rest ·) := by
  unfold alone? Mark.alone?
  have moved := h.forward (Mark.blanks rest)
  refine ite_none_eq_map ?_ fun found => ?_
  · rw [h.precededBy_passBlanks_iff hc filled, h.passBlanks_eq, moved.drop_eq,
      take_encode_eq_iff hc]
    refine and_congr_right fun taken => and_congr_left' (not_congr ?_)
    have behind := moved.forward n
    rw [size_eq_of_replicate hc taken] at behind
    rw [behind.getElem?_eq_iff hc, List.head?_drop]
  · rw [h.passBlanks_eq, Option.map_some, size_add, size_eq_of_replicate hc found.1, Nat.add_assoc]

theorem lineComment?_eq (h : E.Stands s i front rest) :
    lineComment? s i = (Mark.lineComment? rest).map (i + E.size rest ·) := by
  have moved := h.forward (Mark.blanks rest)
  unfold lineComment? Mark.lineComment?
  rw [h.passBlanks_eq]
  split
  · rename_i more behind
    rw [behind] at moved
    have second := moved.next (by decide)
    have after := second.next (by decide)
    rw [if_pos ⟨(moved.getElem?_cons_iff (by decide)).mpr rfl,
      (second.getElem?_cons_iff (by decide)).mpr rfl⟩, after.pass_eq tells_isLine, Option.map_some]
    have more : rest.drop (Mark.blanks rest + 1) = '-' :: more := by
      rw [← List.drop_drop, behind]
      rfl
    rw [size_through more (by decide), ← Nat.add_zero (Mark.blanks rest + 1),
      size_through behind (by decide), size_zero]
    simp only [Nat.add_assoc, Nat.zero_add]
  · rename_i other
    refine if_neg fun found => ?_
    obtain ⟨more, behind, second⟩ := moved.exists_next (by decide) found.1
    obtain ⟨more, rfl, -⟩ := second.exists_next (by decide) found.2
    exact other _ behind

/-- No comment ends among bytes that are no asterisks. -/
theorem commentEnd?_append {front : List UInt8} (h : ∀ b ∈ front, b ≠ '*'.toUInt8)
    (behind : List UInt8) :
    commentEnd? (front ++ behind) = (commentEnd? behind).map (front.length + ·) := by
  induction front with
  | nil => simp
  | cons b front ih =>
    obtain ⟨first, others⟩ := List.forall_mem_cons.mp h
    rw [List.cons_append, commentEnd?, if_neg fun found => first found.1, ih others, Option.map_map]
    congr 1
    funext n
    rw [Function.comp_apply, List.length_cons]
    omega

theorem commentEnd?_encode (text : List Char) :
    commentEnd? (E.encode text) = (Mark.commentEnd? text).map (E.size text) := by
  fun_induction Mark.commentEnd? text with
  | case1 rest =>
    rw [encode_cons, encode_cons, E.ascii (by decide), E.ascii (by decide)]
    rfl
  | case2 c rest other ih =>
    rw [encode_cons]
    by_cases same : c = '*'
    · subst same
      have noSlash : (E.encode rest).head? ≠ some '/'.toUInt8 := by
        intro found
        have here : E.Stands (E.encode rest) 0 [] rest := ⟨rfl, rfl⟩
        rw [List.head?_eq_getElem?, here.getElem?_eq_iff (by decide)] at found
        obtain ⟨more, rfl⟩ := List.head?_eq_some_iff.mp found
        exact other _ rfl rfl
      rw [E.ascii (by decide), List.singleton_append, commentEnd?,
        if_neg fun found => noSlash found.2, ih, Option.map_map, Option.map_map]
      congr 1
      funext n
      rw [Function.comp_apply, Function.comp_apply, size_cons_of_ascii (by decide), Nat.add_comm]
    · rw [commentEnd?_append fun b mem => mt (eq_toUInt8_iff (by decide) mem).mp same, ih,
        Option.map_map, Option.map_map]
      congr 1
      funext n
      exact (size_cons n).symm
  | case3 => rfl

theorem blockComment?_eq (h : E.Stands s i front rest) :
    blockComment? s i = (Mark.blockComment? rest).map (i + E.size rest ·) := by
  unfold Mark.blockComment?
  split
  · rename_i rest
    have second := h.next (by decide)
    have after := second.next (by decide)
    rw [blockComment?, if_pos ⟨(h.getElem?_cons_iff (by decide)).mpr rfl,
      (second.getElem?_cons_iff (by decide)).mpr rfl⟩, after.drop_eq, commentEnd?_encode]
    cases ends : Mark.commentEnd? rest with
    | none => rfl
    | some n =>
      obtain ⟨text, behind, rfl, rfl, -⟩ := Mark.exists_of_commentEnd? ends
      simp only [Option.map_some, size_cons_of_ascii (show '/'.toNat < 128 by decide),
        size_cons_of_ascii (show '*'.toNat < 128 by decide), size_add _ text.length 2,
        List.drop_left, size_zero]
      congr 1
      omega
  · rename_i other
    refine if_neg fun found => ?_
    obtain ⟨rest, rfl, second⟩ := h.exists_next (by decide) found.1
    obtain ⟨rest, rfl, -⟩ := second.exists_next (by decide) found.2
    exact other _ rfl

/-! A place that is a number of characters further on is as many bytes further on as these take. -/

section Places

variable {l : Lexeme}

theorem map_control (noText : l.text? = none) (found : Option Nat) :
    (found.map (i + E.size rest ·)).map (find?.control i l.kind) =
      (found.map (⟨.lexeme l, ·⟩)).map (Found.inBytes E rest) := by
  cases found with
  | none => rfl
  | some n => simp [find?.control, Found.inBytes, noText]

/-- The same with the blanks behind the place. -/
theorem map_control_passBlanks (h : E.Stands s i front rest) (noText : l.text? = none)
    (found : Option Nat) :
    (found.map (i + E.size rest ·)).map (fun j => find?.control i l.kind (passBlanks s j)) =
      (found.map (⟨.lexeme l, Mark.withBlanks rest ·⟩)).map (Found.inBytes E rest) := by
  cases found with
  | none => rfl
  | some n =>
    simp [find?.control, Found.inBytes, noText, (h.forward n).passBlanks_eq, Mark.withBlanks,
      size_add, Nat.add_assoc]

theorem map_comment (found : Option Nat) :
    (found.map (i + E.size rest ·)).map (fun stop => Found.comment (stop - i)) =
      (found.map (⟨.comment, ·⟩)).map (Found.inBytes E rest) := by
  cases found with
  | none => rfl
  | some n => simp [Found.inBytes]

end Places

/-- At a place between two characters, each rule finds in the bytes what it finds in the
characters. -/
theorem find?_eq (h : E.Stands s i front rest) (afterKey : Bool) (r : Mark.Rule) :
    find? s i afterKey r =
      (r.find? front.getLast? (afterKey && front.isEmpty) rest).map (Found.inBytes E rest) := by
  cases r <;> simp only [find?, Mark.Rule.find?]
  case key => exact h.key?_eq
  case fallback =>
    have atFront : i = 0 ↔ front = [] := by
      rw [h.place, List.length_eq_zero_iff, encode_eq_nil]
    refine ite_none_eq_map ?_ fun found => ?_
    · rw [atFront, Bool.and_eq_true, List.isEmpty_iff]
    · obtain rfl := List.isEmpty_iff.mp (Bool.and_eq_true_iff.mp found).2
      obtain rfl := atFront.mpr rfl
      exact h.fallback?_eq
  case conditionalOpen =>
    rw [h.blockOpen?_eq (by decide)]
    exact map_control (l := .conditionalOpen) rfl _
  case elseOpen =>
    rw [h.blockOpen?_eq (by decide)]
    exact map_control (l := .elseOpen) rfl _
  case blockClose =>
    rw [h.alone?_eq (by decide) (by decide)]
    exact map_control (l := .blockClose) rfl _
  case listOpen d =>
    rw [h.listOpen?_eq (by cases d <;> decide)]
    exact map_control (l := .listOpen d) rfl _
  case listClose =>
    rw [h.alone?_eq (by decide) (by decide)]
    exact map_control (l := .listClose) rfl _
  case separator =>
    rw [h.alone?_eq (by decide) (by decide)]
    exact h.map_control_passBlanks (l := .separator) rfl _
  case spread =>
    rw [h.alone?_eq (by decide) (by decide)]
    exact h.map_control_passBlanks (l := .spread) rfl _
  case lineComment =>
    rw [h.lineComment?_eq]
    exact map_comment _
  case blockComment =>
    rw [h.blockComment?_eq]
    exact map_comment _

/-- The same mark stands at a place of the bytes and before the characters there. -/
theorem matchAt_eq (h : E.Stands s i front rest) (afterKey : Bool) :
    matchAt s i afterKey =
      (Mark.at? front.getLast? (afterKey && front.isEmpty) rest).map (Found.inBytes E rest) := by
  rw [matchAt, Mark.at?, List.map_findSome?]
  congr 1
  funext r
  exact h.find?_eq afterKey r

end Encoding.Stands

/-! ## Places inside a character -/

/-- All rules begin with ASCII characters, if not with blanks. -/
theorem at?_eq_none_of_le {before : Option Char} {c : Char} (h : 128 ≤ c.toNat)
    (rest : List Char) : Mark.at? before false (c :: rest) = none := by
  have other : ∀ d : Char, d.toNat < 128 → c ≠ d := by
    rintro d hd rfl
    omega
  have filled : isAsciiBlank c = false := by
    simp [isAsciiBlank, other]
  rw [Option.eq_none_iff_forall_ne_some]
  intro f found
  obtain ⟨r, here⟩ := Mark.exists_rule_of_at? found
  have begins := Mark.Rule.opening_isPrefix here
  rw [Mark.drop_blanks_cons filled] at begins
  have first : ∃ d more, r.opening = d :: more ∧ d.toNat < 128 := by
    cases r <;> exact ⟨_, _, rfl, by decide⟩
  obtain ⟨d, more, opening, hd⟩ := first
  rw [opening, List.cons_prefix_cons] at begins
  exact other d hd begins.1.symm

/-- No mark stands at a byte that is not ASCII. -/
theorem matchAt_eq_none_of_le {s : List UInt8} {i : Nat} {b : UInt8} (here : s[i]? = some b)
    (h : 128 ≤ b.toNat) : matchAt s i false = none := by
  obtain ⟨inside, rfl⟩ := List.getElem?_eq_some_iff.mp here
  have stands := Encoding.latin_stands (Nat.le_of_lt inside)
  rw [List.drop_eq_getElem_cons inside] at stands
  rw [stands.matchAt_eq, Bool.false_and, List.map_cons, at?_eq_none_of_le, Option.map_none]
  rwa [Encoding.toNat_ofUInt8]

namespace Encoding.Stands

variable {E : Encoding} {s : List UInt8} {i : Nat} {front rest : List Char} {c d : Char}

/-- Literal text does not end inside a character. -/
theorem find?_inside (h : E.Stands s i front (c :: rest)) :
    (List.range' (i + 1) ((E.bytes c).length - 1)).find? (endsAt s) = none := by
  rw [List.find?_range'_eq_none]
  intro j later earlier
  obtain ⟨k, rfl⟩ := Nat.exists_eq_add_of_le (Nat.le_of_lt later)
  have inside : k < (E.bytes c).length := by omega
  have here : s[i + k]? = some (E.bytes c)[k] := by
    rw [← List.getElem?_drop, h.drop_eq, encode_cons, List.getElem?_append_left inside,
      List.getElem?_eq_getElem inside]
  -- a character of more than one byte is not ASCII
  have high : 128 ≤ c.toNat := by
    by_contra ascii
    rw [E.ascii (Nat.lt_of_not_le ascii), List.length_singleton] at inside
    omega
  rw [endsAt, matchAt_eq_none_of_le here (E.high high _ (List.getElem_mem inside))]
  simp

/-- Literal text ends between two characters where it does in the characters. -/
theorem endsAt_eq (h : E.Stands s i (front ++ [c]) (d :: rest)) :
    endsAt s i = Segment.endsLiteral c (d :: rest) := by
  rw [endsAt, h.inBlankRun_eq, h.matchAt_eq, Bool.false_and, List.getLast?_concat,
    Option.isSome_map]
  rfl

/-- From a place behind a character on, literal text ends where it does in the characters. -/
theorem find?_endsAt (h : E.Stands s i (front ++ [c]) rest) :
    ((List.range' i (E.encode rest).length).find? (endsAt s)).getD s.length =
      i + E.size rest (Segment.literalLength c rest) := by
  induction rest generalizing i front c with
  | nil =>
    rw [Segment.literalLength, size_zero, Nat.add_zero, h.place, h.bytes, encode_nil,
      List.append_nil]
    rfl
  | cons d rest ih =>
    obtain ⟨n, length⟩ : ∃ n, (E.bytes d).length = n + 1 :=
      ⟨_, (Nat.sub_add_cancel (List.length_pos_iff.mpr bytes_ne_nil)).symm⟩
    have inside := h.find?_inside
    rw [length, Nat.add_sub_cancel] at inside
    have behind := h.forward 1
    rw [size_cons, size_zero, length, Nat.add_zero, List.take_succ_cons, List.take_zero] at behind
    rw [encode_cons, List.length_append, length, ← List.range'_append_1, List.range'_succ,
      List.find?_append, List.find?_cons, inside, h.endsAt_eq, Segment.literalLength]
    cases Segment.endsLiteral c (d :: rest) with
    | true => rfl
    | false =>
      rw [Option.none_or, ih behind, if_neg Bool.false_ne_true, size_cons, length, Nat.add_assoc]

end Encoding.Stands

/-! ## What stands in front -/

section Front

variable {E : Encoding} {c : Char} {rest : List Char}

/-- Literal text in front takes the bytes of the characters that it takes. -/
theorem literalEnd_encode :
    literalEnd (E.encode (c :: rest)) =
      E.size (c :: rest) (Segment.literalLength c rest + 1) := by
  have start : E.Stands (E.encode (c :: rest)) 0 [] (c :: rest) := ⟨rfl, rfl⟩
  obtain ⟨n, length⟩ : ∃ n, (E.bytes c).length = n + 1 :=
    ⟨_, (Nat.sub_add_cancel (List.length_pos_iff.mpr Encoding.bytes_ne_nil)).symm⟩
  have inside := start.find?_inside
  rw [length, Nat.add_sub_cancel, Nat.zero_add] at inside
  -- behind the first character, which may be more than one byte
  have behind : E.Stands (E.encode (c :: rest)) (1 + n) ([] ++ [c]) rest := by
    have moved := start.forward 1
    rwa [Encoding.size_cons, length, Encoding.size_zero, Nat.zero_add, Nat.add_zero,
      Nat.add_comm] at moved
  have count : (E.encode (c :: rest)).length - 1 = n + (E.encode rest).length := by
    rw [Encoding.encode_cons, List.length_append, length]
    omega
  rw [literalEnd, count, ← List.range'_append_1, List.find?_append, inside, Option.none_or,
    behind.find?_endsAt, Encoding.size_cons, length, Nat.add_comm 1 n]

/-- What stands in front of the bytes stands in front of the characters. -/
theorem front_encode (afterKey : Bool) :
    front afterKey (E.encode (c :: rest)) =
      Found.inBytes E (c :: rest) (Segment.front afterKey c rest) := by
  have start : E.Stands (E.encode (c :: rest)) 0 [] (c :: rest) := ⟨rfl, rfl⟩
  rw [front, start.matchAt_eq, List.isEmpty_nil, Bool.and_true, Segment.front, List.getLast?_nil]
  cases Mark.at? none afterKey (c :: rest) with
  | some found => rfl
  | none =>
    rw [Option.map_none, Option.getD_none, literalEnd_encode, Encoding.take_size,
      List.take_succ_cons]
    simp only [Found.inBytes, Lexeme.kind, Lexeme.text?, Option.map_some, String.toList_ofList]

/-- The token that was found is the token of its segment. -/
theorem tokens_inBytes (offset : Nat) (s : List Char) (found : Mark.Found) :
    (Found.inBytes .utf8 s found).tokens offset = .ok
      ((Scan.ofSegments offset [⟨found.mark, s.take found.length⟩]).tokens.map .ofToken) := by
  obtain ⟨mark, n⟩ := found
  have length : Encoding.utf8.size s n = width (s.take n) := Encoding.length_utf8_encode _
  cases mark with
  | comment => rfl
  | lexeme l =>
    have decoded : (l.text?.map fun text => Encoding.utf8.encode text.toList).mapM
        (decode offset) = .ok l.text? := by
      cases l.text? with
      | none => rfl
      | some text =>
        rw [Option.map_some, Option.mapM_some, Encoding.decode_encode]
        rfl
    rw [Found.inBytes, Found.tokens, decoded, length]
    rfl

theorem keyBefore_inBytes (afterKey : Bool) (s : List Char) (found : Mark.Found) :
    (Found.inBytes E s found).keyBefore afterKey = Segment.keyBefore afterKey found.mark := by
  obtain ⟨mark, n⟩ := found
  cases mark with
  | comment => rfl
  | lexeme l => cases l <;> rfl

theorem length_inBytes (s : List Char) (found : Mark.Found) :
    (Found.inBytes E s found).length = E.size s found.length := by
  obtain ⟨mark, n⟩ := found
  cases mark <;> rfl

end Front

end SqlTemplate.Bytes
