import Mathlib
import SqlTemplate.Proofs.Token.Bytes

/-!
# Scanning tiles the template

The tokens of a template and the comments between them lie side by side, from the first byte to the
last. `Scan.Tiles` says so with one rule for each thing that can come next: the end, a comment, or a
token, which starts where the thing before it ends and takes a slice that is spelled as its lexeme.

A scan of the bytes of the template comes to the same places and tells the same tokens
(`Bytes.scan_eq`). So it loses nothing of a template, never cuts a character in two and never meets
a text that is not UTF-8 (`Scan.ofTemplate_tiles`).
-/

namespace SqlTemplate

open SqlTemplate.Text

/-! ## Segments -/

namespace Segment

/-- What stands in front takes a slice that is spelled as it is. -/
theorem spelled_front (afterKey : Bool) (c : Char) (rest : List Char) :
    (front afterKey c rest).mark.Spelled ((c :: rest).take (front afterKey c rest).length)
      ((c :: rest).drop (front afterKey c rest).length) := by
  unfold front
  split
  · obtain ⟨r, found⟩ := Mark.exists_rule_of_at? ‹_›
    exact (Mark.Rule.takes_of_find? found).take_drop
  · exact .literal _ _

/-- A fallback stands in front of a text that follows a key, and nowhere else. -/
theorem afterKey_of_front {afterKey : Bool} {c : Char} {rest : List Char} {word : String}
    (h : (front afterKey c rest).mark = .lexeme (.fallback word)) : afterKey = true := by
  unfold front at h
  split at h
  · obtain ⟨r, found⟩ := Mark.exists_rule_of_at? ‹_›
    exact Mark.Rule.afterKey_of_find? found h
  · cases h

/-- The places between segments, where the first segment stands at byte `offset`. -/
def places (offset : Nat) : List Segment → List Nat
  | [] => [offset]
  | g :: rest => offset :: places (offset + width g.slice) rest

end Segment

namespace Scan

/-! ## Tilings -/

/-- A scan of the text that stands at byte `offset`: comments and tokens side by side, up to the
end. Each takes at least one character. `afterKey` says that the token before the text is a key, as
it has to be before a fallback. -/
inductive Tiles : Bool → Nat → List Char → Scan → Prop
  | stop (afterKey : Bool) (offset : Nat) : Tiles afterKey offset [] ⟨[], offset⟩
  | comment {afterKey : Bool} {offset : Nat} {slice behind : List Char} {s : Scan} :
      slice ≠ [] → Mark.Spelled .comment slice behind →
      Tiles afterKey (offset + width slice) behind s → Tiles afterKey offset (slice ++ behind) s
  | token {afterKey : Bool} {offset : Nat} {slice behind : List Char} {s : Scan} (l : Lexeme) :
      slice ≠ [] → Mark.Spelled (.lexeme l) slice behind →
      (∀ word, l = .fallback word → afterKey = true) →
      Tiles (l.kind = .key) (offset + width slice) behind s →
      Tiles afterKey offset (slice ++ behind) ⟨⟨l, offset, width slice⟩ :: s.tokens, s.stop⟩

/-- A segment in front goes on with a tiling. -/
theorem Tiles.segment {afterKey : Bool} {offset : Nat} {slice behind : List Char} {mark : Mark}
    {gs : List Segment} (filled : slice ≠ []) (spelled : mark.Spelled slice behind)
    (behindKey : ∀ word, mark = .lexeme (.fallback word) → afterKey = true)
    (rest : Tiles (Segment.keyBefore afterKey mark) (offset + width slice) behind
      (ofSegments (offset + width slice) gs)) :
    Tiles afterKey offset (slice ++ behind) (ofSegments offset (⟨mark, slice⟩ :: gs)) := by
  cases mark with
  | comment => exact .comment filled spelled rest
  | lexeme l =>
    refine .token l filled spelled (fun word h => behindKey word (congrArg Mark.lexeme h)) ?_
    cases l <;> exact rest

/-- The tokens among the segments of a text tile it. -/
theorem tiles_segments (afterKey : Bool) (offset : Nat) (text : List Char) :
    Tiles afterKey offset text (ofSegments offset (Segment.segments afterKey text)) := by
  fun_induction Segment.segments afterKey text generalizing offset with
  | case1 => exact .stop _ offset
  | case2 afterKey c rest found ih =>
    have filled : (c :: rest).take found.length ≠ [] := by
      have : 0 < found.length := Segment.length_pos_front afterKey c rest
      rw [List.ne_nil_iff_length_pos, List.length_take, List.length_cons]
      omega
    have tiles := Tiles.segment filled (Segment.spelled_front afterKey c rest)
      (fun _ => Segment.afterKey_of_front) (ih (offset + width ((c :: rest).take found.length)))
    rwa [List.take_append_drop] at tiles

section Tiles

variable {afterKey : Bool} {offset : Nat} {text : List Char} {s : Scan}

/-- A tiling ends where the text does. -/
theorem Tiles.stop_eq (h : Tiles afterKey offset text s) : s.stop = offset + width text := by
  induction h with
  | stop => rfl
  | comment _ _ _ ih => rw [ih, width_append, Nat.add_assoc]
  | token _ _ _ _ _ ih => rw [ih, width_append, Nat.add_assoc]

/-- Each token of a tiling takes a slice of the text, and is what the slice spells. -/
theorem Tiles.exists_slice (h : Tiles afterKey offset text s) {t : Token} (mem : t ∈ s.tokens) :
    ∃ before slice behind, text = before ++ slice ++ behind ∧ slice ≠ [] ∧
      t.offset = offset + width before ∧ t.length = width slice ∧
      Mark.Spelled (.lexeme t.lexeme) slice behind := by
  induction h with
  | stop => cases mem
  | @comment _ offset slice _ _ _ _ _ ih =>
    obtain ⟨before, slice', behind, rfl, filled, there, length, spelled⟩ := ih mem
    refine ⟨slice ++ before, slice', behind, ?_, filled, ?_, length, spelled⟩
    · simp only [List.append_assoc]
    · rw [there, width_append, Nat.add_assoc]
  | @token _ offset slice behind _ l filled spelled _ _ ih =>
    rcases List.mem_cons.mp mem with rfl | mem
    · exact ⟨[], slice, behind, rfl, filled, rfl, rfl, spelled⟩
    · obtain ⟨before, slice', behind, rfl, filled, there, length, spelled⟩ := ih mem
      refine ⟨slice ++ before, slice', behind, ?_, filled, ?_, length, spelled⟩
      · simp only [List.append_assoc]
      · rw [there, width_append, Nat.add_assoc]

/-- Each token of a tiling starts behind the ones before it. -/
theorem Tiles.pairwise_offset (h : Tiles afterKey offset text s) :
    s.tokens.Pairwise fun t u => t.offset < u.offset := by
  induction h with
  | stop => exact List.Pairwise.nil
  | comment _ _ _ ih => exact ih
  | @token _ offset slice _ _ l filled _ _ rest ih =>
    refine List.pairwise_cons.mpr ⟨fun u mem => ?_, ih⟩
    obtain ⟨before, _, _, -, -, there, -⟩ := rest.exists_slice mem
    have some := width_pos filled
    change offset < u.offset
    omega

/-- Directly before a fallback there is a key, or the start of a text that follows one. -/
theorem Tiles.key_before (h : Tiles afterKey offset text s) {front rest : List Token} {t : Token}
    (tokens : s.tokens = front ++ t :: rest) {word : String} (lexeme : t.lexeme = .fallback word) :
    (front = [] ∧ afterKey = true) ∨
      ∃ earlier key, front = earlier ++ [key] ∧ key.kind = .key := by
  induction h generalizing front with
  | stop => simp at tokens
  | comment _ _ _ ih => exact ih tokens
  | token l _ _ behindKey _ ih =>
    cases front with
    | nil =>
      cases tokens
      exact .inl ⟨rfl, behindKey word lexeme⟩
    | cons first front =>
      obtain ⟨rfl, behind⟩ : _ = first ∧ _ = front ++ t :: rest := List.cons.inj tokens
      rcases ih behind with ⟨rfl, key⟩ | ⟨earlier, key, rfl, kind⟩
      · exact .inr ⟨[], _, rfl, of_decide_eq_true key⟩
      · exact .inr ⟨_ :: earlier, key, rfl, kind⟩

end Tiles

end Scan

/-! ## Bytes of the template -/

namespace Segment

/-- Each place between segments is behind some of them. -/
theorem exists_append_of_mem_places {offset : Nat} {gs : List Segment} {place : Nat}
    (mem : place ∈ places offset gs) :
    ∃ front rest, gs = front ++ rest ∧ place = offset + width (front.flatMap slice) := by
  induction gs generalizing offset with
  | nil =>
    obtain rfl := List.mem_singleton.mp mem
    exact ⟨[], [], rfl, rfl⟩
  | cons g gs ih =>
    rcases List.mem_cons.mp mem with rfl | mem
    · exact ⟨[], _, rfl, rfl⟩
    · obtain ⟨front, rest, rfl, rfl⟩ := ih mem
      refine ⟨g :: front, rest, rfl, ?_⟩
      rw [List.flatMap_cons, width_append, Nat.add_assoc]

end Segment

namespace Scan

/-- The places that the scan of a template reaches: its start, and the place behind each comment and
behind each token. -/
def reached (template : String) : List Nat :=
  Segment.places 0 (Segment.segments false template.toList)

/-- The token of the first segment comes first. -/
theorem tokens_ofSegments_cons (offset : Nat) (g : Segment) (gs : List Segment) :
    (ofSegments offset (g :: gs)).tokens =
      (ofSegments offset [g]).tokens ++ (ofSegments (offset + width g.slice) gs).tokens := by
  obtain ⟨mark, slice⟩ := g
  cases mark <;> rfl

end Scan

namespace Bytes

open Encoding

/-- Behind any characters of a template, the scan of its bytes cuts where its characters are cut. -/
theorem run_encode (front : List Char) (afterKey : Bool) (rest : List Char) :
    run (utf8.encode (front ++ rest)) afterKey (width front) =
      .ok ⟨Segment.places (width front) (Segment.segments afterKey rest),
        (Scan.ofSegments (width front) (Segment.segments afterKey rest)).tokens.map
          Token.ofToken⟩ := by
  have stands : utf8.Stands (utf8.encode (front ++ rest)) (width front) front rest :=
    ⟨encode_append, (length_utf8_encode front).symm⟩
  fun_induction Segment.segments afterKey rest generalizing front with
  | case1 afterKey =>
    rw [run, if_pos stands.isBoundary, if_neg (by simp [length_utf8_encode])]
    rfl
  | case2 afterKey c rest found ih =>
    have more : width front < (utf8.encode (front ++ c :: rest)).length := by
      rw [length_utf8_encode, width_append]
      exact Nat.lt_add_of_pos_right (width_pos (List.cons_ne_nil c rest))
    have behind := ih (front ++ (c :: rest).take found.length)
      ⟨encode_append, (length_utf8_encode _).symm⟩
    rw [List.append_assoc, List.take_append_drop, width_append] at behind
    rw [run, if_pos stands.isBoundary, if_pos more, stands.drop_eq, front_encode,
      tokens_inBytes, keyBefore_inBytes, length_inBytes, size, length_utf8_encode]
    dsimp only [bind, Except.bind]
    rw [behind, Scan.tokens_ofSegments_cons _ _ (Segment.segments _ _), List.map_append]
    rfl

/-- A scan of the bytes of a template succeeds. It cuts the template where its characters are cut,
and finds the tokens that they make. -/
theorem scan_eq (template : String) :
    scan template =
      .ok ⟨Scan.reached template, (Scan.ofTemplate template).tokens.map Token.ofToken⟩ := by
  rw [scan, data_toByteArray]
  exact run_encode [] false template.toList

/-- A scan of bytes takes slices that begin between two characters. -/
theorem isValid_of_mem_places {template : String} {r : Run} (h : scan template = .ok r)
    {place : Nat} (mem : place ∈ r.places) : String.Pos.Raw.IsValid template ⟨place⟩ := by
  obtain rfl := Except.ok.inj ((scan_eq template).symm.trans h)
  obtain ⟨front, rest, text, rfl⟩ := Segment.exists_append_of_mem_places mem
  have whole := congrArg (List.flatMap Segment.slice) text
  rw [Segment.flatMap_slice_segments, List.flatMap_append] at whole
  rw [String.Pos.Raw.isValid_iff_exists_append]
  refine ⟨String.ofList (front.flatMap Segment.slice), String.ofList (rest.flatMap Segment.slice),
    ?_, ?_⟩
  · rw [← String.ofList_append, ← whole, String.ofList_toList]
  · rw [Nat.zero_add, String.Pos.Raw.ext_iff]
    exact (utf8ByteSize_ofList _).symm

end Bytes

namespace Scan

/-- Scanning tiles a template. Its tokens and comments lie side by side and take all its bytes. The
scan of the bytes succeeds with the same tokens and cuts no character in two. Each token takes at
least one byte, and its bytes spell its lexeme. A fallback is never the first token, and the token
before it is a key. -/
theorem ofTemplate_tiles (template : String) :
    Tiles false 0 template.toList (ofTemplate template) ∧
    (ofTemplate template).stop = template.utf8ByteSize ∧
    Bytes.scan template = .ok ⟨reached template, (ofTemplate template).tokens.map .ofToken⟩ ∧
    (∀ place ∈ reached template, String.Pos.Raw.IsValid template ⟨place⟩) ∧
    (∀ t ∈ (ofTemplate template).tokens, 0 < t.length ∧ ∃ before slice behind : String,
      template = before ++ slice ++ behind ∧ t.offset = before.utf8ByteSize ∧
      t.length = slice.utf8ByteSize ∧
      Mark.Spelled (.lexeme t.lexeme) slice.toList behind.toList) ∧
    ∀ front t rest word, (ofTemplate template).tokens = front ++ t :: rest →
      t.lexeme = .fallback word → ∃ earlier key, front = earlier ++ [key] ∧ key.kind = .key := by
  have tiles : Tiles false 0 template.toList (ofTemplate template) := tiles_segments false 0 _
  have scanned := Bytes.scan_eq template
  refine ⟨tiles, ?_, scanned, fun _ => Bytes.isValid_of_mem_places scanned, fun t mem => ?_, ?_⟩
  · rw [tiles.stop_eq, Nat.zero_add, ← utf8ByteSize_ofList, String.ofList_toList]
  · obtain ⟨before, slice, behind, text, filled, offset, length, spelled⟩ := tiles.exists_slice mem
    refine ⟨length ▸ width_pos filled, String.ofList before, String.ofList slice,
      String.ofList behind, ?_, ?_, ?_, ?_⟩
    · rw [← String.ofList_append, ← String.ofList_append, ← text, String.ofList_toList]
    · rw [offset, utf8ByteSize_ofList, Nat.zero_add]
    · rw [length, utf8ByteSize_ofList]
    · rwa [String.toList_ofList, String.toList_ofList]
  · intro front t rest word tokens lexeme
    rcases tiles.key_before tokens lexeme with ⟨-, nokey⟩ | key
    · cases nokey
    · exact key

/-- A comment keeps a fallback with its key, and a place counts bytes. -/
theorem ofTemplate_tiles_fallback :
    (ofTemplate "\u00e9@a/**/??b -- c").tokens =
      [⟨.literal "\u00e9", 0, 2⟩, ⟨.key "a", 2, 2⟩, ⟨.fallback "b", 8, 3⟩] ∧
    (ofTemplate "\u00e9@a/**/??b -- c").stop = "\u00e9@a/**/??b -- c".utf8ByteSize ∧
    Bytes.scan "\u00e9@a/**/??b -- c" = .ok ⟨[0, 2, 4, 8, 11, 16],
      [⟨.literal, some "\u00e9", 0, 2⟩, ⟨.key, some "a", 2, 2⟩, ⟨.fallback, some "b", 8, 3⟩]⟩ ∧
    8 ∈ reached "\u00e9@a/**/??b -- c" ∧
    String.Pos.Raw.IsValid "\u00e9@a/**/??b -- c" ⟨8⟩ ∧
    (∃ before slice behind : String, "\u00e9@a/**/??b -- c" = before ++ slice ++ behind ∧
      8 = before.utf8ByteSize ∧ 3 = slice.utf8ByteSize ∧
      Mark.Spelled (.lexeme (.fallback "b")) slice.toList behind.toList) ∧
    ∃ (earlier : List Token) (key : Token),
      [⟨.literal "\u00e9", 0, 2⟩, ⟨.key "a", 2, 2⟩] = earlier ++ [key] ∧ key.kind = .key := by
  have tokens : (ofTemplate "\u00e9@a/**/??b -- c").tokens =
      [⟨.literal "\u00e9", 0, 2⟩, ⟨.key "a", 2, 2⟩] ++ ⟨.fallback "b", 8, 3⟩ :: [] := by
    cbv
  have places : reached "\u00e9@a/**/??b -- c" = [0, 2, 4, 8, 11, 16] := by
    cbv
  have mem : ⟨.fallback "b", 8, 3⟩ ∈ (ofTemplate "\u00e9@a/**/??b -- c").tokens := by
    rw [tokens]
    exact List.mem_append_right _ (List.mem_cons_self ..)
  have here : 8 ∈ reached "\u00e9@a/**/??b -- c" := by
    rw [places]
    decide
  obtain ⟨-, stop, scanned, valid, slices, keys⟩ := ofTemplate_tiles "\u00e9@a/**/??b -- c"
  rw [tokens, places] at scanned
  exact ⟨tokens, stop, scanned, here, valid 8 here, (slices _ mem).2, keys _ _ _ _ tokens rfl⟩

end Scan

end SqlTemplate
