import Mathlib.Data.List.Basic
import SqlTemplate.Proofs.Token.Openings
import SqlTemplate.Text.Width
import SqlTemplate.Token.Bytes

/-!
# Characters written as bytes

The rules compare with ASCII characters only. So all that they need of the bytes of a template is
that an ASCII character is one byte, its number, and that no byte of another character is such a
number. `Encoding` says that much. UTF-8 is an encoding (`Encoding.utf8`), and so is the one that
takes each byte for the character of its number (`Encoding.latin`), so that what is shown of all
encodings holds of all lists of bytes.

`Encoding.Stands` says which place of the bytes is which place of the characters, and how a place
moves on: by a character, by a number of them, or over a run.
-/

namespace SqlTemplate.Bytes

open SqlTemplate.Text

/-- A way to write characters as bytes. -/
structure Encoding where
  /-- the bytes of a character -/
  bytes : Char → List UInt8
  /-- an ASCII character is the byte of its number -/
  ascii : ∀ {c : Char}, c.toNat < 128 → bytes c = [c.toUInt8]
  /-- any other character has bytes -/
  filled : ∀ {c : Char}, 128 ≤ c.toNat → bytes c ≠ []
  /-- none of which is the number of an ASCII character -/
  high : ∀ {c : Char}, 128 ≤ c.toNat → ∀ b ∈ bytes c, 128 ≤ b.toNat

/-- The byte of an ASCII character is its number. -/
theorem toNat_toUInt8 {c : Char} (h : c.toNat < 128) : c.toUInt8.toNat = c.toNat := by
  rw [Char.toUInt8, UInt32.toNat_toUInt8]
  exact Nat.mod_eq_of_lt (Nat.lt_trans h (by decide))

namespace Encoding

variable (E : Encoding)

/-- The bytes of a text. -/
def encode (s : List Char) : List UInt8 := s.flatMap E.bytes

/-- How many bytes the first `n` characters of a text take. -/
def size (s : List Char) (n : Nat) : Nat := (E.encode (s.take n)).length

variable {E : Encoding} {s front rest : List Char} {c d : Char} {b : UInt8}

@[simp] theorem encode_nil : E.encode [] = [] := rfl

@[simp] theorem encode_cons : E.encode (c :: s) = E.bytes c ++ E.encode s := rfl

@[simp] theorem encode_append : E.encode (s ++ rest) = E.encode s ++ E.encode rest :=
  List.flatMap_append

theorem bytes_ne_nil : E.bytes c ≠ [] := by
  by_cases h : c.toNat < 128
  · rw [E.ascii h]
    exact List.cons_ne_nil _ _
  · exact E.filled (Nat.le_of_not_lt h)

theorem encode_eq_nil : E.encode s = [] ↔ s = [] := by
  cases s with
  | nil => exact iff_of_true rfl rfl
  | cons c s => exact iff_of_false (by simp [bytes_ne_nil]) (List.cons_ne_nil c s)

theorem size_zero : E.size s 0 = 0 := rfl

theorem size_cons (n : Nat) : E.size (c :: s) (n + 1) = (E.bytes c).length + E.size s n := by
  rw [size, List.take_succ_cons, encode_cons, List.length_append]
  rfl

theorem size_cons_of_ascii (h : c.toNat < 128) (n : Nat) :
    E.size (c :: s) (n + 1) = 1 + E.size s n := by
  rw [size_cons, E.ascii h]
  rfl

/-- The bytes of characters one after another. -/
theorem size_add (s : List Char) (m n : Nat) :
    E.size s (m + n) = E.size s m + E.size (s.drop m) n := by
  rw [size, List.take_add, encode_append, List.length_append]
  rfl

/-- The bytes of the first characters are the first bytes. -/
theorem take_size (s : List Char) (n : Nat) :
    (E.encode s).take (E.size s n) = E.encode (s.take n) := by
  have whole : E.encode s = E.encode (s.take n) ++ E.encode (s.drop n) := by
    rw [← encode_append, List.take_append_drop]
  rw [whole, size, List.take_left]

/-! ## Bytes of a character -/

/-- A byte of a character compares with the byte of an ASCII character as the two characters do. -/
theorem toNat_cases (mem : b ∈ E.bytes c) :
    (c.toNat < 128 ∧ b.toNat = c.toNat) ∨ (128 ≤ c.toNat ∧ 128 ≤ b.toNat) := by
  by_cases h : c.toNat < 128
  · rw [E.ascii h] at mem
    rw [List.mem_singleton.mp mem, toNat_toUInt8 h]
    exact .inl ⟨h, rfl⟩
  · exact .inr ⟨Nat.le_of_not_lt h, E.high (Nat.le_of_not_lt h) b mem⟩

theorem eq_toUInt8_iff (hd : d.toNat < 128) (mem : b ∈ E.bytes c) : b = d.toUInt8 ↔ c = d := by
  rw [← UInt8.toNat_inj, ← Char.toNat_inj, toNat_toUInt8 hd]
  have := toNat_cases mem
  omega

theorem toUInt8_le_iff (hd : d.toNat < 128) (mem : b ∈ E.bytes c) : d.toUInt8 ≤ b ↔ d ≤ c := by
  rw [UInt8.le_iff_toNat_le, Char.le_def, UInt32.le_iff_toNat_le, toNat_toUInt8 hd]
  have := toNat_cases mem
  change d.toNat ≤ b.toNat ↔ d.toNat ≤ c.toNat
  omega

theorem le_toUInt8_iff (hd : d.toNat < 128) (mem : b ∈ E.bytes c) : b ≤ d.toUInt8 ↔ c ≤ d := by
  rw [UInt8.le_iff_toNat_le, Char.le_def, UInt32.le_iff_toNat_le, toNat_toUInt8 hd]
  have := toNat_cases mem
  change b.toNat ≤ d.toNat ↔ c.toNat ≤ d.toNat
  omega

/-! ## Runs -/

variable (E) in
/-- What `q` says of a byte is what `p` says of the character that the byte is part of. -/
def Tells (q : UInt8 → Bool) (p : Char → Bool) : Prop := ∀ c, ∀ b ∈ E.bytes c, q b = p c

theorem tells_isBlank : E.Tells isBlank isAsciiBlank := by
  intro c b mem
  simp only [isBlank, isAsciiBlank, Bool.beq_eq_decide_eq,
    eq_toUInt8_iff (d := ' ') (by decide) mem, eq_toUInt8_iff (d := '\t') (by decide) mem,
    eq_toUInt8_iff (d := '\n') (by decide) mem, eq_toUInt8_iff (d := '\x0c') (by decide) mem,
    eq_toUInt8_iff (d := '\r') (by decide) mem]

theorem tells_isName : E.Tells isName isNameChar := by
  intro c b mem
  have ranges : isNameChar c = (decide ('A' ≤ c ∧ c ≤ 'Z') ||
      (decide ('a' ≤ c) && decide (c ≤ 'z')) || (decide ('0' ≤ c) && decide (c ≤ '9')) ||
      c == '_') := rfl
  simp only [isName, ranges, Bool.beq_eq_decide_eq, Bool.decide_and,
    toUInt8_le_iff (d := 'A') (by decide) mem, le_toUInt8_iff (d := 'Z') (by decide) mem,
    toUInt8_le_iff (d := 'a') (by decide) mem, le_toUInt8_iff (d := 'z') (by decide) mem,
    toUInt8_le_iff (d := '0') (by decide) mem, le_toUInt8_iff (d := '9') (by decide) mem,
    eq_toUInt8_iff (d := '_') (by decide) mem]

theorem tells_isWord : E.Tells isWord Mark.isWordChar := by
  intro c b mem
  have ends : b ∈ Mark.wordEnds.map Char.toUInt8 ↔ c ∈ Mark.wordEnds := by
    have ascii : ∀ d ∈ Mark.wordEnds, d.toNat < 128 := by simp [Mark.wordEnds]
    rw [List.mem_map]
    constructor
    · rintro ⟨d, here, same⟩
      rwa [(eq_toUInt8_iff (ascii d here) mem).mp same.symm]
    · exact fun here => ⟨c, here, ((eq_toUInt8_iff (ascii c here) mem).mpr rfl).symm⟩
  rw [isWord, Mark.isWordChar, tells_isBlank c b mem]
  simp only [ends]

theorem tells_isLine : E.Tells isLine Mark.isLineChar := by
  intro c b mem
  simp only [isLine, Mark.isLineChar, bne, Bool.beq_eq_decide_eq,
    eq_toUInt8_iff (d := '\n') (by decide) mem, eq_toUInt8_iff (d := '\r') (by decide) mem]

/-- The longest run in front of the bytes is the bytes of the longest run in front of the
characters. -/
theorem takeWhile_encode {q : UInt8 → Bool} {p : Char → Bool} (tells : E.Tells q p)
    (s : List Char) : (E.encode s).takeWhile q = E.encode (s.takeWhile p) := by
  induction s with
  | nil => rfl
  | cons c s ih =>
    cases holds : p c with
    | true =>
      have all : ∀ b ∈ E.bytes c, q b = true := fun b mem => (tells c b mem).trans holds
      rw [encode_cons, List.takeWhile_append_of_pos all, ih, List.takeWhile_cons_of_pos holds]
      rfl
    | false =>
      obtain ⟨b, more, bytes⟩ := List.exists_cons_of_ne_nil (bytes_ne_nil (E := E) (c := c))
      have ends : ¬q b = true := by
        rw [tells c b (bytes ▸ List.mem_cons_self ..), holds]
        exact Bool.false_ne_true
      rw [encode_cons, bytes, List.cons_append, List.takeWhile_cons_of_neg ends,
        List.takeWhile_cons_of_neg (by rw [holds]; exact Bool.false_ne_true)]
      rfl

/-- The characters of a run are as many as they are. -/
theorem take_run (p : Char → Bool) (s : List Char) : s.take (Mark.run p s) = s.takeWhile p :=
  (List.prefix_iff_eq_take.mp (List.takeWhile_prefix p)).symm

/-! ## Places -/

variable (E) in
/-- Place `i` of the bytes `s` is behind the characters `front`, before the characters `rest`. -/
structure Stands (s : List UInt8) (i : Nat) (front rest : List Char) : Prop where
  bytes : s = E.encode front ++ E.encode rest
  place : i = (E.encode front).length

namespace Stands

variable {s : List UInt8} {i : Nat}

theorem drop_eq (h : E.Stands s i front rest) : s.drop i = E.encode rest := by
  rw [h.bytes, h.place, List.drop_left]

/-- A place moves on by a number of characters. -/
theorem forward (h : E.Stands s i front rest) (n : Nat) :
    E.Stands s (i + E.size rest n) (front ++ rest.take n) (rest.drop n) := by
  refine ⟨?_, ?_⟩
  · rw [encode_append, List.append_assoc, ← encode_append, List.take_append_drop]
    exact h.bytes
  · rw [encode_append, List.length_append, ← h.place]
    rfl

/-- A place moves on by an ASCII character, which is one byte. -/
theorem next (h : E.Stands s i front (c :: rest)) (hc : c.toNat < 128) :
    E.Stands s (i + 1) (front ++ [c]) rest := by
  have moved := h.forward 1
  rwa [size_cons_of_ascii hc, size_zero] at moved

/-- A place moves on across a run. -/
theorem pass_eq (h : E.Stands s i front rest) {q : UInt8 → Bool} {p : Char → Bool}
    (tells : E.Tells q p) : pass q s i = i + E.size rest (Mark.run p rest) := by
  rw [pass, h.drop_eq, takeWhile_encode tells, size, take_run]

theorem passBlanks_eq (h : E.Stands s i front rest) :
    passBlanks s i = i + E.size rest (Mark.blanks rest) := h.pass_eq tells_isBlank

/-- The byte at a place is that of an ASCII character if the character stands there. -/
theorem getElem?_eq_iff (h : E.Stands s i front rest) (hd : d.toNat < 128) :
    s[i]? = some d.toUInt8 ↔ rest.head? = some d := by
  rw [← List.head?_drop, h.drop_eq]
  cases rest with
  | nil => exact iff_of_false nofun nofun
  | cons c rest =>
    obtain ⟨b, more, bytes⟩ := List.exists_cons_of_ne_nil (bytes_ne_nil (E := E) (c := c))
    rw [encode_cons, bytes, List.cons_append, List.head?_cons, List.head?_cons, Option.some_inj,
      Option.some_inj]
    exact eq_toUInt8_iff hd (bytes ▸ List.mem_cons_self ..)

/-- What can be said of the byte at a place can be said of the character. -/
theorem any_getElem? (h : E.Stands s i front rest) {q : UInt8 → Bool} {p : Char → Bool}
    (tells : E.Tells q p) : s[i]?.any q = rest.head?.any p := by
  rw [← List.head?_drop, h.drop_eq]
  cases rest with
  | nil => rfl
  | cons c rest =>
    obtain ⟨b, more, bytes⟩ := List.exists_cons_of_ne_nil (bytes_ne_nil (E := E) (c := c))
    rw [encode_cons, bytes]
    exact tells c b (bytes ▸ List.mem_cons_self ..)

/-- The byte before a place is the last one of the character before it. -/
theorem exists_last (h : E.Stands s i (front ++ [c]) rest) :
    0 < i ∧ ∃ b ∈ E.bytes c, s[i - 1]? = some b := by
  have whole : E.encode (front ++ [c]) = E.encode front ++ E.bytes c := by
    simp
  have some : 0 < (E.bytes c).length := List.length_pos_iff.mpr bytes_ne_nil
  have place : i = (E.encode front).length + (E.bytes c).length := by
    rw [h.place, whole, List.length_append]
  refine ⟨by omega, _, List.getLast_mem bytes_ne_nil, ?_⟩
  rw [h.bytes, whole, List.getElem?_append_left (by rw [List.length_append]; omega),
    List.getElem?_append_right (by omega), List.getLast_eq_getElem,
    show i - 1 - (E.encode front).length = (E.bytes c).length - 1 by omega]
  exact List.getElem?_eq_getElem _

theorem precededBy_iff (h : E.Stands s i front rest) (hd : d.toNat < 128) :
    precededBy s i d.toUInt8 = true ↔ front.getLast? = some d := by
  rcases List.eq_nil_or_concat front with rfl | ⟨front, c, rfl⟩
  · rw [precededBy, h.place]
    exact iff_of_false Bool.false_ne_true nofun
  · rw [List.concat_eq_append] at h
    obtain ⟨pos, b, mem, last⟩ := h.exists_last
    rw [precededBy, last]
    simp [pos, eq_toUInt8_iff hd mem]

/-- A place continues a run of blanks if there are blanks on both sides. -/
theorem inBlankRun_eq (h : E.Stands s i (front ++ [c]) (d :: rest)) :
    inBlankRun s i = (isAsciiBlank c && isAsciiBlank d) := by
  obtain ⟨pos, b, mem, last⟩ := h.exists_last
  rw [inBlankRun, h.any_getElem? tells_isBlank, last, decide_eq_true pos, Bool.true_and,
    Bool.and_comm]
  exact congrArg (· && _) (tells_isBlank c b mem)

end Stands

/-! ## Two encodings -/

/-- Outside of ASCII, the bytes of UTF-8 are none of ASCII. -/
theorem le_of_mem_utf8EncodeChar (h : 128 ≤ c.toNat) :
    ∀ b ∈ String.utf8EncodeChar c, 128 ≤ b.toNat := by
  change 128 ≤ c.val.toNat at h
  unfold String.utf8EncodeChar
  dsimp only
  split_ifs <;> simp only [List.forall_mem_cons, List.not_mem_nil, false_imp_iff, implies_true,
    and_true, UInt8.toNat_ofNat'] <;> omega

theorem utf8EncodeChar_ne_nil (c : Char) : String.utf8EncodeChar c ≠ [] := by
  rw [← List.length_pos_iff, String.length_utf8EncodeChar]
  exact c.utf8Size_pos

/-- An ASCII character is one byte in UTF-8. -/
theorem utf8EncodeChar_of_ascii (h : c.toNat < 128) : String.utf8EncodeChar c = [c.toUInt8] :=
  String.utf8EncodeChar_eq_singleton
    (Char.utf8Size_eq_one_iff.mpr (UInt32.le_iff_toNat_le.mpr (Nat.le_of_lt_succ h)))

/-- UTF-8. -/
def utf8 : Encoding where
  bytes := String.utf8EncodeChar
  ascii := utf8EncodeChar_of_ascii
  filled _ := utf8EncodeChar_ne_nil _
  high := le_of_mem_utf8EncodeChar

/-- Characters take as many bytes as their width tells. -/
theorem length_utf8_encode (s : List Char) : (utf8.encode s).length = width s := by
  induction s with
  | nil => rfl
  | cons c s ih =>
    rw [encode_cons, List.length_append, ih, width_cons, ← String.length_utf8EncodeChar]
    rfl

/-- A string is stored as the bytes of its characters. -/
theorem data_toByteArray (text : String) :
    text.toByteArray.data.toList = utf8.encode text.toList := by
  rw [← String.utf8Encode_toList]
  exact List.toList_data_toByteArray

/-- The bytes of a text are decoded. -/
theorem decode_encode (offset : Nat) (text : String) :
    decode offset (utf8.encode text.toList) = .ok text := by
  have same : (utf8.encode text.toList).toByteArray = text.toByteArray := String.utf8Encode_toList
  unfold decode
  rw [same, String.fromUTF8?, dif_pos text.isValidUTF8]
  rfl

/-- The first byte of a character does not continue one. -/
theorem head?_utf8EncodeChar (c : Char) :
    ∀ b ∈ (String.utf8EncodeChar c).head?, b < 0x80 || 0xc0 ≤ b := by
  unfold String.utf8EncodeChar
  dsimp only
  split_ifs <;> simp only [List.head?_cons, Option.mem_def, Option.some.injEq, forall_eq',
    Bool.or_eq_true, decide_eq_true_eq, UInt8.lt_iff_toNat_lt, UInt8.le_iff_toNat_le,
    UInt8.toNat_ofNat', UInt8.reduceToNat] <;> omega

/-- Bytes in UTF-8 can be cut between any two characters. -/
theorem Stands.isBoundary {s : List UInt8} {i : Nat} (h : utf8.Stands s i front rest) :
    isBoundary s i = true := by
  cases rest with
  | nil =>
    have atEnd : i = s.length := by
      rw [h.place, h.bytes, encode_nil, List.append_nil]
    simp [Bytes.isBoundary, atEnd]
  | cons c rest =>
    obtain ⟨b, more, bytes⟩ := List.exists_cons_of_ne_nil (utf8EncodeChar_ne_nil c)
    have here : s[i]? = some b := by
      rw [← List.head?_drop, h.drop_eq, encode_cons]
      change (String.utf8EncodeChar c ++ _).head? = _
      rw [bytes]
      rfl
    rw [Bytes.isBoundary, here, Option.any_some,
      head?_utf8EncodeChar c b (by rw [bytes]; rfl), Bool.or_true]

/-- One byte for each character that is the number of one. -/
def latin : Encoding where
  bytes c := if c.toNat < 256 then [c.toUInt8] else String.utf8EncodeChar c
  ascii h := if_pos (Nat.lt_trans h (by decide))
  filled _ := by
    split
    · exact List.cons_ne_nil _ _
    · exact utf8EncodeChar_ne_nil _
  high {c} h := by
    split
    · rename_i small
      rw [List.forall_mem_singleton, Char.toUInt8, UInt32.toNat_toUInt8]
      exact (Nat.mod_eq_of_lt small).symm ▸ h
    · exact le_of_mem_utf8EncodeChar h

theorem toNat_ofUInt8 (b : UInt8) : (Char.ofUInt8 b).toNat = b.toNat := UInt8.toNat_toUInt32 b

theorem latin_bytes_ofUInt8 (b : UInt8) : latin.bytes (Char.ofUInt8 b) = [b] := by
  have small : (Char.ofUInt8 b).toNat < 256 := by
    rw [toNat_ofUInt8]
    exact b.toNat_lt
  have back : (Char.ofUInt8 b).toUInt8 = b := UInt8.toUInt8_toUInt32 b
  rw [show latin.bytes (Char.ofUInt8 b) = [(Char.ofUInt8 b).toUInt8] from if_pos small, back]

/-- Any bytes are those of the characters of their numbers. -/
theorem latin_encode_map (s : List UInt8) : latin.encode (s.map Char.ofUInt8) = s := by
  induction s with
  | nil => rfl
  | cons b s ih => rw [List.map_cons, encode_cons, latin_bytes_ofUInt8, ih, List.singleton_append]

/-- Each place of any bytes is between two of the characters of their numbers. -/
theorem latin_stands {s : List UInt8} {i : Nat} (h : i ≤ s.length) :
    latin.Stands s i ((s.take i).map Char.ofUInt8) ((s.drop i).map Char.ofUInt8) := by
  refine ⟨?_, ?_⟩
  · rw [latin_encode_map, latin_encode_map, List.take_append_drop]
  · rw [latin_encode_map, List.length_take, Nat.min_eq_left h]

end Encoding

end SqlTemplate.Bytes
