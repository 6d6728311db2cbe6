import SqlTemplate.Token.Mark

/-!
# Scanning bytes

A template is stored as the bytes of its characters, and these are what a scan looks at. The rules
find a mark at a place in the bytes: they read the byte at the place and those behind it, and a rule
that looks back reads the one before. The scan then takes slices of the template by the places that
the rules tell.

Two things can go wrong with that, and a scan says so (`Bytes.Fault`): a slice begins inside a
character, or the bytes of a token's text are not UTF-8. Neither ever happens, since the bytes of a
template are cut where its characters are (`Bytes.scan_eq`).
-/

namespace SqlTemplate.Bytes

/-! ## Bytes and runs -/

/-- The bytes of the ASCII blanks. -/
def isBlank (b : UInt8) : Bool :=
  b == ' '.toUInt8 || b == '\t'.toUInt8 || b == '\n'.toUInt8 || b == '\x0c'.toUInt8 ||
    b == '\r'.toUInt8

/-- The bytes of a name. -/
def isName (b : UInt8) : Bool :=
  ('A'.toUInt8 ≤ b && b ≤ 'Z'.toUInt8) || ('a'.toUInt8 ≤ b && b ≤ 'z'.toUInt8) ||
    ('0'.toUInt8 ≤ b && b ≤ '9'.toUInt8) || b == '_'.toUInt8

/-- The bytes of the word of a fallback. -/
def isWord (b : UInt8) : Bool := !isBlank b && b ∉ Mark.wordEnds.map Char.toUInt8

/-- The bytes of a line comment. -/
def isLine (b : UInt8) : Bool := b != '\n'.toUInt8 && b != '\r'.toUInt8

/-- The place behind the longest run at place `i` all of whose bytes satisfy `p`. -/
def pass (p : UInt8 → Bool) (s : List UInt8) (i : Nat) : Nat :=
  i + ((s.drop i).takeWhile p).length

/-- The place behind the blanks at place `i`. -/
def passBlanks (s : List UInt8) (i : Nat) : Nat := pass isBlank s i

/-- Whether the byte before place `i` is `b`. -/
def precededBy (s : List UInt8) (i : Nat) (b : UInt8) : Bool := 0 < i && s[i - 1]? == some b

/-- Whether place `i` continues a run of blanks. -/
def inBlankRun (s : List UInt8) (i : Nat) : Bool :=
  0 < i && s[i]?.any isBlank && s[i - 1]?.any isBlank

/-! ## The rules -/

/-- What a rule finds: a comment, or a token with the bytes of its text, and how many bytes it
takes. -/
inductive Found where
  | comment (length : Nat)
  | token (kind : TokenKind) (length : Nat) (text : Option (List UInt8))
  deriving DecidableEq, Repr

/-- The number of bytes that are taken. -/
def Found.length : Found → Nat
  | .comment n => n
  | .token _ n _ => n

/-- `@name`, where the at sign is not the second of two. -/
def key? (s : List UInt8) (i : Nat) : Option Found :=
  let stop := pass isName s (i + 1)
  if s[i]? = some '@'.toUInt8 ∧ ¬precededBy s i '@'.toUInt8 ∧ stop ≠ i + 1 then
    some (.token .key (stop - i) (some (s.extract (i + 1) stop)))
  else none

/-- `??word` in front of a text. -/
def fallback? (s : List UInt8) : Option Found :=
  let stop := pass isWord s 2
  if s[0]? = some '?'.toUInt8 ∧ s[1]? = some '?'.toUInt8 ∧ stop ≠ 2 then
    some (.token .fallback stop (some (s.extract 2 stop)))
  else none

/-- The place behind the opening byte `b`, not doubled, with the blanks around it. -/
def opening? (b : UInt8) (s : List UInt8) (i : Nat) : Option Nat :=
  let j := passBlanks s i
  if s[j]? = some b ∧ s[j + 1]? ≠ some b then some (passBlanks s (j + 1)) else none

/-- The place behind the byte `sign` after blanks, and an opening brace. -/
def blockOpen? (sign : UInt8) (s : List UInt8) (i : Nat) : Option Nat :=
  let j := passBlanks s i
  if s[j]? = some sign then opening? '{'.toUInt8 s (j + 1) else none

/-- The place behind the byte `sign` in parentheses, and an opening bracket. -/
def listOpen? (sign : UInt8) (s : List UInt8) (i : Nat) : Option Nat :=
  if s[i]? = some '('.toUInt8 ∧ s[i + 1]? = some sign ∧ s[i + 2]? = some ')'.toUInt8 then
    opening? '['.toUInt8 s (i + 3)
  else none

/-- The place behind exactly `n` of the byte `b` after blanks. -/
def alone? (b : UInt8) (n : Nat) (s : List UInt8) (i : Nat) : Option Nat :=
  let j := passBlanks s i
  if (s.drop j).take n = List.replicate n b ∧ s[j + n]? ≠ some b ∧ ¬precededBy s j b then
    some (j + n)
  else none

/-- The place behind two hyphens after blanks, and the rest of their line. -/
def lineComment? (s : List UInt8) (i : Nat) : Option Nat :=
  let j := passBlanks s i
  if s[j]? = some '-'.toUInt8 ∧ s[j + 1]? = some '-'.toUInt8 then some (pass isLine s (j + 2))
  else none

/-- The number of bytes before the first `*/`. -/
def commentEnd? : List UInt8 → Option Nat
  | [] => none
  | b :: rest =>
    if b = '*'.toUInt8 ∧ rest.head? = some '/'.toUInt8 then some 0
    else (commentEnd? rest).map (· + 1)

/-- The place behind a block comment. -/
def blockComment? (s : List UInt8) (i : Nat) : Option Nat :=
  if s[i]? = some '/'.toUInt8 ∧ s[i + 1]? = some '*'.toUInt8 then
    (commentEnd? (s.drop (i + 2))).map fun n => i + 2 + n + 2
  else none

/-- What a rule finds at place `i`. A fallback can only stand in front, and only if `afterKey`. -/
def find? (s : List UInt8) (i : Nat) (afterKey : Bool) : Mark.Rule → Option Found
  | .key => key? s i
  | .fallback => if afterKey ∧ i = 0 then fallback? s else none
  | .conditionalOpen => (blockOpen? '?'.toUInt8 s i).map (control .conditionalOpen)
  | .elseOpen => (blockOpen? ':'.toUInt8 s i).map (control .elseOpen)
  | .blockClose => (alone? '}'.toUInt8 1 s i).map (control .blockClose)
  | .listOpen d => (listOpen? (Mark.listSign d).toUInt8 s i).map (control (.listOpen d))
  | .listClose => (alone? ']'.toUInt8 1 s i).map (control .listClose)
  | .separator => (alone? ';'.toUInt8 1 s i).map fun j => control .separator (passBlanks s j)
  | .spread => (alone? '.'.toUInt8 3 s i).map fun j => control .spread (passBlanks s j)
  | .lineComment => (lineComment? s i).map fun stop => .comment (stop - i)
  | .blockComment => (blockComment? s i).map fun stop => .comment (stop - i)
where
  /-- A token up to the place `stop` that carries no text. -/
  control (kind : TokenKind) (stop : Nat) : Found := .token kind (stop - i) none

/-- The mark that stands at place `i`. The rules are tried in the order in which they are tried on
characters. -/
def matchAt (s : List UInt8) (i : Nat) (afterKey : Bool) : Option Found :=
  Mark.Rule.all.findSome? (find? s i afterKey)

/-! ## What stands in front -/

/-- Whether literal text ends before place `i`: a mark stands there, and the place does not continue
a run of blanks. -/
def endsAt (s : List UInt8) (i : Nat) : Bool := !inBlankRun s i && (matchAt s i false).isSome

/-- The place where literal text in front ends: the first one behind its first byte where it can. -/
def literalEnd (s : List UInt8) : Nat :=
  ((List.range' 1 (s.length - 1)).find? (endsAt s)).getD s.length

/-- What stands in front of a text: a mark, or literal text. -/
def front (afterKey : Bool) (s : List UInt8) : Found :=
  (matchAt s 0 afterKey).getD (.token .literal (literalEnd s) (some (s.take (literalEnd s))))

/-! ## Every rule takes a byte -/

theorem le_pass (p : UInt8 → Bool) (s : List UInt8) (i : Nat) : i ≤ pass p s i :=
  Nat.le_add_right ..

theorem le_passBlanks (s : List UInt8) (i : Nat) : i ≤ passBlanks s i := le_pass ..

section Length

variable {s : List UInt8} {i j : Nat} {afterKey : Bool} {f : Found}

theorem lt_of_opening? {b : UInt8} (h : opening? b s i = some j) : i < j := by
  obtain ⟨-, stop⟩ := Option.ite_none_right_eq_some.mp h
  cases stop
  have := le_passBlanks s i
  have := le_passBlanks s (passBlanks s i + 1)
  omega

theorem lt_of_blockOpen? {sign : UInt8} (h : blockOpen? sign s i = some j) : i < j := by
  obtain ⟨-, opening⟩ := Option.ite_none_right_eq_some.mp h
  have := le_passBlanks s i
  have := lt_of_opening? opening
  omega

theorem lt_of_listOpen? {sign : UInt8} (h : listOpen? sign s i = some j) : i < j := by
  obtain ⟨-, opening⟩ := Option.ite_none_right_eq_some.mp h
  have := lt_of_opening? opening
  omega

theorem lt_of_alone? {b : UInt8} {n : Nat} (pos : 0 < n) (h : alone? b n s i = some j) :
    i < j := by
  obtain ⟨-, stop⟩ := Option.ite_none_right_eq_some.mp h
  cases stop
  have := le_passBlanks s i
  omega

theorem lt_of_lineComment? (h : lineComment? s i = some j) : i < j := by
  obtain ⟨-, stop⟩ := Option.ite_none_right_eq_some.mp h
  cases stop
  have := le_passBlanks s i
  have := le_pass isLine s (passBlanks s i + 2)
  omega

theorem lt_of_blockComment? (h : blockComment? s i = some j) : i < j := by
  obtain ⟨-, ends⟩ := Option.ite_none_right_eq_some.mp h
  obtain ⟨n, -, rfl⟩ := Option.map_eq_some_iff.mp ends
  omega

theorem length_pos_of_key? (h : key? s i = some f) : 0 < f.length := by
  obtain ⟨-, found⟩ := Option.ite_none_right_eq_some.mp h
  cases found
  have := le_pass isName s (i + 1)
  simp only [Found.length]
  omega

theorem length_pos_of_fallback? (h : fallback? s = some f) : 0 < f.length := by
  obtain ⟨-, found⟩ := Option.ite_none_right_eq_some.mp h
  cases found
  have := le_pass isWord s 2
  simp only [Found.length]
  omega

/-- Whatever a rule finds takes at least one byte. -/
theorem length_pos_of_find? {r : Mark.Rule} (h : find? s i afterKey r = some f) :
    0 < f.length := by
  cases r <;> simp only [find?, Option.map_eq_some_iff] at h
  case key => exact length_pos_of_key? h
  case fallback => exact length_pos_of_fallback? (Option.ite_none_right_eq_some.mp h).2
  all_goals obtain ⟨j, hj, rfl⟩ := h
  case conditionalOpen => exact Nat.sub_pos_of_lt (lt_of_blockOpen? hj)
  case elseOpen => exact Nat.sub_pos_of_lt (lt_of_blockOpen? hj)
  case blockClose => exact Nat.sub_pos_of_lt (lt_of_alone? Nat.one_pos hj)
  case listOpen => exact Nat.sub_pos_of_lt (lt_of_listOpen? hj)
  case listClose => exact Nat.sub_pos_of_lt (lt_of_alone? Nat.one_pos hj)
  case separator =>
    exact Nat.sub_pos_of_lt (Nat.lt_of_lt_of_le (lt_of_alone? Nat.one_pos hj) (le_passBlanks s j))
  case spread =>
    exact Nat.sub_pos_of_lt (Nat.lt_of_lt_of_le (lt_of_alone? (by omega) hj) (le_passBlanks s j))
  case lineComment => exact Nat.sub_pos_of_lt (lt_of_lineComment? hj)
  case blockComment => exact Nat.sub_pos_of_lt (lt_of_blockComment? hj)

/-- Literal text has at least the byte that it begins with. -/
theorem literalEnd_pos (filled : s ≠ []) : 0 < literalEnd s := by
  unfold literalEnd
  cases found : (List.range' 1 (s.length - 1)).find? (endsAt s) with
  | none => exact List.length_pos_iff.mpr filled
  | some i => exact (List.mem_range'_1.mp (List.mem_of_find?_eq_some found)).1

/-- What stands in front takes at least one byte. -/
theorem length_pos_front (afterKey : Bool) (filled : s ≠ []) : 0 < (front afterKey s).length := by
  unfold front
  cases found : matchAt s 0 afterKey with
  | none => exact literalEnd_pos filled
  | some f =>
    obtain ⟨r, -, here⟩ := List.exists_of_findSome?_eq_some found
    exact length_pos_of_find? here

end Length

/-! ## The scan -/

/-- A token with its text, where its kind has one. -/
structure Token where
  kind : TokenKind
  text : Option String
  /-- the place of its first byte -/
  offset : Nat
  /-- the bytes it takes -/
  length : Nat
  deriving DecidableEq, Repr

/-- A token of a scan of characters, as a scan of bytes tells it. -/
def Token.ofToken (t : SqlTemplate.Token) : Token := ⟨t.kind, t.lexeme.text?, t.offset, t.length⟩

/-- Nothing is lost of a token: its kind and its text make up the lexeme. -/
theorem Token.ofToken_injective : Function.Injective Token.ofToken := by
  rintro ⟨l, offset, length⟩ ⟨l', offset', length'⟩ same
  obtain ⟨kind, text, sameOffset, sameLength⟩ := Token.mk.inj same
  exact congr (congr (congrArg _ (Lexeme.eq_of_kind_eq kind text)) sameOffset) sameLength

/-- What a scan goes through. -/
structure Run where
  /-- the places at which the template was cut, its end included -/
  places : List Nat
  /-- the tokens in order -/
  tokens : List Token
  deriving DecidableEq, Repr

/-- What can go wrong in a scan. -/
inductive Fault where
  /-- a slice does not begin between two characters -/
  | cut (place : Nat)
  /-- the text of the token at a place is not UTF-8 -/
  | lossy (offset : Nat)
  deriving DecidableEq, Repr

/-- Whether bytes in UTF-8 can be cut at place `i`: it is one of the ends, or the byte there does
not continue a character. -/
def isBoundary (s : List UInt8) (i : Nat) : Bool :=
  i == 0 || i == s.length || s[i]?.any fun b => b < 0x80 || 0xc0 ≤ b

/-- The text of the token at place `offset`. -/
def decode (offset : Nat) (bytes : List UInt8) : Except Fault String :=
  match String.fromUTF8? bytes.toByteArray with
  | some text => .ok text
  | none => .error (.lossy offset)

/-- The token that was found at place `offset`, if it is one. -/
def Found.tokens (offset : Nat) : Found → Except Fault (List Token)
  | .comment _ => return []
  | .token kind n text => do
    let text ← text.mapM (decode offset)
    return [⟨kind, text, offset, n⟩]

/-- Whether the text behind follows a key. -/
def Found.keyBefore (afterKey : Bool) : Found → Bool
  | .comment _ => afterKey
  | .token kind .. => kind = .key

/-- Scans a template from place `offset` on, where `afterKey` says that the text there follows a
key. The slice of literal text ends where the next slice begins, and its end is looked at there. -/
def run (template : List UInt8) (afterKey : Bool) (offset : Nat) : Except Fault Run :=
  if isBoundary template offset then
    if offset < template.length then do
      let tokens ← (front afterKey (template.drop offset)).tokens offset
      let behind ← run template ((front afterKey (template.drop offset)).keyBefore afterKey)
        (offset + (front afterKey (template.drop offset)).length)
      return ⟨offset :: behind.places, tokens ++ behind.tokens⟩
    else return ⟨[offset], []⟩
  else .error (.cut offset)
termination_by template.length - offset
decreasing_by
  have pos := length_pos_front afterKey (s := template.drop offset)
    (by rw [← List.length_pos_iff, List.length_drop]; omega)
  omega

/-- Scans the bytes of a template. -/
def scan (template : String) : Except Fault Run := run template.toByteArray.data.toList false 0

end SqlTemplate.Bytes
