import SqlTemplate.Text.Decimal

/-!
# Tokens of a template

The words that a template is made of. A *lexeme* is a word with what it carries; its *kind* is what
the grammar looks at and what a syntax error names; a *token* is a lexeme with its place in the
template.
-/

namespace SqlTemplate

/-- What the items of a list are joined with. -/
inductive Delimiter where
  /-- opened by `(&)[` -/
  | and
  /-- opened by `(|)[` -/
  | or
  /-- opened by `(,)[` -/
  | comma
  deriving DecidableEq, Repr

/-- The text between two items. -/
def Delimiter.text : Delimiter → String
  | .and => " AND "
  | .or => " OR "
  | .comma => ", "

/-- No delimiter is the empty text, so a list of two items that both say something shows that they
are two. -/
theorem Delimiter.text_ne_empty (d : Delimiter) : d.text ≠ "" := by
  cases d <;> decide

/-! ## Kinds -/

/-- The kinds of lexemes, and the end of the template. -/
inductive TokenKind where
  /-- SQL text, with its characters still doubled -/
  | literal
  /-- `@name` -/
  | key
  /-- `??word`, right after a key -/
  | fallback
  /-- a question mark and an opening brace -/
  | conditionalOpen
  /-- a colon and an opening brace -/
  | elseOpen
  /-- a closing brace -/
  | blockClose
  /-- the opening of a list: `(&)[`, `(|)[` or `(,)[` -/
  | listOpen (delimiter : Delimiter)
  /-- `]` -/
  | listClose
  /-- `;` -/
  | separator
  /-- `...` -/
  | spread
  /-- the end of the template -/
  | eof
  deriving DecidableEq, Repr

/-- How an error message shows a kind. -/
def TokenKind.shown : TokenKind → String
  | .literal => "RawSQL"
  | .key => "Key"
  | .fallback => "??"
  | .conditionalOpen => "?\x7b"
  | .elseOpen => ":\x7b"
  | .blockClose => "\x7d"
  | .listOpen .and => "(&)["
  | .listOpen .or => "(|)["
  | .listOpen .comma => "(,)["
  | .listClose => "]"
  | .separator => ";"
  | .spread => "..."
  | .eof => "EOF"

/-! ## Lexemes and tokens -/

/-- A word of a template, with what it carries. -/
inductive Lexeme where
  /-- SQL text as it is written, doubled characters included -/
  | literal (text : String)
  /-- a name, without its at sign -/
  | key (name : String)
  /-- the word that stands in for an absent name, without its question marks -/
  | fallback (word : String)
  | conditionalOpen
  | elseOpen
  | blockClose
  | listOpen (delimiter : Delimiter)
  | listClose
  | separator
  | spread
  deriving DecidableEq, Repr

/-- The kind of a lexeme. -/
def Lexeme.kind : Lexeme → TokenKind
  | .literal _ => .literal
  | .key _ => .key
  | .fallback _ => .fallback
  | .conditionalOpen => .conditionalOpen
  | .elseOpen => .elseOpen
  | .blockClose => .blockClose
  | .listOpen d => .listOpen d
  | .listClose => .listClose
  | .separator => .separator
  | .spread => .spread

/-- The text that a lexeme carries, if its kind has one. -/
def Lexeme.text? : Lexeme → Option String
  | .literal text => some text
  | .key name => some name
  | .fallback word => some word
  | _ => none

/-- No lexeme is the end of the template. -/
theorem Lexeme.kind_ne_eof (l : Lexeme) : l.kind ≠ .eof := by
  cases l <;> simp [Lexeme.kind]

/-- A lexeme is its kind and what it carries. -/
theorem Lexeme.eq_of_kind_eq {l l' : Lexeme} (kind : l.kind = l'.kind)
    (text : l.text? = l'.text?) : l = l' := by
  cases l <;> cases l' <;> simp_all [Lexeme.kind, Lexeme.text?]

/-- A lexeme and its place in the template. -/
structure Token where
  /-- the word -/
  lexeme : Lexeme
  /-- the place of its first byte -/
  offset : Nat
  /-- the bytes it takes, the blanks it swallows included -/
  length : Nat
  deriving DecidableEq, Repr

/-- The kind of a token is that of its lexeme. -/
abbrev Token.kind (t : Token) : TokenKind := t.lexeme.kind

/-! ## Syntax errors -/

/-- A token that cannot stand where it stands. -/
structure SyntaxError where
  /-- the kind of the token that was met -/
  found : TokenKind
  /-- the one kind that could have stood there, where there is only one -/
  expected : Option TokenKind
  /-- the place of the token that was met -/
  offset : Nat
  deriving DecidableEq, Repr

/-- The wording of a syntax error. -/
def SyntaxError.message (e : SyntaxError) : String :=
  "unexpected token '" ++ e.found.shown ++ "' near character " ++ Text.natural e.offset ++
    match e.expected with
    | none => ""
    | some kind => ", expected '" ++ kind.shown ++ "'"

end SqlTemplate
