import SqlTemplate.Source

/-!
# Registry

A *registry* holds the queries of accepted sources by name. A source is accepted as a whole or not
at all: if one of its queries fails, or has a name that is registered already, none of them is
registered. Several sources are taken in order up to the first that is not accepted, and the ones
before it stay registered. A query that is registered stays what it is until the registry is
cleared.

Sources also come from files whose paths match a pattern. They are taken as all sources are
(`Registry.loadFound_eq`).
-/

namespace SqlTemplate

/-- Registered queries by name. -/
structure Registry where
  /-- the queries in the order in which they were registered -/
  queries : Entries Query
  deriving Repr

namespace Registry

/-- Nothing is registered. -/
def empty : Registry := ⟨[]⟩

/-- The query that is registered under a name. -/
def find? (r : Registry) (name : String) : Option Query := Entries.find? name r.queries

/-- Registers the queries of a source, if none of them has a name that is registered already. -/
def accept (r : Registry) (source text : String) : Except Error Registry := do
  let queries ← Source.queries text
  match queries.names.find? fun name => (r.find? name).isSome with
  | some name => .error (.alreadyRegistered name source)
  | none => return ⟨r.queries ++ queries⟩

/-- Forgets every query. -/
def clear (_ : Registry) : Registry := empty

/-- What taking several sources in order leads to. -/
structure Outcome where
  /-- the registry with the sources that were accepted -/
  registry : Registry
  /-- why the first source that was not accepted was not, if there is one -/
  error : Option Error
  deriving Repr

/-- Takes sources in order, each a name and a text, up to the first that is not accepted. -/
def loadAssets (r : Registry) : List (String × String) → Outcome
  | [] => ⟨r, none⟩
  | (source, text) :: rest =>
    match r.accept source text with
    | .ok next => next.loadAssets rest
    | .error e => ⟨r, some e⟩

/-! ## Files -/

/-- What a search for the paths that match a pattern comes to, one path after another. The search
goes on when the next one is asked for. -/
inductive Search (P : Type) where
  /-- there are no more paths -/
  | done
  /-- a path that matches -/
  | path (path : P) (next : Unit → Search P)
  /-- a path that cannot be looked at, and why not -/
  | failure (reason : String) (next : Unit → Search P)

/-- The files that sources are loaded from, as far as a registry looks at them. How patterns are
read and searched for, and how files are read, is up to them. -/
structure Files (P : Type) where
  /-- what a search for a pattern comes to, or why the pattern cannot be searched for -/
  search : String → Except String (Search P)
  /-- how messages show a path -/
  display : P → String
  /-- whether a file is at a path -/
  isFile : P → Bool
  /-- the bytes of a file, or why it cannot be read -/
  read : P → Except String ByteArray

variable {P : Type}

/-- The text of a file. -/
def textOf (files : Files P) (path : P) : Except Error String :=
  match files.read path with
  | .error reason => .error (.badFile (files.display path) reason)
  | .ok bytes =>
    match String.fromUTF8? bytes with
    | some text => .ok text
    | none => .error (.badFile (files.display path) "stream did not contain valid UTF-8")

/-- Takes the files among the paths of a search, in order, up to the first that is not accepted. -/
def loadFound (r : Registry) (files : Files P) : Search P → Outcome
  | .done => ⟨r, none⟩
  | .failure reason _ => ⟨r, some (.badPath reason)⟩
  | .path path next =>
    if files.isFile path then
      match (textOf files path).bind (r.accept (files.display path)) with
      | .ok accepted => accepted.loadFound files (next ())
      | .error e => ⟨r, some e⟩
    else r.loadFound files (next ())

/-- Takes the files whose paths match a pattern. -/
def load (r : Registry) (files : Files P) (pattern : String) : Outcome :=
  match files.search pattern with
  | .error reason => ⟨r, some (.badPattern pattern reason)⟩
  | .ok found => r.loadFound files found

/-- The sources that a search finds before the first path that cannot be looked at or read, and why
it cannot be. -/
def gather (files : Files P) : Search P → List (String × String) × Option Error
  | .done => ([], none)
  | .failure reason _ => ([], some (.badPath reason))
  | .path path next =>
    if files.isFile path then
      match textOf files path with
      | .ok text =>
        ((files.display path, text) :: (gather files (next ())).1, (gather files (next ())).2)
      | .error e => ([], some e)
    else gather files (next ())

/-- Files are taken as sources are. A path that cannot be looked at or read is an error only if all
sources before it are accepted. -/
theorem loadFound_eq (r : Registry) (files : Files P) (search : Search P) :
    r.loadFound files search = ⟨(r.loadAssets (gather files search).1).registry,
      (r.loadAssets (gather files search).1).error.or (gather files search).2⟩ := by
  induction search generalizing r with
  | done => rfl
  | failure reason next => rfl
  | path path next ih =>
    rw [loadFound, gather]
    split
    · cases textOf files path with
      | error e => rfl
      | ok text =>
        simp only [Except.bind, loadAssets]
        cases r.accept (files.display path) text with
        | error e => rfl
        | ok accepted => exact ih () accepted
    · exact ih () r

end Registry

end SqlTemplate
