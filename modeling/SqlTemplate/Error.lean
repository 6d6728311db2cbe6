import SqlTemplate.Data
import SqlTemplate.Statement
import SqlTemplate.Token

/-!
# Errors

The ways in which compiling, rendering and loading queries can fail, and their wording.
-/

namespace SqlTemplate

/-- Why a query could not be compiled, rendered or registered, or data not be taken as a value. -/
inductive Error where
  /-- a template that breaks the grammar -/
  | grammar (e : SyntaxError)
  /-- a spread whose name has no list -/
  | mismatch (m : Mismatch)
  /-- a query without text -/
  | emptyUnit (name : String)
  /-- a source with two queries of one name -/
  | duplicateName (name : String)
  /-- a source with a query whose name is registered already -/
  | alreadyRegistered (name source : String)
  /-- data that stands for no value -/
  | encoding (e : EncodingError)
  /-- a path pattern that cannot be searched for, and why not -/
  | badPattern (pattern reason : String)
  /-- a path that a search meets and cannot look at -/
  | badPath (reason : String)
  /-- a file that cannot be read -/
  | badFile (path reason : String)
  deriving Repr

/-- The wording of an error. -/
def Error.message : Error → String
  | .grammar e => "Syntax Error: " ++ e.message
  | .mismatch m => "Type Mismatch: " ++ m.message
  | .emptyUnit name => "Empty Query: '" ++ name ++ "' has no SQL text"
  | .duplicateName name => "Duplicate Query Name: " ++ name
  | .alreadyRegistered name source =>
    "Duplicate Query Name: " ++ name ++ " (Source: " ++ source ++ ")"
  | .encoding e => "Serialization Error: " ++ e.message
  | .badPattern pattern reason =>
    "Query Load Error: Invalid glob pattern '" ++ pattern ++ "': " ++ reason
  | .badPath reason => "Query Load Error: Failed to read path: " ++ reason
  | .badFile path reason => "Query Load Error: Failed to read " ++ path ++ ": " ++ reason

end SqlTemplate
