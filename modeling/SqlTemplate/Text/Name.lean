/-!
# Names

The characters of which the names of queries and of their keys are made.
-/

namespace SqlTemplate.Text

/-- The characters of a name: ASCII letters, digits and the underscore. -/
def isNameChar (c : Char) : Bool := c.isAlphanum || c == '_'

end SqlTemplate.Text
