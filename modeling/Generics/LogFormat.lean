import Generics.Text.Blank

/-! # Formats of a log -/

namespace Generics
set_option autoImplicit false

inductive LogFormat
  | text
  | json
deriving DecidableEq, Repr

namespace LogFormat

def name : LogFormat → String
  | .text => "text"
  | .json => "json"

/-- The format of the given name, with white space around it and in any case. Lower case for ASCII will do, since no
other character has a letter of `json` as its lower case. -/
def parse (value : String) : LogFormat :=
  if (Text.trim value.toList).map Char.toLower = "json".toList then .json else .text

end LogFormat

end Generics
