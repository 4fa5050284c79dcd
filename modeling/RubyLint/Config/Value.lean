/-!
# Configuration values

The value of a configuration text, as its format (TOML) defines values.
-/

namespace RubyLint

/-- A value of a configuration file. -/
inductive Value where
  | string (text : String)
  | integer (value : Int)
  | boolean (value : Bool)
  /-- A number with a fraction or an exponent, as text: no option is one. -/
  | float (text : String)
  /-- A date or a time, as text: no option is one. -/
  | datetime (text : String)
  | array (items : List Value)
  | table (entries : List (String × Value))
  deriving Inhabited

namespace Value

/-- A text. -/
def string? : Value → Option String
  | string text => some text
  | _ => none

/-- A truth value. -/
def boolean? : Value → Option Bool
  | boolean value => some value
  | _ => none

/-- An integer. -/
def integer? : Value → Option Int
  | integer value => some value
  | _ => none

/-- The items of an array. -/
def array? : Value → Option (List Value)
  | array items => some items
  | _ => none

/-- The entries of a table. -/
def table? : Value → Option (List (String × Value))
  | table entries => some entries
  | _ => none

/-- The key under which the text of a date or a time stands where a table is wanted. -/
def datetimeKey : String := "$__toml_private_datetime"

/-- The entries of a value that can stand for a table. A date or a time can: its only entry is its
text. -/
def entries? : Value → Option (List (String × Value))
  | table entries => some entries
  | datetime text => some [(datetimeKey, string text)]
  | _ => none

/-- An array of texts, all of them. -/
def strings? (v : Value) : Option (List String) :=
  v.array?.bind (·.mapM string?)

end Value

end RubyLint
