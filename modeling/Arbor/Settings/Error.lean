import Arbor.Grammar.Reader
import Arbor.Turtle.Setup

/-!
# What can be wrong with settings

Every error names the place of the value that is wrong by its path, such as `turtle.step` or
`rules[2]`. All of them are faults of the settings but one: a whole number that is too large for a
double is no number that the program can take.
-/

namespace Arbor.Settings

/-- What is wrong with the operation for a symbol. -/
inductive OperationError
  /-- Neither a text nor an object. -/
  | shape
  /-- There is no name of an operation. -/
  | noName
  /-- No operation has this name. -/
  | unknown (name : String) (known : List String)
  /-- The operation takes none of these options. -/
  | options (names : List String)
  /-- An option is not a truth value. -/
  | notBool (option : String)
  deriving DecidableEq, Repr

/-- The wording of an error in the operation at a path. -/
def OperationError.message (path : String) : OperationError → String
  | shape => s!"{path} must be a string or an object"
  | noName => s!"{path} must have string field 'type'"
  | unknown name known =>
    s!"{path}: unknown command type '{name}' (known: " ++ ", ".intercalate known ++ ")"
  | options names =>
    s!"{path}: fields [" ++ ", ".intercalate (names.map Text.quoted) ++
      "] only apply to 'forward' commands"
  | notBool option => s!"{path}.{option} must be a boolean"

/-- Why settings are refused. -/
inductive Error
  | notObject (path : String)
  | notString (path : String)
  | notNumber (path : String)
  | notInteger (path : String)
  /-- A number is below zero. -/
  | negative (path : String)
  /-- The start word has no symbol. -/
  | emptyStart
  /-- The palette has no color. -/
  | palette
  /-- A key of the table of rules is not a single character. -/
  | ruleKey
  /-- A key of the table of operations is not a single character. -/
  | operationKey
  | operation (path : String) (cause : OperationError)
  /-- The setup of the turtle refuses the numbers. -/
  | setup (cause : Setup.Error)
  /-- The grammar of the settings of this name cannot be read. -/
  | grammar (name : String) (cause : ReadError)
  /-- A whole number is past the largest double. -/
  | tooLarge
  deriving DecidableEq, Repr

/-- The wording of an error. -/
def Error.message : Error → String
  | notObject path => s!"{path} must be an object"
  | notString path => s!"{path} must be a string"
  | notNumber path => s!"{path} must be a number"
  | notInteger path => s!"{path} must be an integer"
  | negative path => s!"{path} must be >= 0"
  | emptyStart => "axiom must be non-empty"
  | palette => "turtle.palette_size must be >= 1"
  | ruleKey => "rules keys must be single-character strings"
  | operationKey => "turtle.commands keys must be single-character strings"
  | operation path cause => cause.message path
  | setup cause => cause.message
  | grammar name cause => s!"{name}: {cause.message}"
  | tooLarge => "int too large to convert to float"

end Arbor.Settings
