/-
GraphQL.Coercion.Misfit — why a value does not fit a type.

One constructor per cause, and `Misfit.message` with all the wording.
Types, literals and values are kept as the text that messages show.
-/

namespace GraphQL

/-- Why a value does not fit a type. -/
inductive Misfit where
  /-- A literal of the wrong form. -/
  | wrongForm (expected found : String)
  /-- A value that a type cannot represent. -/
  | unrepresentable (typeName value : String)
  /-- A number that is no integer of 32 bits. -/
  | notInt32 (value : String)
  /-- A value that is no member of an enum. -/
  | notInEnum (typeName value : String)
  /-- `null` where a type excludes it. -/
  | nullRefused (type : String)
  /-- A required argument or input field without value and default. -/
  | notProvided (field fieldType : String)
  /-- A field that an input object does not declare. -/
  | undeclared (field typeName : String)
  /-- A type that input values cannot have. -/
  | notInput (name : String)
  /-- A required variable without value and default. -/
  | variableNotProvided (name variableType : String)
  /-- A variable whose value does not fit its type. -/
  | variableMisfit (name : String) (reason : Misfit)
deriving DecidableEq, Inhabited

namespace Misfit

/-- The wording of an error. -/
def message : Misfit → String
  | .wrongForm expected found =>
    "Expected type \"" ++ expected ++ "\", found " ++ found ++ "."
  | .unrepresentable typeName value => typeName ++ " cannot represent value: " ++ value
  | .notInt32 value => "Int cannot represent non 32-bit signed integer value: " ++ value
  | .notInEnum typeName value =>
    "Enum \"" ++ typeName ++ "\" cannot represent value: " ++ value
  | .nullRefused type => "Expected non-nullable type \"" ++ type ++ "\" not to be null."
  | .notProvided field fieldType =>
    "Field \"" ++ field ++ "\" of required type \"" ++ fieldType ++ "\" was not provided."
  | .undeclared field typeName =>
    "Field \"" ++ field ++ "\" is not defined by type \"" ++ typeName ++ "\"."
  | .notInput name => "Type \"" ++ name ++ "\" is not an input type."
  | .variableNotProvided name variableType =>
    "Variable \"$" ++ name ++ "\" of required type \"" ++ variableType ++ "\" was not provided."
  | .variableMisfit name reason =>
    "Variable \"$" ++ name ++ "\" got invalid value; " ++ reason.message

end Misfit

end GraphQL
