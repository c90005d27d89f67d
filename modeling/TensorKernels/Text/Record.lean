/-!
Structured values as text: a record is its name and its fields in order, an optional value is
wrapped or `None`, a list stands in brackets.
-/

namespace TensorKernels.Text

def record (name : String) (fields : List (String × String)) : String :=
  name ++ " \x7b " ++ ", ".intercalate (fields.map fun field => field.1 ++ ": " ++ field.2) ++
    " \x7d"

def optional : Option Nat → String
  | none => "None"
  | some n => "Some(" ++ toString n ++ ")"

def list (items : List Nat) : String :=
  "[" ++ ", ".intercalate (items.map toString) ++ "]"

def flag (b : Bool) : String := if b then "true" else "false"

end TensorKernels.Text
