import KotlinLayout.Text.Quoted

/-!
Plain values: what may stand where a document, a label or a part of a program is
expected without being one.
-/

namespace KotlinLayout

/-- A decimal keeps the text it was given in, which is its only written form. -/
inductive Scalar where
  | none
  | flag (value : Bool)
  | int (value : Int)
  | decimal (text : String)
  | text (value : String)
  deriving DecidableEq

namespace Scalar

def kind : Scalar → String
  | .none => "NoneType"
  | .flag _ => "bool"
  | .int _ => "int"
  | .decimal _ => "float"
  | .text _ => "str"

def written : Scalar → String
  | .none => "None"
  | .flag true => "True"
  | .flag false => "False"
  | .int value => toString value
  | .decimal digits => digits
  | .text value => Text.quoted value

def shown : Scalar → String
  | .text value => value
  | other => other.written

/-- Absent values, zeros and the empty text count as unset. -/
def isSet : Scalar → Bool
  | .none => false
  | .flag value => value
  | .int value => value ≠ 0
  | .decimal digits => digits ≠ "0.0" && digits ≠ "-0.0"
  | .text value => value ≠ ""

end Scalar

def commaSeparated (parts : List String) : String := String.intercalate ", " parts

def bracketed (parts : List String) : String := "[" ++ commaSeparated parts ++ "]"

inductive Datum where
  | scalar (value : Scalar)
  | list (items : List Datum)

instance : Inhabited Datum := ⟨.scalar .none⟩

namespace Datum

def kind : Datum → String
  | .scalar value => value.kind
  | .list _ => "list"

mutual

def written : Datum → String
  | .scalar value => value.written
  | .list items => bracketed (writtenAll items)

def writtenAll : List Datum → List String
  | [] => []
  | item :: rest => item.written :: writtenAll rest

end

def shown : Datum → String
  | .scalar value => value.shown
  | other => other.written

end Datum

end KotlinLayout
