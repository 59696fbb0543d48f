import KotlinLayout.Datum
import KotlinLayout.Writing

/-!
What a laid out document consists of: texts, line starts with their indentation, and the marks
where a label begins and ends.
-/

namespace KotlinLayout

inductive Token where
  | keyword
  | keywordConstant
  | keywordDeclaration
  | keywordNamespace
  | nameClass
  | nameFunction
  | nameNamespace
  | nameVariable
  | literalString
  | number
  | operator
  | punctuation
  deriving DecidableEq

namespace Token

def all : List Token :=
  [.keyword, .keywordConstant, .keywordDeclaration, .keywordNamespace, .nameClass, .nameFunction,
    .nameNamespace, .nameVariable, .literalString, .number, .operator, .punctuation]

def name : Token → String
  | .keyword => "KEYWORD"
  | .keywordConstant => "KEYWORD_CONSTANT"
  | .keywordDeclaration => "KEYWORD_DECLARATION"
  | .keywordNamespace => "KEYWORD_NAMESPACE"
  | .nameClass => "NAME_CLASS"
  | .nameFunction => "NAME_FUNCTION"
  | .nameNamespace => "NAME_NAMESPACE"
  | .nameVariable => "NAME_VARIABLE"
  | .literalString => "LITERAL_STRING"
  | .number => "NUMBER"
  | .operator => "OPERATOR"
  | .punctuation => "PUNCTUATION"

def ofName? (name : String) : Option Token := all.find? (·.name = name)

/-- Tokens are numbered from one. -/
def written (token : Token) : String :=
  "<Token." ++ token.name ++ ": " ++ toString (all.idxOf token + 1) ++ ">"

end Token

/-- A document may be annotated with anything; only tokens have a colour. -/
inductive Label where
  | token (value : Token)
  | datum (value : Datum)

def Label.written : Label → String
  | .token value => value.written
  | .datum value => value.written

/-- A whole number, of columns or of items. A flag counts as one or zero and keeps its own written
form. -/
inductive Amount where
  | int (value : Int)
  | flag (value : Bool)
  deriving DecidableEq

namespace Amount

def toInt : Amount → Int
  | .int value => value
  | .flag true => 1
  | .flag false => 0

def written : Amount → String
  | .int value => toString value
  | .flag value => (Scalar.flag value).written

def ofDatum? : Datum → Option Amount
  | .scalar (.int value) => some (.int value)
  | .scalar (.flag value) => some (.flag value)
  | _ => none

end Amount

inductive Item where
  | text (value : String)
  | line (indent : Amount)
  | push (label : Label)
  | pop (label : Label)
  /-- A mark without a meaning. -/
  | blank
  /-- Something else among the items, which no rendering shows. -/
  | datum (value : Datum)

namespace Item

def kind : Item → String
  | .text _ => "str"
  | .line _ => "SLine"
  | .push _ => "SAnnotationPush"
  | .pop _ => "SAnnotationPop"
  | .blank => "SDoc"
  | .datum value => value.kind

def written : Item → Writing String
  | .text value => return Text.quoted value
  | .line indent => return "SLine(" ++ indent.written ++ ")"
  | .push label => return "SAnnotationPush(" ++ label.written ++ ")"
  | .pop label => return "SAnnotationPop(" ++ label.written ++ ")"
  | .blank => Writing.anonymous "SDoc()"
  | .datum value => return value.written

end Item

end KotlinLayout
