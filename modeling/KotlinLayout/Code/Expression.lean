import KotlinLayout.Code.Build

/-!
Documents of expressions. Binary operands get parentheses where the priorities ask for them, and
lines may break before an operator, after a keyword and between the arguments of a call.
-/

namespace KotlinLayout

/-- What one level of nesting is, as far as it is used. -/
inductive NestUnit where
  | columns (indent : Amount)
  /-- No amount of columns, but something that can be doubled. -/
  | repeatable
  /-- Neither. -/
  | fixed (kind : String)

namespace NestUnit

def ofNode : Node → NestUnit
  | .scalar (.int amount) => .columns (.int amount)
  | .scalar (.flag value) => .columns (.flag value)
  | .scalar (.decimal _) | .scalar (.text _) | .list _ => .repeatable
  | other => .fixed other.kind

def indent : NestUnit → Except Fault Amount
  | .columns indent => .ok indent
  | _ => .error .assertion

def doubled : NestUnit → Except Fault NestUnit
  | .columns indent => .ok (.columns (.int (2 * indent.toInt)))
  | .repeatable => .ok .repeatable
  | .fixed kind => .error (.notScalable kind)

def nest (nestUnit : NestUnit) (doc : Doc) : Except Fault Doc := do
  return .nest (← nestUnit.indent) doc

end NestUnit

namespace Doc

def token (token : Token) (text : String) : Doc := .annotated (.token token) (.text text)

def comma : Doc := token .punctuation ","

def dot : Doc := token .punctuation "."

def colon : Doc := token .punctuation ":"

def leftParen : Doc := token .punctuation "("

def rightParen : Doc := token .punctuation ")"

def leftBracket : Doc := token .punctuation "["

def rightBracket : Doc := token .punctuation "]"

def leftBrace : Doc := token .punctuation "\x7b"

def rightBrace : Doc := token .punctuation "\x7d"

def leftAngle : Doc := token .punctuation "<"

def rightAngle : Doc := token .punctuation ">"

def blank : Doc := .text " "

def parenthesized (doc : Doc) : Doc := .concat [leftParen, doc, rightParen]

def operand (withParens : Bool) (doc : Doc) : Doc := if withParens then doc.parenthesized else doc

def indexed (array index : Doc) : Doc := .group (.concat [array, leftBracket, index, rightBracket])

/-- A keyword and a value, which moves to a line of its own if it does not fit. -/
def afterKeyword (keyword value : Doc) (nestUnit : NestUnit) : Except Fault Doc := do
  let value ← nestUnit.nest (.concat [line, value])
  return .group (.concat [keyword, value])

end Doc

namespace Node

def toDoc : Node → Except Fault Doc
  | .scalar (.text value) => Combinator.cast (.text value)
  | .doc value => Combinator.cast value
  | .derived name base =>
      match base.core with
      | .doc .nil => .ok (.foreign .otherNil)
      | .doc value => Combinator.cast value
      | _ => do .error (.notDoc (← (Node.derived name base).writing.forMessage))
  | other => do .error (.notDoc (← other.shown.forMessage))

def toToken (token : Token) (name : Node) : Except Fault Doc :=
  Doc.annotated (.token token) <$> name.toDoc

def priority? (node : Node) : Option Int :=
  match node.core with
  | .binary _ _ _ priority => some priority
  | _ => none

/-- Binary and unary expressions, which are no unit before a dot. -/
def isCompound (node : Node) : Bool :=
  match node.core with
  | .binary .. | .unary .. => true
  | _ => false

/-- A right operand of an operator with this priority always gets its parentheses. -/
def nonAssociativePriority : Int := OperatorLevel.cast.priority

/-- A binary operand of a prefix operator gets parentheses below this priority. -/
def prefixOperandPriority : Int := OperatorLevel.multiplicative.priority

def leftNeedsParens (priority : Int) (left : Node) : Bool :=
  match left.priority? with
  | some inner => inner < priority
  | none => false

def rightNeedsParens (priority : Int) (right : Node) : Bool :=
  match right.priority? with
  | some inner => inner ≤ priority || priority = nonAssociativePriority
  | none => false

def prefixNeedsParens (operand : Node) : Bool :=
  match operand.priority? with
  | some inner => inner < prefixOperandPriority
  | none => false

def isExpression (node : Node) : Bool :=
  match node.core with
  | .constant .. | .binary .. | .unary .. | .field _ | .reference .. | .call .. | .instanceCall ..
  | .new _ | .newArray .. => true
  | _ => false

/-- The document of a constant; only a quoted one keeps its text apart from numbers. -/
def constantDoc (value isString : Node) : Except Fault Doc :=
  if isString.isSet then do
    let content ← Combinator.cast (.text (← value.shown.text))
    return .annotated (.token .literalString) (.concat [.text "\"", content, .text "\""])
  else
    match value with
    | .scalar (.flag true) => .ok (Doc.token .keywordConstant "true")
    | .scalar (.flag false) => .ok (Doc.token .keywordConstant "false")
    | .scalar .none => .ok (Doc.token .keywordConstant "null")
    | other => do
        let content ← Combinator.cast (.text (← other.shown.text))
        return .annotated (.token .number) content

/-- A call of what is already a document. Arguments that do not fit move to lines that are nested
twice, as many to a line as fit. -/
def callDoc (nestUnit : NestUnit) (function : Doc) (arguments : List Doc) : Except Fault Doc :=
  match arguments with
  | [] => .ok (.concat [function, Doc.leftParen, Doc.rightParen])
  | _ => do
      let nestUnit ← nestUnit.doubled
      let arguments ← nestUnit.nest (.fill (arguments.intersperse Doc.line))
      return .group (.concat [function, Doc.leftParen, arguments, Doc.rightParen])

mutual

def expressionDoc (nestUnit : NestUnit) : Node → Except Fault Doc
  | .constant value isString => constantDoc value isString
  | .binary operation left right priority => do
      let leftDoc ← expressionDoc nestUnit left
      let rightDoc ← expressionDoc nestUnit right
      let operator ← operation.toToken .operator
      let rest ← nestUnit.nest (.concat [Doc.line, operator, Doc.blank,
        rightDoc.operand (rightNeedsParens priority right)])
      return .group (.concat [leftDoc.operand (leftNeedsParens priority left), rest])
  | .unary operation operand => do
      let operator ← operation.toToken .operator
      let operandDoc ← expressionDoc nestUnit operand
      return .concat [operator, operandDoc.operand (prefixNeedsParens operand)]
  | .field name => name.toToken .nameVariable
  | .reference name array index =>
      if index.isNone then name.toToken .nameVariable
      else do
        let array ← expressionDoc nestUnit array
        return Doc.indexed array (← expressionDoc nestUnit index)
  | .call function arguments => do
      let function ← function.toToken .nameFunction
      callDoc nestUnit function (← argumentDocs nestUnit arguments)
  | .instanceCall function arguments receiver => do
      let function ← function.toToken .nameFunction
      let receiverDoc ← expressionDoc nestUnit receiver
      let function := .concat [receiverDoc.operand receiver.isCompound, Doc.dot, function]
      callDoc nestUnit function (← argumentDocs nestUnit arguments)
  | .new constructor => do
      Doc.afterKeyword (Doc.token .keyword "new") (← expressionDoc nestUnit constructor) nestUnit
  | .newArray type dimensions => do
      let type ← type.toToken .nameClass
      dimensionDocs nestUnit (← Doc.afterKeyword (Doc.token .keyword "new") type nestUnit)
        dimensions
  | .derived name base =>
      if base.isExpression then expressionDoc nestUnit base
      else .error (.unknownNode .expression name)
  | other => .error (.unknownNode .expression other.kind)

def argumentDocs (nestUnit : NestUnit) : List Node → Except Fault (List Doc)
  | [] => .ok []
  | argument :: rest => do
      let first ← expressionDoc nestUnit argument
      let others ← argumentDocs nestUnit rest
      return (if rest.isEmpty then first else .concat [first, Doc.comma]) :: others

def dimensionDocs (nestUnit : NestUnit) (array : Doc) : List Node → Except Fault Doc
  | [] => .ok array
  | dimension :: rest => do
      dimensionDocs nestUnit (Doc.indexed array (← expressionDoc nestUnit dimension)) rest

end

end Node

end KotlinLayout
