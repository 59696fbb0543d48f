import KotlinLayout.Code.Node

/-!
Nodes from their parts, with the readings that the parts are given: sequences are listed, and the
priority of a binary operator is a number or the operator's own.
-/

namespace KotlinLayout

namespace Node

def text (value : String) : Node := .scalar (.text value)

def int (value : Int) : Node := .scalar (.int value)

/-- Lists a sequence; a text is the sequence of its characters. -/
def listed : Node → Except Fault (List Node)
  | .list items => .ok items
  | .scalar (.text value) => .ok (value.toList.map fun c => text (String.singleton c))
  | other => .error (.notIterable other.kind)

def quotedNumeralLimit : Nat := 200

/-- Reads a whole number; a decimal loses its fraction. -/
def toInteger : Node → Except Fault Int
  | .scalar (.int value) => .ok value
  | .scalar (.flag value) => .ok (Amount.flag value).toInt
  | .scalar (.decimal digits) =>
      if digits = "nan" then .error .undefinedDecimal
      else if digits = "inf" ∨ digits = "-inf" then .error .infiniteDecimal
      else .ok (Text.truncateDecimal digits)
  | .scalar (.text value) =>
      match Text.readInteger value with
      | .value number => .ok number
      | .tooLong digits => .error (.tooManyDigits Text.digitLimit digits)
      | .malformed =>
          .error (.notAnInteger
            (String.ofList ((Text.quoted value).toList.take quotedNumeralLimit)))
  | other => .error (.notANumber other.kind)

def operatorPriority : Node → Except Fault Int
  | .scalar (.text operator) =>
      match defaultPriority? operator with
      | some priority => .ok priority
      | none => .error (.noDefaultPriority (some (Text.quoted operator)))
  | .list _ => .error (.notHashable "list")
  | other => do .error (.noDefaultPriority (← other.writing.forMessage))

/-- A binary expression whose priority, unless it is absent, overrides the operator's own. -/
def ofBinary (operation left right priority : Node) : Except Fault Node := do
  let priority ← if priority.isNone then operation.operatorPriority else priority.toInteger
  return .binary operation left right priority

def ofCall (function arguments : Node) : Except Fault Node :=
  .call function <$> arguments.listed

def ofInstanceCall (function arguments receiver : Node) : Except Fault Node := do
  return .instanceCall function (← arguments.listed) receiver

def ofNewArray (type dimensions : Node) : Except Fault Node :=
  .newArray type <$> dimensions.listed

end Node

def defaultNestSize : Int := 4

/-- A method as it is given, before its sequences are listed. -/
structure MethodParts where
  name : Node
  modifier : Node := .text ""
  generics : Node := .list []
  parameters : Node := .list []
  returnType : Node := .text "Unit"
  body : Node := .list []
  nestSize : Node := .int defaultNestSize

structure ClassParts where
  name : Node
  package : Node := .text ""
  imports : Node := .list []
  modifier : Node := .text ""
  keyword : Node := .text "class "
  generics : Node := .list []
  superClass : Node := .text ""
  interfaces : Node := .list []
  fields : Node := .list []
  methods : Node := .list []
  nestSize : Node := .int defaultNestSize

namespace Node

def ofMethod (parts : MethodParts) : Except Fault Node := do
  let generics ← parts.generics.listed
  let parameters ← parts.parameters.listed
  let body ← parts.body.listed
  return .methodDecl parts.name parts.modifier generics parameters parts.returnType body
    parts.nestSize

def ofClass (parts : ClassParts) : Except Fault Node := do
  let imports ← parts.imports.listed
  let generics ← parts.generics.listed
  let interfaces ← parts.interfaces.listed
  let fields ← parts.fields.listed
  let methods ← parts.methods.listed
  return .classDecl parts.name parts.package imports parts.modifier parts.keyword generics
    parts.superClass interfaces fields methods parts.nestSize

end Node

end KotlinLayout
