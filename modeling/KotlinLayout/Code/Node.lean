import KotlinLayout.Code.Operator
import KotlinLayout.Doc.Combinator
import KotlinLayout.Text.Numeral

/-!
Programs as trees of nodes. Names, operators, types and the like are nodes too, since anything
may be put in their place; printing asks them for a document.
-/

namespace KotlinLayout

inductive Node where
  | scalar (value : Scalar)
  | list (items : List Node)
  | doc (value : Doc)
  /-- Something without any properties. -/
  | object
  /-- An expression and a statement that are no particular one. -/
  | bareExpression
  | bareStatement
  | constant (value isString : Node)
  | binary (operation left right : Node) (priority : Int)
  | unary (operation operand : Node)
  | field (name : Node)
  /-- A local variable, or the element of an array if the index is not absent. -/
  | reference (name array index : Node)
  | call (function : Node) (arguments : List Node)
  | instanceCall (function : Node) (arguments : List Node) (receiver : Node)
  | new (constructor : Node)
  | newArray (type : Node) (dimensions : List Node)
  | assignment (left right : Node)
  | returning (value : Node)
  | throwing (value : Node)
  | methodDecl (name modifier : Node) (generics parameters : List Node) (returnType : Node)
      (body : List Node) (nestSize : Node)
  | classDecl (name package : Node) (imports : List Node) (modifier keyword : Node)
      (generics : List Node) (superClass : Node) (interfaces fields methods : List Node)
      (nestSize : Node)
  /-- The same node under the name of a kind that extends its own. -/
  | derived (name : String) (base : Node)

instance : Inhabited Node := ⟨.object⟩

namespace Node

mutual

def ofDatum : Datum → Node
  | .scalar value => .scalar value
  | .list items => .list (ofData items)

def ofData : List Datum → List Node
  | [] => []
  | item :: rest => ofDatum item :: ofData rest

end

/-- A plain value is the same node whether it was given as a document or not. -/
def ofDoc : Doc → Node
  | .text value => .scalar (.text value)
  | .foreign (.datum value) => ofDatum value
  | other => .doc other

def kind : Node → String
  | .scalar value => value.kind
  | .list _ => "list"
  | .doc value => value.kind
  | .object => "object"
  | .bareExpression => "Expression"
  | .bareStatement => "Statement"
  | .constant .. => "Constant"
  | .binary .. => "BinaryExpression"
  | .unary .. => "UnaryExpression"
  | .field _ => "Field"
  | .reference .. => "Variable"
  | .call .. => "Invocation"
  | .instanceCall .. => "InstanceInvocation"
  | .new _ => "New"
  | .newArray .. => "NewArray"
  | .assignment .. => "Assignment"
  | .returning _ => "Return"
  | .throwing _ => "Throw"
  | .methodDecl .. => "KotlinMethod"
  | .classDecl .. => "KotlinClass"
  | .derived name _ => name

def core : Node → Node
  | .derived _ base => base.core
  | node => node

def isNone : Node → Bool
  | .scalar .none => true
  | _ => false

/-- Plain values count by their content, and every node of a program counts as set. -/
def isSet : Node → Bool
  | .scalar value => value.isSet
  | .list items => !items.isEmpty
  | _ => true

mutual

def writing : Node → Writing String
  | .scalar value => return value.written
  | .list items => return bracketed (← writingAll items)
  | .doc value => value.writing
  | .object => Writing.anonymous "object()"
  | .bareExpression => Writing.anonymous "Expression()"
  | .bareStatement => Writing.anonymous "Statement()"
  | .constant value isString => do
      let value ← value.writing
      let isString ←
        match isString with
        | .scalar flag => pure flag.shown
        | other => other.writing
      return "Constant(" ++ value ++ ", is_string=" ++ isString ++ ")"
  | .binary operation left right priority => do
      let operation ← operation.writing
      let left ← left.writing
      let right ← right.writing
      return "BinaryExpression(" ++ commaSeparated [operation, left, right] ++ ", priority=" ++
        toString priority ++ ")"
  | .unary operation operand => do
      let operation ← operation.writing
      return "UnaryExpression(" ++ commaSeparated [operation, ← operand.writing] ++ ")"
  | .field name => return "Field(" ++ (← name.writing) ++ ")"
  | .reference name array index => do
      let name ← name.writing
      if index.isNone then return "Variable(" ++ name ++ ")"
      else
        let array ← array.writing
        return "Variable(" ++ commaSeparated [name, array, ← index.writing] ++ ")"
  | .call function arguments => do
      let function ← function.writing
      return "Invocation(" ++ commaSeparated [function, bracketed (← writingAll arguments)] ++ ")"
  | .instanceCall function arguments receiver => do
      let function ← function.writing
      let arguments ← writingAll arguments
      return "InstanceInvocation(" ++
        commaSeparated [function, bracketed arguments, ← receiver.writing] ++ ")"
  | .new constructor => return "New(" ++ (← constructor.writing) ++ ")"
  | .newArray type dimensions => do
      let type ← type.writing
      return "NewArray(" ++ commaSeparated [type, bracketed (← writingAll dimensions)] ++ ")"
  | .assignment left right => do
      let left ← left.writing
      return "Assignment(" ++ commaSeparated [left, ← right.writing] ++ ")"
  | .returning value => return "Return(" ++ (← value.writing) ++ ")"
  | .throwing value => return "Throw(" ++ (← value.writing) ++ ")"
  | .methodDecl name .. => return "KotlinMethod(" ++ (← name.writing) ++ ")"
  | .classDecl name .. => return "KotlinClass(" ++ (← name.writing) ++ ")"
  | .derived _ base => base.writing

def writingAll : List Node → Writing (List String)
  | [] => return []
  | item :: rest => do
      let first ← item.writing
      return first :: (← writingAll rest)

end

def written (node : Node) : Except Fault String := node.writing.text

/-- The node as part of a sentence: a text stands without quotes. -/
def shown : Node → Writing String
  | .scalar value => return value.shown
  | other => other.writing

end Node

end KotlinLayout
