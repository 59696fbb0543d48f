import KotlinLayout.Code.Expression

/-!
Documents of statements, one below the other.
-/

namespace KotlinLayout.Node

def assignmentDoc (nestUnit : NestUnit) (left right : Node) : Except Fault Doc := do
  let left ← expressionDoc nestUnit left
  let right ← expressionDoc nestUnit right
  let right ← nestUnit.nest (.concat [Doc.line, right])
  return .group (.concat [left, Doc.blank, Doc.token .operator "=", right])

/-- Nodes that stand for an action; a call is one as well as an expression. -/
def isStatement (node : Node) : Bool :=
  match node.core with
  | .assignment .. | .returning _ | .throwing _ | .call .. | .instanceCall .. => true
  | _ => false

def statementDoc (nestUnit : NestUnit) : Node → Except Fault Doc
  | .assignment left right => assignmentDoc nestUnit left right
  | .returning value =>
      if value.isNone then .ok (Doc.token .keyword "return")
      else do
        Doc.afterKeyword (Doc.token .keyword "return") (← expressionDoc nestUnit value) nestUnit
  | .throwing value => do
      Doc.afterKeyword (Doc.token .keyword "throw") (← expressionDoc nestUnit value) nestUnit
  | .call function arguments => expressionDoc nestUnit (.call function arguments)
  | .instanceCall function arguments receiver =>
      expressionDoc nestUnit (.instanceCall function arguments receiver)
  | .derived name base =>
      if base.isStatement then statementDoc nestUnit base
      else .error (.unknownNode .statement name)
  | other => .error (.unknownNode .statement other.kind)

def statementDocs (nestUnit : NestUnit) : List Node → Except Fault (List Doc)
  | [] => .ok []
  | statement :: rest => do
      let first ← statementDoc nestUnit statement
      return first :: (← statementDocs nestUnit rest)

/-- Statements on lines of their own. Each still decides for itself whether it fits on its
line. -/
def blockDoc (nestUnit : NestUnit) (statements : List Node) : Except Fault Doc :=
  match statements with
  | [] => .ok .nil
  | _ => do
      let docs ← statementDocs nestUnit statements
      return .alwaysBreak (Doc.joined (docs.intersperse Doc.line))

def statementsDoc (nestUnit : NestUnit) (statements : Node) : Except Fault Doc :=
  if statements.isSet then do blockDoc nestUnit (← statements.listed) else .ok .nil

end KotlinLayout.Node
