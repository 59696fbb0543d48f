import KotlinLayout.Code.Statement

/-!
Documents of methods and classes. The parts of a declaration are asked for in the order in which
they are written, except that the modifier in front is looked at last.
-/

namespace KotlinLayout.Node

def toDocs : List Node → Except Fault (List Doc)
  | [] => .ok []
  | name :: rest => do
      let first ← name.toDoc
      return first :: (← toDocs rest)

def toTokens (token : Token) : List Node → Except Fault (List Doc)
  | [] => .ok []
  | name :: rest => do
      let first ← name.toToken token
      return first :: (← toTokens token rest)

def genericsDocs (generics : List Node) : Except Fault (List Doc) :=
  match generics with
  | [] => .ok []
  | _ => do
      let names ← toDocs generics
      let separator := .concat [Doc.comma, Doc.blank]
      return [.concat [Doc.leftAngle, Doc.joined (names.intersperse separator), Doc.rightAngle]]

def returnTypeDocs (returnType : Node) : Except Fault (List Doc) :=
  if returnType.isSet then do return [Doc.colon, Doc.blank, ← returnType.toToken .nameClass]
  else .ok []

def methodDoc (node : Node) : Except Fault Doc :=
  match node.core with
  | .methodDecl name modifier generics parameters returnType body nestSize => do
      let nestUnit := NestUnit.ofNode nestSize
      let generics ← genericsDocs generics
      let generics := if generics.isEmpty then [] else generics ++ [Doc.blank]
      let name ← name.toToken .nameFunction
      let wideUnit ← nestUnit.doubled
      let parameters ← toDocs parameters
      let separator := .concat [Doc.comma, Doc.line]
      let parameters ← wideUnit.nest (Doc.joined (parameters.intersperse separator))
      let returnType ← returnTypeDocs returnType
      let body ← blockDoc nestUnit body
      let modifier ← modifier.toDoc
      let header := .group (.concat
        ([modifier, Doc.token .keywordDeclaration "fun", Doc.blank] ++ generics ++
          [name, Doc.leftParen, parameters, Doc.rightParen] ++ returnType ++
          [Doc.blank, Doc.leftBrace]))
      if body.isNil then return .concat [header, .hardLine, Doc.rightBrace]
      else
        let body ← nestUnit.nest (.concat [.hardLine, body])
        return .concat [header, body, .hardLine, Doc.rightBrace]
  | .classDecl name _ _ _ _ generics _ _ _ _ nestSize => do
      let _ ← genericsDocs generics
      let _ ← name.toToken .nameFunction
      let _ ← (NestUnit.ofNode nestSize).doubled
      .error (.noAttribute node.kind "parameters")
  | _ => .error (.noAttribute node.kind "nest_size")

/-- The documents of the methods of a class, each on a line of its own and all but a first member
after an empty line. -/
def methodDocs (isFirst : Bool) : List Node → Except Fault (List Doc)
  | [] => .ok []
  | method :: rest => do
      let first ← methodDoc method
      let others ← methodDocs false rest
      return (if isFirst then [] else [.hardLine]) ++ [.hardLine, first] ++ others

def firstSupertypeDoc (nestUnit : NestUnit) (supertype : Node) : Except Fault Doc := do
  let name ← supertype.toToken .nameClass
  nestUnit.nest (.concat [Doc.line, Doc.colon, Doc.blank, name])

/-- The types after the first, each on a line of its own unless all fit on one. -/
def otherSupertypeDocs (nestUnit : NestUnit) : List Node → Except Fault (List Doc)
  | [] => .ok []
  | supertype :: rest => do
      let wideUnit ← nestUnit.doubled
      let name ← supertype.toToken .nameClass
      let first ← wideUnit.nest (.concat [Doc.line, name])
      return [Doc.comma, first] ++ (← otherSupertypeDocs nestUnit rest)

def supertypeDocs (nestUnit : NestUnit) : List Node → Except Fault (List Doc)
  | [] => .ok []
  | supertype :: rest => do
      let first ← firstSupertypeDoc nestUnit supertype
      return first :: (← otherSupertypeDocs nestUnit rest)

def packageDocs (package : Node) : Except Fault (List Doc) :=
  if package.isSet then do
    let name ← package.toToken .nameNamespace
    return [.concat [Doc.token .keywordNamespace "package", Doc.blank, name]]
  else .ok []

def importDocs (imports : List Node) : Except Fault (List Doc) := do
  let names ← toTokens .nameNamespace imports
  return names.map fun name => .concat [Doc.token .keywordNamespace "import", Doc.blank, name]

/-- The document of a class. A field is not printed and leaves an empty line. -/
def classDoc (node : Node) : Except Fault Doc :=
  match node.core with
  | .classDecl name package imports modifier keyword generics superClass interfaces fields methods
      nestSize => do
      let nestUnit := NestUnit.ofNode nestSize
      let package ← packageDocs package
      let imports ← importDocs imports
      let keyword ← keyword.toToken .keywordDeclaration
      let name ← name.toToken .nameClass
      let generics ← genericsDocs generics
      let supertypes ← supertypeDocs nestUnit
        (if superClass.isSet then superClass :: interfaces else interfaces)
      let methods ← methodDocs fields.isEmpty methods
      let modifier ← modifier.toDoc
      let header := .group (.concat
        ([modifier, keyword, name] ++ generics ++ supertypes ++ [Doc.blank, Doc.leftBrace]))
      let members ← nestUnit.nest (Doc.joined (fields.map (fun _ => .hardLine) ++ methods))
      let declaration := .concat [header, members, .hardLine, Doc.rightBrace]
      return Doc.joined ((package ++ imports ++ [declaration]).intersperse .hardLine)
  | .methodDecl .. => .error (.noAttribute node.kind "package")
  | _ => .error (.noAttribute node.kind "nest_size")

end KotlinLayout.Node
