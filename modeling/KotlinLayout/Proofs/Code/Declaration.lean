import KotlinLayout.Code.Declaration
import KotlinLayout.Proofs.Code.Phrase

/-!
The documents of statements, methods and classes. Statements and headers are phrases, so that each
is laid out flat or broken as it fits; what is between them are line breaks and nesting.
-/

namespace KotlinLayout

namespace Node

open Doc (Phrase)

variable {nested : Amount → Prop} {indent : Amount} {width : Int}

inductive Named : Node → Prop where
  | text {value : String} : '\n' ∉ value.toList → Named (.text value)

theorem Named.to_doc {name : Node} (named : name.Named) :
    ∃ doc, name.toDoc = .ok doc ∧ doc.Phrase nested := by
  cases named with | text breakless =>
  exact cast_phrase breakless

theorem Named.to_token {name : Node} (named : name.Named) (token : Token) :
    ∃ doc, name.toToken token = .ok doc ∧ doc.Phrase nested := by
  cases named with | text breakless =>
  exact to_token_phrase token breakless

theorem to_docs_phrases {names : List Node} (named : ∀ name ∈ names, name.Named) :
    ∃ docs, toDocs names = .ok docs ∧ ∀ doc ∈ docs, doc.Phrase nested := by
  induction names with
  | nil => exact ⟨[], rfl, by simp⟩
  | cons name rest induction =>
      have each := List.forall_mem_cons.mp named
      rcases each.1.to_doc with ⟨first, isFirst, firstPhrase⟩
      rcases induction each.2 with ⟨others, areOthers, otherPhrases⟩
      refine ⟨first :: others, ?_, List.forall_mem_cons.mpr ⟨firstPhrase, otherPhrases⟩⟩
      rw [toDocs, isFirst, areOthers]
      rfl

theorem joined_phrase {docs : List Doc} (phrases : ∀ doc ∈ docs, doc.Phrase nested) :
    (Doc.joined docs).Phrase nested :=
  Doc.holds_joined .nil phrases (.concat phrases)

theorem comma_phrase : Doc.comma.Phrase nested := phrase_token .punctuation (by decide)

theorem blank_phrase : Doc.blank.Phrase nested := .text (by decide)

theorem generics_docs_phrases {generics : List Node}
    (named : ∀ generic ∈ generics, generic.Named) :
    ∃ docs, genericsDocs generics = .ok docs ∧ ∀ doc ∈ docs, doc.Phrase nested := by
  cases generics with
  | nil => exact ⟨[], rfl, by simp⟩
  | cons first rest =>
      rcases to_docs_phrases named with ⟨names, areNames, phrases⟩
      have separator : (Doc.concat [Doc.comma, Doc.blank]).Phrase nested := by
        apply Phrase.concat
        simpa using ⟨comma_phrase, blank_phrase⟩
      have left : Doc.leftAngle.Phrase nested := phrase_token .punctuation (by decide)
      have right : Doc.rightAngle.Phrase nested := phrase_token .punctuation (by decide)
      have list := joined_phrase (Doc.holds_intersperse separator phrases)
      have bracketed : (Doc.concat [Doc.leftAngle, Doc.joined (names.intersperse
          (.concat [Doc.comma, Doc.blank])), Doc.rightAngle]).Phrase nested := by
        apply Phrase.concat
        simpa using ⟨left, list, right⟩
      refine ⟨_, ?_, List.forall_mem_singleton.mpr bracketed⟩
      simp only [genericsDocs, areNames]
      rfl

theorem return_type_docs_phrases {returnType : Node}
    (named : returnType.isSet = true → returnType.Named) :
    ∃ docs, returnTypeDocs returnType = .ok docs ∧ ∀ doc ∈ docs, doc.Phrase nested := by
  cases given : returnType.isSet with
  | false => exact ⟨[], by simp [returnTypeDocs, given], by simp⟩
  | true =>
      rcases (named given).to_token .nameClass with ⟨type, isType, phrase⟩
      have colon : Doc.colon.Phrase nested := phrase_token .punctuation (by decide)
      refine ⟨[Doc.colon, Doc.blank, type], ?_, ?_⟩
      · rw [returnTypeDocs, if_pos given, isType]
        rfl
      · simpa using ⟨colon, blank_phrase, phrase⟩

theorem first_supertype_phrase {supertype : Node} (named : supertype.Named)
    (single : nested indent) :
    ∃ doc, firstSupertypeDoc (.columns indent) supertype = .ok doc ∧ doc.Phrase nested := by
  rcases named.to_token .nameClass with ⟨name, isName, phrase⟩
  have colon : Doc.colon.Phrase nested := phrase_token .punctuation (by decide)
  refine ⟨.nest indent (.concat [Doc.line, Doc.colon, Doc.blank, name]), ?_, .nest single ?_⟩
  · rw [firstSupertypeDoc, isName]
    rfl
  · apply Phrase.concat
    simpa using ⟨Phrase.line, colon, blank_phrase, phrase⟩

theorem other_supertypes_phrases {supertypes : List Node}
    (named : ∀ supertype ∈ supertypes, supertype.Named)
    (double : nested (.int (2 * indent.toInt))) :
    ∃ docs, otherSupertypeDocs (.columns indent) supertypes = .ok docs ∧
      ∀ doc ∈ docs, doc.Phrase nested := by
  induction supertypes with
  | nil => exact ⟨[], rfl, by simp⟩
  | cons supertype rest induction =>
      have each := List.forall_mem_cons.mp named
      rcases each.1.to_token .nameClass with ⟨name, isName, phrase⟩
      rcases induction each.2 with ⟨others, areOthers, phrases⟩
      have inner : (Doc.nest (.int (2 * indent.toInt)) (.concat [Doc.line, name])).Phrase
          nested := by
        apply Phrase.nest double
        apply Phrase.concat
        simpa using ⟨Phrase.line, phrase⟩
      refine ⟨Doc.comma :: .nest (.int (2 * indent.toInt)) (.concat [Doc.line, name]) :: others,
        ?_, List.forall_mem_cons.mpr ⟨comma_phrase, List.forall_mem_cons.mpr ⟨inner, phrases⟩⟩⟩
      rw [otherSupertypeDocs, isName, areOthers]
      rfl

theorem supertype_docs_phrases {supertypes : List Node}
    (named : ∀ supertype ∈ supertypes, supertype.Named) (single : nested indent)
    (double : nested (.int (2 * indent.toInt))) :
    ∃ docs, supertypeDocs (.columns indent) supertypes = .ok docs ∧
      ∀ doc ∈ docs, doc.Phrase nested := by
  cases supertypes with
  | nil => exact ⟨[], rfl, by simp⟩
  | cons supertype rest =>
      have each := List.forall_mem_cons.mp named
      rcases first_supertype_phrase each.1 single with ⟨first, isFirst, phrase⟩
      rcases other_supertypes_phrases each.2 double with ⟨others, areOthers, phrases⟩
      refine ⟨first :: others, ?_, List.forall_mem_cons.mpr ⟨phrase, phrases⟩⟩
      rw [supertypeDocs, isFirst, areOthers]
      rfl

inductive PrintableStatement : Node → Prop where
  | assignment {left right : Node} :
      left.Printable → right.Printable → PrintableStatement (.assignment left right)
  | bareReturn {value : Node} : value.isNone = true → PrintableStatement (.returning value)
  | returning {value : Node} : value.Printable → PrintableStatement (.returning value)
  | throwing {value : Node} : value.Printable → PrintableStatement (.throwing value)
  | call {function : Node} {arguments : List Node} :
      (Node.call function arguments).Printable → PrintableStatement (.call function arguments)
  | instanceCall {function : Node} {arguments : List Node} {receiver : Node} :
      (Node.instanceCall function arguments receiver).Printable →
        PrintableStatement (.instanceCall function arguments receiver)
  | derived {name : String} {base : Node} :
      base.PrintableStatement → PrintableStatement (.derived name base)

theorem PrintableStatement.is_statement {node : Node} (printable : node.PrintableStatement) :
    node.isStatement = true := by
  induction printable with
  | derived _ induction => exact induction
  | _ => rfl

theorem assignment_phrase {left right : Doc} (leftPhrase : left.Phrase nested)
    (rightPhrase : right.Phrase nested) (single : nested indent) :
    (Doc.group (.concat [left, Doc.blank, Doc.token .operator "=",
      .nest indent (.concat [Doc.line, right])])).Phrase nested := by
  have equals : (Doc.token .operator "=").Phrase nested := phrase_token .operator (by decide)
  have inner : (Doc.nest indent (.concat [Doc.line, right])).Phrase nested := by
    apply Phrase.nest single
    apply Phrase.concat
    simpa using ⟨Phrase.line, rightPhrase⟩
  apply Phrase.group
  apply Phrase.concat
  simpa using ⟨leftPhrase, blank_phrase, equals, inner⟩

theorem PrintableStatement.statement_doc {node : Node} (printable : node.PrintableStatement)
    (single : nested indent) (double : nested (.int (2 * indent.toInt))) :
    ∃ doc, node.statementDoc (.columns indent) = .ok doc ∧ doc.Phrase nested := by
  induction printable with
  | assignment leftPrintable rightPrintable =>
      rcases leftPrintable.expression_doc single double with ⟨left, isLeft, leftPhrase⟩
      rcases rightPrintable.expression_doc single double with ⟨right, isRight, rightPhrase⟩
      refine ⟨_, ?_, assignment_phrase leftPhrase rightPhrase single⟩
      rw [statementDoc, assignmentDoc, isLeft, isRight]
      rfl
  | bareReturn absent =>
      rw [statementDoc, if_pos absent]
      exact ⟨_, rfl, phrase_token .keyword (by decide)⟩
  | returning printable =>
      rcases printable.expression_doc single double with ⟨value, isValue, phrase⟩
      rw [statementDoc, printable.index_is_some, isValue]
      exact after_keyword_phrase (phrase_token .keyword (by decide)) phrase single
  | throwing printable =>
      rcases printable.expression_doc single double with ⟨value, isValue, phrase⟩
      rw [statementDoc, isValue]
      exact after_keyword_phrase (phrase_token .keyword (by decide)) phrase single
  | call printable =>
      rw [statementDoc]
      exact printable.expression_doc single double
  | instanceCall printable =>
      rw [statementDoc]
      exact printable.expression_doc single double
  | derived printable induction =>
      rw [statementDoc, if_pos printable.is_statement]
      exact induction

theorem statement_docs_phrases {statements : List Node}
    (printable : ∀ statement ∈ statements, statement.PrintableStatement)
    (single : nested indent) (double : nested (.int (2 * indent.toInt))) :
    ∃ docs, statementDocs (.columns indent) statements = .ok docs ∧
      ∀ doc ∈ docs, doc.Phrase nested := by
  induction statements with
  | nil => exact ⟨[], rfl, by simp⟩
  | cons statement rest induction =>
      have each := List.forall_mem_cons.mp printable
      rcases each.1.statement_doc single double with ⟨first, isFirst, phrase⟩
      rcases induction each.2 with ⟨others, areOthers, phrases⟩
      refine ⟨first :: others, ?_, List.forall_mem_cons.mpr ⟨phrase, phrases⟩⟩
      rw [statementDocs, isFirst, areOthers]
      rfl

/-- Methods with names of texts, statements of known kinds and a nesting to the right, if any. -/
inductive PrintableMethod : Node → Prop where
  | declared {node name modifier returnType nestSize : Node}
      {generics parameters body : List Node} {indent : Amount} :
      node.core = .methodDecl name modifier generics parameters returnType body nestSize →
      name.Named → modifier.Named → (∀ generic ∈ generics, generic.Named) →
      (∀ parameter ∈ parameters, parameter.Named) →
      (returnType.isSet = true → returnType.Named) →
      (∀ statement ∈ body, statement.PrintableStatement) →
      NestUnit.ofNode nestSize = .columns indent → 0 ≤ indent.toInt → PrintableMethod node

/-- Classes with names of texts, printable methods, any fields and a nesting to the right, if
any. -/
inductive PrintableClass : Node → Prop where
  | declared {node name package modifier keyword superClass nestSize : Node}
      {imports generics interfaces fields methods : List Node} {indent : Amount} :
      node.core = .classDecl name package imports modifier keyword generics superClass interfaces
        fields methods nestSize →
      name.Named → (package.isSet = true → package.Named) → (∀ name ∈ imports, name.Named) →
      modifier.Named → keyword.Named → (∀ generic ∈ generics, generic.Named) →
      (superClass.isSet = true → superClass.Named) →
      (∀ interface ∈ interfaces, interface.Named) →
      (∀ method ∈ methods, method.PrintableMethod) →
      NestUnit.ofNode nestSize = .columns indent → 0 ≤ indent.toInt → PrintableClass node

def nestUnit (node : Node) : NestUnit :=
  match node.core with
  | .methodDecl _ _ _ _ _ _ nestSize => .ofNode nestSize
  | .classDecl _ _ _ _ _ _ _ _ _ _ nestSize => .ofNode nestSize
  | other => .fixed other.kind

def body (node : Node) : List Node :=
  match node.core with
  | .methodDecl _ _ _ _ _ body _ => body
  | _ => []

def package (node : Node) : Node :=
  match node.core with
  | .classDecl _ package _ _ _ _ _ _ _ _ _ => package
  | _ => .object

def imports (node : Node) : List Node :=
  match node.core with
  | .classDecl _ _ imports _ _ _ _ _ _ _ _ => imports
  | _ => []

def fields (node : Node) : List Node :=
  match node.core with
  | .classDecl _ _ _ _ _ _ _ _ fields _ _ => fields
  | _ => []

def methods (node : Node) : List Node :=
  match node.core with
  | .classDecl _ _ _ _ _ _ _ _ _ methods _ => methods
  | _ => []

def methodHeader (node : Node) : Except Fault Doc :=
  match node.core with
  | .methodDecl name modifier generics parameters returnType _ nestSize => do
      let modifier ← modifier.toDoc
      let generics ← genericsDocs generics
      let generics := if generics.isEmpty then [] else generics ++ [Doc.blank]
      let name ← name.toToken .nameFunction
      let parameters ← toDocs parameters
      let separator := .concat [Doc.comma, Doc.line]
      let wideUnit ← (NestUnit.ofNode nestSize).doubled
      let parameters ← wideUnit.nest (Doc.joined (parameters.intersperse separator))
      let returnType ← returnTypeDocs returnType
      return .group (.concat
        ([modifier, Doc.token .keywordDeclaration "fun", Doc.blank] ++ generics ++
          [name, Doc.leftParen, parameters, Doc.rightParen] ++ returnType ++
          [Doc.blank, Doc.leftBrace]))
  | _ => .error (.noAttribute node.kind "parameters")

def classHeader (node : Node) : Except Fault Doc :=
  match node.core with
  | .classDecl name _ _ modifier keyword generics superClass interfaces _ _ nestSize => do
      let modifier ← modifier.toDoc
      let keyword ← keyword.toToken .keywordDeclaration
      let name ← name.toToken .nameClass
      let generics ← genericsDocs generics
      let supertypes ← supertypeDocs (NestUnit.ofNode nestSize)
        (if superClass.isSet then superClass :: interfaces else interfaces)
      return .group (.concat
        ([modifier, keyword, name] ++ generics ++ supertypes ++ [Doc.blank, Doc.leftBrace]))
  | _ => .error (.noAttribute node.kind "package")

/-- Statements below a header, nested by one level, or nothing. -/
def nestedLines (indent : Amount) (docs : List Doc) : List Doc :=
  if docs.isEmpty then []
  else [.nest indent (.concat [.hardLine,
    .alwaysBreak (Doc.joined (docs.intersperse Doc.line))])]

theorem block_doc_eq {nestUnit : NestUnit} {statements : List Node} {docs : List Doc}
    (areDocs : statementDocs nestUnit statements = .ok docs) :
    blockDoc nestUnit statements =
      .ok (if docs.isEmpty then .nil
        else .alwaysBreak (Doc.joined (docs.intersperse Doc.line))) := by
  cases statements with
  | nil =>
      cases areDocs
      rfl
  | cons statement rest =>
      rcases bind_eq_ok_iff.mp areDocs with ⟨first, isFirst, success⟩
      rcases bind_eq_ok_iff.mp success with ⟨others, areOthers, success⟩
      cases success
      simp only [blockDoc, areDocs]
      rfl

theorem method_header_phrase {modifier name : Doc} {generics parameters returns : List Doc}
    {amount : Amount} (modifierPhrase : modifier.Phrase nested)
    (genericPhrases : ∀ doc ∈ generics, doc.Phrase nested) (namePhrase : name.Phrase nested)
    (amountNested : nested amount) (parameterPhrases : ∀ doc ∈ parameters, doc.Phrase nested)
    (returnPhrases : ∀ doc ∈ returns, doc.Phrase nested) :
    (Doc.group (.concat
      ([modifier, Doc.token .keywordDeclaration "fun", Doc.blank] ++
        (if generics.isEmpty then [] else generics ++ [Doc.blank]) ++
        [name, Doc.leftParen, .nest amount (Doc.joined
          (parameters.intersperse (.concat [Doc.comma, Doc.line]))), Doc.rightParen] ++
        returns ++ [Doc.blank, Doc.leftBrace]))).Phrase nested := by
  have keyword : (Doc.token .keywordDeclaration "fun").Phrase nested :=
    phrase_token .keywordDeclaration (by decide)
  have spaced : ∀ doc ∈ if generics.isEmpty then [] else generics ++ [Doc.blank],
      doc.Phrase nested := by
    split
    · simp
    · exact List.forall_mem_append.mpr
        ⟨genericPhrases, List.forall_mem_singleton.mpr blank_phrase⟩
  have left : Doc.leftParen.Phrase nested := phrase_token .punctuation (by decide)
  have right : Doc.rightParen.Phrase nested := phrase_token .punctuation (by decide)
  have brace : Doc.leftBrace.Phrase nested := phrase_token .punctuation (by decide)
  have separator : (Doc.concat [Doc.comma, Doc.line]).Phrase nested := by
    apply Phrase.concat
    simpa using ⟨comma_phrase, Phrase.line⟩
  have list := joined_phrase (Doc.holds_intersperse separator parameterPhrases)
  apply Phrase.group
  apply Phrase.concat
  simp only [List.forall_mem_append, List.forall_mem_cons, List.not_mem_nil, false_implies,
    implies_true, and_true]
  exact ⟨⟨⟨⟨⟨modifierPhrase, keyword, blank_phrase⟩, spaced⟩, namePhrase, left,
    .nest amountNested list, right⟩, returnPhrases⟩, blank_phrase, brace⟩

theorem PrintableMethod.method_doc {node : Node} (printable : node.PrintableMethod) :
    ∃ header indent docs, node.methodHeader = .ok header ∧ header.Phrase Amount.Rightward ∧
      node.nestUnit = .columns indent ∧ 0 ≤ indent.toInt ∧
      statementDocs (.columns indent) node.body = .ok docs ∧
      (∀ doc ∈ docs, doc.Phrase Amount.Rightward) ∧
      node.methodDoc =
        .ok (.concat (header :: nestedLines indent docs ++ [.hardLine, Doc.rightBrace])) := by
  cases printable with
  | @declared name modifier returnType nestSize generics parameters body indent core isName
      isModifier areGenerics areParameters isReturnType printable columns nonneg =>
  have double : Amount.Rightward (.int (2 * indent.toInt)) := Int.mul_nonneg (by decide) nonneg
  rcases @isModifier.to_doc Amount.Rightward with ⟨modifierDoc, modifierEq, modifierPhrase⟩
  rcases @generics_docs_phrases Amount.Rightward _ areGenerics with
    ⟨genericDocs, genericsEq, genericPhrases⟩
  rcases @isName.to_token Amount.Rightward _ .nameFunction with ⟨nameDoc, nameEq, namePhrase⟩
  rcases @to_docs_phrases Amount.Rightward _ areParameters with
    ⟨parameterDocs, parametersEq, parameterPhrases⟩
  rcases @return_type_docs_phrases Amount.Rightward _ isReturnType with
    ⟨returnDocs, returnEq, returnPhrases⟩
  rcases statement_docs_phrases printable nonneg double with ⟨docs, areDocs, phrases⟩
  have headerEq : node.methodHeader = .ok (.group (.concat
      ([modifierDoc, Doc.token .keywordDeclaration "fun", Doc.blank] ++
        (if genericDocs.isEmpty then [] else genericDocs ++ [Doc.blank]) ++
        [nameDoc, Doc.leftParen, .nest (.int (2 * indent.toInt)) (Doc.joined
          (parameterDocs.intersperse (.concat [Doc.comma, Doc.line]))), Doc.rightParen] ++
        returnDocs ++ [Doc.blank, Doc.leftBrace]))) := by
    simp only [methodHeader, core, modifierEq, genericsEq, nameEq, parametersEq, columns, returnEq]
    rfl
  refine ⟨_, indent, docs, headerEq, ?_, ?_, nonneg, ?_, phrases, ?_⟩
  · exact method_header_phrase modifierPhrase genericPhrases namePhrase double parameterPhrases
      returnPhrases
  · simp only [nestUnit, core, columns]
  · simp only [Node.body, core, areDocs]
  · simp only [methodDoc, core, modifierEq, genericsEq, nameEq, parametersEq, columns, returnEq,
      block_doc_eq areDocs]
    cases docs with
    | nil => rfl
    | cons first rest => rfl

/-- The header of a class is followed by its members and a brace, and all of it comes after the
lines for the package and the imports. -/
theorem PrintableClass.class_doc {node : Node} (printable : node.PrintableClass) :
    ∃ header indent, node.classHeader = .ok header ∧ header.Phrase Amount.Rightward ∧
      node.nestUnit = .columns indent ∧ 0 ≤ indent.toInt ∧
      (node.package.isSet = true → node.package.Named) ∧ (∀ name ∈ node.imports, name.Named) ∧
      (∀ method ∈ node.methods, method.PrintableMethod) ∧
      ∀ packages imports methods, packageDocs node.package = .ok packages →
        importDocs node.imports = .ok imports →
        methodDocs node.fields.isEmpty node.methods = .ok methods →
          node.classDoc = .ok (Doc.joined ((packages ++ imports ++
            [Doc.concat [header, .nest indent (Doc.joined (node.fields.map (fun _ => .hardLine) ++
              methods)), .hardLine, Doc.rightBrace]]).intersperse .hardLine)) := by
  cases printable with
  | @declared name package modifier keyword superClass nestSize imports generics interfaces fields
      methods indent core isName isPackage areImports isModifier isKeyword areGenerics isSuperClass
      areInterfaces printable columns nonneg =>
  have double : Amount.Rightward (.int (2 * indent.toInt)) := Int.mul_nonneg (by decide) nonneg
  -- The class that is extended comes before the interfaces, if there is one.
  have areSupertypes : ∀ supertype ∈
      if superClass.isSet then superClass :: interfaces else interfaces, supertype.Named := by
    split
    · rename_i given
      exact List.forall_mem_cons.mpr ⟨isSuperClass given, areInterfaces⟩
    · exact areInterfaces
  rcases @isModifier.to_doc Amount.Rightward with ⟨modifierDoc, modifierEq, modifierPhrase⟩
  rcases @isKeyword.to_token Amount.Rightward _ .keywordDeclaration with
    ⟨keywordDoc, keywordEq, keywordPhrase⟩
  rcases @isName.to_token Amount.Rightward _ .nameClass with ⟨nameDoc, nameEq, namePhrase⟩
  rcases @generics_docs_phrases Amount.Rightward _ areGenerics with
    ⟨genericDocs, genericsEq, genericPhrases⟩
  rcases supertype_docs_phrases areSupertypes nonneg double with
    ⟨supertypes, supertypesEq, supertypePhrases⟩
  have headerEq : node.classHeader = .ok (.group (.concat
      ([modifierDoc, keywordDoc, nameDoc] ++ genericDocs ++ supertypes ++
        [Doc.blank, Doc.leftBrace]))) := by
    simp only [classHeader, core, modifierEq, keywordEq, nameEq, genericsEq, columns,
      supertypesEq]
    rfl
  refine ⟨_, indent, headerEq, ?_, ?_, nonneg, ?_, ?_, ?_, ?_⟩
  · have brace : Doc.leftBrace.Phrase Amount.Rightward := phrase_token .punctuation (by decide)
    apply Phrase.group
    apply Phrase.concat
    simp only [List.forall_mem_append, List.forall_mem_cons, List.not_mem_nil, false_implies,
      implies_true, and_true]
    exact ⟨⟨⟨⟨modifierPhrase, keywordPhrase, namePhrase⟩, genericPhrases⟩, supertypePhrases⟩,
      blank_phrase, brace⟩
  · simp only [nestUnit, core, columns]
  · simp only [Node.package, core]
    exact isPackage
  · simp only [Node.imports, core]
    exact areImports
  · simp only [Node.methods, core]
    exact printable
  · intro packageDocs importDocs methodDocs packagesEq importsEq methodsEq
    simp only [Node.package, core] at packagesEq
    simp only [Node.imports, core] at importsEq
    simp only [Node.methods, Node.fields, core] at methodsEq ⊢
    simp only [classDoc, core, packagesEq, importsEq, keywordEq, nameEq, genericsEq, columns,
      supertypesEq, methodsEq, modifierEq]
    rfl

end Node

end KotlinLayout
