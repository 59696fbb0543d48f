import KotlinLayout.Code.Declaration
import KotlinLayout.Proofs.Code.Clean

/-!
The texts in the document of a program are words of the program or belong to the language. If no
word has an escape character, no text in the document has one.
-/

namespace KotlinLayout

open Doc (Clean AllClean)
open Text (escapeCharacter)

namespace Node

def Word : Node → Prop
  | .scalar (.text value) => escapeCharacter ∉ value.toList
  | _ => False

mutual

/-- Programs whose names are words, as far as they are printed, and whose constants are written
without escape characters. -/
def Worded : Node → Prop
  | .constant value _ => Yields (fun text => escapeCharacter ∉ text.toList) value.shown.text
  | .binary operation left right _ => operation.Word ∧ left.Worded ∧ right.Worded
  | .unary operation operand => operation.Word ∧ operand.Worded
  | .field name => name.Word
  | .reference name array index =>
      if index.isNone then name.Word else array.Worded ∧ index.Worded
  | .call function arguments => function.Word ∧ WordedAll arguments
  | .instanceCall function arguments receiver =>
      function.Word ∧ WordedAll arguments ∧ receiver.Worded
  | .new constructor => constructor.Worded
  | .newArray type dimensions => type.Word ∧ WordedAll dimensions
  | .assignment left right => left.Worded ∧ right.Worded
  | .returning value | .throwing value => value.Worded
  | .methodDecl name modifier generics parameters returnType body _ =>
      name.Word ∧ modifier.Word ∧ (∀ generic ∈ generics, generic.Word) ∧
        (∀ parameter ∈ parameters, parameter.Word) ∧
        (returnType.isSet = true → returnType.Word) ∧ WordedAll body
  | .classDecl name package imports modifier keyword generics superClass interfaces _ methods _ =>
      name.Word ∧ (package.isSet = true → package.Word) ∧ (∀ name ∈ imports, name.Word) ∧
        modifier.Word ∧ keyword.Word ∧ (∀ generic ∈ generics, generic.Word) ∧
        (superClass.isSet = true → superClass.Word) ∧ (∀ interface ∈ interfaces, interface.Word) ∧
        WordedAll methods
  | .derived _ base => base.Worded
  | _ => True

def WordedAll : List Node → Prop
  | [] => True
  | node :: rest => node.Worded ∧ WordedAll rest

end

theorem worded_all_iff (nodes : List Node) : WordedAll nodes ↔ ∀ node ∈ nodes, node.Worded := by
  induction nodes with
  | nil => simp [WordedAll]
  | cons node rest induction => rw [WordedAll, induction, List.forall_mem_cons]

theorem Worded.core {node : Node} (worded : node.Worded) : node.core.Worded := by
  match node with
  | .derived _ base =>
      rw [Node.core]
      exact @Worded.core base worded
  | .scalar _ | .list _ | .doc _ | .object | .bareExpression | .bareStatement | .constant .. |
    .binary .. | .unary .. | .field _ | .reference .. | .call .. | .instanceCall .. | .new _ |
    .newArray .. | .assignment .. | .returning _ | .throwing _ | .methodDecl .. |
    .classDecl .. => exact worded

theorem yields_cast {value : String} (unescaped : escapeCharacter ∉ value.toList) :
    Yields Clean (Combinator.cast (.text value)) := by
  apply (Doc.yields_cast_text value).weaken
  rintro _ ⟨breakless, rfl⟩
  split
  · exact .nil
  · exact .text breakless unescaped

theorem Word.yields_doc {name : Node} (word : name.Word) : Yields Clean name.toDoc := by
  match name with
  | .scalar (.text value) => exact yields_cast word

theorem Word.yields_token {name : Node} (word : name.Word) (token : Token) :
    Yields Clean (name.toToken token) :=
  word.yields_doc.map fun _ clean => clean.annotated _

theorem yields_docs {names : List Node} (words : ∀ name ∈ names, name.Word) :
    Yields AllClean (toDocs names) :=
  @Yields.each Doc Clean Node toDoc toDocs rfl (fun _ _ => rfl) names
    fun name member => (words name member).yields_doc

theorem yields_tokens (token : Token) {names : List Node} (words : ∀ name ∈ names, name.Word) :
    Yields AllClean (toTokens token names) :=
  @Yields.each Doc Clean Node (fun name => name.toToken token) (toTokens token) rfl
    (fun _ _ => rfl) names fun name member => (words name member).yields_token token

theorem yields_generics {generics : List Node} (words : ∀ generic ∈ generics, generic.Word) :
    Yields AllClean (genericsDocs generics) := by
  have left : Doc.leftAngle.Clean := .token .punctuation (by decide)
  have right : Doc.rightAngle.Clean := .token .punctuation (by decide)
  have separator : (Doc.concat [Doc.comma, Doc.blank]).Clean :=
    .concat (.cons .comma (.single .blank))
  unfold genericsDocs
  split
  · exact .ok .nil
  · apply (yields_docs words).bind
    intro names clean
    have list := Clean.joined (Clean.intersperse separator clean)
    exact .ok (.single (.concat (.cons left (.cons list (.single right)))))

theorem yields_return_type {returnType : Node}
    (word : returnType.isSet = true → returnType.Word) :
    Yields AllClean (returnTypeDocs returnType) := by
  unfold returnTypeDocs
  split
  · apply ((word ‹_›).yields_token .nameClass).bind
    intro name clean
    exact .ok (.cons .colon (.cons .blank (.single clean)))
  · exact .ok .nil

theorem yields_constant {value : Node}
    (unescaped : Yields (fun text => escapeCharacter ∉ text.toList) value.shown.text)
    (isString : Node) : Yields Clean (constantDoc value isString) := by
  unfold constantDoc
  split
  · have quote : (Doc.text "\"").Clean := .text (by decide) (by decide)
    apply unescaped.bind
    intro text textUnescaped
    apply (yields_cast textUnescaped).bind
    intro content clean
    exact .ok (.annotated _ (.concat (.cons quote (.cons clean (.single quote)))))
  · split
    · exact .ok (.token _ (by decide))
    · exact .ok (.token _ (by decide))
    · exact .ok (.token _ (by decide))
    · apply unescaped.bind
      intro text textUnescaped
      apply (yields_cast textUnescaped).bind
      intro content clean
      exact .ok (.annotated _ clean)

theorem yields_call (nestUnit : NestUnit) {function : Doc} {arguments : List Doc}
    (functionClean : function.Clean) (clean : AllClean arguments) :
    Yields Clean (callDoc nestUnit function arguments) := by
  unfold callDoc
  split
  · exact .ok (.concat (.cons functionClean (.cons .leftParen (.single .rightParen))))
  · apply Yields.any.bind
    intro wideUnit _
    apply (wideUnit.yields_nest (.fill (Clean.intersperse .line clean))).bind
    intro nested nestedClean
    exact .ok (.group (.concat (.cons functionClean (.cons .leftParen
      (.cons nestedClean (.single .rightParen))))))

mutual

theorem yields_expression (nestUnit : NestUnit) (node : Node) (worded : node.Worded) :
    Yields Clean (expressionDoc nestUnit node) := by
  match node with
  | .constant value isString =>
      rw [Worded] at worded
      rw [expressionDoc]
      exact yields_constant worded isString
  | .binary operation left right priority =>
      rw [Worded] at worded
      rw [expressionDoc]
      rcases worded with ⟨word, leftWorded, rightWorded⟩
      apply (yields_expression nestUnit left leftWorded).bind
      intro leftDoc leftClean
      apply (yields_expression nestUnit right rightWorded).bind
      intro rightDoc rightClean
      apply (word.yields_token .operator).bind
      intro operator operatorClean
      have rest := Clean.concat (.cons .line (.cons operatorClean (.cons .blank
        (.single (rightClean.operand (rightNeedsParens priority right))))))
      apply (nestUnit.yields_nest rest).bind
      intro nested nestedClean
      exact .ok (.group (.concat (.cons (leftClean.operand _) (.single nestedClean))))
  | .unary operation operand =>
      rw [Worded] at worded
      rw [expressionDoc]
      apply (worded.1.yields_token .operator).bind
      intro operator operatorClean
      apply (yields_expression nestUnit operand worded.2).bind
      intro operandDoc operandClean
      exact .ok (.concat (.cons operatorClean (.single (operandClean.operand _))))
  | .field name =>
      rw [Worded] at worded
      rw [expressionDoc]
      exact worded.yields_token .nameVariable
  | .reference name array index =>
      rw [Worded] at worded
      rw [expressionDoc]
      split
      · rw [if_pos ‹_›] at worded
        exact worded.yields_token .nameVariable
      · rw [if_neg ‹_›] at worded
        apply (yields_expression nestUnit array worded.1).bind
        intro arrayDoc arrayClean
        apply (yields_expression nestUnit index worded.2).bind
        intro indexDoc indexClean
        exact .ok (.indexed arrayClean indexClean)
  | .call function arguments =>
      rw [Worded] at worded
      rw [expressionDoc]
      apply (worded.1.yields_token .nameFunction).bind
      intro functionDoc functionClean
      apply (yields_arguments nestUnit arguments worded.2).bind
      intro docs clean
      exact yields_call nestUnit functionClean clean
  | .instanceCall function arguments receiver =>
      rw [Worded] at worded
      rw [expressionDoc]
      apply (worded.1.yields_token .nameFunction).bind
      intro functionDoc functionClean
      apply (yields_expression nestUnit receiver worded.2.2).bind
      intro receiverDoc receiverClean
      apply (yields_arguments nestUnit arguments worded.2.1).bind
      intro docs clean
      have called := Clean.concat (.cons (receiverClean.operand receiver.isCompound)
        (.cons .dot (.single functionClean)))
      exact yields_call nestUnit called clean
  | .new constructor =>
      rw [Worded] at worded
      rw [expressionDoc]
      apply (yields_expression nestUnit constructor worded).bind
      intro value clean
      exact Doc.yields_after_keyword (.token .keyword (by decide)) clean nestUnit
  | .newArray type dimensions =>
      rw [Worded] at worded
      rw [expressionDoc]
      apply (worded.1.yields_token .nameClass).bind
      intro typeDoc typeClean
      apply (Doc.yields_after_keyword (.token .keyword (by decide)) typeClean nestUnit).bind
      intro array clean
      exact yields_dimensions nestUnit clean dimensions worded.2
  | .derived name base =>
      rw [Worded] at worded
      rw [expressionDoc]
      split
      · exact yields_expression nestUnit base worded
      · exact .error _
  | .scalar _ | .list _ | .doc _ | .object | .bareExpression | .bareStatement | .assignment .. |
    .returning _ | .throwing _ | .methodDecl .. | .classDecl .. =>
      rw [expressionDoc]
      · exact .error _
      all_goals simp

theorem yields_arguments (nestUnit : NestUnit) (arguments : List Node)
    (worded : WordedAll arguments) : Yields AllClean (argumentDocs nestUnit arguments) := by
  match arguments with
  | [] =>
      rw [argumentDocs]
      exact .ok .nil
  | argument :: rest =>
      rw [WordedAll] at worded
      rw [argumentDocs]
      apply (yields_expression nestUnit argument worded.1).bind
      intro first firstClean
      apply (yields_arguments nestUnit rest worded.2).bind
      intro others clean
      apply Yields.ok
      apply AllClean.cons _ clean
      split
      · exact firstClean
      · exact .concat (.cons firstClean (.single .comma))

theorem yields_dimensions (nestUnit : NestUnit) {array : Doc} (arrayClean : array.Clean)
    (dimensions : List Node) (worded : WordedAll dimensions) :
    Yields Clean (dimensionDocs nestUnit array dimensions) := by
  match dimensions with
  | [] =>
      rw [dimensionDocs]
      exact .ok arrayClean
  | dimension :: rest =>
      rw [WordedAll] at worded
      rw [dimensionDocs]
      apply (yields_expression nestUnit dimension worded.1).bind
      intro index indexClean
      exact yields_dimensions nestUnit (.indexed arrayClean indexClean) rest worded.2

end

theorem yields_assignment (nestUnit : NestUnit) {left right : Node} (leftWorded : left.Worded)
    (rightWorded : right.Worded) : Yields Clean (assignmentDoc nestUnit left right) := by
  unfold assignmentDoc
  apply (yields_expression nestUnit left leftWorded).bind
  intro leftDoc leftClean
  apply (yields_expression nestUnit right rightWorded).bind
  intro rightDoc rightClean
  apply (nestUnit.yields_nest (.concat (.cons .line (.single rightClean)))).bind
  intro nested nestedClean
  exact .ok (.group (.concat (.cons leftClean (.cons .blank
    (.cons (.token .operator (by decide)) (.single nestedClean))))))

theorem yields_statement (nestUnit : NestUnit) (node : Node) (worded : node.Worded) :
    Yields Clean (statementDoc nestUnit node) := by
  match node with
  | .assignment left right =>
      rw [Worded] at worded
      rw [statementDoc]
      exact yields_assignment nestUnit worded.1 worded.2
  | .returning value =>
      rw [Worded] at worded
      rw [statementDoc]
      split
      · exact .ok (.token .keyword (by decide))
      · apply (yields_expression nestUnit value worded).bind
        intro valueDoc clean
        exact Doc.yields_after_keyword (.token .keyword (by decide)) clean nestUnit
  | .throwing value =>
      rw [Worded] at worded
      rw [statementDoc]
      apply (yields_expression nestUnit value worded).bind
      intro valueDoc clean
      exact Doc.yields_after_keyword (.token .keyword (by decide)) clean nestUnit
  | .call .. | .instanceCall .. =>
      rw [statementDoc]
      exact yields_expression nestUnit _ worded
  | .derived name base =>
      rw [Worded] at worded
      rw [statementDoc]
      split
      · exact yields_statement nestUnit base worded
      · exact .error _
  | .scalar _ | .list _ | .doc _ | .object | .bareExpression | .bareStatement | .constant .. |
    .binary .. | .unary .. | .field _ | .reference .. | .new _ | .newArray .. | .methodDecl .. |
    .classDecl .. =>
      rw [statementDoc]
      · exact .error _
      all_goals simp

theorem yields_block (nestUnit : NestUnit) {statements : List Node}
    (worded : WordedAll statements) : Yields Clean (blockDoc nestUnit statements) := by
  have each := (worded_all_iff statements).mp worded
  have docs : Yields AllClean (statementDocs nestUnit statements) :=
    @Yields.each Doc Clean Node (statementDoc nestUnit) (statementDocs nestUnit) rfl
      (fun _ _ => rfl) statements fun statement member =>
        yields_statement nestUnit statement (each _ member)
  unfold blockDoc
  split
  · exact .ok .nil
  · apply docs.bind
    intro lines clean
    exact .ok (.alwaysBreak (.joined (Clean.intersperse .line clean)))

theorem yields_method {node : Node} (worded : node.Worded) : Yields Clean (methodDoc node) := by
  have worded := worded.core
  unfold methodDoc
  split
  · rename_i name modifier generics parameters returnType body nestSize isMethod
    rw [isMethod, Worded] at worded
    rcases worded with ⟨nameWord, modifierWord, genericWords, parameterWords, typeWord, bodyWorded⟩
    apply (yields_generics genericWords).bind
    intro generics genericsClean
    have spaced : AllClean (if generics.isEmpty then [] else generics ++ [Doc.blank]) := by
      split
      · exact .nil
      · exact .append genericsClean (.single .blank)
    apply (nameWord.yields_token .nameFunction).bind
    intro name nameClean
    apply Yields.any.bind
    intro wideUnit _
    apply (yields_docs parameterWords).bind
    intro parameters clean
    have separator : (Doc.concat [Doc.comma, Doc.line]).Clean :=
      .concat (.cons .comma (.single .line))
    apply (wideUnit.yields_nest (.joined (Clean.intersperse separator clean))).bind
    intro nested nestedClean
    apply (yields_return_type typeWord).bind
    intro returnType typeClean
    apply (yields_block _ bodyWorded).bind
    intro body bodyClean
    apply modifierWord.yields_doc.bind
    intro modifier modifierClean
    have front : AllClean [modifier, Doc.token .keywordDeclaration "fun", Doc.blank] :=
      .cons modifierClean (.cons (.token _ (by decide)) (.single .blank))
    have list : AllClean [name, Doc.leftParen, nested, Doc.rightParen] :=
      .cons nameClean (.cons .leftParen (.cons nestedClean (.single .rightParen)))
    have header := Clean.group (.concat ((((front.append spaced).append list).append
      typeClean).append (.cons .blank (.single .leftBrace))))
    dsimp only
    split
    · exact .ok (.concat (.cons header (.cons .hardLine (.single .rightBrace))))
    · apply (NestUnit.yields_nest _ (.concat (.cons .hardLine (.single bodyClean)))).bind
      intro block blockClean
      exact .ok (.concat (.cons header (.cons blockClean
        (.cons .hardLine (.single .rightBrace)))))
  · apply Yields.any.bind
    intro _ _
    apply Yields.any.bind
    intro _ _
    apply Yields.any.bind
    intro _ _
    exact .error _
  · exact .error _

theorem yields_methods {methods : List Node} (worded : ∀ method ∈ methods, method.Worded)
    (isFirst : Bool) : Yields AllClean (methodDocs isFirst methods) := by
  induction methods generalizing isFirst with
  | nil => exact .ok .nil
  | cons method rest induction =>
      have each := List.forall_mem_cons.mp worded
      have gap : AllClean (if isFirst then [] else [.hardLine]) := by
        cases isFirst with
        | true => exact .nil
        | false => exact .single .hardLine
      rw [methodDocs]
      apply (yields_method each.1).bind
      intro first firstClean
      apply (induction each.2 false).bind
      intro others clean
      exact .ok ((gap.append (.cons .hardLine (.single firstClean))).append clean)

theorem yields_first_supertype (nestUnit : NestUnit) {supertype : Node} (word : supertype.Word) :
    Yields Clean (firstSupertypeDoc nestUnit supertype) := by
  unfold firstSupertypeDoc
  apply (word.yields_token .nameClass).bind
  intro name clean
  exact nestUnit.yields_nest (.concat (.cons .line (.cons .colon (.cons .blank (.single clean)))))

theorem yields_other_supertypes (nestUnit : NestUnit) {supertypes : List Node}
    (words : ∀ supertype ∈ supertypes, supertype.Word) :
    Yields AllClean (otherSupertypeDocs nestUnit supertypes) := by
  induction supertypes with
  | nil => exact .ok .nil
  | cons supertype rest induction =>
      have each := List.forall_mem_cons.mp words
      rw [otherSupertypeDocs]
      apply Yields.any.bind
      intro wideUnit _
      apply (each.1.yields_token .nameClass).bind
      intro name nameClean
      apply (wideUnit.yields_nest (.concat (.cons .line (.single nameClean)))).bind
      intro first firstClean
      apply (induction each.2).bind
      intro others clean
      exact .ok (.cons .comma (.cons firstClean clean))

theorem yields_supertypes (nestUnit : NestUnit) {supertypes : List Node}
    (words : ∀ supertype ∈ supertypes, supertype.Word) :
    Yields AllClean (supertypeDocs nestUnit supertypes) := by
  cases supertypes with
  | nil => exact .ok .nil
  | cons supertype rest =>
      have each := List.forall_mem_cons.mp words
      rw [supertypeDocs]
      apply (yields_first_supertype nestUnit each.1).bind
      intro first firstClean
      apply (yields_other_supertypes nestUnit each.2).bind
      intro others clean
      exact .ok (.cons firstClean clean)

theorem clean_after_keyword {keyword : String} {name : Doc}
    (plain : '\n' ∉ keyword.toList ∧ escapeCharacter ∉ keyword.toList) (clean : name.Clean) :
    (Doc.concat [Doc.token .keywordNamespace keyword, Doc.blank, name]).Clean :=
  .concat (.cons (.token _ plain) (.cons .blank (.single clean)))

theorem yields_package {package : Node} (word : package.isSet = true → package.Word) :
    Yields AllClean (packageDocs package) := by
  unfold packageDocs
  split
  · apply ((word ‹_›).yields_token .nameNamespace).bind
    intro name clean
    exact .ok (.single (clean_after_keyword (by decide) clean))
  · exact .ok .nil

theorem yields_imports {imports : List Node} (words : ∀ name ∈ imports, name.Word) :
    Yields AllClean (importDocs imports) := by
  unfold importDocs
  apply (yields_tokens .nameNamespace words).bind
  intro names clean
  apply Yields.ok
  exact List.forall_mem_map.mpr fun name member =>
    clean_after_keyword (by decide) (clean name member)

theorem yields_class {node : Node} (worded : node.Worded) : Yields Clean (classDoc node) := by
  have worded := worded.core
  unfold classDoc
  split
  · rename_i name package imports modifier keyword generics superClass interfaces fields methods
      nestSize isClass
    rw [isClass, Worded] at worded
    rcases worded with ⟨nameWord, packageWord, importWords, modifierWord, keywordWord,
      genericWords, superWord, interfaceWords, methodsWorded⟩
    apply (yields_package packageWord).bind
    intro packages packageClean
    apply (yields_imports importWords).bind
    intro imports importsClean
    apply (keywordWord.yields_token .keywordDeclaration).bind
    intro keyword keywordClean
    apply (nameWord.yields_token .nameClass).bind
    intro name nameClean
    apply (yields_generics genericWords).bind
    intro generics genericsClean
    have supertypeWords : ∀ supertype ∈ if superClass.isSet then superClass :: interfaces
        else interfaces, supertype.Word := by
      split
      · exact List.forall_mem_cons.mpr ⟨superWord ‹_›, interfaceWords⟩
      · exact interfaceWords
    apply (yields_supertypes _ supertypeWords).bind
    intro supertypes supertypesClean
    apply (yields_methods ((worded_all_iff methods).mp methodsWorded) fields.isEmpty).bind
    intro members membersClean
    apply modifierWord.yields_doc.bind
    intro modifier modifierClean
    have front : AllClean [modifier, keyword, name] :=
      .cons modifierClean (.cons keywordClean (.single nameClean))
    have header := Clean.group (.concat (((front.append genericsClean).append
      supertypesClean).append (.cons .blank (.single .leftBrace))))
    have gaps : AllClean (fields.map fun _ => .hardLine) :=
      List.forall_mem_map.mpr fun _ _ => .hardLine
    apply (NestUnit.yields_nest _ (.joined (gaps.append membersClean))).bind
    intro block blockClean
    have declaration := Clean.concat (.cons header (.cons blockClean
      (.cons .hardLine (.single .rightBrace))))
    exact .ok (.joined (Clean.intersperse .hardLine
      ((packageClean.append importsClean).append (.single declaration))))
  · exact .error _
  · exact .error _

end Node

end KotlinLayout
