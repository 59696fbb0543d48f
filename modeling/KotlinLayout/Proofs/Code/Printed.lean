import KotlinLayout.Proofs.Code.Assembly
import KotlinLayout.Proofs.Code.Clean

/-!
What is printed is printable: where names are texts, a program with a document has no line breaks in
its texts and no unknown nodes.
-/

namespace KotlinLayout

namespace Node

def IsText : Node → Prop
  | .scalar (.text _) => True
  | _ => False

mutual

/-- The names, operators and types of a program and the texts of its constants, apart from quoted
ones. Modifiers and the keywords of classes are none of them. -/
def words : Node → List Node
  | .constant value isString =>
      if isString.isSet then [] else value.shown.text.toOption.toList.map text
  | .binary operation left right _ => operation :: (left.words ++ right.words)
  | .unary operation operand => operation :: operand.words
  | .field name => [name]
  | .reference name array index => if index.isNone then [name] else array.words ++ index.words
  | .call function arguments => function :: wordsAll arguments
  | .instanceCall function arguments receiver => function :: (wordsAll arguments ++ receiver.words)
  | .new constructor => constructor.words
  | .newArray type dimensions => type :: wordsAll dimensions
  | .assignment left right => left.words ++ right.words
  | .returning value | .throwing value => value.words
  | .methodDecl name _ generics parameters returnType body _ =>
      name :: (generics ++ (parameters ++ ((if returnType.isSet then [returnType] else []) ++
        wordsAll body)))
  | .classDecl name package imports _ _ generics superClass interfaces _ methods _ =>
      name :: ((if package.isSet then [package] else []) ++ (imports ++ (generics ++
        ((if superClass.isSet then superClass :: interfaces else interfaces) ++
          wordsAll methods))))
  | .derived _ base => base.words
  | _ => []

def wordsAll : List Node → List Node
  | [] => []
  | node :: rest => node.words ++ wordsAll rest

end

theorem words_core (node : Node) : node.core.words = node.words := by
  match node with
  | .derived _ base =>
      rw [Node.core, words]
      exact words_core base
  | .scalar _ | .list _ | .doc _ | .object | .bareExpression | .bareStatement | .constant .. |
    .binary .. | .unary .. | .field _ | .reference .. | .call .. | .instanceCall .. | .new _ |
    .newArray .. | .assignment .. | .returning _ | .throwing _ | .methodDecl .. |
    .classDecl .. => rfl

theorem forall_words_all {holds : Node → Prop} {nodes : List Node} :
    (∀ word ∈ wordsAll nodes, holds word) ↔ ∀ node ∈ nodes, ∀ word ∈ node.words, holds word := by
  induction nodes with
  | nil => simp [wordsAll]
  | cons node rest induction =>
      rw [wordsAll, List.forall_mem_append, induction, List.forall_mem_cons]

def Lettered (node : Node) : Prop := ∀ word ∈ node.words, word.IsText

theorem lettered_each {nodes : List Node} (texts : ∀ word ∈ wordsAll nodes, word.IsText) :
    ∀ node ∈ nodes, node.Lettered :=
  forall_words_all.mp texts

theorem IsText.yields_named {name : Node} (isText : name.IsText) :
    Yields (fun _ => name.Named) name.toDoc := by
  match name with
  | .scalar (.text value) =>
      exact (Doc.yields_cast_text value).weaken fun _ cast => .text cast.1

theorem IsText.yields_named_token {name : Node} (isText : name.IsText) (token : Token) :
    Yields (fun _ => name.Named) (name.toToken token) :=
  isText.yields_named.map fun _ named => named

theorem yields_all_named {names : List Node} (texts : ∀ name ∈ names, name.IsText) :
    Yields (fun _ => ∀ name ∈ names, name.Named) (toDocs names) :=
  @Yields.every Doc Node toDoc toDocs Named (fun _ _ => rfl) names fun name member =>
    (texts name member).yields_named

theorem yields_all_named_tokens (token : Token) {names : List Node}
    (texts : ∀ name ∈ names, name.IsText) :
    Yields (fun _ => ∀ name ∈ names, name.Named) (toTokens token names) :=
  @Yields.every Doc Node (fun name => name.toToken token) (toTokens token) Named (fun _ _ => rfl)
    names fun name member => (texts name member).yields_named_token token

theorem yields_named_generics {generics : List Node}
    (texts : ∀ generic ∈ generics, generic.IsText) :
    Yields (fun _ => ∀ generic ∈ generics, generic.Named) (genericsDocs generics) := by
  unfold genericsDocs
  split
  · exact .ok (List.forall_mem_nil _)
  · exact (yields_all_named texts).bind fun _ named => .ok named

variable {nestUnit : NestUnit}

theorem yields_printable_constant (value isString : Node) :
    Yields (fun _ => (Node.constant value isString).Printable) (constantDoc value isString) := by
  have quoted (finish : Doc → Doc) : Yields (fun _ => (Node.constant value isString).Printable)
      (do let content ← Combinator.cast (.text (← value.shown.text)); return finish content) := by
    have itself : Yields (fun text => value.shown.text = .ok text) value.shown.text :=
      ⟨fun _ success => success⟩
    apply itself.bind
    intro text shown
    apply (Doc.yields_cast_text text).bind
    rintro _ ⟨breakless, -⟩
    exact .ok (.constant shown breakless)
  unfold constantDoc
  split
  · exact quoted _
  · split
    · exact .ok (.constant rfl (by decide))
    · exact .ok (.constant rfl (by decide))
    · exact .ok (.constant rfl (by decide))
    · exact quoted _

mutual

theorem yields_printable (node : Node) (lettered : node.Lettered) :
    Yields (fun _ => node.Printable) (expressionDoc nestUnit node) := by
  unfold Lettered at lettered
  match node with
  | .constant value isString =>
      rw [expressionDoc]
      exact yields_printable_constant value isString
  | .binary operation left right priority =>
      rw [words, List.forall_mem_cons, List.forall_mem_append] at lettered
      rcases lettered with ⟨isText, leftLettered, rightLettered⟩
      rw [expressionDoc]
      apply (yields_printable left leftLettered).bind
      intro _ leftPrintable
      apply (yields_printable right rightLettered).bind
      intro _ rightPrintable
      apply (isText.yields_named_token .operator).bind
      rintro operator ⟨breakless⟩
      apply Yields.any.bind
      intro rest _
      exact .ok (.binary breakless leftPrintable rightPrintable)
  | .unary operation operand =>
      rw [words, List.forall_mem_cons] at lettered
      rw [expressionDoc]
      apply (lettered.1.yields_named_token .operator).bind
      rintro operator ⟨breakless⟩
      apply (yields_printable operand lettered.2).bind
      intro _ printable
      exact .ok (.unary breakless printable)
  | .field name =>
      rw [expressionDoc]
      apply ((List.forall_mem_singleton.mp lettered).yields_named_token .nameVariable).weaken
      rintro _ ⟨breakless⟩
      exact .field breakless
  | .reference name array index =>
      rw [words] at lettered
      rw [expressionDoc]
      cases absent : index.isNone with
      | true =>
          rw [if_pos absent] at lettered
          apply ((List.forall_mem_singleton.mp lettered).yields_named_token .nameVariable).weaken
          rintro _ ⟨breakless⟩
          exact .reference breakless absent
      | false =>
          rw [absent, if_neg Bool.false_ne_true, List.forall_mem_append] at lettered
          apply (yields_printable array lettered.1).bind
          intro _ arrayPrintable
          apply (yields_printable index lettered.2).bind
          intro _ indexPrintable
          exact .ok (.element arrayPrintable indexPrintable)
  | .call function arguments =>
      rw [words, List.forall_mem_cons] at lettered
      rw [expressionDoc]
      apply (lettered.1.yields_named_token .nameFunction).bind
      rintro _ ⟨breakless⟩
      apply (yields_printable_arguments arguments lettered.2).bind
      intro _ printable
      exact Yields.any.weaken fun _ _ => .call breakless printable
  | .instanceCall function arguments receiver =>
      rw [words, List.forall_mem_cons, List.forall_mem_append] at lettered
      rcases lettered with ⟨isText, argumentsLettered, receiverLettered⟩
      rw [expressionDoc]
      apply (isText.yields_named_token .nameFunction).bind
      rintro _ ⟨breakless⟩
      apply (yields_printable receiver receiverLettered).bind
      intro _ receiverPrintable
      apply (yields_printable_arguments arguments argumentsLettered).bind
      intro _ printable
      exact Yields.any.weaken fun _ _ => .instanceCall breakless printable receiverPrintable
  | .new constructor =>
      rw [expressionDoc]
      apply (yields_printable constructor lettered).bind
      intro _ printable
      exact Yields.any.weaken fun _ _ => .new printable
  | .newArray type dimensions =>
      rw [words, List.forall_mem_cons] at lettered
      rw [expressionDoc]
      apply (lettered.1.yields_named_token .nameClass).bind
      rintro _ ⟨breakless⟩
      apply Yields.any.bind
      intro array _
      apply (yields_printable_dimensions array dimensions lettered.2).weaken
      intro _ printable
      exact .newArray breakless printable
  | .derived name base =>
      rw [expressionDoc]
      split
      · exact (yields_printable base lettered).weaken fun _ printable => .derived printable
      · exact .error _
  | .scalar _ | .list _ | .doc _ | .object | .bareExpression | .bareStatement | .assignment .. |
    .returning _ | .throwing _ | .methodDecl .. | .classDecl .. =>
      rw [expressionDoc]
      · exact .error _
      all_goals simp

theorem yields_printable_arguments (arguments : List Node)
    (lettered : ∀ word ∈ wordsAll arguments, word.IsText) :
    Yields (fun _ => ∀ argument ∈ arguments, argument.Printable)
      (argumentDocs nestUnit arguments) := by
  match arguments with
  | [] =>
      rw [argumentDocs]
      exact .ok (List.forall_mem_nil _)
  | argument :: rest =>
      rw [wordsAll, List.forall_mem_append] at lettered
      rw [argumentDocs]
      apply (yields_printable argument lettered.1).bind
      intro _ printable
      apply (yields_printable_arguments rest lettered.2).bind
      intro _ othersPrintable
      exact .ok (List.forall_mem_cons.mpr ⟨printable, othersPrintable⟩)

theorem yields_printable_dimensions (array : Doc) (dimensions : List Node)
    (lettered : ∀ word ∈ wordsAll dimensions, word.IsText) :
    Yields (fun _ => ∀ dimension ∈ dimensions, dimension.Printable)
      (dimensionDocs nestUnit array dimensions) := by
  match dimensions with
  | [] =>
      rw [dimensionDocs]
      exact .ok (List.forall_mem_nil _)
  | dimension :: rest =>
      rw [wordsAll, List.forall_mem_append] at lettered
      rw [dimensionDocs]
      apply (yields_printable dimension lettered.1).bind
      intro _ printable
      apply (yields_printable_dimensions _ rest lettered.2).weaken
      intro _ othersPrintable
      exact List.forall_mem_cons.mpr ⟨printable, othersPrintable⟩

end

theorem yields_printable_statement (node : Node) (lettered : node.Lettered) :
    Yields (fun _ => node.PrintableStatement) (statementDoc nestUnit node) := by
  unfold Lettered at lettered
  match node with
  | .assignment left right =>
      rw [words, List.forall_mem_append] at lettered
      rw [statementDoc, assignmentDoc]
      apply (yields_printable left lettered.1).bind
      intro _ leftPrintable
      apply (yields_printable right lettered.2).bind
      intro _ rightPrintable
      exact Yields.any.weaken fun _ _ => .assignment leftPrintable rightPrintable
  | .returning value =>
      rw [statementDoc]
      split
      · exact .ok (.bareReturn ‹_›)
      · apply (yields_printable value lettered).bind
        intro _ printable
        exact Yields.any.weaken fun _ _ => .returning printable
  | .throwing value =>
      rw [statementDoc]
      apply (yields_printable value lettered).bind
      intro _ printable
      exact Yields.any.weaken fun _ _ => .throwing printable
  | .call function arguments =>
      rw [statementDoc]
      exact (yields_printable _ lettered).weaken fun _ printable => .call printable
  | .instanceCall function arguments receiver =>
      rw [statementDoc]
      exact (yields_printable _ lettered).weaken fun _ printable => .instanceCall printable
  | .derived name base =>
      rw [statementDoc]
      split
      · exact (yields_printable_statement base lettered).weaken fun _ printable =>
          .derived printable
      · exact .error _
  | .scalar _ | .list _ | .doc _ | .object | .bareExpression | .bareStatement | .constant .. |
    .binary .. | .unary .. | .field _ | .reference .. | .new _ | .newArray .. | .methodDecl .. |
    .classDecl .. =>
      rw [statementDoc]
      · exact .error _
      all_goals simp

theorem yields_printable_block {statements : List Node}
    (lettered : ∀ word ∈ wordsAll statements, word.IsText) :
    Yields (fun _ => ∀ statement ∈ statements, statement.PrintableStatement)
      (blockDoc nestUnit statements) := by
  have each := lettered_each lettered
  have printable : Yields (fun _ => ∀ statement ∈ statements, statement.PrintableStatement)
      (statementDocs nestUnit statements) :=
    @Yields.every Doc Node (statementDoc nestUnit) (statementDocs nestUnit) PrintableStatement
      (fun _ _ => rfl) statements fun statement member =>
        yields_printable_statement statement (each statement member)
  unfold blockDoc
  split
  · exact .ok (List.forall_mem_nil _)
  · exact printable.bind fun _ printable => .ok printable

end Node

namespace NestUnit

def IsColumns (nestUnit : NestUnit) : Prop := ∃ indent, nestUnit = .columns indent

theorem yields_is_columns (nestUnit : NestUnit) (doc : Doc) :
    Yields (fun _ => nestUnit.IsColumns) (nestUnit.nest doc) := by
  cases nestUnit with
  | columns indent => exact .ok ⟨indent, rfl⟩
  | repeatable => exact .error _
  | fixed kind => exact .error _

theorem yields_doubled (nestUnit : NestUnit) :
    Yields (fun wide => wide.IsColumns → nestUnit.IsColumns) nestUnit.doubled := by
  cases nestUnit with
  | columns indent => exact .ok fun _ => ⟨indent, rfl⟩
  | repeatable => exact .ok id
  | fixed kind => exact .error _

def Rightward : NestUnit → Prop
  | .columns indent => indent.Rightward
  | _ => True

theorem IsColumns.nonneg {nestUnit : NestUnit} (columns : nestUnit.IsColumns)
    (rightward : nestUnit.Rightward) : ∃ indent, nestUnit = .columns indent ∧ 0 ≤ indent.toInt := by
  rcases columns with ⟨indent, rfl⟩
  exact ⟨indent, rfl, rightward⟩

end NestUnit

namespace Node

variable {nestUnit : NestUnit}

def TypesetMethod (node : Node) : Prop :=
  match node.core with
  | .methodDecl _ modifier _ _ _ _ nestSize =>
      modifier.IsText ∧ (NestUnit.ofNode nestSize).Rightward
  | _ => True

/-- The modifier and the keyword of a class are texts, and nothing in it is nested to the left. -/
def TypesetClass (node : Node) : Prop :=
  match node.core with
  | .classDecl _ _ _ modifier keyword _ _ _ _ methods nestSize =>
      modifier.IsText ∧ keyword.IsText ∧ (NestUnit.ofNode nestSize).Rightward ∧
        ∀ method ∈ methods, method.TypesetMethod
  | _ => True

theorem yields_named_return_type {returnType : Node}
    (texts : ∀ word ∈ (if returnType.isSet then [returnType] else []), word.IsText) :
    Yields (fun _ => returnType.isSet = true → returnType.Named) (returnTypeDocs returnType) := by
  unfold returnTypeDocs
  split
  · rw [if_pos ‹_›] at texts
    apply ((List.forall_mem_singleton.mp texts).yields_named_token .nameClass).bind
    intro _ named
    exact .ok fun _ => named
  · exact .ok fun isSet => absurd isSet ‹_›

theorem yields_printable_method (node : Node) (typeset : node.TypesetMethod)
    (lettered : node.Lettered) : Yields (fun _ => node.PrintableMethod) (methodDoc node) := by
  rw [Lettered, ← words_core] at lettered
  unfold TypesetMethod at typeset
  unfold methodDoc
  split
  · rename_i name modifier generics parameters returnType body nestSize core
    rw [core] at typeset
    rw [core, words] at lettered
    simp only [List.forall_mem_cons, List.forall_mem_append] at lettered
    rcases lettered with ⟨isName, areGenerics, areParameters, isReturnType, areStatements⟩
    apply (yields_named_generics areGenerics).bind
    intro _ genericsNamed
    apply (isName.yields_named_token .nameFunction).bind
    intro _ nameNamed
    apply (NestUnit.ofNode nestSize).yields_doubled.bind
    intro wideUnit fromWide
    apply (yields_all_named areParameters).bind
    intro _ parametersNamed
    apply (wideUnit.yields_is_columns _).bind
    intro _ isColumns
    apply (yields_named_return_type isReturnType).bind
    intro _ returnNamed
    apply (yields_printable_block areStatements).bind
    intro _ printable
    apply typeset.1.yields_named.bind
    intro _ modifierNamed
    rcases (fromWide isColumns).nonneg typeset.2 with ⟨indent, columns, nonneg⟩
    exact Yields.any.weaken fun _ _ => .declared core nameNamed modifierNamed genericsNamed
      parametersNamed returnNamed printable columns nonneg
  · apply Yields.any.bind
    intro _ _
    apply Yields.any.bind
    intro _ _
    exact Yields.any.bind fun _ _ => .error _
  · exact .error _

theorem yields_printable_methods {methods : List Node}
    (typeset : ∀ method ∈ methods, method.TypesetMethod)
    (lettered : ∀ method ∈ methods, method.Lettered) (isFirst : Bool) :
    Yields (fun _ => ∀ method ∈ methods, method.PrintableMethod) (methodDocs isFirst methods) := by
  induction methods generalizing isFirst with
  | nil => exact .ok (List.forall_mem_nil _)
  | cons method rest induction =>
      rcases List.forall_mem_cons.mp typeset with ⟨isTypeset, areTypeset⟩
      rcases List.forall_mem_cons.mp lettered with ⟨isLettered, areLettered⟩
      rw [methodDocs]
      apply (yields_printable_method method isTypeset isLettered).bind
      intro _ printable
      apply (induction areTypeset areLettered false).bind
      intro _ othersPrintable
      exact .ok (List.forall_mem_cons.mpr ⟨printable, othersPrintable⟩)

theorem yields_named_other_supertypes {supertypes : List Node}
    (texts : ∀ supertype ∈ supertypes, supertype.IsText) :
    Yields (fun _ => ∀ supertype ∈ supertypes, supertype.Named)
      (otherSupertypeDocs nestUnit supertypes) := by
  induction supertypes with
  | nil => exact .ok (List.forall_mem_nil _)
  | cons supertype rest induction =>
      rcases List.forall_mem_cons.mp texts with ⟨isText, areTexts⟩
      rw [otherSupertypeDocs]
      apply Yields.any.bind
      intro _ _
      apply (isText.yields_named_token .nameClass).bind
      intro _ named
      apply Yields.any.bind
      intro _ _
      apply (induction areTexts).bind
      intro _ othersNamed
      exact .ok (List.forall_mem_cons.mpr ⟨named, othersNamed⟩)

theorem yields_named_supertypes {supertypes : List Node}
    (texts : ∀ supertype ∈ supertypes, supertype.IsText) :
    Yields (fun _ => ∀ supertype ∈ supertypes, supertype.Named)
      (supertypeDocs nestUnit supertypes) := by
  cases supertypes with
  | nil => exact .ok (List.forall_mem_nil _)
  | cons supertype rest =>
      rcases List.forall_mem_cons.mp texts with ⟨isText, areTexts⟩
      rw [supertypeDocs, firstSupertypeDoc, bind_assoc]
      apply (isText.yields_named_token .nameClass).bind
      intro _ named
      apply Yields.any.bind
      intro _ _
      apply (yields_named_other_supertypes areTexts).bind
      intro _ othersNamed
      exact .ok (List.forall_mem_cons.mpr ⟨named, othersNamed⟩)

theorem yields_named_package {package : Node}
    (texts : ∀ word ∈ (if package.isSet then [package] else []), word.IsText) :
    Yields (fun _ => package.isSet = true → package.Named) (packageDocs package) := by
  unfold packageDocs
  split
  · rw [if_pos ‹_›] at texts
    apply ((List.forall_mem_singleton.mp texts).yields_named_token .nameNamespace).bind
    intro _ named
    exact .ok fun _ => named
  · exact .ok fun isSet => absurd isSet ‹_›

theorem yields_named_imports {imports : List Node} (texts : ∀ name ∈ imports, name.IsText) :
    Yields (fun _ => ∀ name ∈ imports, name.Named) (importDocs imports) := by
  unfold importDocs
  exact (yields_all_named_tokens .nameNamespace texts).bind fun _ named => .ok named

theorem yields_printable_class (node : Node) (typeset : node.TypesetClass)
    (lettered : node.Lettered) : Yields (fun _ => node.PrintableClass) (classDoc node) := by
  rw [Lettered, ← words_core] at lettered
  unfold TypesetClass at typeset
  unfold classDoc
  split
  · rename_i name package imports modifier keyword generics superClass interfaces fields methods
      nestSize core
    rw [core] at typeset
    rw [core, words] at lettered
    simp only [List.forall_mem_cons, List.forall_mem_append] at lettered
    rcases lettered with ⟨isName, isPackage, areImports, areGenerics, areSupertypes, inMethods⟩
    rcases typeset with ⟨isModifier, isKeyword, rightward, areTypeset⟩
    apply (yields_named_package isPackage).bind
    intro _ packageNamed
    apply (yields_named_imports areImports).bind
    intro _ importsNamed
    apply (isKeyword.yields_named_token .keywordDeclaration).bind
    intro _ keywordNamed
    apply (isName.yields_named_token .nameClass).bind
    intro _ nameNamed
    apply (yields_named_generics areGenerics).bind
    intro _ genericsNamed
    apply (yields_named_supertypes areSupertypes).bind
    intro _ supertypesNamed
    apply (yields_printable_methods areTypeset (lettered_each inMethods) _).bind
    intro _ printable
    apply isModifier.yields_named.bind
    intro _ modifierNamed
    apply ((NestUnit.ofNode nestSize).yields_is_columns _).bind
    intro _ isColumns
    rcases isColumns.nonneg rightward with ⟨indent, columns, nonneg⟩
    -- A class that is extended is printed as the first of the supertypes.
    have supertypes : (superClass.isSet = true → superClass.Named) ∧
        ∀ interface ∈ interfaces, interface.Named := by
      split at supertypesNamed
      · rcases List.forall_mem_cons.mp supertypesNamed with ⟨superNamed, interfacesNamed⟩
        exact ⟨fun _ => superNamed, interfacesNamed⟩
      · exact ⟨fun isSet => absurd isSet ‹_›, supertypesNamed⟩
    exact .ok (.declared core nameNamed packageNamed importsNamed modifierNamed keywordNamed
      genericsNamed supertypes.1 supertypes.2 printable columns nonneg)
  · exact .error _
  · exact .error _

/-- Where names, modifiers and keywords are texts and nothing is nested to the left, the classes
that are printed are the printable ones. -/
theorem class_printed_iff {node : Node} (typeset : node.TypesetClass) (lettered : node.Lettered) :
    (∃ doc, node.classDoc = .ok doc) ↔ node.PrintableClass := by
  constructor
  · rintro ⟨doc, success⟩
    exact (yields_printable_class node typeset lettered).good_of_ok doc success
  · intro printable
    rcases printable.renders 0 0 with ⟨doc, success, -⟩
    exact ⟨doc, success⟩

end Node

end KotlinLayout
