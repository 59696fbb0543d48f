import KotlinLayout.Code.Expression
import KotlinLayout.Proofs.Document.Built
import KotlinLayout.Proofs.Document.Marks
import KotlinLayout.Proofs.Layout.Level

/-!
The documents of expressions. Expressions whose names and texts have no line breaks have
documents without forced breaks, in which every fill has lines between its contents.
-/

namespace KotlinLayout

def Amount.Rightward (amount : Amount) : Prop := 0 ≤ amount.toInt

namespace Doc

/-- Documents without forced breaks, whose contents are nested by amounts of some kind. -/
inductive Phrase (nested : Amount → Prop) : Doc → Prop where
  | text {value : String} : '\n' ∉ value.toList → Phrase nested (.text value)
  | nil : Phrase nested .nil
  | line : Phrase nested Doc.line
  | concat {parts : List Doc} :
      (∀ part ∈ parts, part.Phrase nested) → Phrase nested (.concat parts)
  | nest {amount : Amount} {body : Doc} :
      nested amount → body.Phrase nested → Phrase nested (.nest amount body)
  | group {body : Doc} : body.Phrase nested → Phrase nested (.group body)
  | annotated {label : Label} {body : Doc} :
      body.Phrase nested → Phrase nested (.annotated label body)
  | fill {docs : List Doc} :
      (∀ doc ∈ docs, doc.Phrase nested) → Phrase nested (.fill (docs.intersperse Doc.line))

variable {nested : Amount → Prop}

theorem Phrase.sound {doc : Doc} (phrase : doc.Phrase nested) : doc.Sound LineOnly True := by
  have blank : (Doc.text " ").Sound LineOnly True := .text (by decide)
  have line : Doc.line.Sound LineOnly True := .choice ⟨rfl, rfl⟩ .hardLine blank
  induction phrase with
  | text breakless => exact .text breakless
  | nil => exact .nil
  | line => exact line
  | concat _ induction => exact .concat induction
  | nest _ _ induction => exact .nest induction
  | group _ induction => exact .group induction
  | annotated _ induction => exact .annotated induction
  | fill _ induction => exact .fill trivial (holds_intersperse line induction)

theorem Phrase.plain_marks {doc : Doc} (phrase : doc.Phrase Amount.Rightward)
    {indent : Int} (nonneg : 0 ≤ indent) : ∀ mark ∈ doc.marks indent, mark.Plain := by
  induction phrase generalizing indent with
  | text breakless =>
      simp only [marks, List.mem_singleton, forall_eq]
      exact breakless
  | nil => simp [marks]
  | line =>
      simp only [Doc.line, marks, List.mem_singleton, forall_eq]
      exact nonneg
  | concat _ induction =>
      intro mark member
      rw [marks_concat] at member
      obtain ⟨part, isPart, member⟩ := List.mem_flatMap.mp member
      exact induction part isPart nonneg mark member
  | nest amount _ induction =>
      rw [marks]
      exact induction (Int.add_nonneg nonneg amount)
  | group _ induction =>
      rw [marks]
      exact induction nonneg
  | annotated _ induction =>
      intro mark member
      simp only [marks, List.mem_cons, List.mem_append, List.not_mem_nil, or_false] at member
      rcases member with rfl | member | rfl
      · trivial
      · exact induction nonneg mark member
      · trivial
  | fill _ induction =>
      intro mark member
      rw [marks_fill] at member
      obtain ⟨item, isItem, member⟩ := List.mem_flatMap.mp member
      rcases mem_intersperse isItem with rfl | isItem
      · simp only [Doc.line, marks, List.mem_singleton] at member
        subst member
        exact nonneg
      · exact induction item isItem nonneg mark member

theorem separated_intersperse (docs : List Doc) : Separated (docs.intersperse Doc.line) := by
  induction docs with
  | nil => exact .nil
  | cons first rest induction =>
      match rest with
      | [] => exact .last
      | [second] => exact .next .last
      | second :: third :: rest => exact .next induction

/-- The normal form of a phrase is level: there is nothing in it that forces a break. -/
theorem Phrase.normalize {doc : Doc} (phrase : doc.Phrase nested) :
    doc.normalize.Steady ∧ doc.normalize.Level := by
  induction phrase with
  | text _ => exact ⟨.text, .text⟩
  | nil => exact ⟨.nil, .nil⟩
  | line => exact ⟨.choice .text, .choice .text⟩
  | @concat parts _ induction =>
      have steady : ∀ part ∈ parts.map Doc.normalize, part.Steady := by
        simpa using fun part isPart => (induction part isPart).1
      have level : ∀ part ∈ parts.map Doc.normalize, part.Level := by
        simpa using fun part isPart => (induction part isPart).2
      rw [Doc.normalize, normalize_all_eq_map]
      exact ⟨steady_assembled steady, level_assembled level⟩
  | nest _ _ induction =>
      rw [Doc.normalize, induction.2.wrapped_eq]
      exact ⟨.nest induction.1, .nest induction.2⟩
  | group _ induction =>
      exact ⟨steady_grouped induction.1 (.inl induction.2), level_grouped induction.2⟩
  | annotated _ induction =>
      rw [Doc.normalize, induction.2.wrapped_eq]
      exact ⟨.annotated induction.1, .annotated induction.2⟩
  | @fill docs _ induction =>
      have each : ∀ item ∈ (docs.map Doc.normalize).intersperse Doc.line,
          item.Steady ∧ item.Level := by
        intro item member
        rcases mem_intersperse member with rfl | member
        · exact ⟨.choice .text, .choice .text⟩
        · obtain ⟨doc, isContent, rfl⟩ := List.mem_map.mp member
          exact induction doc isContent
      have same : (docs.intersperse Doc.line).map Doc.normalize =
          (docs.map Doc.normalize).intersperse Doc.line :=
        map_intersperse Doc.normalize Doc.line docs
      rw [Doc.normalize, normalize_all_eq_map, same]
      exact ⟨.fill (separated_intersperse _) (fun item member => (each item member).2)
        fun item member => (each item member).1, .fill fun item member => (each item member).2⟩

end Doc

namespace Node

/-- Expressions of known kinds. Names and operators are texts, and no text has a line break. -/
inductive Printable : Node → Prop where
  | constant {value isString : Node} {text : String} :
      value.shown.text = .ok text → '\n' ∉ text.toList → Printable (.constant value isString)
  | binary {operation : String} {left right : Node} {priority : Int} :
      '\n' ∉ operation.toList → left.Printable → right.Printable →
        Printable (.binary (.text operation) left right priority)
  | unary {operation : String} {operand : Node} :
      '\n' ∉ operation.toList → operand.Printable → Printable (.unary (.text operation) operand)
  | field {name : String} : '\n' ∉ name.toList → Printable (.field (.text name))
  | reference {name : String} {array index : Node} :
      '\n' ∉ name.toList → index.isNone = true → Printable (.reference (.text name) array index)
  | element {name array index : Node} :
      array.Printable → index.Printable → Printable (.reference name array index)
  | call {function : String} {arguments : List Node} :
      '\n' ∉ function.toList → (∀ argument ∈ arguments, argument.Printable) →
        Printable (.call (.text function) arguments)
  | instanceCall {function : String} {arguments : List Node} {receiver : Node} :
      '\n' ∉ function.toList → (∀ argument ∈ arguments, argument.Printable) →
        receiver.Printable → Printable (.instanceCall (.text function) arguments receiver)
  | new {constructor : Node} : constructor.Printable → Printable (.new constructor)
  | newArray {type : String} {dimensions : List Node} :
      '\n' ∉ type.toList → (∀ dimension ∈ dimensions, dimension.Printable) →
        Printable (.newArray (.text type) dimensions)
  | derived {name : String} {base : Node} : base.Printable → Printable (.derived name base)

open Doc (Phrase)

variable {nested : Amount → Prop}

theorem Printable.is_expression {node : Node} (printable : node.Printable) :
    node.isExpression = true := by
  induction printable with
  | derived _ induction => exact induction
  | _ => rfl

theorem Printable.index_is_some {node : Node} (printable : node.Printable) :
    node.isNone = false := by
  cases printable <;> rfl

theorem phrase_token (token : Token) {text : String} (breakless : '\n' ∉ text.toList) :
    (Doc.token token text).Phrase nested :=
  .annotated (.text breakless)

theorem cast_text {text : String} (breakless : '\n' ∉ text.toList) :
    Combinator.cast (.text text) = .ok (if text = "" then .nil else .text text) := by
  by_cases empty : text = ""
  · rw [Combinator.cast, if_pos empty, if_pos empty]
  · rw [Combinator.cast, if_neg empty, if_neg empty, Doc.checkText, if_neg breakless]
    rfl

theorem to_token_of_cast (token : Token) {name : String} {doc : Doc}
    (success : Combinator.cast (.text name) = .ok doc) :
    (text name).toToken token = .ok (.annotated (.token token) doc) := by
  rw [toToken, text, toDoc, success]
  rfl

theorem cast_phrase {text : String} (breakless : '\n' ∉ text.toList) :
    ∃ doc, Combinator.cast (.text text) = .ok doc ∧ doc.Phrase nested := by
  refine ⟨_, cast_text breakless, ?_⟩
  split
  · exact .nil
  · exact .text breakless

theorem to_token_phrase (token : Token) {name : String} (breakless : '\n' ∉ name.toList) :
    ∃ doc, (text name).toToken token = .ok doc ∧ doc.Phrase nested := by
  obtain ⟨doc, success, phrase⟩ := cast_phrase breakless
  exact ⟨_, to_token_of_cast token success, .annotated phrase⟩

theorem parenthesized_phrase {doc : Doc} (phrase : doc.Phrase nested) :
    doc.parenthesized.Phrase nested := by
  have left : Doc.leftParen.Phrase nested := phrase_token .punctuation (by decide)
  have right : Doc.rightParen.Phrase nested := phrase_token .punctuation (by decide)
  apply Phrase.concat
  simpa using ⟨left, phrase, right⟩

theorem operand_phrase {doc : Doc} (phrase : doc.Phrase nested) (withParens : Bool) :
    (doc.operand withParens).Phrase nested := by
  cases withParens with
  | true => exact parenthesized_phrase phrase
  | false => exact phrase

theorem indexed_phrase {array index : Doc} (arrayPhrase : array.Phrase nested)
    (indexPhrase : index.Phrase nested) : (Doc.indexed array index).Phrase nested := by
  have left : Doc.leftBracket.Phrase nested := phrase_token .punctuation (by decide)
  have right : Doc.rightBracket.Phrase nested := phrase_token .punctuation (by decide)
  apply Phrase.group
  apply Phrase.concat
  simpa using ⟨arrayPhrase, left, indexPhrase, right⟩

theorem binary_phrase {left operator right : Doc} (leftPhrase : left.Phrase nested)
    (operatorPhrase : operator.Phrase nested) (rightPhrase : right.Phrase nested) {indent : Amount}
    (single : nested indent) :
    (Doc.group (.concat
      [left, .nest indent (.concat [Doc.line, operator, Doc.blank, right])])).Phrase nested := by
  have blank : Doc.blank.Phrase nested := .text (by decide)
  have inner :
      (Doc.nest indent (.concat [Doc.line, operator, Doc.blank, right])).Phrase nested := by
    apply Phrase.nest single
    apply Phrase.concat
    simpa using ⟨Phrase.line, operatorPhrase, blank, rightPhrase⟩
  apply Phrase.group
  apply Phrase.concat
  simpa using ⟨leftPhrase, inner⟩

theorem prefixed_phrase {operator operand : Doc} (operatorPhrase : operator.Phrase nested)
    (operandPhrase : operand.Phrase nested) : (Doc.concat [operator, operand]).Phrase nested := by
  apply Phrase.concat
  simpa using ⟨operatorPhrase, operandPhrase⟩

theorem qualified_phrase {receiver function : Doc} (receiverPhrase : receiver.Phrase nested)
    (functionPhrase : function.Phrase nested) :
    (Doc.concat [receiver, Doc.dot, function]).Phrase nested := by
  have dot : Doc.dot.Phrase nested := phrase_token .punctuation (by decide)
  apply Phrase.concat
  simpa using ⟨receiverPhrase, dot, functionPhrase⟩

theorem with_comma_phrase {argument : Doc} (phrase : argument.Phrase nested) :
    (Doc.concat [argument, Doc.comma]).Phrase nested := by
  have comma : Doc.comma.Phrase nested := phrase_token .punctuation (by decide)
  apply Phrase.concat
  simpa using ⟨phrase, comma⟩

theorem after_keyword_phrase {keyword value : Doc} (keywordPhrase : keyword.Phrase nested)
    (valuePhrase : value.Phrase nested) {indent : Amount} (single : nested indent) :
    ∃ doc, Doc.afterKeyword keyword value (.columns indent) = .ok doc ∧ doc.Phrase nested := by
  refine ⟨_, rfl, ?_⟩
  apply Phrase.group
  apply Phrase.concat
  have inner : (Doc.nest indent (.concat [Doc.line, value])).Phrase nested := by
    apply Phrase.nest single
    apply Phrase.concat
    simpa using ⟨Phrase.line, valuePhrase⟩
  simpa using ⟨keywordPhrase, inner⟩

theorem call_doc_phrase {function : Doc} {arguments : List Doc}
    (functionPhrase : function.Phrase nested)
    (argumentPhrases : ∀ argument ∈ arguments, argument.Phrase nested) {indent : Amount}
    (double : nested (.int (2 * indent.toInt))) :
    ∃ doc, callDoc (.columns indent) function arguments = .ok doc ∧ doc.Phrase nested := by
  have left : Doc.leftParen.Phrase nested := phrase_token .punctuation (by decide)
  have right : Doc.rightParen.Phrase nested := phrase_token .punctuation (by decide)
  cases arguments with
  | nil =>
      refine ⟨_, rfl, ?_⟩
      apply Phrase.concat
      simpa using ⟨functionPhrase, left, right⟩
  | cons first rest =>
      refine ⟨_, rfl, ?_⟩
      have inner : (Doc.nest (.int (2 * indent.toInt))
          (.fill ((first :: rest).intersperse Doc.line))).Phrase nested :=
        .nest double (.fill argumentPhrases)
      apply Phrase.group
      apply Phrase.concat
      simpa using ⟨functionPhrase, left, inner, right⟩

theorem constant_doc_phrase {value isString : Node} {text : String}
    (shown : value.shown.text = .ok text) (breakless : '\n' ∉ text.toList) :
    ∃ doc, constantDoc value isString = .ok doc ∧ doc.Phrase nested := by
  obtain ⟨content, success, phrase⟩ := cast_phrase breakless
  have quote : (Doc.text "\"").Phrase nested := .text (by decide)
  unfold constantDoc
  split
  · refine ⟨.annotated (.token .literalString) (.concat [.text "\"", content, .text "\""]), ?_, ?_⟩
    · simp only [shown, bind, Except.bind, success, pure, Except.pure]
    · apply Phrase.annotated
      apply Phrase.concat
      simpa using ⟨quote, phrase, quote⟩
  · split
    · exact ⟨_, rfl, phrase_token .keywordConstant (by decide)⟩
    · exact ⟨_, rfl, phrase_token .keywordConstant (by decide)⟩
    · exact ⟨_, rfl, phrase_token .keywordConstant (by decide)⟩
    · refine ⟨.annotated (.token .number) content, ?_, .annotated phrase⟩
      simp only [shown, bind, Except.bind, success, pure, Except.pure]

def Phrased (nested : Amount → Prop) (indent : Amount) (nodes : List Node) : Prop :=
  ∀ node ∈ nodes, ∃ doc, node.expressionDoc (.columns indent) = .ok doc ∧ doc.Phrase nested

theorem argument_docs_phrase {indent : Amount} {arguments : List Node}
    (phrased : Phrased nested indent arguments) :
    ∃ docs, argumentDocs (.columns indent) arguments = .ok docs ∧
      ∀ doc ∈ docs, doc.Phrase nested := by
  induction arguments with
  | nil => exact ⟨[], rfl, by simp⟩
  | cons argument rest induction =>
      obtain ⟨first, isFirst, firstPhrase⟩ := phrased argument (by simp)
      obtain ⟨others, areOthers, otherPhrases⟩ :=
        induction fun node member => phrased node (by simp [member])
      refine ⟨_, by rw [argumentDocs, isFirst, areOthers]; rfl, ?_⟩
      apply List.forall_mem_cons.mpr ⟨_, otherPhrases⟩
      split
      · exact firstPhrase
      · exact with_comma_phrase firstPhrase

theorem dimension_docs_phrase {indent : Amount} {dimensions : List Node} {array : Doc}
    (arrayPhrase : array.Phrase nested) (phrased : Phrased nested indent dimensions) :
    ∃ doc, dimensionDocs (.columns indent) array dimensions = .ok doc ∧ doc.Phrase nested := by
  induction dimensions generalizing array with
  | nil => exact ⟨array, rfl, arrayPhrase⟩
  | cons dimension rest induction =>
      obtain ⟨first, isFirst, firstPhrase⟩ := phrased dimension (by simp)
      obtain ⟨doc, isDoc, phrase⟩ := induction (indexed_phrase arrayPhrase firstPhrase)
        fun node member => phrased node (by simp [member])
      refine ⟨doc, ?_, phrase⟩
      rw [dimensionDocs, isFirst]
      exact isDoc

theorem Printable.expression_doc {node : Node} (printable : node.Printable) {indent : Amount}
    (single : nested indent) (double : nested (.int (2 * indent.toInt))) :
    ∃ doc, node.expressionDoc (.columns indent) = .ok doc ∧ doc.Phrase nested := by
  induction printable with
  | constant shown breakless => exact constant_doc_phrase shown breakless
  | @binary operation left right priority breakless _ _ leftInduction rightInduction =>
      obtain ⟨leftDoc, isLeft, leftPhrase⟩ := leftInduction
      obtain ⟨rightDoc, isRight, rightPhrase⟩ := rightInduction
      obtain ⟨operator, isOperator, operatorPhrase⟩ := to_token_phrase .operator breakless
      refine ⟨_, by rw [expressionDoc, isLeft, isRight, isOperator]; rfl, ?_⟩
      exact binary_phrase (operand_phrase leftPhrase _) operatorPhrase
        (operand_phrase rightPhrase _) single
  | unary breakless _ induction =>
      obtain ⟨operandDoc, isOperand, operandPhrase⟩ := induction
      obtain ⟨operator, isOperator, operatorPhrase⟩ := to_token_phrase .operator breakless
      refine ⟨_, by rw [expressionDoc, isOperator, isOperand]; rfl, ?_⟩
      exact prefixed_phrase operatorPhrase (operand_phrase operandPhrase _)
  | field breakless => exact to_token_phrase .nameVariable breakless
  | reference breakless absent =>
      rw [expressionDoc, if_pos absent]
      exact to_token_phrase .nameVariable breakless
  | element _ indexPrintable arrayInduction indexInduction =>
      obtain ⟨arrayDoc, isArray, arrayPhrase⟩ := arrayInduction
      obtain ⟨indexDoc, isIndex, indexPhrase⟩ := indexInduction
      refine ⟨_, ?_, indexed_phrase arrayPhrase indexPhrase⟩
      rw [expressionDoc, indexPrintable.index_is_some, isArray, isIndex]
      rfl
  | call breakless _ induction =>
      obtain ⟨function, isFunction, functionPhrase⟩ := to_token_phrase .nameFunction breakless
      obtain ⟨docs, areDocs, phrases⟩ := argument_docs_phrase induction
      obtain ⟨doc, isDoc, phrase⟩ := call_doc_phrase functionPhrase phrases double
      refine ⟨doc, ?_, phrase⟩
      rw [expressionDoc, isFunction, areDocs]
      exact isDoc
  | @instanceCall _ _ receiver breakless _ _ induction receiverInduction =>
      obtain ⟨function, isFunction, functionPhrase⟩ := to_token_phrase .nameFunction breakless
      obtain ⟨receiverDoc, isReceiver, receiverPhrase⟩ := receiverInduction
      obtain ⟨docs, areDocs, phrases⟩ := argument_docs_phrase induction
      have qualified := qualified_phrase (operand_phrase receiverPhrase receiver.isCompound)
        functionPhrase
      obtain ⟨doc, isDoc, phrase⟩ := call_doc_phrase qualified phrases double
      refine ⟨doc, ?_, phrase⟩
      rw [expressionDoc, isFunction, isReceiver, areDocs]
      exact isDoc
  | new _ induction =>
      obtain ⟨constructorDoc, isConstructor, constructorPhrase⟩ := induction
      have keyword : (Doc.token .keyword "new").Phrase nested :=
        phrase_token .keyword (by decide)
      obtain ⟨doc, isDoc, phrase⟩ := after_keyword_phrase keyword constructorPhrase single
      refine ⟨doc, ?_, phrase⟩
      rw [expressionDoc, isConstructor]
      exact isDoc
  | newArray breakless _ induction =>
      obtain ⟨type, isType, typePhrase⟩ := to_token_phrase .nameClass breakless
      have keyword : (Doc.token .keyword "new").Phrase nested :=
        phrase_token .keyword (by decide)
      obtain ⟨array, isArray, arrayPhrase⟩ := after_keyword_phrase keyword typePhrase single
      obtain ⟨doc, isDoc, phrase⟩ := dimension_docs_phrase arrayPhrase induction
      refine ⟨doc, ?_, phrase⟩
      rw [expressionDoc, isType]
      dsimp only [bind, Except.bind]
      rw [isArray]
      exact isDoc
  | derived printable induction =>
      rw [expressionDoc, if_pos printable.is_expression]
      exact induction

end Node

end KotlinLayout
