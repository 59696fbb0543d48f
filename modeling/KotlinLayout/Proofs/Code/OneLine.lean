import KotlinLayout.Proofs.Code.Declaration
import KotlinLayout.Proofs.Code.Precedence
import KotlinLayout.Proofs.Layout.OneLine

/-!
Expressions and statements on one line. A printer that knows nothing of documents writes them as
one text; on a page with room for it the layout is that text, and on every other page it is that
text with line breaks in place of some of its blanks.
-/

namespace KotlinLayout

namespace Node

def nameText : Node → String
  | .scalar (.text value) => value
  | _ => ""

def shownText (value : Node) : String :=
  match value.shown.text with
  | .ok text => text
  | .error _ => ""

def constantText (value isString : Node) : String :=
  if isString.isSet then "\"" ++ value.shownText ++ "\""
  else value.keyword?.getD value.shownText

def operandText (withParens : Bool) (text : String) : String :=
  if withParens then "(" ++ text ++ ")" else text

mutual

/-- An expression or a statement on one line. A binary expression gets parentheses as a left
operand if its operator binds less tightly, as a right one also if it binds as tightly or the
operator around it is a cast, and as the operand of a prefix operator if it is additive or
looser. -/
def oneLine : Node → String
  | .constant value isString => constantText value isString
  | .binary operation left right priority =>
      operandText (left.priority?.any (· < priority)) left.oneLine ++ " " ++ operation.nameText ++
        " " ++ operandText (right.priority?.any fun inner => inner ≤ priority || priority = 3)
          right.oneLine
  | .unary operation operand =>
      operation.nameText ++ operandText (operand.priority?.any (· < 2)) operand.oneLine
  | .field name => name.nameText
  | .reference name array index =>
      if index.isNone then name.nameText else array.oneLine ++ "[" ++ index.oneLine ++ "]"
  | .call function arguments =>
      function.nameText ++ "(" ++ ", ".intercalate (oneLines arguments) ++ ")"
  | .instanceCall function arguments receiver =>
      operandText receiver.isCompound receiver.oneLine ++ "." ++ function.nameText ++ "(" ++
        ", ".intercalate (oneLines arguments) ++ ")"
  | .new constructor => "new " ++ constructor.oneLine
  | .newArray type dimensions =>
      "new " ++ type.nameText ++
        String.join ((oneLines dimensions).map fun dimension => "[" ++ dimension ++ "]")
  | .assignment left right => left.oneLine ++ " = " ++ right.oneLine
  | .returning value => if value.isNone then "return" else "return " ++ value.oneLine
  | .throwing value => "throw " ++ value.oneLine
  | .derived _ base => base.oneLine
  | _ => ""

def oneLines : List Node → List String
  | [] => []
  | node :: rest => node.oneLine :: oneLines rest

end

end Node

namespace Doc

/-- Nothing outside of groups breaks the line, and this is the text on it. -/
structure OnLine (doc : Doc) (text : String) : Prop where
  enclosed : doc.Enclosed
  flat : doc.flatText = text

variable {doc : Doc} {docs : List Doc} {text : String}

theorem on_line_token (token : Token) (text : String) : (Doc.token token text).OnLine text :=
  ⟨.annotated .text, rfl⟩

theorem on_line_text (text : String) : (Doc.text text).OnLine text := ⟨.text, rfl⟩

theorem on_line_concat {texts : List String} (each : List.Forall₂ OnLine docs texts) :
    (Doc.concat docs).OnLine (String.join texts) := by
  have enclosed : ∀ doc ∈ docs, doc.Enclosed := by
    induction each with
    | nil => simp
    | cons first _ induction => exact List.forall_mem_cons.mpr ⟨first.enclosed, induction⟩
  refine ⟨.concat enclosed, ?_⟩
  rw [flat_text_concat]
  clear enclosed
  induction each with
  | nil => rfl
  | cons first _ induction => rw [List.map_cons, String.join_cons, first.flat, induction,
      String.join_cons]

theorem on_line_group (flat : doc.flatText = text) : (Doc.group doc).OnLine text :=
  ⟨.group, flat⟩

theorem OnLine.operand (onLine : doc.OnLine text) (withParens : Bool) :
    (doc.operand withParens).OnLine (Node.operandText withParens text) := by
  cases withParens with
  | false => exact onLine
  | true =>
      have whole := on_line_concat (.cons (on_line_token .punctuation "(") (.cons onLine
        (.cons (on_line_token .punctuation ")") .nil)))
      rw [String.join_cons, String.join_cons, String.join_cons, String.join_nil,
        String.append_empty, ← String.append_assoc] at whole
      exact whole

theorem on_line_indexed {array index : Doc} {arrayText indexText : String}
    (arrayFlat : array.flatText = arrayText) (indexFlat : index.flatText = indexText) :
    (Doc.indexed array index).OnLine (arrayText ++ "[" ++ indexText ++ "]") := by
  apply on_line_group
  simp [arrayFlat, indexFlat, leftBracket, rightBracket, token, flatText, flatTextAll,
    String.append_assoc]

theorem on_line_after_keyword (keyword : String) (flat : doc.flatText = text) (indent : Amount) :
    ∃ whole, Doc.afterKeyword (Doc.token .keyword keyword) doc (.columns indent) = .ok whole ∧
      whole.OnLine (keyword ++ " " ++ text) := by
  refine ⟨_, rfl, on_line_group ?_⟩
  simp [flat, Doc.line, token, flatText, flatTextAll, String.append_assoc]

end Doc

namespace Node

open Doc (OnLine)

variable {indent : Amount}

def Lined (indent : Amount) (node : Node) : Prop :=
  ∃ doc, node.expressionDoc (.columns indent) = .ok doc ∧ doc.OnLine node.oneLine

theorem on_line_cast {text : String} (breakless : '\n' ∉ text.toList) :
    ∃ doc, Combinator.cast (.text text) = .ok doc ∧ doc.OnLine text := by
  refine ⟨_, cast_text breakless, ?_⟩
  split
  · rename_i empty
    exact ⟨.nil, empty.symm⟩
  · exact Doc.on_line_text text

theorem on_line_to_token (token : Token) {name : String} (breakless : '\n' ∉ name.toList) :
    ∃ doc, (text name).toToken token = .ok doc ∧ doc.OnLine name := by
  obtain ⟨doc, success, onLine⟩ := on_line_cast breakless
  exact ⟨_, to_token_of_cast token success, .annotated onLine.enclosed, onLine.flat⟩

theorem on_line_constant {value isString : Node} {text : String}
    (shown : value.shown.text = .ok text) (breakless : '\n' ∉ text.toList) :
    ∃ doc, constantDoc value isString = .ok doc ∧ doc.OnLine (constantText value isString) := by
  obtain ⟨content, success, onLine⟩ := on_line_cast breakless
  have isText : value.shownText = text := by rw [shownText, shown]
  unfold constantDoc constantText
  split
  · refine ⟨.annotated (.token .literalString) (.concat [.text "\"", content, .text "\""]), ?_, ?_⟩
    · simp only [shown, bind, Except.bind, success, pure, Except.pure]
    · have quoted := Doc.on_line_concat (.cons (Doc.on_line_text "\"") (.cons onLine
        (.cons (Doc.on_line_text "\"") .nil)))
      refine ⟨.annotated quoted.enclosed, quoted.flat.trans ?_⟩
      simp [isText, String.append_assoc]
  · split
    · exact ⟨_, rfl, Doc.on_line_token _ _⟩
    · exact ⟨_, rfl, Doc.on_line_token _ _⟩
    · exact ⟨_, rfl, Doc.on_line_token _ _⟩
    · have noKeyword : value.keyword? = none := by
        unfold keyword?
        split <;> simp_all
      refine ⟨.annotated (.token .number) content, ?_, .annotated onLine.enclosed, ?_⟩
      · simp only [shown, bind, Except.bind, success, pure, Except.pure]
      · rw [noKeyword, Option.getD_none, isText]
        exact onLine.flat

theorem on_line_arguments {arguments : List Node}
    (lined : ∀ argument ∈ arguments, argument.Lined indent) :
    ∃ docs, argumentDocs (.columns indent) arguments = .ok docs ∧
      docs.length = arguments.length ∧
      String.join ((docs.intersperse Doc.line).map Doc.flatText) =
        ", ".intercalate (oneLines arguments) := by
  induction arguments with
  | nil => exact ⟨[], rfl, rfl, rfl⟩
  | cons argument others induction =>
      obtain ⟨⟨doc, isDoc, onLine⟩, later⟩ := List.forall_mem_cons.mp lined
      obtain ⟨docs, areDocs, sameLength, rest⟩ := induction later
      cases others with
      | nil =>
          refine ⟨[doc], by rw [argumentDocs, isDoc]; rfl, rfl, ?_⟩
          simp [oneLines, onLine.flat]
      | cons second third =>
          obtain ⟨next, following, rfl⟩ := List.exists_cons_of_length_eq_add_one sameLength
          refine ⟨.concat [doc, Doc.comma] :: next :: following, ?_, ?_, ?_⟩
          · rw [argumentDocs, isDoc, areDocs]
            rfl
          · exact congrArg (· + 1) sameLength
          · have separated : (Doc.concat [doc, Doc.comma]).flatText ++ Doc.line.flatText =
                argument.oneLine ++ ", " := by
              simp [onLine.flat, Doc.comma, Doc.token, Doc.line, Doc.flatText, Doc.flatTextAll,
                String.append_assoc]
            rw [List.intersperse_cons_cons, List.map_cons, List.map_cons, String.join_cons,
              String.join_cons, rest, ← String.append_assoc, separated]
            exact String.intercalate_cons_cons.symm

theorem on_line_call {function : Doc} {functionText : String} {arguments : List Node}
    (onLine : function.OnLine functionText)
    (lined : ∀ argument ∈ arguments, argument.Lined indent) :
    ∃ docs doc, argumentDocs (.columns indent) arguments = .ok docs ∧
      callDoc (.columns indent) function docs = .ok doc ∧
      doc.OnLine (functionText ++ "(" ++ ", ".intercalate (oneLines arguments) ++ ")") := by
  obtain ⟨docs, areDocs, sameLength, inside⟩ := on_line_arguments lined
  cases docs with
  | nil =>
      cases List.eq_nil_of_length_eq_zero sameLength.symm
      refine ⟨[], _, areDocs, rfl, ?_⟩
      have left : Doc.leftParen.OnLine "(" := Doc.on_line_token .punctuation "("
      have right : Doc.rightParen.OnLine ")" := Doc.on_line_token .punctuation ")"
      have whole := Doc.on_line_concat (.cons onLine (.cons left (.cons right .nil)))
      simpa [oneLines, String.append_assoc] using whole
  | cons first others =>
      refine ⟨_, _, areDocs, rfl, Doc.on_line_group ?_⟩
      rw [← inside]
      simp [onLine.flat, Doc.leftParen, Doc.rightParen, Doc.token, Doc.flatText, Doc.flatTextAll,
        String.append_assoc, Doc.flat_text_all_eq_join]

theorem on_line_dimensions {dimensions : List Node} {array : Doc} {arrayText : String}
    (onLine : array.OnLine arrayText)
    (lined : ∀ dimension ∈ dimensions, dimension.Lined indent) :
    ∃ doc, dimensionDocs (.columns indent) array dimensions = .ok doc ∧
      doc.OnLine (arrayText ++
        String.join ((oneLines dimensions).map fun dimension => "[" ++ dimension ++ "]")) := by
  induction dimensions generalizing array arrayText with
  | nil => exact ⟨array, rfl, onLine.enclosed, onLine.flat.trans String.append_empty.symm⟩
  | cons dimension rest induction =>
      obtain ⟨⟨first, isFirst, firstOnLine⟩, others⟩ := List.forall_mem_cons.mp lined
      obtain ⟨doc, isDoc, whole⟩ :=
        induction (Doc.on_line_indexed onLine.flat firstOnLine.flat) others
      refine ⟨doc, ?_, whole.enclosed, whole.flat.trans ?_⟩
      · rw [dimensionDocs, isFirst]
        exact isDoc
      · simp [oneLines, String.append_assoc]

theorem Printable.lined {node : Node} (printable : node.Printable) (indent : Amount) :
    node.Lined indent := by
  induction printable with
  | constant shown breakless => exact on_line_constant shown breakless
  | @binary operation left right priority breakless _ _ leftInduction rightInduction =>
      obtain ⟨leftDoc, isLeft, leftOnLine⟩ := leftInduction
      obtain ⟨rightDoc, isRight, rightOnLine⟩ := rightInduction
      obtain ⟨operator, isOperator, operatorOnLine⟩ := on_line_to_token .operator breakless
      refine ⟨_, by rw [expressionDoc, isLeft, isRight, isOperator]; rfl, Doc.on_line_group ?_⟩
      simp only [Doc.flatText, Doc.flatTextAll, Doc.line, Doc.blank,
        (leftOnLine.operand _).flat, (rightOnLine.operand _).flat, operatorOnLine.flat]
      have rule : rightNeedsParens priority right =
          right.priority?.any fun inner => inner ≤ priority || priority = 3 :=
        right_needs_parens_eq priority right
      rw [oneLine, left_needs_parens_eq, rule]
      simp only [text, nameText, String.append_assoc, String.append_empty]
  | @unary operation operand breakless _ induction =>
      obtain ⟨operandDoc, isOperand, operandOnLine⟩ := induction
      obtain ⟨operator, isOperator, operatorOnLine⟩ := on_line_to_token .operator breakless
      refine ⟨_, by rw [expressionDoc, isOperator, isOperand]; rfl, ?_⟩
      have rule : prefixNeedsParens operand = operand.priority?.any (· < 2) :=
        prefix_needs_parens_eq operand
      have whole := Doc.on_line_concat
        (.cons operatorOnLine (.cons (operandOnLine.operand (prefixNeedsParens operand)) .nil))
      rw [String.join_cons, String.join_cons, String.join_nil, String.append_empty] at whole
      rw [oneLine, ← rule]
      exact whole
  | field breakless => exact on_line_to_token .nameVariable breakless
  | reference breakless absent =>
      obtain ⟨doc, isDoc, onLine⟩ := on_line_to_token .nameVariable breakless
      refine ⟨doc, ?_, ?_⟩
      · rw [expressionDoc, if_pos absent, isDoc]
      · rwa [oneLine, if_pos absent]
  | element _ indexPrintable arrayInduction indexInduction =>
      obtain ⟨arrayDoc, isArray, arrayOnLine⟩ := arrayInduction
      obtain ⟨indexDoc, isIndex, indexOnLine⟩ := indexInduction
      refine ⟨Doc.indexed arrayDoc indexDoc, ?_, ?_⟩
      · rw [expressionDoc, indexPrintable.index_is_some, isArray, isIndex]
        rfl
      · rw [oneLine, indexPrintable.index_is_some]
        exact Doc.on_line_indexed arrayOnLine.flat indexOnLine.flat
  | call breakless _ induction =>
      obtain ⟨function, isFunction, functionOnLine⟩ := on_line_to_token .nameFunction breakless
      obtain ⟨docs, doc, areDocs, isDoc, onLine⟩ := on_line_call functionOnLine induction
      refine ⟨doc, ?_, onLine⟩
      rw [expressionDoc, isFunction, areDocs]
      exact isDoc
  | @instanceCall _ _ receiver breakless _ _ induction receiverInduction =>
      obtain ⟨function, isFunction, functionOnLine⟩ := on_line_to_token .nameFunction breakless
      obtain ⟨receiverDoc, isReceiver, receiverOnLine⟩ := receiverInduction
      have dot : Doc.dot.OnLine "." := Doc.on_line_token .punctuation "."
      have qualified := Doc.on_line_concat (.cons (receiverOnLine.operand receiver.isCompound)
        (.cons dot (.cons functionOnLine .nil)))
      obtain ⟨docs, doc, areDocs, isDoc, onLine⟩ := on_line_call qualified induction
      refine ⟨doc, ?_, ?_⟩
      · rw [expressionDoc, isFunction, isReceiver, areDocs]
        exact isDoc
      · simpa [oneLine, text, nameText, String.append_assoc] using onLine
  | new _ induction =>
      obtain ⟨constructorDoc, isConstructor, constructorOnLine⟩ := induction
      obtain ⟨doc, isDoc, onLine⟩ :=
        Doc.on_line_after_keyword "new" constructorOnLine.flat indent
      refine ⟨doc, ?_, onLine⟩
      rw [expressionDoc, isConstructor]
      exact isDoc
  | newArray breakless _ induction =>
      obtain ⟨type, isType, typeOnLine⟩ := on_line_to_token .nameClass breakless
      obtain ⟨array, isArray, arrayOnLine⟩ :=
        Doc.on_line_after_keyword "new" typeOnLine.flat indent
      obtain ⟨doc, isDoc, onLine⟩ := on_line_dimensions arrayOnLine induction
      refine ⟨doc, ?_, onLine⟩
      rw [expressionDoc, isType]
      dsimp only [bind, Except.bind]
      rw [isArray]
      exact isDoc
  | derived printable induction =>
      obtain ⟨doc, isDoc, onLine⟩ := induction
      refine ⟨doc, ?_, onLine⟩
      rw [expressionDoc, if_pos printable.is_expression, isDoc]

theorem PrintableStatement.lined {node : Node} (printable : node.PrintableStatement)
    (indent : Amount) :
    ∃ doc, node.statementDoc (.columns indent) = .ok doc ∧ doc.OnLine node.oneLine := by
  induction printable with
  | assignment leftPrintable rightPrintable =>
      obtain ⟨left, isLeft, leftOnLine⟩ := leftPrintable.lined indent
      obtain ⟨right, isRight, rightOnLine⟩ := rightPrintable.lined indent
      refine ⟨_, by rw [statementDoc, assignmentDoc, isLeft, isRight]; rfl, Doc.on_line_group ?_⟩
      have equals : " = " = " " ++ "=" ++ " " := by decide
      simp only [leftOnLine.flat, rightOnLine.flat, oneLine, Doc.line, Doc.blank, Doc.token,
        Doc.flatText, Doc.flatTextAll, equals, String.append_assoc, String.append_empty]
  | bareReturn absent =>
      rw [statementDoc, oneLine, if_pos absent, if_pos absent]
      exact ⟨_, rfl, Doc.on_line_token .keyword "return"⟩
  | returning printable =>
      obtain ⟨value, isValue, onLine⟩ := printable.lined indent
      rw [statementDoc, oneLine, printable.index_is_some, isValue]
      exact Doc.on_line_after_keyword "return" onLine.flat indent
  | throwing printable =>
      obtain ⟨value, isValue, onLine⟩ := printable.lined indent
      rw [statementDoc, isValue]
      exact Doc.on_line_after_keyword "throw" onLine.flat indent
  | call printable | instanceCall printable => exact printable.lined indent
  | derived printable induction =>
      obtain ⟨doc, isDoc, onLine⟩ := induction
      refine ⟨doc, ?_, onLine⟩
      rw [statementDoc, if_pos printable.is_statement, isDoc]

end Node

namespace Doc

variable {nested : Amount → Prop} {doc : Doc}

theorem enclosed_grouped (level : doc.Level) : (grouped doc).Enclosed := by
  cases level with
  | text => exact .text
  | nil => exact .nil
  | _ => exact .group

theorem enclosed_spliced (enclosed : doc.Enclosed) : ∀ part ∈ spliced doc, part.Enclosed := by
  cases enclosed with
  | text =>
      intro part member
      simp only [spliced] at member
      split at member <;> simp_all [Enclosed.text]
  | concat parts => exact parts
  | nil => simp [spliced]
  | nest body => exact List.forall_mem_singleton.mpr (.nest body)
  | group => exact List.forall_mem_singleton.mpr .group
  | annotated body => exact List.forall_mem_singleton.mpr (.annotated body)

theorem enclosed_assembled {parts : List Doc} (level : ∀ part ∈ parts, part.Level)
    (enclosed : ∀ part ∈ parts, part.Enclosed) : (assembled parts).Enclosed := by
  have pieces : ∀ piece ∈ parts.flatMap spliced, piece.Enclosed := by
    rw [List.forall_mem_flatMap]
    exact fun part member => enclosed_spliced (enclosed part member)
  rw [assembled_of_level level]
  exact holds_joined .nil pieces (.concat pieces)

theorem Phrase.enclosed_normalize (phrase : doc.Phrase nested) (enclosed : doc.Enclosed) :
    doc.normalize.Enclosed := by
  induction phrase with
  | text | nil => exact enclosed
  | line => cases enclosed
  | concat phrases induction =>
      cases enclosed with | concat enclosed =>
      rw [Doc.normalize, normalize_all_eq_map]
      apply enclosed_assembled
      · exact List.forall_mem_map.mpr fun part member => (phrases part member).normalize.2
      · exact List.forall_mem_map.mpr fun part member =>
          induction part member (enclosed part member)
  | nest _ phrase induction =>
      cases enclosed with | nest enclosed =>
      rw [Doc.normalize, phrase.normalize.2.wrapped_eq]
      exact .nest (induction enclosed)
  | group phrase _ => exact enclosed_grouped phrase.normalize.2
  | annotated phrase induction =>
      cases enclosed with | annotated enclosed =>
      rw [Doc.normalize, phrase.normalize.2.wrapped_eq]
      exact .annotated (induction enclosed)
  | fill => cases enclosed

theorem Phrase.level (phrase : doc.Phrase nested) : doc.Level := by
  induction phrase with
  | text => exact .text
  | nil => exact .nil
  | line => exact .choice .text
  | concat _ induction => exact .concat induction
  | nest _ _ induction => exact .nest induction
  | group _ induction => exact .group induction
  | annotated _ induction => exact .annotated induction
  | fill _ induction => exact .fill (holds_intersperse (.choice .text) induction)

/-- Lines are the only choices in a phrase, and these are not decided before the layout. -/
theorem Phrase.undecided (phrase : doc.Phrase nested) :
    ∀ part ∈ doc.within false true, part.isDecided = false := by
  have line : ∀ part ∈ Doc.line.within false true, part.isDecided = false := by decide
  induction phrase with
  | text | nil => simp [within, isDecided]
  | line => exact line
  | concat _ induction =>
      rw [within_concat, List.forall_mem_cons, List.forall_mem_flatMap]
      exact ⟨rfl, induction⟩
  | nest _ _ induction | group _ induction | annotated _ induction =>
      exact List.forall_mem_cons.mpr ⟨rfl, induction⟩
  | fill _ induction =>
      rw [within_fill, List.forall_mem_cons, List.forall_mem_flatMap]
      exact ⟨rfl, holds_intersperse line induction⟩

theorem Phrase.linear (phrase : doc.Phrase nested) (enclosed : doc.Enclosed) :
    doc.normalize.Linear :=
  ⟨phrase.enclosed_normalize enclosed, phrase.normalize.2, phrase.normalize.1⟩

/-- The marks of a phrase are its text, with blanks for lines. -/
theorem Phrase.inline_marks (phrase : doc.Phrase nested) (indent : Int) :
    String.join ((doc.marks indent).map Mark.inline) = doc.flatText := by
  have each {docs : List Doc} {indent : Int}
      (same : ∀ doc ∈ docs, String.join ((doc.marks indent).map Mark.inline) = doc.flatText) :
      String.join ((docs.flatMap (marks indent)).map Mark.inline) =
        String.join (docs.map flatText) := by
    induction docs with
    | nil => rfl
    | cons doc rest induction =>
        obtain ⟨first, others⟩ := List.forall_mem_cons.mp same
        rw [List.flatMap_cons, List.map_append, String.join_append, first, induction others,
          List.map_cons, String.join_cons]
  induction phrase generalizing indent with
  | text => simp [marks, Mark.inline, Item.inline, flatText]
  | nil => rfl
  | line => rfl
  | concat _ induction =>
      rw [marks_concat, flat_text_concat]
      exact each fun part member => induction part member indent
  | nest _ _ induction | group _ induction => exact induction _
  | @annotated label body _ induction =>
      rw [marks, List.map_cons, List.map_append, String.join_cons, String.join_append, induction]
      simp [Mark.inline, Item.inline, flatText]
  | fill _ induction =>
      rw [marks_fill, flat_text_fill]
      apply each
      exact holds_intersperse rfl fun doc member => induction doc member indent

end Doc

/-- The text that a document is on one line, and how it is printed: on a page with room for it as
it is, and on every page with line starts in place of blanks. -/
structure Doc.PrintsAs (doc : Doc) (width : Int) (text : String) : Prop where
  fitting : text.length ≤ width → ∀ room, formatDoc doc width room = .ok text
  faultless : (layout doc width).fault? = none
  spread : String.join ((layout doc width).items.map Item.inline) = text

open Layout

theorem Doc.Phrase.prints_as {nested : Amount → Prop} {doc : Doc} {text : String}
    (phrase : doc.Phrase nested) (onLine : doc.OnLine text) (width : Int) :
    doc.PrintsAs width text := by
  have same : doc.normalize.flatText = text :=
    (phrase.level.normalize phrase.undecided).2.trans onLine.flat
  have linear := phrase.linear onLine.enclosed
  obtain ⟨faultless, spread⟩ := layout_inline phrase.sound width
  refine ⟨fun fitting room => ?_, faultless, ?_⟩
  · rw [← same] at fitting ⊢
    exact linear.format phrase.sound.regular fitting room
  · rw [spread, phrase.inline_marks, onLine.flat]

namespace Node

/-- Expressions and statements that fit on a line are printed on it, as they are written without
any documents. On a narrower page the same text is spread over lines that start where it has
blanks. -/
theorem code_on_one_line (node : Node) (indent : Amount) (width : Int) :
    (node.Printable → ∃ doc, node.expressionDoc (.columns indent) = .ok doc ∧
        doc.PrintsAs width node.oneLine) ∧
      (node.PrintableStatement → ∃ doc, node.statementDoc (.columns indent) = .ok doc ∧
        doc.PrintsAs width node.oneLine) := by
  constructor
  · intro printable
    obtain ⟨doc, isDoc, onLine⟩ := printable.lined indent
    have phrased : ∃ doc, node.expressionDoc (.columns indent) = .ok doc ∧
        doc.Phrase fun _ => True := printable.expression_doc trivial trivial
    obtain ⟨other, isOther, phrase⟩ := phrased
    cases isDoc.symm.trans isOther
    exact ⟨doc, isDoc, phrase.prints_as onLine width⟩
  · intro printable
    obtain ⟨doc, isDoc, onLine⟩ := printable.lined indent
    have phrased : ∃ doc, node.statementDoc (.columns indent) = .ok doc ∧
        doc.Phrase fun _ => True := printable.statement_doc trivial trivial
    obtain ⟨other, isOther, phrase⟩ := phrased
    cases isDoc.symm.trans isOther
    exact ⟨doc, isDoc, phrase.prints_as onLine width⟩

/-- The element of what a call gives, and a statement with a product in it. -/
theorem element_and_return_on_one_line :
    let named (text : String) := Node.reference (.text text) (.scalar .none) (.scalar .none)
    let sum := Node.binary (.text "+") (named "a") (named "b") 1
    let call := Node.call (.text "f") [sum, .unary (.text "-") (named "c")]
    let element := Node.reference (.text "x") call (named "i")
    let statement := Node.returning (.binary (.text "*") sum (.constant (.int 2) (.scalar .none)) 2)
    element.Printable ∧ statement.PrintableStatement ∧
      (∃ doc, element.expressionDoc (.columns (.int 4)) = .ok doc ∧
        ∀ room, formatDoc doc 15 room = .ok "f(a + b, -c)[i]") ∧
      ∃ doc, statement.statementDoc (.columns (.int 4)) = .ok doc ∧
        String.join ((layout doc 9).items.map Item.inline) = "return (a + b) * 2" := by
  intro named sum call element statement
  have isNamed (text : String) (breakless : '\n' ∉ text.toList) : (named text).Printable :=
    .reference breakless rfl
  have isSum : sum.Printable :=
    .binary (by decide) (isNamed "a" (by decide)) (isNamed "b" (by decide))
  have arguments : ∀ argument ∈ [sum, .unary (.text "-") (named "c")], argument.Printable := by
    simp only [List.forall_mem_cons, List.not_mem_nil, false_implies, implies_true, and_true]
    exact ⟨isSum, .unary (by decide) (isNamed "c" (by decide))⟩
  have isElement : element.Printable :=
    .element (.call (by decide) arguments) (isNamed "i" (by decide))
  have isStatement : statement.PrintableStatement :=
    .returning (.binary (by decide) isSum (.constant rfl (by decide)))
  have elementText : element.oneLine = "f(a + b, -c)[i]" := by decide
  have statementText : statement.oneLine = "return (a + b) * 2" := by decide
  obtain ⟨doc, isDoc, prints⟩ := (code_on_one_line element (.int 4) 15).1 isElement
  obtain ⟨other, isOther, spread⟩ := (code_on_one_line statement (.int 4) 9).2 isStatement
  rw [elementText] at prints
  rw [statementText] at spread
  exact ⟨isElement, isStatement, ⟨doc, isDoc, prints.fitting (by decide)⟩, other, isOther,
    spread.spread⟩

end Node

end KotlinLayout
