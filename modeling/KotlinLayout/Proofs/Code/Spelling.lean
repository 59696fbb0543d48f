import KotlinLayout.Proofs.Code.Phrase
import KotlinLayout.Proofs.Code.Reading
import KotlinLayout.Proofs.Layout.Resolution

/-!
The annotated texts of expressions: what a document of them puts on every page, wherever lines
break, and what each kind of expression adds to the texts of its parts.
-/

namespace KotlinLayout

/-- What an item does to the annotated text that has begun, if any: the texts it finishes and what
has begun after it. Between annotated texts only line starts and blanks may stand. -/
def Item.read (begun : Option Lexeme) (item : Item) : Option (List Lexeme × Option Lexeme) :=
  match begun, item with
  | none, .line _ => some ([], none)
  | none, .text value => if value = " " then some ([], none) else none
  | none, .push (.token token) => some ([], some ⟨token, ""⟩)
  | some begun, .text value => some ([], some ⟨begun.token, begun.text ++ value⟩)
  | some begun, .pop (.token token) =>
      if token = begun.token then some ([begun], none) else none
  | _, _ => none

def lexemes : Option Lexeme → List Item → Option (List Lexeme)
  | none, [] => some []
  | some _, [] => none
  | begun, item :: rest =>
      match item.read begun with
      | some (finished, next) => (lexemes next rest).map (finished ++ ·)
      | none => none

theorem lexemes_cons {begun next : Option Lexeme} {item : Item} {finished : List Lexeme}
    (step : item.read begun = some (finished, next)) (rest : List Item) :
    lexemes begun (item :: rest) = (lexemes next rest).map (finished ++ ·) := by
  simp [lexemes, step]

theorem lexemes_of_silent {begun next : Option Lexeme} {item : Item}
    (step : item.read begun = some ([], next)) (rest : List Item) :
    lexemes begun (item :: rest) = lexemes next rest := by
  rw [lexemes_cons step]
  cases lexemes next rest <;> rfl

theorem read_pop (begun : Lexeme) :
    (Item.pop (.token begun.token)).read (some begun) = some ([begun], none) :=
  if_pos rfl

def Mark.broken : Mark → Item
  | .item value => value
  | .hardLine indent => .line (.int indent)
  | .line indent => .line (.int indent)

/-- Reading does not see which lines were broken. -/
theorem lexemes_of_marks {marks : List Mark} {items : List Item}
    (resolves : List.Forall₂ Mark.Becomes marks items) {begun : Option Lexeme}
    {tokens : List Lexeme} (reads : lexemes begun (marks.map Mark.broken) = some tokens) :
    lexemes begun items = some tokens := by
  induction resolves generalizing begun tokens with
  | nil => exact reads
  | @cons mark item marks items first _ induction =>
      have same {begun next : Option Lexeme} {finished tokens : List Lexeme}
          (step : item.read begun = some (finished, next))
          (reads : (lexemes next (marks.map Mark.broken)).map (finished ++ ·) = some tokens) :
          lexemes begun (item :: items) = some tokens := by
        obtain ⟨later, isLater, rfl⟩ := Option.map_eq_some_iff.mp reads
        rw [lexemes_cons step, induction isLater]
        rfl
      rw [List.map_cons, lexemes] at reads
      split at reads
      · rename_i finished next step
        -- A blank is passed over like the line start it stands for.
        cases first with
        | item | hardLine | line => exact same step reads
        | blank =>
            cases begun with
            | none =>
                cases step
                exact same rfl reads
            | some _ => cases step
      · cases reads

namespace Doc

/-- Wherever it stands, a document puts these annotated texts on the page, and no empty text. -/
structure Spells (doc : Doc) (tokens : List Lexeme) : Prop where
  read (indent : Int) (rest : List Item) :
    lexemes none ((doc.marks indent).map Mark.broken ++ rest) =
      (lexemes none rest).map (tokens ++ ·)
  visible (indent : Int) : ∀ mark ∈ doc.marks indent, mark.visible = true

theorem spells_line : Doc.line.Spells [] := by
  constructor
  · intro indent rest
    exact lexemes_cons rfl rest
  · simp [Doc.line, marks, Mark.visible]

theorem spells_blank : Doc.blank.Spells [] := by
  constructor
  · intro indent rest
    exact lexemes_cons rfl rest
  · simp [Doc.blank, marks, Mark.visible, Item.visible]

theorem spells_concat_nil : (Doc.concat []).Spells [] := by
  constructor
  · intro indent rest
    simp
  · simp

theorem spells_concat_cons {doc : Doc} {docs : List Doc} {first others : List Lexeme}
    (spells : doc.Spells first) (rest : (Doc.concat docs).Spells others) :
    (Doc.concat (doc :: docs)).Spells (first ++ others) := by
  have same (indent : Int) : (Doc.concat (doc :: docs)).marks indent =
      doc.marks indent ++ (Doc.concat docs).marks indent := by simp
  constructor
  · intro indent later
    rw [same, List.map_append, List.append_assoc, spells.read, rest.read, Option.map_map]
    congr 1
    funext tokens
    simp
  · intro indent mark member
    rw [same, List.mem_append] at member
    rcases member with member | member
    · exact spells.visible indent mark member
    · exact rest.visible indent mark member

theorem spells_concat {docs : List Doc} {lists : List (List Lexeme)}
    (each : List.Forall₂ Spells docs lists) : (Doc.concat docs).Spells lists.flatten := by
  induction each with
  | nil => exact spells_concat_nil
  | cons first _ induction => exact spells_concat_cons first induction

theorem Spells.fill {docs : List Doc} {tokens : List Lexeme}
    (spells : (Doc.concat docs).Spells tokens) : (Doc.fill docs).Spells tokens := by
  have same (indent : Int) : (Doc.fill docs).marks indent = (Doc.concat docs).marks indent := by
    rw [marks_fill, marks_concat]
  constructor
  · intro indent rest
    rw [same]
    exact spells.read indent rest
  · intro indent
    rw [same]
    exact spells.visible indent

theorem Spells.group {doc : Doc} {tokens : List Lexeme} (spells : doc.Spells tokens) :
    (Doc.group doc).Spells tokens :=
  ⟨fun indent => spells.read indent, fun indent => spells.visible indent⟩

theorem Spells.nest {doc : Doc} {tokens : List Lexeme} (spells : doc.Spells tokens)
    (amount : Amount) : (Doc.nest amount doc).Spells tokens :=
  ⟨fun indent => spells.read (indent + amount.toInt),
    fun indent => spells.visible (indent + amount.toInt)⟩

/-- A document that puts some texts on the page, which make up one text. -/
def Pieces (doc : Doc) (pieces : List String) : Prop :=
  ∀ indent, doc.marks indent = pieces.map fun piece => .item (.text piece)

theorem lexemes_pieces (token : Token) (before : String) (pieces : List String)
    (rest : List Item) :
    lexemes (some ⟨token, before⟩)
        (pieces.map Item.text ++ .pop (.token token) :: rest) =
      (lexemes none rest).map ([⟨token, before ++ String.join pieces⟩] ++ ·) := by
  induction pieces generalizing before with
  | nil =>
      rw [List.map_nil, List.nil_append, lexemes_cons (read_pop ⟨token, before⟩), String.join_nil,
        String.append_empty]
  | cons piece pieces induction =>
      rw [List.map_cons, List.cons_append, lexemes_of_silent rfl, induction, String.join_cons,
        String.append_assoc]

theorem spells_annotated {doc : Doc} {pieces : List String} (token : Token)
    (made : doc.Pieces pieces) (nonempty : ∀ piece ∈ pieces, piece ≠ "") :
    (Doc.annotated (.token token) doc).Spells [⟨token, String.join pieces⟩] := by
  constructor
  · intro indent rest
    have texts : (doc.marks indent).map Mark.broken = pieces.map Item.text := by
      rw [made]
      simp [Mark.broken]
    simp only [marks, List.map_cons, List.map_append, List.map_nil, texts, Mark.broken,
      List.cons_append, List.append_assoc, List.nil_append]
    rw [lexemes_of_silent rfl, lexemes_pieces, String.empty_append]
    rfl
  · intro indent mark member
    simp only [marks, made indent, List.mem_cons, List.mem_append, List.mem_map,
      List.not_mem_nil, or_false] at member
    rcases member with rfl | ⟨piece, isPiece, rfl⟩ | rfl
    · rfl
    · simpa [Mark.visible, Item.visible] using nonempty piece isPiece
    · rfl

theorem spells_token (token : Token) {text : String} (nonempty : text ≠ "") :
    (Doc.token token text).Spells [⟨token, text⟩] := by
  have made : (Doc.text text).Pieces [text] := fun _ => rfl
  have spells := spells_annotated token made (List.forall_mem_singleton.mpr nonempty)
  rwa [String.join_cons, String.join_nil, String.append_empty] at spells

theorem cast_pieces {text : String} (breakless : '\n' ∉ text.toList) :
    ∃ doc pieces, Combinator.cast (.text text) = .ok doc ∧ doc.Pieces pieces ∧
      String.join pieces = text ∧ ∀ piece ∈ pieces, piece ≠ "" := by
  by_cases empty : text = ""
  · subst empty
    exact ⟨.nil, [], rfl, fun _ => rfl, rfl, by simp⟩
  · refine ⟨.text text, [text], ?_, fun _ => rfl, by simp, by simpa using empty⟩
    rw [Node.cast_text breakless, if_neg empty]

end Doc

def operandTokens (withParens : Bool) (tokens : List Lexeme) : List Lexeme :=
  if withParens then .leftParen :: (tokens ++ [.rightParen]) else tokens

theorem spells_operand {doc : Doc} {tokens : List Lexeme} (spells : doc.Spells tokens)
    (withParens : Bool) : (doc.operand withParens).Spells (operandTokens withParens tokens) := by
  cases withParens with
  | false => exact spells
  | true =>
      have left : Doc.leftParen.Spells [.leftParen] := Doc.spells_token .punctuation (by decide)
      have right : Doc.rightParen.Spells [.rightParen] :=
        Doc.spells_token .punctuation (by decide)
      have whole := Doc.spells_concat_cons left (Doc.spells_concat_cons spells
        (Doc.spells_concat_cons right Doc.spells_concat_nil))
      rwa [List.append_nil] at whole

namespace Node

def keyword? : Node → Option String
  | .scalar (.flag true) => some "true"
  | .scalar (.flag false) => some "false"
  | .scalar .none => some "null"
  | _ => none

theorem to_token_spells (token : Token) {name : String} (breakless : '\n' ∉ name.toList) :
    ∃ doc, (text name).toToken token = .ok doc ∧ doc.Spells [⟨token, name⟩] := by
  obtain ⟨doc, pieces, success, made, rfl, nonempty⟩ := Doc.cast_pieces breakless
  exact ⟨_, to_token_of_cast token success, Doc.spells_annotated token made nonempty⟩

theorem literal_spells {value isString : Node} {text : String} (isSet : isString.isSet = true)
    (shown : value.shown.text = .ok text) (breakless : '\n' ∉ text.toList) :
    ∃ doc, constantDoc value isString = .ok doc ∧
      doc.Spells [⟨.literalString, "\"" ++ text ++ "\""⟩] := by
  obtain ⟨content, pieces, success, made, rfl, nonempty⟩ := Doc.cast_pieces breakless
  have parts : (Doc.concat [.text "\"", content, .text "\""]).Pieces
      ("\"" :: (pieces ++ ["\""])) := by
    intro indent
    rw [Doc.marks_concat]
    simp [Doc.marks, made indent]
  have each : ∀ piece ∈ "\"" :: (pieces ++ ["\""]), piece ≠ "" := by
    intro piece member
    simp only [List.mem_cons, List.mem_append, List.not_mem_nil, or_false] at member
    rcases member with rfl | member | rfl
    · decide
    · exact nonempty piece member
    · decide
  have spells := Doc.spells_annotated .literalString parts each
  rw [String.join_cons, String.join_append, String.join_cons, String.join_nil,
    String.append_empty, ← String.append_assoc] at spells
  refine ⟨_, ?_, spells⟩
  unfold constantDoc
  rw [if_pos isSet]
  simp only [shown, bind, Except.bind, success, pure, Except.pure]

theorem keyword_spells {value isString : Node} {text : String} (isSet : isString.isSet = false)
    (isKeyword : value.keyword? = some text) :
    ∃ doc, constantDoc value isString = .ok doc ∧ doc.Spells [⟨.keywordConstant, text⟩] := by
  unfold constantDoc
  rw [if_neg (by simp [isSet])]
  unfold keyword? at isKeyword
  split at isKeyword
  · cases isKeyword
    exact ⟨_, rfl, Doc.spells_token .keywordConstant (by decide)⟩
  · cases isKeyword
    exact ⟨_, rfl, Doc.spells_token .keywordConstant (by decide)⟩
  · cases isKeyword
    exact ⟨_, rfl, Doc.spells_token .keywordConstant (by decide)⟩
  · cases isKeyword

theorem number_spells {value isString : Node} {text : String} (isSet : isString.isSet = false)
    (noKeyword : value.keyword? = none) (shown : value.shown.text = .ok text)
    (breakless : '\n' ∉ text.toList) :
    ∃ doc, constantDoc value isString = .ok doc ∧ doc.Spells [⟨.number, text⟩] := by
  obtain ⟨content, pieces, success, made, rfl, nonempty⟩ := Doc.cast_pieces breakless
  refine ⟨_, ?_, Doc.spells_annotated .number made nonempty⟩
  unfold constantDoc
  rw [if_neg (by simp [isSet])]
  split
  · cases noKeyword
  · cases noKeyword
  · cases noKeyword
  · simp only [shown, bind, Except.bind, success, pure, Except.pure]

/-- Layouts are read as what their document spells. -/
theorem lexemes_of_layout {doc : Doc} {tokens : List Lexeme} (spells : doc.Spells tokens)
    (sound : doc.Sound Doc.LineOnly True) (width : Int) :
    (layout doc width).fault? = none ∧ lexemes none (layout doc width).items = some tokens := by
  obtain ⟨items, column, same, resolves⟩ := layout_resolves sound width
  rw [(Doc.thins_normalize sound 0).eq_of_visible (spells.visible 0)] at resolves
  have whole : lexemes none ((doc.marks 0).map Mark.broken) = some tokens := by
    have read := spells.read 0 []
    rw [List.append_nil] at read
    rw [read, lexemes, Option.map_some, List.append_nil]
  rw [same]
  exact ⟨rfl, lexemes_of_marks resolves whole⟩

def Spelled (indent : Amount) (node : Node) (tokens : List Lexeme) : Prop :=
  ∃ doc, node.expressionDoc (.columns indent) = .ok doc ∧ doc.Spells tokens

namespace Spelled

open List (Forall₂)

variable {indent : Amount}

theorem field {name : String} (breakless : '\n' ∉ name.toList) :
    (Node.field (.text name)).Spelled indent [⟨.nameVariable, name⟩] :=
  to_token_spells .nameVariable breakless

theorem reference {name : String} {array index : Node} (breakless : '\n' ∉ name.toList)
    (absent : index.isNone = true) :
    (Node.reference (.text name) array index).Spelled indent [⟨.nameVariable, name⟩] := by
  obtain ⟨doc, isDoc, spells⟩ := to_token_spells .nameVariable breakless
  refine ⟨doc, ?_, spells⟩
  rw [expressionDoc, if_pos absent]
  exact isDoc

theorem binary {operation : String} {left right : Node} {leftTokens rightTokens : List Lexeme}
    (leftSpelled : left.Spelled indent leftTokens) (breakless : '\n' ∉ operation.toList)
    (rightSpelled : right.Spelled indent rightTokens) (priority : Int) :
    (Node.binary (.text operation) left right priority).Spelled indent
      (operandTokens (leftNeedsParens priority left) leftTokens ++
        .operator operation :: operandTokens (rightNeedsParens priority right) rightTokens) := by
  obtain ⟨leftDoc, isLeft, leftSpells⟩ := leftSpelled
  obtain ⟨rightDoc, isRight, rightSpells⟩ := rightSpelled
  obtain ⟨operator, isOperator, operatorSpells⟩ := to_token_spells .operator breakless
  have rest := Doc.spells_concat (.cons Doc.spells_line (.cons operatorSpells
    (.cons Doc.spells_blank
      (.cons (spells_operand rightSpells (rightNeedsParens priority right)) .nil))))
  have whole := (Doc.spells_concat (.cons
    (spells_operand leftSpells (leftNeedsParens priority left))
    (.cons (rest.nest indent) .nil))).group
  refine ⟨_, by rw [expressionDoc, isLeft, isRight, isOperator]; rfl, ?_⟩
  simp only [List.flatten_cons, List.flatten_nil, List.nil_append, List.append_nil,
    List.singleton_append] at whole
  exact whole

theorem unary {operation : String} {operand : Node} {tokens : List Lexeme}
    (breakless : '\n' ∉ operation.toList) (spelled : operand.Spelled indent tokens) :
    (Node.unary (.text operation) operand).Spelled indent
      (.operator operation :: operandTokens (prefixNeedsParens operand) tokens) := by
  obtain ⟨doc, isDoc, spells⟩ := spelled
  obtain ⟨operator, isOperator, operatorSpells⟩ := to_token_spells .operator breakless
  have whole := Doc.spells_concat (.cons operatorSpells
    (.cons (spells_operand spells (prefixNeedsParens operand)) .nil))
  refine ⟨_, by rw [expressionDoc, isOperator, isDoc]; rfl, ?_⟩
  simp only [List.flatten_cons, List.flatten_nil, List.append_nil, List.singleton_append] at whole
  exact whole

theorem indexed {array index : Doc} {tokens indexTokens : List Lexeme}
    (spells : array.Spells tokens) (indexSpells : index.Spells indexTokens) :
    (Doc.indexed array index).Spells (tokens ++ Expression.subscript indexTokens) := by
  have left : Doc.leftBracket.Spells [.leftBracket] := Doc.spells_token .punctuation (by decide)
  have right : Doc.rightBracket.Spells [.rightBracket] :=
    Doc.spells_token .punctuation (by decide)
  have whole := (Doc.spells_concat (.cons spells
    (.cons left (.cons indexSpells (.cons right .nil))))).group
  simp only [List.flatten_cons, List.flatten_nil, List.append_nil, List.singleton_append] at whole
  exact whole

theorem element {array index : Node} {tokens indexTokens : List Lexeme} (name : Node)
    (present : index.isNone = false) (spelled : array.Spelled indent tokens)
    (indexSpelled : index.Spelled indent indexTokens) :
    (Node.reference name array index).Spelled indent
      (tokens ++ Expression.subscript indexTokens) := by
  obtain ⟨arrayDoc, isArray, arraySpells⟩ := spelled
  obtain ⟨indexDoc, isIndex, indexSpells⟩ := indexSpelled
  refine ⟨_, ?_, indexed arraySpells indexSpells⟩
  rw [expressionDoc, present, isArray, isIndex]
  rfl

theorem arguments {arguments : List Node} {lists : List (List Lexeme)}
    (spelled : Forall₂ (Spelled indent) arguments lists) :
    ∃ docs, argumentDocs (.columns indent) arguments = .ok docs ∧
      docs.length = arguments.length ∧
      (Doc.concat (docs.intersperse Doc.line)).Spells ([Lexeme.comma].intercalate lists) := by
  induction spelled with
  | nil => exact ⟨[], rfl, rfl, Doc.spells_concat_nil⟩
  | @cons argument tokens others lists first later induction =>
      obtain ⟨doc, isDoc, spells⟩ := first
      obtain ⟨docs, areDocs, sameLength, rest⟩ := induction
      cases later with
      | nil =>
          refine ⟨[doc], by rw [argumentDocs, isDoc]; rfl, rfl, ?_⟩
          have alone := Doc.spells_concat (.cons spells .nil)
          simpa using alone
      | cons second third =>
          obtain ⟨next, following, rfl⟩ := List.exists_cons_of_length_eq_add_one sameLength
          have comma : Doc.comma.Spells [.comma] := Doc.spells_token .punctuation (by decide)
          have withComma := Doc.spells_concat (.cons spells (.cons comma .nil))
          have whole := Doc.spells_concat_cons withComma
            (Doc.spells_concat_cons Doc.spells_line rest)
          refine ⟨.concat [doc, Doc.comma] :: next :: following, ?_, ?_, ?_⟩
          · rw [argumentDocs, isDoc, areDocs]
            rfl
          · exact congrArg (· + 1) sameLength
          · simpa [List.intercalate_cons_cons] using whole

theorem call_doc {function : Doc} {functionTokens : List Lexeme} {arguments : List Node}
    {lists : List (List Lexeme)} (spells : function.Spells functionTokens)
    (spelled : Forall₂ (Spelled indent) arguments lists) :
    ∃ docs doc, argumentDocs (.columns indent) arguments = .ok docs ∧
      callDoc (.columns indent) function docs = .ok doc ∧
      doc.Spells (functionTokens ++ Expression.enclosed lists) := by
  have left : Doc.leftParen.Spells [.leftParen] := Doc.spells_token .punctuation (by decide)
  have right : Doc.rightParen.Spells [.rightParen] := Doc.spells_token .punctuation (by decide)
  obtain ⟨docs, areDocs, sameLength, inside⟩ := Spelled.arguments spelled
  cases docs with
  | nil =>
      cases List.eq_nil_of_length_eq_zero sameLength.symm
      cases spelled
      exact ⟨[], _, areDocs, rfl,
        Doc.spells_concat (.cons spells (.cons left (.cons right .nil)))⟩
  | cons first others =>
      have whole := (Doc.spells_concat (.cons spells (.cons left
        (.cons (inside.fill.nest (.int (2 * indent.toInt))) (.cons right .nil))))).group
      refine ⟨_, _, areDocs, rfl, ?_⟩
      simp only [List.flatten_cons, List.flatten_nil, List.append_nil, List.singleton_append]
        at whole
      exact whole

theorem call {function : String} {arguments : List Node} {lists : List (List Lexeme)}
    (breakless : '\n' ∉ function.toList) (spelled : Forall₂ (Spelled indent) arguments lists) :
    (Node.call (.text function) arguments).Spelled indent
      (.function function :: Expression.enclosed lists) := by
  obtain ⟨functionDoc, isFunction, spells⟩ := to_token_spells .nameFunction breakless
  obtain ⟨docs, doc, areDocs, isDoc, whole⟩ := call_doc spells spelled
  refine ⟨doc, ?_, whole⟩
  rw [expressionDoc, isFunction, areDocs]
  exact isDoc

theorem instance_call {function : String} {arguments : List Node} {lists : List (List Lexeme)}
    {receiver : Node} {tokens : List Lexeme} (breakless : '\n' ∉ function.toList)
    (spelled : Forall₂ (Spelled indent) arguments lists)
    (receiverSpelled : receiver.Spelled indent tokens) :
    (Node.instanceCall (.text function) arguments receiver).Spelled indent
      (operandTokens receiver.isCompound tokens ++
        .dot :: .function function :: Expression.enclosed lists) := by
  obtain ⟨functionDoc, isFunction, spells⟩ := to_token_spells .nameFunction breakless
  obtain ⟨receiverDoc, isReceiver, receiverSpells⟩ := receiverSpelled
  have dot : Doc.dot.Spells [.dot] := Doc.spells_token .punctuation (by decide)
  have qualified := Doc.spells_concat (.cons (spells_operand receiverSpells receiver.isCompound)
    (.cons dot (.cons spells .nil)))
  obtain ⟨docs, doc, areDocs, isDoc, whole⟩ := call_doc qualified spelled
  refine ⟨doc, ?_, ?_⟩
  · rw [expressionDoc, isFunction, isReceiver, areDocs]
    exact isDoc
  · simp only [List.flatten_cons, List.flatten_nil, List.append_nil, List.append_assoc,
      List.cons_append] at whole
    exact whole

theorem after_keyword {value : Doc} {tokens : List Lexeme} (spells : value.Spells tokens) :
    ∃ doc, Doc.afterKeyword (Doc.token .keyword "new") value (.columns indent) = .ok doc ∧
      doc.Spells (.new :: tokens) := by
  have keyword : (Doc.token .keyword "new").Spells [.new] :=
    Doc.spells_token .keyword (by decide)
  have rest := Doc.spells_concat (.cons Doc.spells_line (.cons spells .nil))
  have whole := (Doc.spells_concat (.cons keyword (.cons (rest.nest indent) .nil))).group
  refine ⟨_, rfl, ?_⟩
  simp only [List.flatten_cons, List.flatten_nil, List.append_nil, List.nil_append,
    List.singleton_append] at whole
  exact whole

theorem new {constructor : Node} {tokens : List Lexeme}
    (spelled : constructor.Spelled indent tokens) :
    (Node.new constructor).Spelled indent (.new :: tokens) := by
  obtain ⟨constructorDoc, isConstructor, spells⟩ := spelled
  obtain ⟨doc, isDoc, whole⟩ := after_keyword spells
  refine ⟨doc, ?_, whole⟩
  rw [expressionDoc, isConstructor]
  exact isDoc

theorem dimensions {dimensions : List Node} {lists : List (List Lexeme)} {array : Doc}
    {tokens : List Lexeme} (spells : array.Spells tokens)
    (spelled : Forall₂ (Spelled indent) dimensions lists) :
    ∃ doc, dimensionDocs (.columns indent) array dimensions = .ok doc ∧
      doc.Spells (tokens ++ lists.flatMap Expression.subscript) := by
  induction spelled generalizing array tokens with
  | nil =>
      refine ⟨array, rfl, ?_⟩
      rwa [List.flatMap_nil, List.append_nil]
  | @cons dimension dimensionTokens others lists first _ induction =>
      obtain ⟨dimensionDoc, isDimension, dimensionSpells⟩ := first
      obtain ⟨doc, isDoc, whole⟩ := induction (indexed spells dimensionSpells)
      refine ⟨doc, ?_, ?_⟩
      · rw [dimensionDocs, isDimension]
        exact isDoc
      · rwa [List.flatMap_cons, ← List.append_assoc]

theorem new_array {type : String} {dimensions : List Node} {lists : List (List Lexeme)}
    (breakless : '\n' ∉ type.toList) (spelled : Forall₂ (Spelled indent) dimensions lists) :
    (Node.newArray (.text type) dimensions).Spelled indent
      (.new :: ⟨.nameClass, type⟩ :: lists.flatMap Expression.subscript) := by
  obtain ⟨typeDoc, isType, typeSpells⟩ := to_token_spells .nameClass breakless
  obtain ⟨array, isArray, spells⟩ := after_keyword typeSpells
  obtain ⟨doc, isDoc, whole⟩ := Spelled.dimensions spells spelled
  refine ⟨doc, ?_, whole⟩
  rw [expressionDoc, isType]
  dsimp only [bind, Except.bind]
  rw [isArray]
  exact isDoc

theorem derived {base : Node} {tokens : List Lexeme} (spelled : base.Spelled indent tokens)
    (name : String) (printable : base.Printable) :
    (Node.derived name base).Spelled indent tokens := by
  obtain ⟨doc, isDoc, spells⟩ := spelled
  refine ⟨doc, ?_, spells⟩
  rw [expressionDoc, if_pos printable.is_expression]
  exact isDoc

theorem constant {value isString : Node} {text : String} (shown : value.shown.text = .ok text)
    (breakless : '\n' ∉ text.toList) :
    ∃ lexeme, lexeme.isValue = true ∧ (Node.constant value isString).Spelled indent [lexeme] := by
  cases isSet : isString.isSet with
  | true =>
      obtain ⟨doc, isDoc, spells⟩ := literal_spells isSet shown breakless
      exact ⟨⟨.literalString, _⟩, rfl, doc, isDoc, spells⟩
  | false =>
      cases isKeyword : value.keyword? with
      | some keyword =>
          obtain ⟨doc, isDoc, spells⟩ := keyword_spells isSet isKeyword
          exact ⟨⟨.keywordConstant, keyword⟩, rfl, doc, isDoc, spells⟩
      | none =>
          obtain ⟨doc, isDoc, spells⟩ := number_spells isSet isKeyword shown breakless
          exact ⟨⟨.number, text⟩, rfl, doc, isDoc, spells⟩

end Spelled

theorem Printable.sound {node : Node} (printable : node.Printable) {indent : Amount} {doc : Doc}
    (isDoc : node.expressionDoc (.columns indent) = .ok doc) : doc.Sound Doc.LineOnly True := by
  have phrased : ∃ doc, node.expressionDoc (.columns indent) = .ok doc ∧
      doc.Phrase fun _ => True := printable.expression_doc trivial trivial
  obtain ⟨other, isOther, phrase⟩ := phrased
  rw [isDoc] at isOther
  cases isOther
  exact phrase.sound

/-- On a page of the width the expression shows these annotated texts. -/
def Prints (indent : Amount) (width : Int) (node : Node) (tokens : List Lexeme) : Prop :=
  ∃ doc, node.expressionDoc (.columns indent) = .ok doc ∧ (layout doc width).fault? = none ∧
    lexemes none (layout doc width).items = some tokens

theorem Spelled.prints {node : Node} {indent : Amount} {tokens : List Lexeme}
    (spelled : node.Spelled indent tokens) (printable : node.Printable) (width : Int) :
    node.Prints indent width tokens := by
  obtain ⟨doc, isDoc, spells⟩ := spelled
  exact ⟨doc, isDoc, lexemes_of_layout spells (printable.sound isDoc) width⟩

end Node

end KotlinLayout
