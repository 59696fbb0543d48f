import KotlinLayout.Proofs.Code.Declaration
import KotlinLayout.Proofs.Layout.Reach

/-!
Nodes that there is no rule for. Printing comes to the nodes of a program in a fixed order and ends
at the first one that is not of a kind for its position. If there is none, it gives a document that
can be laid out on every page.
-/

namespace KotlinLayout

/-- A node in the position that printing comes to it in. -/
structure Visit where
  position : Position
  node : Node

namespace Visit

/-- There is a rule for such a node in such a position. -/
def known (visit : Visit) : Bool :=
  match visit.position with
  | .expression => visit.node.isExpression
  | .statement => visit.node.isStatement

def fault (visit : Visit) : Fault := .unknownNode visit.position visit.node.kind

def firstUnknown (visits : List Visit) : Option Visit := visits.find? fun visit => !visit.known

end Visit

open Visit (firstUnknown)

namespace Node

mutual

/-- The nodes inside an expression that have to stand for values, in the order in which printing
comes to them. The array of a variable without an index is not among them, and what is inside a
node that is no expression is not either. -/
def operands : Node → List Node
  | .binary _ left right _ => left :: (left.operands ++ right :: right.operands)
  | .unary _ operand => operand :: operand.operands
  | .reference _ array index =>
      if index.isNone then [] else array :: (array.operands ++ index :: index.operands)
  | .call _ arguments => operandsAll arguments
  | .instanceCall _ arguments receiver => receiver :: (receiver.operands ++ operandsAll arguments)
  | .new constructor => constructor :: constructor.operands
  | .newArray _ dimensions => operandsAll dimensions
  | .derived _ base => base.operands
  | _ => []

def operandsAll : List Node → List Node
  | [] => []
  | node :: rest => node :: (node.operands ++ operandsAll rest)

end

/-- The nodes inside a statement that have to stand for values, in the same order. A return without
a value has none. -/
def values : Node → List Node
  | .assignment left right => left :: (left.operands ++ right :: right.operands)
  | .returning value => if value.isNone then [] else value :: value.operands
  | .throwing value => value :: value.operands
  | .call function arguments => (Node.call function arguments).operands
  | .instanceCall function arguments receiver =>
      (Node.instanceCall function arguments receiver).operands
  | .derived _ base => base.values
  | _ => []

def inside (node : Node) : Position → List Node
  | .expression => node.operands
  | .statement => node.values

def visits (position : Position) (node : Node) : List Visit :=
  ⟨position, node⟩ :: (node.inside position).map (Visit.mk .expression)

def Legible : Node → Prop
  | .constant value _ => ∃ text, value.shown.text = .ok text ∧ '\n' ∉ text.toList
  | .binary operation _ _ _ | .unary operation _ => operation.Named
  | .field name => name.Named
  | .reference name _ index => index.isNone = true → name.Named
  | .call function _ | .instanceCall function _ _ => function.Named
  | .newArray type _ => type.Named
  | .derived _ base => base.Legible
  | _ => True

theorem visits_all (nodes : List Node) :
    (operandsAll nodes).map (Visit.mk .expression) = nodes.flatMap (visits .expression) := by
  induction nodes with
  | nil => rfl
  | cons node rest induction => simp [operandsAll, visits, inside, induction]

end Node

variable {Value Result : Type} {good : Value → Prop} {other : Result → Prop}

/-- A computation that ends in a fault at the first visit that is not known, and gives something
good if there is none. -/
def Reports (good : Value → Prop) (visits : List Visit) (value : Except Fault Value) : Prop :=
  match firstUnknown visits with
  | some visit => value = .error visit.fault
  | none => ∃ result, value = .ok result ∧ good result

namespace Reports

variable {visit : Visit} {visits later : List Visit} {value : Except Fault Value}
  {following : Value → Except Fault Result}

theorem of_ok (success : ∃ result, value = .ok result ∧ good result) : Reports good [] value :=
  success

theorem weaken {better : Value → Prop} (reports : Reports better visits value)
    (included : ∀ result, better result → good result) : Reports good visits value := by
  rw [Reports] at reports ⊢
  cases found : firstUnknown visits with
  | some visit =>
      rw [found] at reports
      exact reports
  | none =>
      rw [found] at reports
      rcases reports with ⟨result, success, isBetter⟩
      exact ⟨result, success, included result isBetter⟩

theorem cons_iff (known : visit.known = true) :
    Reports good (visit :: visits) value ↔ Reports good visits value := by
  rw [Reports, Reports, firstUnknown, List.find?_cons_of_neg (by simp [known])]
  rfl

theorem unknown (unknown : visit.known = false) :
    Reports good (visit :: visits) (.error visit.fault) := by
  rw [Reports, firstUnknown, List.find?_cons_of_pos (by simp [unknown])]

/-- What comes after a computation is only visited if everything before was known. -/
theorem bind (first : Reports good visits value)
    (next : ∀ input, good input → Reports other later (following input)) :
    Reports other (visits ++ later) (value >>= following) := by
  rw [Reports, firstUnknown] at first ⊢
  rw [List.find?_append]
  cases found : visits.find? fun visit => !visit.known with
  | some visit =>
      rw [found] at first
      rw [first]
      rfl
  | none =>
      rw [found] at first
      rcases first with ⟨input, rfl, isGood⟩
      exact next input isGood

theorem bind_ok (first : Reports good visits value)
    (next : ∀ input, good input → ∃ result, following input = .ok result ∧ other result) :
    Reports other visits (value >>= following) := by
  have whole := first.bind fun input isGood => of_ok (next input isGood)
  rwa [List.append_nil] at whole

end Reports

namespace Node

open Doc (Phrase)

variable {indent : Amount} {node : Node}

abbrev AnyPhrase : Doc → Prop := Phrase fun _ => True

theorem reports_name {position : Position} {name : Node} (named : name.Named) (token : Token)
    (known : (Visit.mk position node).known = true) :
    Reports AnyPhrase [⟨position, node⟩] (name.toToken token) :=
  (Reports.cons_iff known).mpr (.of_ok (named.to_token token))

/-- A node of a kind that extends another is printed like the other where there is a rule for it,
and reported under its own name where there is none. -/
theorem reports_derived {position : Position} {name : String} {base : Node}
    {printed : Except Fault Doc} (reports : Reports AnyPhrase (base.visits position) printed) :
    Reports AnyPhrase ((Node.derived name base).visits position)
      (if (Visit.mk position base).known then printed
        else .error (.unknownNode position name)) := by
  have sameKind :
      (Visit.mk position (.derived name base)).known = (Visit.mk position base).known := by
    cases position <;> rfl
  have sameInside : (Node.derived name base).inside position = base.inside position := by
    cases position with
    | expression => rw [inside, inside, operands]
    | statement => rw [inside, inside, values]
  rw [visits] at reports ⊢
  rw [sameInside]
  cases known : (Visit.mk position base).known with
  | true =>
      rw [Reports.cons_iff known] at reports
      rwa [Reports.cons_iff (sameKind.trans known)]
  | false => exact .unknown (sameKind.trans known)

mutual

theorem reports_expression (indent : Amount) (node : Node)
    (legible : ∀ inner ∈ node :: node.operands, inner.Legible) :
    Reports AnyPhrase (node.visits .expression) (node.expressionDoc (.columns indent)) := by
  match node with
  | .constant value isString =>
      rcases legible _ List.mem_cons_self with ⟨text, shown, breakless⟩
      rw [expressionDoc]
      exact (Reports.cons_iff rfl).mpr (.of_ok (constant_doc_phrase shown breakless))
  | .binary operation left right priority =>
      have inOrder : (Node.binary operation left right priority).visits .expression =
          ⟨.expression, .binary operation left right priority⟩ ::
            (left.visits .expression ++ right.visits .expression) := by
        simp [visits, inside, operands]
      rw [operands, ← List.cons_append, List.forall_mem_cons, List.forall_mem_append] at legible
      rcases legible with ⟨named, leftLegible, rightLegible⟩
      rcases @Named.to_token (fun _ => True) operation named .operator with
        ⟨operator, isOperator, operatorPhrase⟩
      rw [inOrder, Reports.cons_iff rfl, expressionDoc]
      apply (reports_expression indent left leftLegible).bind
      intro leftDoc leftPhrase
      apply (reports_expression indent right rightLegible).bind_ok
      intro rightDoc rightPhrase
      rw [isOperator]
      exact ⟨_, rfl, binary_phrase (operand_phrase leftPhrase _) operatorPhrase
        (operand_phrase rightPhrase _) trivial⟩
  | .unary operation operand =>
      rw [operands, List.forall_mem_cons] at legible
      rcases @Named.to_token (fun _ => True) operation legible.1 .operator with
        ⟨operator, isOperator, operatorPhrase⟩
      rw [visits, Reports.cons_iff rfl, expressionDoc, isOperator]
      apply (reports_expression indent operand legible.2).bind_ok
      intro operandDoc operandPhrase
      exact ⟨_, rfl, prefixed_phrase operatorPhrase (operand_phrase operandPhrase _)⟩
  | .field name =>
      have named : name.Named := legible _ List.mem_cons_self
      rw [expressionDoc]
      exact reports_name named .nameVariable rfl
  | .reference name array index =>
      rw [visits, Reports.cons_iff rfl, inside]
      rw [operands] at legible ⊢
      rw [expressionDoc]
      cases absent : index.isNone with
      | true =>
          have named : name.Named := legible _ List.mem_cons_self absent
          exact .of_ok (named.to_token .nameVariable)
      | false =>
          have inOrder : (array :: (array.operands ++ index :: index.operands)).map
              (Visit.mk .expression) = array.visits .expression ++ index.visits .expression := by
            simp [visits, inside]
          rw [absent] at legible
          simp only [Bool.false_eq_true, if_false] at legible ⊢
          rw [← List.cons_append, List.forall_mem_cons, List.forall_mem_append] at legible
          rw [inOrder]
          apply (reports_expression indent array legible.2.1).bind
          intro arrayDoc arrayPhrase
          apply (reports_expression indent index legible.2.2).bind_ok
          intro indexDoc indexPhrase
          exact ⟨_, rfl, indexed_phrase arrayPhrase indexPhrase⟩
  | .call function arguments =>
      rw [operands, List.forall_mem_cons] at legible
      rcases @Named.to_token (fun _ => True) function legible.1 .nameFunction with
        ⟨functionDoc, isFunction, functionPhrase⟩
      rw [visits, Reports.cons_iff rfl, inside, operands, visits_all, expressionDoc, isFunction]
      apply (reports_arguments indent arguments legible.2).bind_ok
      intro docs phrases
      exact call_doc_phrase functionPhrase phrases trivial
  | .instanceCall function arguments receiver =>
      have inOrder : (Node.instanceCall function arguments receiver).visits .expression =
          ⟨.expression, .instanceCall function arguments receiver⟩ ::
            (receiver.visits .expression ++ arguments.flatMap (visits .expression)) := by
        simp [visits, inside, operands, ← visits_all]
      rw [operands, ← List.cons_append, List.forall_mem_cons, List.forall_mem_append] at legible
      rcases legible with ⟨named, receiverLegible, argumentsLegible⟩
      rcases @Named.to_token (fun _ => True) function named .nameFunction with
        ⟨functionDoc, isFunction, functionPhrase⟩
      rw [inOrder, Reports.cons_iff rfl, expressionDoc, isFunction]
      apply (reports_expression indent receiver receiverLegible).bind
      intro receiverDoc receiverPhrase
      apply (reports_arguments indent arguments argumentsLegible).bind_ok
      intro docs phrases
      have qualified := qualified_phrase (operand_phrase receiverPhrase receiver.isCompound)
        functionPhrase
      exact call_doc_phrase qualified phrases trivial
  | .new constructor =>
      rw [operands, List.forall_mem_cons] at legible
      rw [visits, Reports.cons_iff rfl, expressionDoc]
      apply (reports_expression indent constructor legible.2).bind_ok
      intro value phrase
      exact after_keyword_phrase (phrase_token .keyword (by decide)) phrase trivial
  | .newArray type dimensions =>
      rw [operands, List.forall_mem_cons] at legible
      rcases @Named.to_token (fun _ => True) type legible.1 .nameClass with
        ⟨typeDoc, isType, typePhrase⟩
      have keyword : AnyPhrase (Doc.token .keyword "new") := phrase_token .keyword (by decide)
      rcases @after_keyword_phrase (fun _ => True) _ _ keyword typePhrase indent trivial with
        ⟨array, isArray, arrayPhrase⟩
      rw [visits, Reports.cons_iff rfl, inside, operands, visits_all, expressionDoc, isType]
      dsimp only [bind, Except.bind]
      rw [isArray]
      exact reports_dimensions indent arrayPhrase dimensions legible.2
  | .derived name base =>
      rw [operands, List.forall_mem_cons] at legible
      rw [expressionDoc]
      exact reports_derived (reports_expression indent base (List.forall_mem_cons.mpr legible))
  | .scalar _ | .list _ | .doc _ | .object | .bareExpression | .bareStatement | .assignment .. |
    .returning _ | .throwing _ | .methodDecl .. | .classDecl .. =>
      rw [expressionDoc]
      · exact .unknown rfl
      all_goals simp

theorem reports_arguments (indent : Amount) (arguments : List Node)
    (legible : ∀ inner ∈ operandsAll arguments, inner.Legible) :
    Reports (fun docs => ∀ doc ∈ docs, AnyPhrase doc) (arguments.flatMap (visits .expression))
      (argumentDocs (.columns indent) arguments) := by
  match arguments with
  | [] =>
      rw [argumentDocs]
      exact .of_ok ⟨[], rfl, by simp⟩
  | argument :: rest =>
      rw [operandsAll, ← List.cons_append, List.forall_mem_append] at legible
      rw [List.flatMap_cons, argumentDocs]
      apply (reports_expression indent argument legible.1).bind
      intro first firstPhrase
      apply (reports_arguments indent rest legible.2).bind_ok
      intro others phrases
      refine ⟨_, rfl, List.forall_mem_cons.mpr ⟨?_, phrases⟩⟩
      split
      · exact firstPhrase
      · exact with_comma_phrase firstPhrase

theorem reports_dimensions (indent : Amount) {array : Doc} (arrayPhrase : AnyPhrase array)
    (dimensions : List Node) (legible : ∀ inner ∈ operandsAll dimensions, inner.Legible) :
    Reports AnyPhrase (dimensions.flatMap (visits .expression))
      (dimensionDocs (.columns indent) array dimensions) := by
  match dimensions with
  | [] =>
      rw [dimensionDocs]
      exact .of_ok ⟨array, rfl, arrayPhrase⟩
  | dimension :: rest =>
      rw [operandsAll, ← List.cons_append, List.forall_mem_append] at legible
      rw [List.flatMap_cons, dimensionDocs]
      apply (reports_expression indent dimension legible.1).bind
      intro index indexPhrase
      exact reports_dimensions indent (indexed_phrase arrayPhrase indexPhrase) rest legible.2

end

theorem reports_assignment (indent : Amount) {left right : Node}
    (leftLegible : ∀ inner ∈ left :: left.operands, inner.Legible)
    (rightLegible : ∀ inner ∈ right :: right.operands, inner.Legible) :
    Reports AnyPhrase (left.visits .expression ++ right.visits .expression)
      (assignmentDoc (.columns indent) left right) := by
  rw [assignmentDoc]
  apply (reports_expression indent left leftLegible).bind
  intro leftDoc leftPhrase
  apply (reports_expression indent right rightLegible).bind_ok
  intro rightDoc rightPhrase
  exact ⟨_, rfl, assignment_phrase leftPhrase rightPhrase trivial⟩

theorem reports_after_keyword (indent : Amount) {keyword : String}
    (breakless : '\n' ∉ keyword.toList) {value : Node}
    (legible : ∀ inner ∈ value :: value.operands, inner.Legible) :
    Reports AnyPhrase (value.visits .expression)
      (expressionDoc (.columns indent) value >>= fun doc =>
        Doc.afterKeyword (Doc.token .keyword keyword) doc (.columns indent)) := by
  apply (reports_expression indent value legible).bind_ok
  intro doc phrase
  exact after_keyword_phrase (phrase_token .keyword breakless) phrase trivial

theorem reports_statement (indent : Amount) (node : Node)
    (legible : ∀ inner ∈ node :: node.values, inner.Legible) :
    Reports AnyPhrase (node.visits .statement) (node.statementDoc (.columns indent)) := by
  match node with
  | .assignment left right =>
      have inOrder : (Node.assignment left right).visits .statement =
          ⟨.statement, .assignment left right⟩ ::
            (left.visits .expression ++ right.visits .expression) := by
        simp [visits, inside, values]
      rw [values, ← List.cons_append, List.forall_mem_cons, List.forall_mem_append] at legible
      rw [inOrder, Reports.cons_iff rfl, statementDoc]
      exact reports_assignment indent legible.2.1 legible.2.2
  | .returning value =>
      rw [visits, Reports.cons_iff rfl, inside, statementDoc]
      rw [values] at legible ⊢
      cases absent : value.isNone with
      | true => exact .of_ok ⟨_, rfl, phrase_token .keyword (by decide)⟩
      | false =>
          rw [absent, List.forall_mem_cons] at legible
          exact reports_after_keyword indent (by decide) legible.2
  | .throwing value =>
      rw [values, List.forall_mem_cons] at legible
      rw [visits, Reports.cons_iff rfl, statementDoc]
      exact reports_after_keyword indent (by decide) legible.2
  | .call function arguments =>
      have reports := reports_expression indent (.call function arguments) legible
      rw [visits, Reports.cons_iff rfl] at reports
      rw [visits, Reports.cons_iff rfl, statementDoc]
      exact reports
  | .instanceCall function arguments receiver =>
      have reports := reports_expression indent (.instanceCall function arguments receiver) legible
      rw [visits, Reports.cons_iff rfl] at reports
      rw [visits, Reports.cons_iff rfl, statementDoc]
      exact reports
  | .derived name base =>
      rw [values, List.forall_mem_cons] at legible
      rw [statementDoc]
      exact reports_derived (reports_statement indent base (List.forall_mem_cons.mpr legible))
  | .scalar _ | .list _ | .doc _ | .object | .bareExpression | .bareStatement | .constant .. |
    .binary .. | .unary .. | .field _ | .reference .. | .new _ | .newArray .. | .methodDecl .. |
    .classDecl .. =>
      rw [statementDoc]
      · exact .unknown rfl
      all_goals simp

theorem reports_statements (indent : Amount) (statements : List Node)
    (legible : ∀ statement ∈ statements, ∀ inner ∈ statement :: statement.values, inner.Legible) :
    Reports (fun docs => ∀ doc ∈ docs, AnyPhrase doc) (statements.flatMap (visits .statement))
      (statementDocs (.columns indent) statements) := by
  induction statements with
  | nil => exact .of_ok ⟨[], rfl, by simp⟩
  | cons statement rest induction =>
      have each := List.forall_mem_cons.mp legible
      rw [List.flatMap_cons, statementDocs]
      apply (reports_statement indent statement each.1).bind
      intro first firstPhrase
      apply (induction each.2).bind_ok
      intro others phrases
      exact ⟨_, rfl, List.forall_mem_cons.mpr ⟨firstPhrase, phrases⟩⟩

theorem reports_block (indent : Amount) (statements : List Node)
    (legible : ∀ statement ∈ statements, ∀ inner ∈ statement :: statement.values, inner.Legible) :
    Reports Doc.Regular (statements.flatMap (visits .statement))
      ((Node.list statements).statementsDoc (.columns indent)) := by
  cases statements with
  | nil => exact .of_ok ⟨.nil, rfl, .nil⟩
  | cons statement rest =>
      apply (reports_statements indent (statement :: rest) legible).bind_ok
      intro docs phrases
      have lines := joined_phrase (Doc.holds_intersperse .line phrases)
      exact ⟨_, rfl, .alwaysBreak lines.sound.regular⟩

end Node

/-- Printing that comes to these visits fails if one of them is not known, and names the first
that is not. What it gives if all are known is laid out without a fault on every page. -/
structure Reported (visits : List Visit) (printed : Except Fault Doc) : Prop where
  fails_iff : (∃ fault, printed = .error fault) ↔ ∃ visit ∈ visits, visit.known = false
  names_first : ∀ visit, firstUnknown visits = some visit → printed = .error visit.fault
  lays : ∀ doc, printed = .ok doc → ∀ width, (layout doc width).fault? = none

theorem Reports.reported {visits : List Visit} {printed : Except Fault Doc}
    (reports : Reports Doc.Regular visits printed) : Reported visits printed := by
  rw [Reports] at reports
  cases found : firstUnknown visits with
  | some visit =>
      rw [found] at reports
      subst reports
      have unknown : visit.known = false := by simpa using List.find?_some found
      constructor
      · exact iff_of_true ⟨_, rfl⟩ ⟨visit, List.mem_of_find?_eq_some found, unknown⟩
      · intro first isFirst
        rw [Option.some.inj (found.symm.trans isFirst)]
      · rintro _ ⟨⟩
  | none =>
      rw [found] at reports
      rcases reports with ⟨doc, rfl, regular⟩
      have allKnown : ∀ visit ∈ visits, visit.known = true := by
        simpa using List.find?_eq_none.mp found
      constructor
      · apply iff_of_false
        · rintro ⟨fault, ⟨⟩⟩
        · rintro ⟨visit, member, unknown⟩
          rw [allKnown visit member] at unknown
          cases unknown
      · intro first isFirst
        cases found.symm.trans isFirst
      · rintro _ ⟨⟩ width
        exact layout_succeeds regular width

/-- An expression, a statement or a block that has an unknown node is never printed, and the node
that the fault names is the first that printing comes to. -/
theorem unknown_nodes_reported (indent : Amount) :
    (∀ node : Node, (∀ inner ∈ node :: node.operands, inner.Legible) →
        Reported (node.visits .expression) (node.expressionDoc (.columns indent))) ∧
      (∀ node : Node, (∀ inner ∈ node :: node.values, inner.Legible) →
        Reported (node.visits .statement) (node.statementDoc (.columns indent))) ∧
      ∀ statements : List Node,
        (∀ statement ∈ statements, ∀ inner ∈ statement :: statement.values, inner.Legible) →
          Reported (statements.flatMap (Node.visits .statement))
            ((Node.list statements).statementsDoc (.columns indent)) := by
  have whole {visits : List Visit} {printed : Except Fault Doc}
      (reports : Reports Node.AnyPhrase visits printed) : Reported visits printed :=
    (reports.weaken fun _ phrase => phrase.sound.regular).reported
  refine ⟨?_, ?_, ?_⟩
  · intro node legible
    exact whole (Node.reports_expression indent node legible)
  · intro node legible
    exact whole (Node.reports_statement indent node legible)
  · intro statements legible
    exact (Node.reports_block indent statements legible).reported

/-- The receiver comes before the arguments, although it is given after them, and the object in the
place of an array that has no index is never seen. -/
theorem unknown_receiver_reported_first :
    let guard := Node.derived "Guard" (.returning (.scalar .none))
    let receiver := Node.binary (.text "+") (.field (.text "a")) guard 1
    let call := Node.instanceCall (.text "send") [.object] receiver
    let unindexed := Node.reference (.text "x") .object (.scalar .none)
    let statements := [Node.assignment unindexed unindexed, .returning (.scalar .none)]
    (∀ inner ∈ call :: call.operands, inner.Legible) ∧
      call.expressionDoc (.columns (.int 4)) = .error (.unknownNode .expression "Guard") ∧
      (Node.throwing call).statementDoc (.columns (.int 4)) =
        .error (.unknownNode .expression "Guard") ∧
      receiver.statementDoc (.columns (.int 4)) =
        .error (.unknownNode .statement "BinaryExpression") ∧
      (∀ visit ∈ statements.flatMap (Node.visits .statement), visit.known = true) ∧
      ∃ doc, (Node.list statements).statementsDoc (.columns (.int 4)) = .ok doc ∧
        ∀ width, (layout doc width).fault? = none := by
  intro guard receiver call unindexed statements
  have send : (Node.text "send").Named := .text (by decide)
  have plus : (Node.text "+").Named := .text (by decide)
  have a : (Node.text "a").Named := .text (by decide)
  have x : (Node.text "x").Named := .text (by decide)
  have legible : ∀ inner ∈ call :: call.operands, inner.Legible := by
    simp [call, receiver, guard, Node.operands, Node.operandsAll, Node.Legible, send, plus, a]
  have thrown : ∀ inner ∈ Node.throwing call :: (Node.throwing call).values, inner.Legible :=
    List.forall_mem_cons.mpr ⟨trivial, legible⟩
  have alone : ∀ inner ∈ receiver :: receiver.values, inner.Legible :=
    List.forall_mem_singleton.mpr plus
  have inBlock : ∀ statement ∈ statements, ∀ inner ∈ statement :: statement.values,
      inner.Legible := by
    simp [statements, unindexed, Node.values, Node.operands, Node.Legible, Node.isNone, x]
  rcases unknown_nodes_reported (.int 4) with ⟨expression, statement, block⟩
  have reported := block statements inBlock
  have allKnown : ∀ visit ∈ statements.flatMap (Node.visits .statement), visit.known = true := by
    simp [statements, unindexed, Node.visits, Node.inside, Node.values, Node.operands, Node.isNone,
      Visit.known, Node.isExpression, Node.isStatement, Node.core]
  refine ⟨legible, (expression call legible).names_first ⟨.expression, guard⟩ rfl,
    (statement (.throwing call) thrown).names_first ⟨.expression, guard⟩ rfl,
    (statement receiver alone).names_first ⟨.statement, receiver⟩ rfl, allKnown, _, rfl, ?_⟩
  exact reported.lays _ rfl

end KotlinLayout
