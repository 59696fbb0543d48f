import KotlinLayout.Proofs.Code.Readable
import KotlinLayout.Proofs.Code.Spelling

/-!
What stands in front of a dot or of a bracket. A call puts parentheses around a receiver that is an
operator expression, so its texts read back as a call on all of it. An index puts none around the
array, so there it goes to the last operand alone.
-/

namespace KotlinLayout

open List (Forall₂)

namespace Expression

variable {priority : String → Int}

/-- The one reading of the tokens. -/
def ReadsOnlyAs (priority : String → Int) (tokens : List Lexeme) (value : Expression) : Prop :=
  ∀ other, Parses priority tokens other ↔ other = value

theorem Reads.only {level : Level} {tokens : List Lexeme} {value : Expression}
    (reads : Reads priority level tokens value) : ReadsOnlyAs priority tokens value := by
  intro other
  constructor
  · intro parses
    exact parses_unambiguous parses ⟨level, reads⟩
  · rintro rfl
    exact ⟨level, reads⟩

/-- An operator expression outside of parentheses is no element of an array. -/
theorem Reads.ne_element {level : Level} {tokens : List Lexeme} {value : Expression}
    (reads : Reads priority level tokens value) (compound : level ≠ .unit)
    (array index : Expression) : value ≠ .element array index := by
  rintro rfl
  cases reads with
  | _ => exact compound rfl

theorem Reads.index {level indexLevel : Level} {tokens indexTokens : List Lexeme}
    {value index : Expression} (reads : Reads priority level tokens value)
    (indexReads : Reads priority indexLevel indexTokens index) :
    ∃ after, Reads priority level (tokens ++ subscript indexTokens) after ∧
      OnLast (.element · index) value after :=
  reads.extend fun reads => .element reads indexReads

theorem Reads.dimensions {level : Level} {tokens : List Lexeme} {value : Expression}
    {spans : List Span} (reads : Reads priority level tokens value)
    (readable : ∀ span ∈ spans, Reads priority span.level span.tokens span.value) :
    ∃ after, Reads priority level
      (tokens ++ (spans.map Span.tokens).flatMap subscript) after := by
  induction spans generalizing tokens value with
  | nil =>
      refine ⟨value, ?_⟩
      rwa [List.map_nil, List.flatMap_nil, List.append_nil]
  | cons span spans induction =>
      obtain ⟨first, others⟩ := List.forall_mem_cons.mp readable
      obtain ⟨after, indexed, -⟩ := reads.index first
      obtain ⟨last, whole⟩ := induction indexed others
      refine ⟨last, ?_⟩
      rwa [List.map_cons, List.flatMap_cons, ← List.append_assoc]

end Expression

namespace Node

open Expression (Span Level)

variable {priority : String → Int} {indent : Amount}

/-- The texts of an expression have a reading, and one of an operator expression is no unit. -/
structure ReadAs (priority : String → Int) (indent : Amount) (node : Node) (span : Span) :
    Prop where
  spelled : node.Spelled indent span.tokens
  reads : Expression.Reads priority span.level span.tokens span.value
  compound : node.isCompound = true → span.level ≠ .unit

theorem exists_spans {nodes : List Node}
    (readable : ∀ node ∈ nodes, ∃ span, node.ReadAs priority indent span) :
    ∃ spans, Forall₂ (ReadAs priority indent) nodes spans := by
  induction nodes with
  | nil => exact ⟨[], .nil⟩
  | cons node nodes induction =>
      obtain ⟨first, others⟩ := List.forall_mem_cons.mp readable
      obtain ⟨span, readAs⟩ := first
      obtain ⟨spans, rest⟩ := induction others
      exact ⟨span :: spans, .cons readAs rest⟩

section

variable {nodes : List Node} {spans : List Span}

theorem spelled_of_spans (readAs : Forall₂ (ReadAs priority indent) nodes spans) :
    Forall₂ (Spelled indent) nodes (spans.map Span.tokens) :=
  List.forall₂_map_right_iff.mpr (readAs.imp fun _ _ each => each.spelled)

theorem reads_of_spans (readAs : Forall₂ (ReadAs priority indent) nodes spans) :
    ∀ span ∈ spans, Expression.Reads priority span.level span.tokens span.value := by
  induction readAs with
  | nil => simp
  | cons first _ induction => exact List.forall_mem_cons.mpr ⟨first.reads, induction⟩

end

theorem operand_reads {level : Level} {tokens : List Lexeme} {value : Expression}
    (reads : Expression.Reads priority level tokens value) (withParens : Bool) :
    ∃ level, Expression.Reads priority level (operandTokens withParens tokens) value := by
  cases withParens with
  | false => exact ⟨level, reads⟩
  | true => exact ⟨.unit, .parenthesized reads⟩

theorem read_as_leaf {node : Node} {lexeme : Lexeme} (spelled : node.Spelled indent [lexeme])
    (isValue : lexeme.isValue = true) (simple : node.isCompound = false) :
    ∃ span, node.ReadAs priority indent span :=
  ⟨⟨.unit, [lexeme], .leaf lexeme⟩, spelled, .leaf isValue, fun compound => by
    rw [simple] at compound
    cases compound⟩

/-- Every expression has a reading, whatever the priorities are. -/
theorem Printable.read_as {node : Node} (printable : node.Printable) (priority : String → Int)
    (indent : Amount) : ∃ span, node.ReadAs priority indent span := by
  induction printable with
  | constant shown breakless =>
      obtain ⟨lexeme, isValue, spelled⟩ := Spelled.constant shown breakless
      exact read_as_leaf spelled isValue rfl
  | field breakless => exact read_as_leaf (.field breakless) rfl rfl
  | reference breakless absent => exact read_as_leaf (.reference breakless absent) rfl rfl
  | @binary operation left right own breakless _ _ leftInduction rightInduction =>
      obtain ⟨leftSpan, leftReadAs⟩ := leftInduction
      obtain ⟨rightSpan, rightReadAs⟩ := rightInduction
      obtain ⟨_, leftReads⟩ := operand_reads leftReadAs.reads (leftNeedsParens own left)
      obtain ⟨_, rightReads⟩ := operand_reads rightReadAs.reads (rightNeedsParens own right)
      obtain ⟨outer, whole, joined⟩ := leftReads.join operation rightReads
      exact ⟨⟨.operator outer, _, whole⟩,
        leftReadAs.spelled.binary breakless rightReadAs.spelled own, joined, fun _ => nofun⟩
  | @unary operation operand breakless _ induction =>
      obtain ⟨span, readAs⟩ := induction
      obtain ⟨_, reads⟩ := operand_reads readAs.reads operand.prefixNeedsParens
      have isPrefix : (Lexeme.operator operation).isPrefix = true := rfl
      obtain ⟨outer, whole, compound, -, prepended⟩ := reads.prepend isPrefix
      exact ⟨⟨outer, _, whole⟩, readAs.spelled.unary breakless, prepended, fun _ => compound⟩
  | @element name array index _ indexPrintable arrayInduction indexInduction =>
      obtain ⟨span, readAs⟩ := arrayInduction
      obtain ⟨indexSpan, indexReadAs⟩ := indexInduction
      obtain ⟨after, indexed, -⟩ := readAs.reads.index indexReadAs.reads
      exact ⟨⟨span.level, _, after⟩,
        readAs.spelled.element name indexPrintable.index_is_some indexReadAs.spelled, indexed,
        nofun⟩
  | @call function arguments breakless _ induction =>
      obtain ⟨spans, readAs⟩ := exists_spans induction
      exact ⟨⟨.unit, _, _⟩, .call breakless (spelled_of_spans readAs),
        .call (reads_of_spans readAs), nofun⟩
  | @instanceCall function arguments receiver breakless _ _ induction receiverInduction =>
      obtain ⟨spans, readAs⟩ := exists_spans induction
      obtain ⟨span, receiverReadAs⟩ := receiverInduction
      obtain ⟨level, reads⟩ := operand_reads receiverReadAs.reads receiver.isCompound
      obtain ⟨after, whole, -⟩ := reads.extend fun reads =>
        Expression.Reads.member reads (reads_of_spans readAs)
      exact ⟨⟨level, _, after⟩,
        .instance_call breakless (spelled_of_spans readAs) receiverReadAs.spelled, whole, nofun⟩
  | new _ induction =>
      obtain ⟨span, readAs⟩ := induction
      have isPrefix : Lexeme.new.isPrefix = true := rfl
      obtain ⟨outer, whole, -, -, prepended⟩ := readAs.reads.prepend isPrefix
      exact ⟨⟨outer, _, whole⟩, readAs.spelled.new, prepended, nofun⟩
  | @newArray type dimensions breakless _ induction =>
      obtain ⟨spans, readAs⟩ := exists_spans induction
      have type : Expression.Reads priority .unit [⟨.nameClass, type⟩] (.leaf ⟨.nameClass, type⟩) :=
        .leaf rfl
      have isOperand : Level.unit.IsOperand := trivial
      have start := Expression.Reads.prefixed (rfl : Lexeme.new.isPrefix = true) isOperand type
      obtain ⟨after, whole⟩ := start.dimensions (reads_of_spans readAs)
      exact ⟨⟨.prefixed, _, after⟩, .new_array breakless (spelled_of_spans readAs), whole, nofun⟩
  | derived printable induction =>
      obtain ⟨span, readAs⟩ := induction
      exact ⟨span, readAs.spelled.derived _ printable, readAs.reads, readAs.compound⟩

/-- A call on an operator expression, and an element of one: the call has the expression in
parentheses and has one reading, the call on all of it. The element has none, and in its one
reading the index goes to the last operand, so that it is no element. -/
theorem compound_base_of_call_and_element {base index : Node} {arguments : List Node}
    {function : String} (basePrintable : base.Printable) (compound : base.isCompound = true)
    (argumentsPrintable : ∀ argument ∈ arguments, argument.Printable)
    (indexPrintable : index.Printable) (breakless : '\n' ∉ function.toList) (name : Node)
    (priority : String → Int) (indent : Amount) (width : Int) :
    ∃ baseTokens indexTokens lists value indexValue values,
      base.Prints indent width baseTokens ∧ Expression.ReadsOnlyAs priority baseTokens value ∧
      index.Prints indent width indexTokens ∧
      Expression.ReadsOnlyAs priority indexTokens indexValue ∧
      Forall₂ (Prints indent width) arguments lists ∧
      Forall₂ (Expression.ReadsOnlyAs priority) lists values ∧
      (let tokens := .leftParen :: (baseTokens ++ [.rightParen]) ++
        .dot :: .function function :: Expression.enclosed lists
      (Node.instanceCall (.text function) arguments base).Prints indent width tokens ∧
        Expression.ReadsOnlyAs priority tokens (.member value function values)) ∧
      let tokens := baseTokens ++ Expression.subscript indexTokens
      (Node.reference name base index).Prints indent width tokens ∧
        ∃ after, Expression.ReadsOnlyAs priority tokens after ∧
          Expression.OnLast (.element · indexValue) value after ∧
          ∀ array index, after ≠ .element array index := by
  obtain ⟨span, readAs⟩ := basePrintable.read_as priority indent
  obtain ⟨indexSpan, indexReadAs⟩ := indexPrintable.read_as priority indent
  obtain ⟨spans, areSpans⟩ :=
    exists_spans fun argument member => (argumentsPrintable argument member).read_as priority indent
  have spelled := spelled_of_spans areSpans
  have reads := reads_of_spans areSpans
  have shown : Forall₂ (Prints indent width) arguments (spans.map Span.tokens) :=
    ((List.forall₂_and_left arguments _).mpr ⟨argumentsPrintable, spelled⟩).imp
      fun _ _ each => each.2.prints each.1 width
  have only : Forall₂ (Expression.ReadsOnlyAs priority) (spans.map Span.tokens)
      (spans.map Span.value) := by
    rw [List.forall₂_map_left_iff, List.forall₂_map_right_iff, List.forall₂_same]
    exact fun span member => (reads span member).only
  have call := Spelled.instance_call breakless spelled readAs.spelled
  rw [compound] at call
  obtain ⟨after, indexed, onLast⟩ := readAs.reads.index indexReadAs.reads
  have element := readAs.spelled.element name indexPrintable.index_is_some indexReadAs.spelled
  refine ⟨span.tokens, indexSpan.tokens, _, span.value, indexSpan.value, _,
    readAs.spelled.prints basePrintable width, readAs.reads.only,
    indexReadAs.spelled.prints indexPrintable width, indexReadAs.reads.only, shown, only,
    ⟨call.prints (.instanceCall breakless argumentsPrintable basePrintable) width,
      (Expression.Reads.member (.parenthesized readAs.reads) reads).only⟩,
    element.prints (.element basePrintable indexPrintable) width, after, indexed.only, onLast,
    indexed.ne_element (readAs.compound compound)⟩

/-- The negative of a variable as a base, with a sum as argument and index, on a page without any
room. -/
theorem negative_base_of_call_and_element :
    let named (text : String) := Node.reference (.text text) (.scalar .none) (.scalar .none)
    let priority (operator : String) := (defaultPriority? operator).getD 0
    let sum := Node.binary (.text "+") (named "i") (named "j") (priority "+")
    let base := Node.unary (.text "-") (named "a")
    base.Printable ∧ base.isCompound = true ∧ sum.Printable ∧ '\n' ∉ "f".toList ∧
      (∃ tokens value values,
        (Node.instanceCall (.text "f") [sum] base).Prints (.int 4) 0 tokens ∧
          Expression.ReadsOnlyAs priority tokens (.member value "f" values)) ∧
      ∃ tokens value,
        (Node.reference (.text "x") base sum).Prints (.int 4) 0 tokens ∧
          Expression.ReadsOnlyAs priority tokens value ∧
          ∀ array index, value ≠ .element array index := by
  intro named priority sum base
  have variablePrintable (text : String) (breakless : '\n' ∉ text.toList) :
      (named text).Printable := .reference breakless rfl
  have sumPrintable : sum.Printable := .binary (by decide) (variablePrintable "i" (by decide))
    (variablePrintable "j" (by decide))
  have basePrintable : base.Printable := .unary (by decide) (variablePrintable "a" (by decide))
  obtain ⟨_, _, _, value, _, values, -, -, -, -, -, -, ⟨call, member⟩, element, after, only, -,
      other⟩ :=
    compound_base_of_call_and_element basePrintable rfl
      (List.forall_mem_singleton.mpr sumPrintable) sumPrintable (by decide : '\n' ∉ "f".toList)
      (.text "x") priority (.int 4) 0
  exact ⟨basePrintable, rfl, sumPrintable, by decide, ⟨_, value, values, call, member⟩, _, after,
    element, only, other⟩

/-- The sum of two variables as the array of an element: only the second one is indexed. -/
theorem indexed_sum_reads_as_sum :
    let named (text : String) := Node.reference (.text text) (.scalar .none) (.scalar .none)
    let leaf (text : String) := Expression.leaf ⟨.nameVariable, text⟩
    let priority (operator : String) := (defaultPriority? operator).getD 0
    let sum := Node.binary (.text "+") (named "a") (named "b") (priority "+")
    let tokens := [⟨.nameVariable, "a"⟩, .operator "+", ⟨.nameVariable, "b"⟩, .leftBracket,
      ⟨.nameVariable, "i"⟩, .rightBracket]
    (Node.reference (.text "x") sum (named "i")).Prints (.int 4) 79 tokens ∧
      Expression.ReadsOnlyAs priority tokens
        (.binary "+" (leaf "a") (.element (leaf "b") (leaf "i"))) := by
  intro named leaf priority sum tokens
  have isName (text : String) (breakless : '\n' ∉ text.toList) :
      (named text).Printable ∧ (named text).Spelled (.int 4) [⟨.nameVariable, text⟩] :=
    ⟨.reference breakless rfl, .reference breakless rfl⟩
  obtain ⟨first, firstSpelled⟩ := isName "a" (by decide)
  obtain ⟨second, secondSpelled⟩ := isName "b" (by decide)
  obtain ⟨index, indexSpelled⟩ := isName "i" (by decide)
  have sumSpelled :=
    firstSpelled.binary (by decide : '\n' ∉ "+".toList) secondSpelled (priority "+")
  have spelled := sumSpelled.element (.text "x") rfl indexSpelled
  have variableReads (text : String) : Expression.Reads priority .unit [⟨.nameVariable, text⟩]
      (leaf text) := .leaf rfl
  have reads : Expression.Reads priority (.operator (priority "+")) tokens
      (.binary "+" (leaf "a") (.element (leaf "b") (leaf "i"))) :=
    .binary (variableReads "a") (.element (variableReads "b") (variableReads "i")) trivial trivial
  exact ⟨spelled.prints (.element (.binary (by decide) first second) index) 79, reads.only⟩

end Node

end KotlinLayout
