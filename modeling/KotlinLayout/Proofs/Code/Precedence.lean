import KotlinLayout.Proofs.Code.Grammar
import KotlinLayout.Proofs.Code.Spelling

/-!
Printed expressions read back as the trees they came from: the parentheses that printing puts
around operands are those that the grammar of operators asks for, wherever lines break.
-/

namespace KotlinLayout

/-- The priority of the outermost operator, if it is a binary one. -/
def Formula.level (priority : String → Int) : Formula → Option Int
  | .binary operator _ _ => some (priority operator)
  | _ => none

theorem level_of_unparenthesized {level : Option Int} {loose : Int → Bool} :
    ∀ inner ∈ (if level.any loose then none else level), loose inner = false := by
  intro inner member
  cases level with
  | none => simp at member
  | some outer =>
      rw [Option.any_some] at member
      split at member
      · cases member
      · rename_i tight
        cases member
        exact Bool.eq_false_iff.mpr tight

theorem reads_operand {priority : String → Int} {level : Option Int} {tokens : List Lexeme}
    {formula : Formula} (reads : Reads priority level tokens formula) (withParens : Bool) :
    Reads priority (if withParens then none else level) (operandTokens withParens tokens)
      formula := by
  cases withParens with
  | false => exact reads
  | true => exact .parenthesized reads

namespace Node

/-- Binary expressions over variables, fields and constants, as trees of operators. The priority
of every operator is the one that is given for it. -/
inductive HasShape (priority : String → Int) : Node → Formula → Prop where
  | reference {name : String} {array index : Node} :
      '\n' ∉ name.toList → index.isNone = true →
        HasShape priority (.reference (.text name) array index) (.leaf ⟨.nameVariable, name⟩)
  | field {name : String} :
      '\n' ∉ name.toList → HasShape priority (.field (.text name)) (.leaf ⟨.nameVariable, name⟩)
  | quoted {value isString : Node} {text : String} :
      isString.isSet = true → value.shown.text = .ok text → '\n' ∉ text.toList →
        HasShape priority (.constant value isString)
          (.leaf ⟨.literalString, "\"" ++ text ++ "\""⟩)
  | keyword {value isString : Node} {text : String} :
      isString.isSet = false → value.keyword? = some text →
        HasShape priority (.constant value isString) (.leaf ⟨.keywordConstant, text⟩)
  | number {value isString : Node} {text : String} :
      isString.isSet = false → value.keyword? = none → value.shown.text = .ok text →
        '\n' ∉ text.toList → HasShape priority (.constant value isString) (.leaf ⟨.number, text⟩)
  | binary {operation : String} {left right : Node} {leftShape rightShape : Formula} :
      '\n' ∉ operation.toList → HasShape priority left leftShape →
        HasShape priority right rightShape →
          HasShape priority (.binary (.text operation) left right (priority operation))
            (.binary operation leftShape rightShape)
  | derived {name : String} {base : Node} {shape : Formula} :
      HasShape priority base shape → HasShape priority (.derived name base) shape

variable {priority : String → Int}

theorem HasShape.printable {node : Node} {shape : Formula}
    (hasShape : node.HasShape priority shape) : node.Printable := by
  induction hasShape with
  | reference breakless absent => exact .reference breakless absent
  | field breakless => exact .field breakless
  | quoted _ shown breakless => exact .constant shown breakless
  | number _ _ shown breakless => exact .constant shown breakless
  | binary breakless _ _ left right => exact .binary breakless left right
  | derived _ induction => exact .derived induction
  | @keyword value isString text _ isKeyword =>
      unfold keyword? at isKeyword
      split at isKeyword
      · exact .constant rfl (by decide)
      · exact .constant rfl (by decide)
      · exact .constant rfl (by decide)
      · cases isKeyword

theorem HasShape.priority_eq {node : Node} {shape : Formula}
    (hasShape : node.HasShape priority shape) : node.priority? = shape.level priority := by
  induction hasShape with
  | derived _ induction => exact induction
  | _ => rfl

theorem left_needs_parens_eq (priority : Int) (left : Node) :
    leftNeedsParens priority left = left.priority?.any (· < priority) := by
  unfold leftNeedsParens
  cases left.priority? <;> rfl

theorem right_needs_parens_eq (priority : Int) (right : Node) :
    rightNeedsParens priority right =
      right.priority?.any fun inner => inner ≤ priority || priority = nonAssociativePriority := by
  unfold rightNeedsParens
  cases right.priority? <;> rfl

theorem prefix_needs_parens_eq (operand : Node) :
    prefixNeedsParens operand = operand.priority?.any (· < prefixOperandPriority) := by
  unfold prefixNeedsParens
  cases operand.priority? <;> rfl

/-- A left operand without parentheses binds at least as tightly as the operator. -/
theorem left_operand_tight (priority : Int) (left : Node) :
    ∀ level ∈ (if leftNeedsParens priority left then none else left.priority?),
      priority ≤ level := by
  intro level member
  rw [left_needs_parens_eq] at member
  have tight := level_of_unparenthesized level member
  exact Int.not_lt.mp (of_decide_eq_false tight)

/-- A right operand without parentheses binds tighter than the operator. -/
theorem right_operand_tight (priority : Int) (right : Node) :
    ∀ level ∈ (if rightNeedsParens priority right then none else right.priority?),
      priority < level := by
  intro level member
  rw [right_needs_parens_eq] at member
  have tight := level_of_unparenthesized level member
  rw [Bool.or_eq_false_iff] at tight
  exact Int.not_le.mp (of_decide_eq_false tight.1)

theorem HasShape.leaf_spelled {node : Node} {lexeme : Lexeme}
    (hasShape : node.HasShape priority (.leaf lexeme)) (indent : Amount) :
    node.Spelled indent [lexeme] ∧ lexeme.IsLeaf := by
  have proper (token : Token) (text : String) (other : token ≠ .operator ∧ token ≠ .punctuation) :
      Lexeme.IsLeaf ⟨token, text⟩ := other
  generalize isLeaf : Formula.leaf lexeme = shape at hasShape
  induction hasShape with
  | reference breakless absent =>
      cases isLeaf
      exact ⟨.reference breakless absent, proper .nameVariable _ (by decide)⟩
  | field breakless =>
      cases isLeaf
      exact ⟨.field breakless, proper .nameVariable _ (by decide)⟩
  | quoted isSet shown breakless =>
      cases isLeaf
      exact ⟨literal_spells isSet shown breakless, proper .literalString _ (by decide)⟩
  | keyword isSet isKeyword =>
      cases isLeaf
      exact ⟨keyword_spells isSet isKeyword, proper .keywordConstant _ (by decide)⟩
  | number isSet noKeyword shown breakless =>
      cases isLeaf
      exact ⟨number_spells isSet noKeyword shown breakless, proper .number _ (by decide)⟩
  | binary => cases isLeaf
  | derived base induction =>
      obtain ⟨spelled, isProper⟩ := induction isLeaf
      exact ⟨spelled.derived _ base.printable, isProper⟩

/-- A printed tree of operators is spelled by tokens that read as the tree. -/
theorem HasShape.spelled {node : Node} {shape : Formula} (hasShape : node.HasShape priority shape)
    (indent : Amount) :
    ∃ tokens, node.Spelled indent tokens ∧
      Reads priority (shape.level priority) tokens shape := by
  have leaf {node : Node} {lexeme : Lexeme} (hasShape : node.HasShape priority (.leaf lexeme)) :
      ∃ tokens, node.Spelled indent tokens ∧ Reads priority none tokens (.leaf lexeme) := by
    obtain ⟨spelled, proper⟩ := hasShape.leaf_spelled indent
    exact ⟨[lexeme], spelled, .leaf proper⟩
  induction hasShape with
  | reference breakless absent => exact leaf (.reference breakless absent)
  | field breakless => exact leaf (.field breakless)
  | quoted isSet shown breakless => exact leaf (.quoted isSet shown breakless)
  | keyword isSet isKeyword => exact leaf (.keyword isSet isKeyword)
  | number isSet noKeyword shown breakless => exact leaf (.number isSet noKeyword shown breakless)
  | derived base induction =>
      obtain ⟨tokens, spelled, reads⟩ := induction
      exact ⟨tokens, spelled.derived _ base.printable, reads⟩
  | @binary operation left right leftShape rightShape breakless leftHas rightHas leftInduction
      rightInduction =>
      obtain ⟨leftTokens, leftSpelled, leftReads⟩ := leftInduction
      obtain ⟨rightTokens, rightSpelled, rightReads⟩ := rightInduction
      rw [← leftHas.priority_eq] at leftReads
      rw [← rightHas.priority_eq] at rightReads
      exact ⟨_, leftSpelled.binary breakless rightSpelled (priority operation),
        .binary (reads_operand leftReads (leftNeedsParens (priority operation) left))
          (reads_operand rightReads (rightNeedsParens (priority operation) right))
          (left_operand_tight _ left) (right_operand_tight _ right)⟩

/-- Whatever the priorities are and wherever lines break, the annotated texts of a printed tree of
operators have one reading, which is the tree. -/
theorem expression_reads_back {node : Node} {shape : Formula}
    (hasShape : node.HasShape priority shape) (indent : Amount) (width : Int) :
    ∃ doc tokens, node.expressionDoc (.columns indent) = .ok doc ∧
      (layout doc width).fault? = none ∧ lexemes none (layout doc width).items = some tokens ∧
      ∀ formula, Parses priority tokens formula ↔ formula = shape := by
  obtain ⟨tokens, spelled, reads⟩ := hasShape.spelled indent
  obtain ⟨doc, isDoc, faultless, read⟩ := spelled.prints hasShape.printable width
  exact ⟨doc, tokens, isDoc, faultless, read, Grammar.parses_iff reads⟩

/-- The difference on the right of a difference, on a page without any room. -/
theorem difference_reads_back :
    let priority (operator : String) := (defaultPriority? operator).getD 0
    let name (text : String) := Node.reference (.text text) (.scalar .none) (.scalar .none)
    let leaf (text : String) := Formula.leaf ⟨.nameVariable, text⟩
    let right := Node.binary (.text "-") (name "b") (name "c") (priority "-")
    ∃ doc tokens,
      (Node.binary (.text "-") (name "a") right (priority "-")).expressionDoc
          (.columns (.int 4)) = .ok doc ∧
        (layout doc 0).fault? = none ∧ lexemes none (layout doc 0).items = some tokens ∧
        ∀ formula, Parses priority tokens formula ↔
          formula = .binary "-" (leaf "a") (.binary "-" (leaf "b") (leaf "c")) := by
  intro priority name leaf right
  have named (text : String) (breakless : '\n' ∉ text.toList) :
      (name text).HasShape priority (leaf text) := .reference breakless rfl
  have rightShape : right.HasShape priority (.binary "-" (leaf "b") (leaf "c")) :=
    .binary (by decide) (named "b" (by decide)) (named "c" (by decide))
  have shape : (Node.binary (.text "-") (name "a") right (priority "-")).HasShape priority
      (.binary "-" (leaf "a") (.binary "-" (leaf "b") (leaf "c"))) :=
    .binary (by decide) (named "a" (by decide)) rightShape
  exact expression_reads_back shape (.int 4) 0

end Node

end KotlinLayout
