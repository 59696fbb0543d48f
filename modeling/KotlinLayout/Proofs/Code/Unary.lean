import KotlinLayout.Proofs.Code.Precedence

/-!
Prefix operators in front of operands. An operand gets parentheses if its operator is additive or
looser, and none if it is multiplicative or a cast. By the grammar prefix operators bind tightest
and take the first factor of such an operand only, so a tree of operators reads back exactly if no
prefix operator in it stands in front of a product or a cast.
-/

namespace KotlinLayout

open Node (nonAssociativePriority prefixOperandPriority)

/-- The priorities of the table; what is not in it does not matter. -/
def tablePriority (operator : String) : Int := (defaultPriority? operator).getD 0

theorem table_priority_of_some {operator : String} {priority : Int}
    (isPriority : defaultPriority? operator = some priority) :
    tablePriority operator = priority := by
  rw [tablePriority, isPriority, Option.getD_some]

theorem table_priority_le (operator : String) :
    tablePriority operator ≤ nonAssociativePriority := by
  have each (level : OperatorLevel) : level.priority ≤ nonAssociativePriority := by
    cases level <;> decide
  rw [tablePriority, defaultPriority?]
  cases operatorLevels.lookup operator with
  | none => exact (by decide : (0 : Int) ≤ nonAssociativePriority)
  | some level => exact each level

theorem breakless_of_some {operator : String} {priority : Int}
    (isPriority : defaultPriority? operator = some priority) : '\n' ∉ operator.toList := by
  obtain ⟨level, isLevel, -⟩ := Option.map_eq_some_iff.mp isPriority
  obtain ⟨before, after, split, -⟩ := List.lookup_eq_some_iff.mp isLevel
  have breakless : ∀ entry ∈ operatorLevels, '\n' ∉ entry.1.toList := by decide
  apply breakless (operator, level)
  rw [split]
  simp

namespace Formula

def outer (formula : Formula) : Option Int := formula.level tablePriority

def leftParens (operator : String) (left : Formula) : Bool :=
  left.outer.any (· < tablePriority operator)

def rightParens (operator : String) (right : Formula) : Bool :=
  right.outer.any (· ≤ tablePriority operator)

def prefixParens (operand : Formula) : Bool := operand.outer.any (· < prefixOperandPriority)

def tokens : Formula → List Lexeme
  | .leaf lexeme => [lexeme]
  | .binary operator left right =>
      operandTokens (leftParens operator left) left.tokens ++
        .operator operator :: operandTokens (rightParens operator right) right.tokens
  | .prefixed operator operand =>
      .operator operator :: operandTokens operand.prefixParens operand.tokens

/-- No prefix operator in front of a product or a cast. -/
def Guarded : Formula → Prop
  | .leaf _ => True
  | .binary _ left right => left.Guarded ∧ right.Guarded
  | .prefixed _ operand =>
      (∀ inner ∈ operand.outer, inner < prefixOperandPriority) ∧ operand.Guarded

def HasLeaves : Formula → Prop
  | .leaf lexeme => lexeme.IsLeaf
  | .binary _ left right => left.HasLeaves ∧ right.HasLeaves
  | .prefixed _ operand => operand.HasLeaves

/-- The formula with a prefix operator at its first factor. -/
def signed (operator : String) : Formula → Formula
  | .binary inner left right =>
      .binary inner
        (if leftParens inner left then .prefixed operator left else left.signed operator) right
  | formula => .prefixed operator formula

section

variable {operator : String} {left right operand : Formula}

theorem left_tight :
    ∀ inner ∈ (if leftParens operator left then none else left.outer),
      tablePriority operator ≤ inner := by
  intro inner member
  exact Int.not_lt.mp (of_decide_eq_false (level_of_unparenthesized inner member))

theorem right_tight :
    ∀ inner ∈ (if rightParens operator right then none else right.outer),
      tablePriority operator < inner := by
  intro inner member
  exact Int.not_le.mp (of_decide_eq_false (level_of_unparenthesized inner member))

theorem guarded_operand (guarded : ∀ inner ∈ operand.outer, inner < prefixOperandPriority) :
    (if operand.prefixParens then none else operand.outer) = none := by
  unfold prefixParens
  cases isOuter : operand.outer with
  | none => simp
  | some inner => simp [guarded inner isOuter]

end

theorem Guarded.reads {formula : Formula} (guarded : formula.Guarded) (leaves : formula.HasLeaves) :
    Reads tablePriority formula.outer formula.tokens formula := by
  induction formula with
  | leaf lexeme => exact .leaf leaves
  | binary operator left right leftInduction rightInduction =>
      have leftReads := leftInduction guarded.1 leaves.1
      have rightReads := rightInduction guarded.2 leaves.2
      exact .binary (reads_operand leftReads (leftParens operator left))
        (reads_operand rightReads (rightParens operator right)) left_tight right_tight
  | prefixed operator operand induction =>
      have reads := reads_operand (induction guarded.2 leaves) operand.prefixParens
      rw [guarded_operand guarded.1] at reads
      exact .prefixed reads

/-- A prefix operator in front of printed texts goes to the first factor. -/
theorem Guarded.signed_reads {formula : Formula} (guarded : formula.Guarded)
    (leaves : formula.HasLeaves) (operator : String) :
    Reads tablePriority formula.outer (.operator operator :: formula.tokens)
      (formula.signed operator) := by
  induction formula with
  | leaf lexeme => exact .prefixed (.leaf leaves)
  | prefixed inner operand _ => exact .prefixed (guarded.reads leaves)
  | binary inner left right leftInduction _ =>
      have rightReads := reads_operand (guarded.2.reads leaves.2) (rightParens inner right)
      cases parens : leftParens inner left with
      | true =>
          have leftReads := (guarded.1.reads leaves.1).parenthesized
          rw [signed, parens, tokens, parens]
          exact .binary (.prefixed leftReads) rightReads (by simp) right_tight
      | false =>
          have leftReads := leftInduction guarded.1 leaves.1
          have tight := @left_tight inner left
          rw [parens] at tight
          rw [signed, parens, tokens, parens]
          exact .binary leftReads rightReads tight right_tight

def required : Formula → Nat
  | .leaf _ => 0
  | .binary operator left right =>
      left.required + (leftParens operator left).toNat +
        (right.required + (rightParens operator right).toNat)
  | .prefixed _ operand => operand.required + operand.outer.isSome.toNat

theorem any_le_is_some (level : Option Int) (loose : Int → Bool) :
    (level.any loose).toNat ≤ level.isSome.toNat := by
  cases level with
  | none => exact Nat.le_refl 0
  | some inner => exact Bool.toNat_le _

/-- The level of a reading is that of the formula, unless there are parentheses around it. -/
theorem level_of_reads {level : Option Int} {tokens : List Lexeme} {formula : Formula}
    (reads : Reads tablePriority level tokens formula) :
    ∀ inner ∈ level, formula.outer = some inner := by
  intro inner member
  cases reads with
  | binary => exact member
  | _ => cases member

theorem parens_le {level : Option Int} {tokens : List Lexeme} {formula : Formula}
    (reads : Reads tablePriority level tokens formula) {loose : Int → Bool}
    (tight : ∀ inner ∈ level, loose inner = false) :
    (formula.outer.any loose).toNat ≤ if level.isNone then formula.outer.isSome.toNat else 0 := by
  cases level with
  | none => exact any_le_is_some formula.outer loose
  | some inner =>
      rw [level_of_reads reads inner rfl, Option.any_some, tight inner rfl]
      exact Nat.le_refl 0

theorem count_operator (operator : String) (tokens : List Lexeme) :
    (Lexeme.operator operator :: tokens).count .leftParen = tokens.count .leftParen :=
  List.count_cons_of_ne (Lexeme.operator_ne_left_paren operator)

theorem count_operand (withParens : Bool) (tokens : List Lexeme) :
    (operandTokens withParens tokens).count .leftParen =
      tokens.count .leftParen + withParens.toNat := by
  cases withParens <;> simp [operandTokens, Lexeme.leftParen, Lexeme.rightParen]

theorem required_le_count {level : Option Int} {tokens : List Lexeme} {formula : Formula}
    (reads : Reads tablePriority level tokens formula) :
    formula.required + (if level.isNone then formula.outer.isSome.toNat else 0) ≤
      tokens.count .leftParen := by
  induction reads with
  | leaf _ => exact Nat.zero_le _
  | @parenthesized level tokens formula _ induction =>
      have counted : (Lexeme.leftParen :: (tokens ++ [.rightParen])).count .leftParen =
          tokens.count .leftParen + 1 := count_operand true tokens
      have single := Bool.toNat_le formula.outer.isSome
      rw [counted]
      simp only [Option.isNone_none, if_true]
      omega
  | @prefixed operator tokens operand _ induction =>
      rw [count_operator]
      exact induction
  | @binary operator leftLevel rightLevel leftTokens rightTokens left right leftReads rightReads
      loose tight leftInduction rightInduction =>
      have counted : (leftTokens ++ .operator operator :: rightTokens).count .leftParen =
          leftTokens.count .leftParen + rightTokens.count .leftParen := by
        rw [List.count_append, count_operator]
      have leftMost : (leftParens operator left).toNat ≤ _ :=
        parens_le leftReads
          fun inner member => decide_eq_false (Int.not_lt.mpr (loose inner member))
      have rightMost : (rightParens operator right).toNat ≤ _ :=
        parens_le rightReads
          fun inner member => decide_eq_false (Int.not_le.mpr (tight inner member))
      rw [counted, required]
      simp only [Option.isNone_some, Bool.false_eq_true, if_false]
      omega

/-- Printing puts no parentheses that are not required, and leaves some of the required ones out
unless the formula is guarded. -/
theorem guarded_of_count {formula : Formula} (leaves : formula.HasLeaves) :
    formula.tokens.count .leftParen ≤ formula.required ∧
      (formula.required ≤ formula.tokens.count .leftParen → formula.Guarded) := by
  induction formula with
  | leaf lexeme =>
      have noParen : Lexeme.leftParen ∉ [lexeme] := by
        rw [List.mem_singleton]
        rintro rfl
        exact leaves.2 rfl
      exact ⟨Nat.le_of_eq (List.count_eq_zero_of_not_mem noParen), fun _ => trivial⟩
  | binary operator left right leftInduction rightInduction =>
      obtain ⟨leftLe, leftGuarded⟩ := leftInduction leaves.1
      obtain ⟨rightLe, rightGuarded⟩ := rightInduction leaves.2
      have counted : (Formula.binary operator left right).tokens.count .leftParen =
          left.tokens.count .leftParen + (leftParens operator left).toNat +
            (right.tokens.count .leftParen + (rightParens operator right).toNat) := by
        rw [tokens, List.count_append, count_operator, count_operand, count_operand]
      rw [counted, required]
      exact ⟨by omega, fun enough => ⟨leftGuarded (by omega), rightGuarded (by omega)⟩⟩
  | prefixed operator operand induction =>
      obtain ⟨le, guarded⟩ := induction leaves
      have counted : (Formula.prefixed operator operand).tokens.count .leftParen =
          operand.tokens.count .leftParen + operand.prefixParens.toNat := by
        rw [tokens, count_operator, count_operand]
      have atMost : operand.prefixParens.toNat ≤ operand.outer.isSome.toNat :=
        any_le_is_some operand.outer _
      rw [counted, required]
      refine ⟨by omega, fun enough => ⟨?_, guarded (by omega)⟩⟩
      intro inner isOuter
      have all : operand.outer.isSome.toNat ≤ operand.prefixParens.toNat := by omega
      rw [prefixParens, isOuter, Option.any_some] at all
      simpa [Bool.toNat_eq_one, Nat.one_le_iff_ne_zero] using all

/-- What is guarded but for the prefix operator in front of it has no parentheses. -/
theorem prefix_parens_eq_false {operator : String} {operand : Formula} (guarded : operand.Guarded)
    (unguarded : ¬(Formula.prefixed operator operand).Guarded) : operand.prefixParens = false := by
  rw [prefixParens, Option.any_eq_false]
  intro inner isOuter
  rw [decide_eq_false_iff_not]
  intro below
  refine unguarded ⟨fun other isOther => ?_, guarded⟩
  cases Option.some.inj (isOuter.symm.trans isOther)
  exact below

theorem outer_le {formula : Formula} {inner : Int} (isOuter : formula.outer = some inner) :
    inner ≤ nonAssociativePriority := by
  cases formula with
  | binary operator left right =>
      cases isOuter
      exact table_priority_le operator
  | _ => cases isOuter

theorem guarded_of_parses {formula : Formula} (leaves : formula.HasLeaves)
    (parses : Parses tablePriority formula.tokens formula) : formula.Guarded := by
  obtain ⟨level, reads⟩ := parses
  have enough := required_le_count reads
  exact (guarded_of_count leaves).2 (by omega)

end Formula

namespace Node

section

variable {node : Node} {shape : Formula}

theorem left_parens_of_outer (same : node.priority? = shape.outer) (operator : String) :
    leftNeedsParens (tablePriority operator) node = shape.leftParens operator := by
  rw [left_needs_parens_eq, same]
  rfl

theorem right_parens_of_outer (same : node.priority? = shape.outer) (operator : String) :
    rightNeedsParens (tablePriority operator) node = shape.rightParens operator := by
  rw [right_needs_parens_eq, same, Formula.rightParens]
  cases isOuter : shape.outer with
  | none => rfl
  | some inner =>
      have le := Formula.outer_le isOuter
      simp only [Option.any_some]
      by_cases cast : tablePriority operator = nonAssociativePriority
      · rw [cast, decide_eq_true le]
        rfl
      · rw [decide_eq_false cast, Bool.or_false]

end

/-- Binary expressions with the priorities of the table and unary expressions, over names and
literals. -/
inductive HasOperators : Node → Formula → Prop where
  | leaf {node : Node} {lexeme : Lexeme} :
      node.HasShape tablePriority (.leaf lexeme) → HasOperators node (.leaf lexeme)
  | binary {operation : String} {left right : Node} {priority : Int}
      {leftShape rightShape : Formula} :
      defaultPriority? operation = some priority → HasOperators left leftShape →
        HasOperators right rightShape →
          HasOperators (.binary (.text operation) left right priority)
            (.binary operation leftShape rightShape)
  | unary {operation : String} {operand : Node} {shape : Formula} :
      '\n' ∉ operation.toList → HasOperators operand shape →
        HasOperators (.unary (.text operation) operand) (.prefixed operation shape)
  | derived {name : String} {base : Node} {shape : Formula} :
      HasOperators base shape → HasOperators (.derived name base) shape

namespace HasOperators

variable {node : Node} {shape : Formula}

theorem printable (hasOperators : node.HasOperators shape) : node.Printable := by
  induction hasOperators with
  | leaf hasShape => exact hasShape.printable
  | binary isPriority _ _ left right => exact .binary (breakless_of_some isPriority) left right
  | unary breakless _ induction => exact .unary breakless induction
  | derived _ induction => exact .derived induction

theorem leaves (hasOperators : node.HasOperators shape) : shape.HasLeaves := by
  induction hasOperators with
  | leaf hasShape => exact (hasShape.leaf_spelled (.int 0)).2
  | binary _ _ _ left right => exact ⟨left, right⟩
  | unary _ _ induction | derived _ induction => exact induction

theorem priority_eq (hasOperators : node.HasOperators shape) : node.priority? = shape.outer := by
  induction hasOperators with
  | leaf hasShape => exact hasShape.priority_eq
  | binary isPriority _ _ _ _ => exact congrArg some (table_priority_of_some isPriority).symm
  | unary _ _ _ => rfl
  | derived _ induction => exact induction

theorem prefix_parens_eq (hasOperators : node.HasOperators shape) :
    prefixNeedsParens node = shape.prefixParens := by
  rw [prefix_needs_parens_eq, hasOperators.priority_eq]
  rfl

theorem spelled (hasOperators : node.HasOperators shape) (indent : Amount) :
    node.Spelled indent shape.tokens := by
  induction hasOperators with
  | leaf hasShape => exact (hasShape.leaf_spelled indent).1
  | @binary operation left right priority leftShape rightShape isPriority leftHas rightHas
      leftInduction rightInduction =>
      have whole := leftInduction.binary (breakless_of_some isPriority) rightInduction priority
      rw [← table_priority_of_some isPriority, left_parens_of_outer leftHas.priority_eq,
        right_parens_of_outer rightHas.priority_eq] at whole
      rw [← table_priority_of_some isPriority]
      exact whole
  | @unary operation operand shape breakless has induction =>
      have whole := induction.unary breakless
      rw [has.prefix_parens_eq] at whole
      exact whole
  | derived has induction => exact induction.derived _ has.printable

end HasOperators

/-- A unary expression over a tree of operators reads back as what it is, and as nothing else, if
and only if no prefix operator in it stands in front of a product or a cast. If only its own does,
it reads as the product or cast, with the operator at the first factor. -/
theorem unary_reads_back_iff {node : Node} {shape : Formula}
    (hasOperators : node.HasOperators shape) {operation : String}
    (breakless : '\n' ∉ operation.toList) (indent : Amount) (width : Int) :
    ∃ tokens, (Node.unary (.text operation) node).Prints indent width tokens ∧
      ((∀ formula, Parses tablePriority tokens formula ↔ formula = .prefixed operation shape) ↔
        (Formula.prefixed operation shape).Guarded) ∧
      (shape.Guarded → ¬(Formula.prefixed operation shape).Guarded →
        ∀ formula, Parses tablePriority tokens formula ↔ formula = shape.signed operation) := by
  have whole : (Node.unary (.text operation) node).HasOperators (.prefixed operation shape) :=
    .unary breakless hasOperators
  refine ⟨_, (whole.spelled indent).prints whole.printable width, ⟨?_, ?_⟩, ?_⟩
  · intro back
    exact Formula.guarded_of_parses whole.leaves ((back _).mpr rfl)
  · intro guarded
    exact Grammar.parses_iff (guarded.reads whole.leaves)
  · intro guarded unguarded
    have reads := guarded.signed_reads hasOperators.leaves operation
    rw [Formula.tokens, Formula.prefix_parens_eq_false guarded unguarded]
    exact Grammar.parses_iff reads

/-- The negative of a sum with a negative in it, on a page without any room. -/
theorem negative_sum_reads_back :
    let named (text : String) := Node.reference (.text text) (.scalar .none) (.scalar .none)
    let leaf (text : String) := Formula.leaf ⟨.nameVariable, text⟩
    let sum := Node.binary (.text "+") (named "a") (.unary (.text "-") (named "b")) 1
    let shape := Formula.binary "+" (leaf "a") (.prefixed "-" (leaf "b"))
    sum.HasOperators shape ∧ '\n' ∉ "-".toList ∧
      ∃ tokens, (Node.unary (.text "-") sum).Prints (.int 4) 0 tokens ∧
        ∀ formula, Parses tablePriority tokens formula ↔ formula = .prefixed "-" shape := by
  intro named leaf sum shape
  have isName (text : String) (breakless : '\n' ∉ text.toList) :
      (named text).HasOperators (leaf text) := .leaf (.reference breakless rfl)
  have hasOperators : sum.HasOperators shape :=
    .binary (by decide) (isName "a" (by decide)) (.unary (by decide) (isName "b" (by decide)))
  have guarded : (Formula.prefixed "-" shape).Guarded := by
    refine ⟨fun inner isOuter => ?_, trivial, by simp [leaf, Formula.outer, Formula.level], trivial⟩
    cases isOuter
    decide
  obtain ⟨tokens, prints, back, -⟩ :=
    unary_reads_back_iff hasOperators (by decide : '\n' ∉ "-".toList) (.int 4) 0
  exact ⟨hasOperators, by decide, tokens, prints, back.mpr guarded⟩

/-- The negative of a product is printed as the product of a negative. -/
theorem negative_product_reads_as_product :
    let named (text : String) := Node.reference (.text text) (.scalar .none) (.scalar .none)
    let leaf (text : String) := Formula.leaf ⟨.nameVariable, text⟩
    let product := Node.binary (.text "*") (named "a") (named "b") 2
    let shape := Formula.binary "*" (leaf "a") (leaf "b")
    let tokens := [.operator "-", ⟨.nameVariable, "a"⟩, .operator "*", ⟨.nameVariable, "b"⟩]
    product.HasOperators shape ∧ (Node.unary (.text "-") product).Prints (.int 4) 79 tokens ∧
      Parses tablePriority tokens (.binary "*" (.prefixed "-" (leaf "a")) (leaf "b")) ∧
      ¬Parses tablePriority tokens (.prefixed "-" shape) := by
  intro named leaf product shape tokens
  have isName (text : String) (breakless : '\n' ∉ text.toList) :
      (named text).HasOperators (leaf text) := .leaf (.reference breakless rfl)
  have hasOperators : product.HasOperators shape :=
    .binary (by decide) (isName "a" (by decide)) (isName "b" (by decide))
  have variableReads (text : String) :
      Reads tablePriority none [⟨.nameVariable, text⟩] (leaf text) := .leaf ⟨nofun, nofun⟩
  have reads : Reads tablePriority (some (tablePriority "*")) tokens
      (.binary "*" (.prefixed "-" (leaf "a")) (leaf "b")) :=
    .binary (.prefixed (variableReads "a")) (variableReads "b") (by simp) (by simp)
  have whole : (Node.unary (.text "-") product).HasOperators (.prefixed "-" shape) :=
    .unary (by decide) hasOperators
  refine ⟨hasOperators, (whole.spelled (.int 4)).prints whole.printable 79, ⟨_, reads⟩, ?_⟩
  intro parses
  cases (Grammar.parses_iff reads _).mp parses

end Node

end KotlinLayout
