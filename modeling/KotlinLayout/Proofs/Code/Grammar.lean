import KotlinLayout.Proofs.Code.Reading

/-!
A grammar of operators for token sequences: a higher priority binds tighter, equal priorities
associate to the left, and parentheses override. Prefix operators bind tighter than all others.

With its leaves taken for variables it is a part of the grammar of whole expressions, so it is
unambiguous like that.
-/

namespace KotlinLayout

def Token.mark (token : Token) : Char := Char.ofNat (all.idxOf token)

theorem Token.mark_injective {token other : Token} (same : token.mark = other.mark) :
    token = other := by
  cases token <;> cases other <;> first | rfl | exact absurd same (by decide)

namespace Lexeme

def IsLeaf (lexeme : Lexeme) : Prop := lexeme.token ≠ .operator ∧ lexeme.token ≠ .punctuation

instance (lexeme : Lexeme) : Decidable lexeme.IsLeaf := inferInstanceAs (Decidable (_ ∧ _))

theorem operator_ne_left_paren (text : String) : operator text ≠ leftParen := by
  intro same
  cases congrArg token same

theorem operator_ne_right_paren (text : String) : operator text ≠ rightParen := by
  intro same
  cases congrArg token same

/-- A variable with a name that tells which lexeme it stands for. -/
def asVariable (lexeme : Lexeme) : Lexeme :=
  ⟨.nameVariable, String.ofList (lexeme.token.mark :: lexeme.text.toList)⟩

theorem as_variable_injective {lexeme other : Lexeme}
    (same : lexeme.asVariable = other.asVariable) : lexeme = other := by
  rcases lexeme with ⟨token, text⟩
  rcases other with ⟨otherToken, otherText⟩
  simp only [asVariable, mk.injEq, true_and, String.ofList_inj, List.cons.injEq,
    String.toList_inj] at same
  rw [Token.mark_injective same.1, same.2]

def inExpression (lexeme : Lexeme) : Lexeme :=
  if lexeme.IsLeaf then lexeme.asVariable else lexeme

end Lexeme

inductive Formula where
  | leaf (lexeme : Lexeme)
  | binary (operator : String) (left right : Formula)
  | prefixed (operator : String) (operand : Formula)

/-- The readings of token sequences. The level is the priority of the outermost binary operator,
or absent for what stands together more tightly than any of them. -/
inductive Reads (priority : String → Int) : Option Int → List Lexeme → Formula → Prop where
  | leaf {lexeme : Lexeme} : lexeme.IsLeaf → Reads priority none [lexeme] (.leaf lexeme)
  | parenthesized {level : Option Int} {tokens : List Lexeme} {formula : Formula} :
      Reads priority level tokens formula →
        Reads priority none (.leftParen :: (tokens ++ [.rightParen])) formula
  | prefixed {operator : String} {tokens : List Lexeme} {operand : Formula} :
      Reads priority none tokens operand →
        Reads priority none (.operator operator :: tokens) (.prefixed operator operand)
  | binary {operator : String} {leftLevel rightLevel : Option Int}
      {leftTokens rightTokens : List Lexeme} {left right : Formula} :
      Reads priority leftLevel leftTokens left → Reads priority rightLevel rightTokens right →
        (∀ inner ∈ leftLevel, priority operator ≤ inner) →
          (∀ inner ∈ rightLevel, priority operator < inner) →
            Reads priority (some (priority operator))
              (leftTokens ++ .operator operator :: rightTokens) (.binary operator left right)

def Parses (priority : String → Int) (tokens : List Lexeme) (formula : Formula) : Prop :=
  ∃ level, Reads priority level tokens formula

namespace Grammar

def inExpression : Formula → Expression
  | .leaf lexeme => .leaf lexeme.asVariable
  | .binary operator left right => .binary operator (inExpression left) (inExpression right)
  | .prefixed operator operand => .prefixed (.operator operator) (inExpression operand)

theorem in_expression_injective {formula other : Formula}
    (same : inExpression formula = inExpression other) : formula = other := by
  induction formula generalizing other with
  | leaf lexeme =>
      cases other with
      | leaf _ => rw [Lexeme.as_variable_injective (Expression.leaf.inj same)]
      | _ => cases same
  | binary operator left right leftInduction rightInduction =>
      cases other with
      | binary _ _ _ =>
          obtain ⟨sameOperator, sameLeft, sameRight⟩ := Expression.binary.inj same
          rw [sameOperator, leftInduction sameLeft, rightInduction sameRight]
      | _ => cases same
  | prefixed operator operand induction =>
      cases other with
      | prefixed _ _ =>
          obtain ⟨sameOperator, sameOperand⟩ := Expression.prefixed.inj same
          rw [(Lexeme.mk.inj sameOperator).2, induction sameOperand]
      | _ => cases same

/-- What stands together more tightly than any binary operator is an operand. -/
def SameLevel : Option Int → Expression.Level → Prop
  | none, inner => inner.IsOperand
  | some outer, inner => inner = .operator outer

variable {priority : String → Int} {level : Option Int} {inner : Expression.Level} {bound : Int}

theorem SameLevel.at_least (same : SameLevel level inner) (loose : ∀ outer ∈ level, bound ≤ outer) :
    inner.AtLeast bound := by
  cases level with
  | none => cases inner <;> trivial
  | some outer =>
      cases same
      exact loose outer rfl

theorem SameLevel.above (same : SameLevel level inner) (tight : ∀ outer ∈ level, bound < outer) :
    inner.Above bound := by
  cases level with
  | none => cases inner <;> trivial
  | some outer =>
      cases same
      exact tight outer rfl

theorem reads_in_expression {tokens : List Lexeme} {formula : Formula}
    (reads : Reads priority level tokens formula) :
    ∃ inner, SameLevel level inner ∧
      Expression.Reads priority inner (tokens.map Lexeme.inExpression) (inExpression formula) := by
  induction reads with
  | leaf isLeaf =>
      refine ⟨.unit, trivial, ?_⟩
      rw [List.map_singleton, Lexeme.inExpression, if_pos isLeaf]
      exact .leaf rfl
  | parenthesized _ induction =>
      obtain ⟨inner, -, reads⟩ := induction
      refine ⟨.unit, trivial, ?_⟩
      rw [List.map_cons, List.map_append]
      exact .parenthesized reads
  | prefixed _ induction =>
      obtain ⟨inner, isOperand, reads⟩ := induction
      exact ⟨.prefixed, trivial, .prefixed rfl isOperand reads⟩
  | binary _ _ loose tight leftInduction rightInduction =>
      obtain ⟨leftInner, leftSame, leftReads⟩ := leftInduction
      obtain ⟨rightInner, rightSame, rightReads⟩ := rightInduction
      refine ⟨_, rfl, ?_⟩
      rw [List.map_append, List.map_cons]
      exact .binary leftReads rightReads (leftSame.at_least loose) (rightSame.above tight)

/-- There is at most one reading of a token sequence. -/
theorem parses_unambiguous {tokens : List Lexeme} {formula other : Formula}
    (first : Parses priority tokens formula) (second : Parses priority tokens other) :
    formula = other := by
  obtain ⟨level, reads⟩ := first
  obtain ⟨otherLevel, otherReads⟩ := second
  obtain ⟨inner, -, whole⟩ := reads_in_expression reads
  obtain ⟨otherInner, -, otherWhole⟩ := reads_in_expression otherReads
  exact in_expression_injective
    (Expression.parses_unambiguous ⟨inner, whole⟩ ⟨otherInner, otherWhole⟩)

theorem parses_iff {level : Option Int} {tokens : List Lexeme} {formula : Formula}
    (reads : Reads priority level tokens formula) (other : Formula) :
    Parses priority tokens other ↔ other = formula := by
  constructor
  · intro parses
    exact parses_unambiguous parses ⟨level, reads⟩
  · rintro rfl
    exact ⟨level, reads⟩

end Grammar

end KotlinLayout
