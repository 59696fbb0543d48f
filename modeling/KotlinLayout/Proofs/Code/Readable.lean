import KotlinLayout.Proofs.Code.Reading

/-!
Token sequences that have a reading, and how to make longer ones of them. What comes behind goes to
the last operand, a prefix operator in front to the first one, and a binary operator between two
sequences takes as much on both sides as its priority allows.
-/

namespace KotlinLayout.Expression

variable {priority : String → Int} {level : Level} {tokens : List Lexeme} {value : Expression}

/-- Prefix and binary operators outside of parentheses; the rest is a unit. -/
@[elab_as_elim]
theorem Reads.spine {motive : ∀ level tokens value, Reads priority level tokens value → Prop}
    (unit : ∀ {tokens value} (reads : Reads priority .unit tokens value),
      motive .unit tokens value reads)
    (prefixed : ∀ {operator level tokens operand} (isPrefix : operator.isPrefix = true)
      (isOperand : level.IsOperand) (reads : Reads priority level tokens operand),
      motive level tokens operand reads →
        motive .prefixed (operator :: tokens) (.prefixed operator operand)
          (.prefixed isPrefix isOperand reads))
    (binary : ∀ {operator leftLevel rightLevel leftTokens rightTokens left right}
      (leftReads : Reads priority leftLevel leftTokens left)
      (rightReads : Reads priority rightLevel rightTokens right)
      (loose : leftLevel.AtLeast (priority operator))
      (tight : rightLevel.Above (priority operator)),
      motive leftLevel leftTokens left leftReads → motive rightLevel rightTokens right rightReads →
        motive (.operator (priority operator)) (leftTokens ++ .operator operator :: rightTokens)
          (.binary operator left right) (.binary leftReads rightReads loose tight))
    (reads : Reads priority level tokens value) : motive level tokens value reads := by
  induction reads with
  | leaf isValue => exact unit (.leaf isValue)
  | parenthesized reads _ => exact unit (.parenthesized reads)
  | call arguments _ => exact unit (.call arguments)
  | member receiver arguments _ _ => exact unit (.member receiver arguments)
  | element array index _ _ => exact unit (.element array index)
  | prefixed isPrefix isOperand reads induction => exact prefixed isPrefix isOperand reads induction
  | binary leftReads rightReads loose tight leftInduction rightInduction =>
      exact binary leftReads rightReads loose tight leftInduction rightInduction

/-- The second expression is the first with a form put around its last operand. -/
inductive OnLast (form : Expression → Expression) : Expression → Expression → Prop where
  | here {value : Expression} : OnLast form value (form value)
  | prefixed {operator : Lexeme} {operand after : Expression} :
      OnLast form operand after →
        OnLast form (.prefixed operator operand) (.prefixed operator after)
  | binary {operator : String} {left right after : Expression} :
      OnLast form right after →
        OnLast form (.binary operator left right) (.binary operator left after)

/-- What continues a unit continues the last operand. -/
theorem Reads.extend {form : Expression → Expression} {suffix : List Lexeme}
    (continues : ∀ {tokens : List Lexeme} {value : Expression},
      Reads priority .unit tokens value → Reads priority .unit (tokens ++ suffix) (form value))
    (reads : Reads priority level tokens value) :
    ∃ after, Reads priority level (tokens ++ suffix) after ∧ OnLast form value after := by
  induction reads using Reads.spine with
  | unit reads => exact ⟨_, continues reads, .here⟩
  | prefixed isPrefix isOperand _ induction =>
      obtain ⟨after, reads, onLast⟩ := induction
      exact ⟨_, .prefixed isPrefix isOperand reads, .prefixed onLast⟩
  | binary leftReads _ loose tight _ induction =>
      obtain ⟨after, reads, onLast⟩ := induction
      rw [List.append_assoc, List.cons_append]
      exact ⟨_, .binary leftReads reads loose tight, .binary onLast⟩

theorem Reads.prepend {operator : Lexeme} (isPrefix : operator.isPrefix = true)
    (reads : Reads priority level tokens value) :
    ∃ outer after, outer ≠ .unit ∧ (∀ bound, level.AtLeast bound → outer.AtLeast bound) ∧
      Reads priority outer (operator :: tokens) after := by
  have operand {level : Level} {tokens : List Lexeme} {value : Expression}
      (isOperand : level.IsOperand) (reads : Reads priority level tokens value) :
      ∃ outer after, outer ≠ .unit ∧ (∀ bound, level.AtLeast bound → outer.AtLeast bound) ∧
        Reads priority outer (operator :: tokens) after :=
    ⟨.prefixed, _, nofun, fun _ _ => trivial, .prefixed isPrefix isOperand reads⟩
  induction reads using Reads.spine with
  | unit reads => exact operand trivial reads
  | prefixed isInner isOperand reads _ =>
      exact operand trivial (.prefixed isInner isOperand reads)
  | @binary inner _ _ _ _ _ _ _ rightReads loose tight induction _ =>
      obtain ⟨outer, after, -, keeps, reads⟩ := induction
      exact ⟨.operator (priority inner), _, nofun, fun _ atLeast => atLeast,
        .binary reads rightReads (keeps _ loose) tight⟩

/-- A binary operator takes a tight right operand and as much on its left as its priority allows. -/
theorem Reads.attach {rightLevel : Level} {rightTokens : List Lexeme} {right : Expression}
    (reads : Reads priority level tokens value) (operator : String)
    (rightReads : Reads priority rightLevel rightTokens right)
    (tight : rightLevel.Above (priority operator)) :
    ∃ outer whole, (∀ bound, bound < priority operator → level.Above bound → bound < outer) ∧
      Reads priority (.operator outer) (tokens ++ .operator operator :: rightTokens) whole := by
  induction reads using Reads.spine with
  | unit reads =>
      exact ⟨priority operator, _, fun _ below _ => below, .binary reads rightReads trivial tight⟩
  | prefixed isPrefix isOperand reads _ =>
      exact ⟨priority operator, _, fun _ below _ => below,
        .binary (.prefixed isPrefix isOperand reads) rightReads trivial tight⟩
  | @binary inner leftLevel innerLevel leftTokens innerTokens left value leftReads reads loose
      innerTight _ induction =>
      by_cases takesAll : priority operator ≤ priority inner
      · exact ⟨priority operator, _, fun _ below _ => below,
          .binary (.binary leftReads reads loose innerTight) rightReads takesAll tight⟩
      · obtain ⟨outer, whole, above, reads⟩ := induction
        have below : priority inner < priority operator := by omega
        refine ⟨priority inner, .binary inner left whole, fun _ _ inside => inside, ?_⟩
        rw [List.append_assoc, List.cons_append]
        exact .binary leftReads reads loose (above _ below innerTight)

theorem Reads.join {rightLevel : Level} {rightTokens : List Lexeme} {right : Expression}
    (reads : Reads priority level tokens value) (operator : String)
    (rightReads : Reads priority rightLevel rightTokens right) :
    ∃ outer whole,
      Reads priority (.operator outer) (tokens ++ .operator operator :: rightTokens) whole := by
  induction rightReads using Reads.spine with
  | unit rightReads =>
      obtain ⟨outer, whole, -, joined⟩ := reads.attach operator rightReads trivial
      exact ⟨outer, whole, joined⟩
  | prefixed isPrefix isOperand rightReads _ =>
      obtain ⟨outer, whole, -, joined⟩ :=
        reads.attach operator (.prefixed isPrefix isOperand rightReads) trivial
      exact ⟨outer, whole, joined⟩
  | @binary inner leftLevel innerLevel leftTokens innerTokens left value leftReads innerReads loose
      tight induction _ =>
      obtain ⟨outer, whole, joined⟩ := induction
      obtain ⟨outermost, all, -, attached⟩ := joined.attach inner innerReads tight
      rw [List.append_assoc, List.cons_append] at attached
      exact ⟨outermost, all, attached⟩

end KotlinLayout.Expression
