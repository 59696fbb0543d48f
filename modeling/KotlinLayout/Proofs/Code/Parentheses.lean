import KotlinLayout.Proofs.Code.Unary

/-!
The parentheses of a printed tree of operators are all needed. Without a pair of them the tokens
still have a reading, but there are too few left for it to be the same tree.
-/

namespace KotlinLayout

namespace Lexeme

/-- How much deeper in parentheses the tokens after this one are. -/
def nesting (lexeme : Lexeme) : Int :=
  if lexeme = leftParen then 1 else if lexeme = rightParen then -1 else 0

@[simp] theorem nesting_left_paren : leftParen.nesting = 1 := rfl

@[simp] theorem nesting_right_paren : rightParen.nesting = -1 := rfl

@[simp] theorem nesting_operator (text : String) : (operator text).nesting = 0 := by
  rw [nesting, if_neg (operator_ne_left_paren text), if_neg (operator_ne_right_paren text)]

theorem IsLeaf.ne_left_paren {lexeme : Lexeme} (isLeaf : lexeme.IsLeaf) :
    lexeme ≠ leftParen := by
  rintro rfl
  exact isLeaf.2 rfl

theorem IsLeaf.nesting_eq {lexeme : Lexeme} (isLeaf : lexeme.IsLeaf) : lexeme.nesting = 0 := by
  have noRight : lexeme ≠ rightParen := by
    rintro rfl
    exact isLeaf.2 rfl
  rw [nesting, if_neg isLeaf.ne_left_paren, if_neg noRight]

end Lexeme

/-- The parentheses that tokens open and do not close. -/
def depth : List Lexeme → Int
  | [] => 0
  | lexeme :: rest => lexeme.nesting + depth rest

@[simp] theorem depth_nil : depth [] = 0 := rfl

@[simp] theorem depth_cons (lexeme : Lexeme) (tokens : List Lexeme) :
    depth (lexeme :: tokens) = lexeme.nesting + depth tokens := rfl

@[simp] theorem depth_append (front back : List Lexeme) :
    depth (front ++ back) = depth front + depth back := by
  induction front with
  | nil => simp
  | cons lexeme front induction =>
      rw [List.cons_append, depth_cons, depth_cons, induction, Int.add_assoc]

structure Balanced (tokens : List Lexeme) : Prop where
  closed : depth tokens = 0
  opened : ∀ front back, tokens = front ++ back → 0 ≤ depth front

namespace Balanced

variable {tokens front back : List Lexeme}

theorem nil : Balanced [] := by
  refine ⟨rfl, fun before after same => ?_⟩
  rw [(List.append_eq_nil_iff.mp same.symm).1]
  exact Int.le_refl 0

theorem append (first : Balanced front) (second : Balanced back) : Balanced (front ++ back) := by
  refine ⟨by rw [depth_append, first.closed, second.closed, Int.add_zero], fun before after same =>
    ?_⟩
  rcases List.append_eq_append_iff.mp same with ⟨more, rfl, isBack⟩ | ⟨more, isFront, -⟩
  · rw [depth_append, first.closed, Int.zero_add]
    exact second.opened more after isBack
  · exact first.opened before more isFront

theorem singleton {lexeme : Lexeme} (flat : lexeme.nesting = 0) : Balanced [lexeme] := by
  refine ⟨by simp [flat], fun before after same => ?_⟩
  cases before with
  | nil => exact Int.le_refl 0
  | cons first others =>
      obtain ⟨rfl, nothing⟩ := List.cons_eq_cons.mp same
      obtain ⟨rfl, -⟩ := List.append_eq_nil_iff.mp nothing.symm
      simp [flat]

theorem parenthesized (balanced : Balanced tokens) :
    Balanced (.leftParen :: (tokens ++ [.rightParen])) := by
  refine ⟨by simp [balanced.closed], fun before after same => ?_⟩
  cases before with
  | nil => exact Int.le_refl 0
  | cons first others =>
      obtain ⟨rfl, inner⟩ := List.cons_eq_cons.mp same
      have within : ∀ others after, tokens ++ [Lexeme.rightParen] = others ++ after →
          -1 ≤ depth others := by
        intro others after same
        rcases List.append_eq_append_iff.mp same with ⟨more, rfl, isEnd⟩ | ⟨more, isTokens, -⟩
        · cases more with
          | nil => simp [balanced.closed]
          | cons last more =>
              obtain ⟨rfl, nothing⟩ := List.cons_eq_cons.mp isEnd
              obtain ⟨rfl, -⟩ := List.append_eq_nil_iff.mp nothing.symm
              simp [balanced.closed]
        · have := balanced.opened others more isTokens
          omega
      have above := within others after inner
      rw [depth_cons, Lexeme.nesting_left_paren]
      omega

theorem not_unclosed {inside : List Lexeme}
    (balanced : Balanced (front ++ .leftParen :: inside))
    (opened : 0 ≤ depth inside) : False := by
  have before := balanced.opened front _ rfl
  have whole := balanced.closed
  rw [depth_append, depth_cons, Lexeme.nesting_left_paren] at whole
  omega

theorem not_closed {inside after : List Lexeme}
    (balanced : Balanced (inside ++ .rightParen :: after)) (closed : depth inside = 0) : False := by
  have within := balanced.opened (inside ++ [.rightParen]) after (by simp)
  rw [depth_append, depth_cons, closed] at within
  simp at within

end Balanced

variable {priority : String → Int} {level : Option Int} {tokens : List Lexeme} {formula : Formula}

theorem Reads.balanced (reads : Reads priority level tokens formula) : Balanced tokens := by
  induction reads with
  | leaf isLeaf => exact .singleton isLeaf.nesting_eq
  | parenthesized _ induction => exact induction.parenthesized
  | @prefixed operator _ _ _ induction =>
      exact (Balanced.singleton (Lexeme.nesting_operator operator)).append induction
  | @binary operator _ _ _ _ _ _ _ _ _ _ left right =>
      exact left.append ((Balanced.singleton (Lexeme.nesting_operator operator)).append right)

theorem Reads.prepend (reads : Reads priority level tokens formula) (operator : String) :
    ∃ outer after, (∀ bound, (∀ inner ∈ level, bound ≤ inner) → ∀ inner ∈ outer, bound ≤ inner) ∧
      Reads priority outer (.operator operator :: tokens) after := by
  induction reads with
  | leaf isLeaf => exact ⟨none, _, fun _ _ => by simp, .prefixed (.leaf isLeaf)⟩
  | parenthesized reads _ => exact ⟨none, _, fun _ _ => by simp, .prefixed (.parenthesized reads)⟩
  | prefixed reads _ => exact ⟨none, _, fun _ _ => by simp, .prefixed (.prefixed reads)⟩
  | binary _ rightReads loose tight induction _ =>
      obtain ⟨outer, after, keeps, reads⟩ := induction
      exact ⟨_, _, fun _ below => below, .binary reads rightReads (keeps _ loose) tight⟩

/-- A binary operator takes a tight right operand and as much on its left as its priority allows. -/
theorem Reads.attach {rightLevel : Option Int} {rightTokens : List Lexeme} {right : Formula}
    (reads : Reads priority level tokens formula) (operator : String)
    (rightReads : Reads priority rightLevel rightTokens right)
    (tight : ∀ inner ∈ rightLevel, priority operator < inner) :
    ∃ outer whole, (∀ bound, bound < priority operator → (∀ inner ∈ level, bound < inner) →
        bound < outer) ∧
      Reads priority (some outer) (tokens ++ .operator operator :: rightTokens) whole := by
  have single {tokens : List Lexeme} {formula : Formula}
      (reads : Reads priority none tokens formula) :
      ∃ outer whole, (∀ bound, bound < priority operator →
          (∀ inner ∈ (none : Option Int), bound < inner) → bound < outer) ∧
        Reads priority (some outer) (tokens ++ .operator operator :: rightTokens) whole :=
    ⟨_, _, fun _ below _ => below, .binary reads rightReads (by simp) tight⟩
  induction reads with
  | leaf isLeaf => exact single (.leaf isLeaf)
  | parenthesized reads _ => exact single (.parenthesized reads)
  | prefixed reads _ => exact single (.prefixed reads)
  | @binary inner _ _ _ _ left _ leftReads reads loose innerTight _ induction =>
      by_cases takesAll : priority operator ≤ priority inner
      · exact ⟨priority operator, _, fun _ below _ => below,
          .binary (.binary leftReads reads loose innerTight) rightReads (by simpa using takesAll)
            tight⟩
      · obtain ⟨outer, whole, above, reads⟩ := induction
        have below : priority inner < priority operator := by omega
        have outside : priority inner < outer := above _ below innerTight
        refine ⟨priority inner, .binary inner left whole, fun _ _ inside => inside _ rfl, ?_⟩
        rw [List.append_assoc, List.cons_append]
        exact .binary leftReads reads loose (by simpa using outside)

theorem Reads.join {rightLevel : Option Int} {rightTokens : List Lexeme} {right : Formula}
    (reads : Reads priority level tokens formula) (operator : String)
    (rightReads : Reads priority rightLevel rightTokens right) :
    ∃ outer whole,
      Reads priority (some outer) (tokens ++ .operator operator :: rightTokens) whole := by
  have single {rightTokens : List Lexeme} {right : Formula}
      (rightReads : Reads priority none rightTokens right) :
      ∃ outer whole,
        Reads priority (some outer) (tokens ++ .operator operator :: rightTokens) whole := by
    obtain ⟨outer, whole, -, joined⟩ := reads.attach operator rightReads (by simp)
    exact ⟨outer, whole, joined⟩
  induction rightReads with
  | leaf isLeaf => exact single (.leaf isLeaf)
  | parenthesized reads _ => exact single (.parenthesized reads)
  | prefixed reads _ => exact single (.prefixed reads)
  | @binary inner _ _ _ _ _ _ _ innerReads _ tight induction _ =>
      obtain ⟨outer, whole, joined⟩ := induction
      obtain ⟨outermost, all, -, attached⟩ := joined.attach inner innerReads tight
      rw [List.append_assoc, List.cons_append] at attached
      exact ⟨outermost, all, attached⟩

section

variable {before inside after left right : List Lexeme}

/-- A pair in parentheses is the pair of these parentheses, or inside of them. -/
theorem pair_of_parenthesized (outside : Balanced tokens) (balanced : Balanced inside)
    (split : Lexeme.leftParen :: (tokens ++ [.rightParen]) =
      before ++ .leftParen :: (inside ++ .rightParen :: after)) :
    before = [] ∧ inside = tokens ∧ after = [] ∨
      ∃ front back, before = .leftParen :: front ∧ after = back ++ [.rightParen] ∧
        tokens = front ++ .leftParen :: (inside ++ .rightParen :: back) := by
  cases before with
  | nil =>
      have inner : tokens ++ [Lexeme.rightParen] = inside ++ .rightParen :: after :=
        (List.cons_eq_cons.mp split).2
      rcases List.append_eq_append_iff.mp inner with ⟨more, isInside, isEnd⟩ | ⟨more, isTokens, -⟩
      · cases more with
        | nil =>
            rw [List.append_nil] at isInside
            exact .inl ⟨rfl, isInside, (List.cons_eq_cons.mp isEnd).2.symm⟩
        | cons last more => simp at isEnd
      · cases more with
        | nil =>
            rw [List.append_nil] at isTokens
            have isEnd : [Lexeme.rightParen] = .rightParen :: after :=
              List.append_cancel_left (isTokens ▸ inner)
            exact .inl ⟨rfl, isTokens.symm, (List.cons_eq_cons.mp isEnd).2.symm⟩
        | cons first more =>
            rw [isTokens, List.append_assoc, List.append_cancel_left_eq, List.cons_append,
              List.cons_eq_cons] at inner
            obtain ⟨rfl, -⟩ := inner
            exact (Balanced.not_closed (isTokens ▸ outside) balanced.closed).elim
  | cons first front =>
      obtain ⟨rfl, inner⟩ := List.cons_eq_cons.mp split
      rcases List.eq_nil_or_concat after with rfl | ⟨back, last, rfl⟩
      · have ends : tokens ++ [Lexeme.rightParen] =
            (front ++ .leftParen :: inside) ++ [.rightParen] := by simpa using inner
        have same := List.append_cancel_right ends
        exact (Balanced.not_unclosed (same ▸ outside) (Int.le_of_eq balanced.closed.symm)).elim
      · have ends : tokens ++ [Lexeme.rightParen] =
            (front ++ .leftParen :: (inside ++ .rightParen :: back)) ++ [last] := by
          simpa using inner
        obtain ⟨same, isLast⟩ := List.append_inj' ends rfl
        cases isLast
        exact .inr ⟨front, back, rfl, List.concat_eq_append, same⟩

/-- A pair around or beside an operator is on one side of it. -/
theorem pair_of_binary (operator : String) (outside : Balanced left) (balanced : Balanced inside)
    (split : left ++ .operator operator :: right =
      before ++ .leftParen :: (inside ++ .rightParen :: after)) :
    (∃ back, left = before ++ .leftParen :: (inside ++ .rightParen :: back) ∧
        after = back ++ .operator operator :: right) ∨
      ∃ front, before = left ++ .operator operator :: front ∧
        right = front ++ .leftParen :: (inside ++ .rightParen :: after) := by
  rcases List.append_eq_append_iff.mp split with ⟨more, isBefore, isRight⟩ | ⟨more, isLeft, isRest⟩
  · cases more with
    | nil => exact absurd (List.cons_eq_cons.mp isRight).1 (Lexeme.operator_ne_left_paren operator)
    | cons first front =>
        rw [List.cons_append, List.cons_eq_cons] at isRight
        obtain ⟨rfl, isRight⟩ := isRight
        exact .inr ⟨front, isBefore, isRight⟩
  · cases more with
    | nil =>
        exact absurd (List.cons_eq_cons.mp isRest).1.symm (Lexeme.operator_ne_left_paren operator)
    | cons first more =>
        obtain ⟨rfl, isInside⟩ := List.cons_eq_cons.mp isRest
        rcases List.append_eq_append_iff.mp isInside with ⟨back, rfl, isAfter⟩ | ⟨back, isMore, -⟩
        · cases back with
          | nil =>
              exact absurd (List.cons_eq_cons.mp isAfter).1.symm
                (Lexeme.operator_ne_right_paren operator)
          | cons last back =>
              rw [List.cons_append, List.cons_eq_cons] at isAfter
              obtain ⟨rfl, isAfter⟩ := isAfter
              exact .inl ⟨back, isLeft, isAfter⟩
        · have opened := balanced.opened more back isMore
          exact (Balanced.not_unclosed (isLeft ▸ outside) opened).elim

end

/-- Tokens that have a reading have one without a pair of their parentheses, too. -/
theorem Reads.without_pair {before inside after : List Lexeme}
    (reads : Reads priority level
      (before ++ .leftParen :: (inside ++ .rightParen :: after)) formula)
    (balanced : Balanced inside) :
    ∃ outer other, Reads priority outer (before ++ inside ++ after) other := by
  generalize split : before ++ .leftParen :: (inside ++ .rightParen :: after) = tokens at reads
  induction reads generalizing before after with
  | leaf isLeaf =>
      have member := List.mem_singleton.mp (split ▸ List.mem_append_right before List.mem_cons_self)
      exact absurd member.symm isLeaf.ne_left_paren
  | @parenthesized level tokens formula reads induction =>
      rcases pair_of_parenthesized reads.balanced balanced split.symm with
        ⟨rfl, rfl, rfl⟩ | ⟨front, back, rfl, rfl, rfl⟩
      · exact ⟨level, formula, by simpa using reads⟩
      · obtain ⟨outer, other, inner⟩ := induction rfl
        exact ⟨none, other, by simpa using inner.parenthesized⟩
  | @prefixed operator tokens operand reads induction =>
      rcases pair_of_binary operator .nil balanced split.symm with
        ⟨back, nothing, -⟩ | ⟨front, rfl, rfl⟩
      · simp at nothing
      · obtain ⟨outer, other, inner⟩ := induction rfl
        obtain ⟨outermost, after, -, whole⟩ := inner.prepend operator
        exact ⟨outermost, after, by simpa using whole⟩
  | @binary operator _ _ _ _ _ _ leftReads rightReads _ _ leftInduction rightInduction =>
      rcases pair_of_binary operator leftReads.balanced balanced split.symm with
        ⟨back, rfl, rfl⟩ | ⟨front, rfl, rfl⟩
      · obtain ⟨outer, other, inner⟩ := leftInduction rfl
        obtain ⟨outermost, whole, joined⟩ := inner.join operator rightReads
        exact ⟨_, whole, by simpa using joined⟩
      · obtain ⟨outer, other, inner⟩ := rightInduction rfl
        obtain ⟨outermost, whole, joined⟩ := leftReads.join operator inner
        exact ⟨_, whole, by simpa using joined⟩

/-- Without a pair of parentheses the printed tokens of a guarded formula have another reading. -/
theorem Formula.Guarded.without_pair (guarded : formula.Guarded) (leaves : formula.HasLeaves)
    {before inside after : List Lexeme}
    (split : formula.tokens = before ++ .leftParen :: (inside ++ .rightParen :: after))
    (balanced : Balanced inside) :
    ∃ other, other ≠ formula ∧
      ∀ read, Parses tablePriority (before ++ inside ++ after) read ↔ read = other := by
  have reads := guarded.reads leaves
  rw [split] at reads
  obtain ⟨level, other, rest⟩ := reads.without_pair balanced
  refine ⟨other, ?_, Grammar.parses_iff rest⟩
  rintro rfl
  have needed := required_le_count rest
  have printed := (guarded_of_count leaves).1
  have closing : (Lexeme.rightParen :: after).count .leftParen = after.count .leftParen :=
    List.count_cons_of_ne (by decide)
  rw [split] at printed
  simp only [List.count_append, List.count_cons_self, closing] at needed printed
  omega

theorem Reads.leaves (reads : Reads priority level tokens formula) : formula.HasLeaves := by
  induction reads with
  | leaf isLeaf => exact isLeaf
  | parenthesized _ induction | prefixed _ induction => exact induction
  | binary _ _ _ _ left right => exact ⟨left, right⟩

namespace Node

variable {node : Node} {shape : Formula}

namespace HasShape

theorem leaves (hasShape : node.HasShape priority shape) : shape.HasLeaves := by
  obtain ⟨tokens, -, reads⟩ := hasShape.spelled (.int 0)
  exact reads.leaves

/-- Without prefix operators there is nothing to guard. -/
theorem guarded (hasShape : node.HasShape priority shape) : shape.Guarded := by
  induction hasShape with
  | binary _ _ _ left right => exact ⟨left, right⟩
  | derived _ induction => exact induction
  | _ => trivial

theorem spelled_tokens (hasShape : node.HasShape tablePriority shape) (indent : Amount) :
    node.Spelled indent shape.tokens := by
  have leaf {node : Node} {lexeme : Lexeme}
      (hasShape : node.HasShape tablePriority (.leaf lexeme)) : node.Spelled indent [lexeme] :=
    (hasShape.leaf_spelled indent).1
  induction hasShape with
  | reference breakless absent => exact leaf (.reference breakless absent)
  | field breakless => exact leaf (.field breakless)
  | quoted isSet shown breakless => exact leaf (.quoted isSet shown breakless)
  | keyword isSet isKeyword => exact leaf (.keyword isSet isKeyword)
  | number isSet noKeyword shown breakless => exact leaf (.number isSet noKeyword shown breakless)
  | derived base induction => exact induction.derived _ base.printable
  | @binary operation left right leftShape rightShape breakless leftHas rightHas leftInduction
      rightInduction =>
      have whole := leftInduction.binary breakless rightInduction (tablePriority operation)
      rw [left_parens_of_outer leftHas.priority_eq, right_parens_of_outer rightHas.priority_eq]
        at whole
      exact whole

end HasShape

/-- The parentheses of a printed tree of operators are needed: the tokens read as the tree, and
without any pair of matching parentheses they read as a different one. -/
theorem parentheses_needed (hasShape : node.HasShape tablePriority shape) (indent : Amount)
    (width : Int) :
    node.Prints indent width shape.tokens ∧
      (∀ formula, Parses tablePriority shape.tokens formula ↔ formula = shape) ∧
      ∀ before inside after,
        shape.tokens = before ++ .leftParen :: (inside ++ .rightParen :: after) →
          Balanced inside →
            ∃ other, other ≠ shape ∧
              ∀ formula, Parses tablePriority (before ++ inside ++ after) formula ↔
                formula = other :=
  ⟨(hasShape.spelled_tokens indent).prints hasShape.printable width,
    Grammar.parses_iff (hasShape.guarded.reads hasShape.leaves),
    fun _ _ _ split balanced => hasShape.guarded.without_pair hasShape.leaves split balanced⟩

theorem parentheses_of_difference_needed :
    let named (text : String) := Node.reference (.text text) (.scalar .none) (.scalar .none)
    let name (text : String) : Lexeme := ⟨.nameVariable, text⟩
    let right := Node.binary (.text "-") (named "b") (named "c") 1
    let shape := Formula.binary "-" (.leaf (name "a"))
      (.binary "-" (.leaf (name "b")) (.leaf (name "c")))
    let inside := [name "b", .operator "-", name "c"]
    (Node.binary (.text "-") (named "a") right 1).HasShape tablePriority shape ∧
      shape.tokens = [name "a", .operator "-"] ++ .leftParen :: (inside ++ .rightParen :: []) ∧
      Balanced inside ∧
      ∃ other, other ≠ shape ∧
        ∀ formula, Parses tablePriority ([name "a", .operator "-"] ++ inside ++ []) formula ↔
          formula = other := by
  intro named name right shape inside
  have isName (text : String) (breakless : '\n' ∉ text.toList) :
      (named text).HasShape tablePriority (.leaf (name text)) := .reference breakless rfl
  have rightShape : right.HasShape tablePriority
      (.binary "-" (.leaf (name "b")) (.leaf (name "c"))) :=
    .binary (by decide) (isName "b" (by decide)) (isName "c" (by decide))
  have hasShape : (Node.binary (.text "-") (named "a") right 1).HasShape tablePriority shape :=
    .binary (by decide) (isName "a" (by decide)) rightShape
  have split : shape.tokens =
      [name "a", .operator "-"] ++ .leftParen :: (inside ++ .rightParen :: []) := by decide
  have balanced : Balanced inside :=
    (Balanced.singleton (by decide)).append ((Balanced.singleton (by decide)).append
      (.singleton (by decide)))
  exact ⟨hasShape, split, balanced,
    (parentheses_needed hasShape (.int 4) 79).2.2 _ _ _ split balanced⟩

end Node

end KotlinLayout
