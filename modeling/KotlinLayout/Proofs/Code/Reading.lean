import KotlinLayout.Item

/-!
A grammar of whole expressions for token sequences. Calls and indices behind a value bind tightest.
Prefix operators, `new` among them, bind tighter than binary operators, and these follow their
priorities and associate to the left. Parentheses override.

A parser with a stack finds every reading that the grammar allows, so there is at most one.
-/

namespace KotlinLayout

structure Lexeme where
  token : Token
  text : String
  deriving DecidableEq

namespace Lexeme

def operator (text : String) : Lexeme := ⟨.operator, text⟩

def leftParen : Lexeme := ⟨.punctuation, "("⟩

def rightParen : Lexeme := ⟨.punctuation, ")"⟩

def comma : Lexeme := ⟨.punctuation, ","⟩

def dot : Lexeme := ⟨.punctuation, "."⟩

def leftBracket : Lexeme := ⟨.punctuation, "["⟩

def rightBracket : Lexeme := ⟨.punctuation, "]"⟩

def function (name : String) : Lexeme := ⟨.nameFunction, name⟩

def new : Lexeme := ⟨.keyword, "new"⟩

def isValue (lexeme : Lexeme) : Bool :=
  match lexeme.token with
  | .nameVariable | .nameClass | .literalString | .keywordConstant | .number => true
  | _ => false

def isPrefix (lexeme : Lexeme) : Bool := lexeme.token = .operator || lexeme = new

/-- Whether the value in front goes on. -/
def isPostfix (lexeme : Lexeme) : Bool := lexeme = dot || lexeme = leftBracket

end Lexeme

inductive Expression where
  | leaf (lexeme : Lexeme)
  | binary (operator : String) (left right : Expression)
  | prefixed (operator : Lexeme) (operand : Expression)
  | element (array index : Expression)
  | call (function : String) (arguments : List Expression)
  | member (receiver : Expression) (function : String) (arguments : List Expression)

namespace Expression

/-- How tightly the tokens of an expression stand together. -/
inductive Level where
  /-- Nothing around it tears it apart. -/
  | unit
  | prefixed
  | operator (priority : Int)

namespace Level

def IsOperand : Level → Prop
  | .operator _ => False
  | _ => True

/-- No binary operator outside of parentheses is looser than this. -/
def AtLeast (priority : Int) : Level → Prop
  | .operator inner => priority ≤ inner
  | _ => True

def Above (priority : Int) : Level → Prop
  | .operator inner => priority < inner
  | _ => True

end Level

structure Span where
  level : Level
  tokens : List Lexeme
  value : Expression

def enclosed (arguments : List (List Lexeme)) : List Lexeme :=
  .leftParen :: ([Lexeme.comma].intercalate arguments ++ [.rightParen])

def subscript (tokens : List Lexeme) : List Lexeme := .leftBracket :: (tokens ++ [.rightBracket])

inductive Reads (priority : String → Int) : Level → List Lexeme → Expression → Prop where
  | leaf {lexeme : Lexeme} : lexeme.isValue = true → Reads priority .unit [lexeme] (.leaf lexeme)
  | parenthesized {level : Level} {tokens : List Lexeme} {value : Expression} :
      Reads priority level tokens value →
        Reads priority .unit (.leftParen :: (tokens ++ [.rightParen])) value
  | call {function : String} {arguments : List Span} :
      (∀ argument ∈ arguments, Reads priority argument.level argument.tokens argument.value) →
        Reads priority .unit (.function function :: enclosed (arguments.map Span.tokens))
          (.call function (arguments.map Span.value))
  | member {tokens : List Lexeme} {receiver : Expression} {function : String}
      {arguments : List Span} :
      Reads priority .unit tokens receiver →
        (∀ argument ∈ arguments, Reads priority argument.level argument.tokens argument.value) →
          Reads priority .unit
            (tokens ++ .dot :: .function function :: enclosed (arguments.map Span.tokens))
            (.member receiver function (arguments.map Span.value))
  | element {tokens indexTokens : List Lexeme} {array index : Expression} {level : Level} :
      Reads priority .unit tokens array → Reads priority level indexTokens index →
        Reads priority .unit (tokens ++ subscript indexTokens) (.element array index)
  | prefixed {operator : Lexeme} {level : Level} {tokens : List Lexeme} {operand : Expression} :
      operator.isPrefix = true → level.IsOperand → Reads priority level tokens operand →
        Reads priority .prefixed (operator :: tokens) (.prefixed operator operand)
  | binary {operator : String} {leftLevel rightLevel : Level}
      {leftTokens rightTokens : List Lexeme} {left right : Expression} :
      Reads priority leftLevel leftTokens left → Reads priority rightLevel rightTokens right →
        leftLevel.AtLeast (priority operator) → rightLevel.Above (priority operator) →
          Reads priority (.operator (priority operator))
            (leftTokens ++ .operator operator :: rightTokens) (.binary operator left right)

def Parses (priority : String → Int) (tokens : List Lexeme) (value : Expression) : Prop :=
  ∃ level, Reads priority level tokens value

/-- What the parser has begun and not finished. -/
inductive Frame where
  | paren
  | bracket (array : Expression)
  /-- The arguments so far, of a call that is made from all of them. -/
  | arguments (form : List Expression → Expression) (done : List Expression)
  | prefixed (operator : Lexeme)
  | left (operand : Expression) (operator : String)

variable (priority : String → Int)

/-- Finishes what was begun on top of the stack, as far as it binds tightly enough. -/
def settle (tight : Int → Bool) : List Frame → Expression → List Frame × Expression
  | .prefixed operator :: stack, value => settle tight stack (.prefixed operator value)
  | .left operand operator :: stack, value =>
      if tight (priority operator) then settle tight stack (.binary operator operand value)
      else (.left operand operator :: stack, value)
  | stack, value => (stack, value)

inductive State where
  | operand (stack : List Frame)
  | value (stack : List Frame) (value : Expression)
  /-- A function name is to come, of a call on the receiver. -/
  | dot (stack : List Frame) (receiver : Expression)
  /-- The arguments of a call are to come. -/
  | function (stack : List Frame) (form : List Expression → Expression)

/-- Takes one lexeme. Some sequences without a reading get through, but every reading is found. -/
def step : State → Lexeme → Option State
  | .operand stack, lexeme =>
      if lexeme.isValue then some (.value stack (.leaf lexeme))
      else if lexeme.isPrefix then some (.operand (.prefixed lexeme :: stack))
      else if lexeme = .leftParen then some (.operand (.paren :: stack))
      else if lexeme.token = .nameFunction then some (.function stack (.call lexeme.text))
      else
        -- Only arguments may end where an operand is expected: there are none.
        match stack with
        | .arguments form done :: stack => some (.value stack (form done))
        | _ => none
  | .value stack value, lexeme =>
      if lexeme = .leftBracket then some (.operand (.bracket value :: stack))
      else if lexeme = .dot then some (.dot stack value)
      else if lexeme.token = .operator then
        let settled := settle priority (priority lexeme.text ≤ ·) stack value
        some (.operand (.left settled.2 lexeme.text :: settled.1))
      else
        match settle priority (fun _ => true) stack value with
        | (.paren :: stack, value) => some (.value stack value)
        | (.bracket array :: stack, value) => some (.value stack (.element array value))
        | (.arguments form done :: stack, value) =>
            if lexeme = .comma then some (.operand (.arguments form (done ++ [value]) :: stack))
            else some (.value stack (form (done ++ [value])))
        | _ => none
  | .dot stack receiver, lexeme => some (.function stack (.member receiver lexeme.text))
  | .function stack form, _ => some (.operand (.arguments form [] :: stack))

def finish : State → Option Expression
  | .value stack value =>
      match settle priority (fun _ => true) stack value with
      | ([], value) => some value
      | _ => none
  | _ => none

def parse (state : State) : List Lexeme → Option Expression
  | [] => finish priority state
  | lexeme :: rest => (step priority state lexeme).bind fun next => parse next rest

/-- Something of the level may stand on the stack without being torn apart. -/
def Admits (level : Level) : List Frame → Prop
  | .prefixed _ :: _ => level.IsOperand
  | .left _ operator :: _ => level.Above (priority operator)
  | _ => True

def Level.EndsBefore (lexeme : Lexeme) : Level → Prop
  | .unit => True
  | .prefixed => lexeme.isPostfix = false
  | .operator inner =>
      lexeme.isPostfix = false ∧ (lexeme.token = .operator → priority lexeme.text ≤ inner)

def EndsAt (level : Level) (rest : List Lexeme) : Prop :=
  ∀ lexeme ∈ rest.head?, level.EndsBefore priority lexeme

/-- The parser takes the tokens for the value wherever they may stand. -/
def Parsed (level : Level) (tokens : List Lexeme) (value : Expression) : Prop :=
  ∀ stack rest, Admits priority level stack → EndsAt priority level rest →
    parse priority (.operand stack) (tokens ++ rest) = parse priority (.value stack value) rest

variable {priority}

theorem admits_unit (stack : List Frame) : Admits priority .unit stack := by
  match stack with
  | .prefixed _ :: _ | .left _ _ :: _ => trivial
  | [] | .paren :: _ | .bracket _ :: _ | .arguments _ _ :: _ => trivial

theorem ends_at_unit (rest : List Lexeme) : EndsAt priority .unit rest :=
  fun _ _ => trivial

theorem ends_before_of_no_postfix {level : Level} {lexeme : Lexeme}
    (noPostfix : lexeme.isPostfix = false) (noOperator : lexeme.token ≠ .operator) :
    level.EndsBefore priority lexeme := by
  cases level with
  | unit => trivial
  | prefixed => exact noPostfix
  | operator inner => exact ⟨noPostfix, fun isOperator => absurd isOperator noOperator⟩

/-- A comma or a closing bracket ends everything. -/
theorem ends_at_closing {level : Level} {lexeme : Lexeme}
    (closing : lexeme ∈ [Lexeme.comma, .rightParen, .rightBracket]) (rest : List Lexeme) :
    EndsAt priority level (lexeme :: rest) := by
  intro next isNext
  cases isNext
  have both : ∀ lexeme ∈ [Lexeme.comma, .rightParen, .rightBracket],
      lexeme.isPostfix = false ∧ lexeme.token ≠ .operator := by decide
  exact ends_before_of_no_postfix (both lexeme closing).1 (both lexeme closing).2

theorem settle_admitted {operator : String} {stack : List Frame}
    (admitted : Admits priority (.operator (priority operator)) stack) (value : Expression) :
    settle priority (priority operator ≤ ·) stack value = (stack, value) := by
  match stack with
  | [] | .paren :: _ | .bracket _ :: _ | .arguments _ _ :: _ => rfl
  | .prefixed _ :: _ => cases admitted
  | .left _ other :: _ =>
      have outer : priority other < priority operator := admitted
      have looser : ¬priority operator ≤ priority other := by omega
      simp [settle, looser]

theorem parse_step {state next : State} {lexeme : Lexeme}
    (taken : step priority state lexeme = some next) (rest : List Lexeme) :
    parse priority state (lexeme :: rest) = parse priority next rest := by
  rw [parse, taken, Option.bind_some]

theorem step_value {lexeme : Lexeme} (isValue : lexeme.isValue = true) (stack : List Frame) :
    step priority (.operand stack) lexeme = some (.value stack (.leaf lexeme)) :=
  if_pos isValue

theorem step_prefixed {operator : Lexeme} (isPrefix : operator.isPrefix = true)
    (stack : List Frame) :
    step priority (.operand stack) operator = some (.operand (.prefixed operator :: stack)) := by
  have noValue : ¬operator.isValue = true := by
    rw [Lexeme.isPrefix, Bool.or_eq_true, decide_eq_true_eq, decide_eq_true_eq] at isPrefix
    rcases isPrefix with isOperator | rfl
    · simp [Lexeme.isValue, isOperator]
    · decide
  exact (if_neg noValue).trans (if_pos isPrefix)

theorem step_operator {operator : String} {stack : List Frame}
    (admitted : Admits priority (.operator (priority operator)) stack) (value : Expression) :
    step priority (.value stack value) (.operator operator) =
      some (.operand (.left value operator :: stack)) := by
  have settled := settle_admitted admitted value
  show some (State.operand
    (.left (settle priority (priority operator ≤ ·) stack value).2 operator ::
      (settle priority (priority operator ≤ ·) stack value).1)) = _
  rw [settled]

theorem parse_prefixed (operator : Lexeme) (stack : List Frame) (value : Expression)
    {rest : List Lexeme} (ends : EndsAt priority .prefixed rest) :
    parse priority (.value (.prefixed operator :: stack) value) rest =
      parse priority (.value stack (.prefixed operator value)) rest := by
  cases rest with
  | nil => rfl
  | cons lexeme rest =>
      have noPostfix : lexeme.isPostfix = false := ends lexeme rfl
      simp only [Lexeme.isPostfix, Bool.or_eq_false_iff, decide_eq_false_iff_not] at noPostfix
      simp only [parse, step, if_neg noPostfix.1, if_neg noPostfix.2, settle]

theorem parse_left {operator : String} (stack : List Frame) (left right : Expression)
    {rest : List Lexeme} (ends : EndsAt priority (.operator (priority operator)) rest) :
    parse priority (.value (.left left operator :: stack) right) rest =
      parse priority (.value stack (.binary operator left right)) rest := by
  cases rest with
  | nil => rfl
  | cons lexeme rest =>
      obtain ⟨noPostfix, tight⟩ := ends lexeme rfl
      simp only [Lexeme.isPostfix, Bool.or_eq_false_iff, decide_eq_false_iff_not] at noPostfix
      by_cases isOperator : lexeme.token = .operator
      · simp only [parse, step, if_neg noPostfix.1, if_neg noPostfix.2, if_pos isOperator, settle,
          tight isOperator, decide_true, if_true]
      · simp only [parse, step, if_neg noPostfix.1, if_neg noPostfix.2, if_neg isOperator, settle,
          if_true]

theorem parse_parenthesized {level : Level} {tokens : List Lexeme} {value : Expression}
    (parsed : Parsed priority level tokens value) (stack : List Frame) (rest : List Lexeme) :
    parse priority (.operand stack) (.leftParen :: (tokens ++ .rightParen :: rest)) =
      parse priority (.value stack value) rest := by
  have opened : step priority (.operand stack) .leftParen = some (.operand (.paren :: stack)) := rfl
  rw [parse_step opened, parsed (.paren :: stack) _ trivial (ends_at_closing (by decide) rest)]
  exact parse_step rfl rest

theorem parse_index {level : Level} {tokens : List Lexeme} {index : Expression}
    (parsed : Parsed priority level tokens index) (array : Expression) (stack : List Frame)
    (rest : List Lexeme) :
    parse priority (.value stack array) (subscript tokens ++ rest) =
      parse priority (.value stack (.element array index)) rest := by
  have opened : step priority (.value stack array) .leftBracket =
      some (.operand (.bracket array :: stack)) := rfl
  rw [subscript, List.cons_append, List.append_assoc, List.singleton_append, parse_step opened,
    parsed (.bracket array :: stack) _ trivial (ends_at_closing (by decide) rest)]
  exact parse_step rfl rest

theorem parse_arguments {arguments : List Span}
    (parsed : ∀ argument ∈ arguments, Parsed priority argument.level argument.tokens argument.value)
    (form : List Expression → Expression) (done : List Expression) (stack : List Frame)
    (rest : List Lexeme) :
    parse priority (.operand (.arguments form done :: stack))
        ([Lexeme.comma].intercalate (arguments.map Span.tokens) ++ .rightParen :: rest) =
      parse priority (.value stack (form (done ++ arguments.map Span.value))) rest := by
  induction arguments generalizing done with
  | nil =>
      rw [List.map_nil, List.map_nil, List.append_nil]
      exact parse_step rfl rest
  | cons argument others induction =>
      obtain ⟨first, later⟩ := List.forall_mem_cons.mp parsed
      cases others with
      | nil =>
          have alone : [Lexeme.comma].intercalate ([argument].map Span.tokens) =
              argument.tokens := by simp
          rw [alone, first (.arguments form done :: stack) _ trivial
            (ends_at_closing (by decide) rest)]
          exact parse_step rfl rest
      | cons next others =>
          have split : [Lexeme.comma].intercalate ((argument :: next :: others).map Span.tokens) =
              argument.tokens ++ .comma ::
                [Lexeme.comma].intercalate ((next :: others).map Span.tokens) := by
            simp [List.intercalate_cons_cons]
          have comma : step priority (.value (.arguments form done :: stack) argument.value)
              .comma = some (.operand (.arguments form (done ++ [argument.value]) :: stack)) := rfl
          rw [split, List.append_assoc, List.cons_append,
            first (.arguments form done :: stack) _ trivial (ends_at_closing (by decide) _),
            parse_step comma, induction later, List.append_assoc]
          rfl

theorem parse_enclosed {arguments : List Span}
    (parsed : ∀ argument ∈ arguments, Parsed priority argument.level argument.tokens argument.value)
    (form : List Expression → Expression) (stack : List Frame) (rest : List Lexeme) :
    parse priority (.function stack form) (enclosed (arguments.map Span.tokens) ++ rest) =
      parse priority (.value stack (form (arguments.map Span.value))) rest := by
  have opened : step priority (.function stack form) .leftParen =
      some (.operand (.arguments form [] :: stack)) := rfl
  rw [enclosed, List.cons_append, List.append_assoc, parse_step opened]
  exact parse_arguments parsed form [] stack rest

section

variable {operator : String} {level : Level}

theorem admits_left {stack : List Frame} (loose : level.AtLeast (priority operator))
    (admitted : Admits priority (.operator (priority operator)) stack) :
    Admits priority level stack := by
  match stack with
  | [] | .paren :: _ | .bracket _ :: _ | .arguments _ _ :: _ => trivial
  | .prefixed _ :: _ => cases admitted
  | .left _ outer :: _ =>
      have looser : priority outer < priority operator := admitted
      cases level with
      | operator inner => exact Int.lt_of_lt_of_le looser loose
      | _ => trivial

theorem ends_at_operator (loose : level.AtLeast (priority operator)) (rest : List Lexeme) :
    EndsAt priority level (.operator operator :: rest) := by
  intro lexeme isNext
  cases isNext
  have noPostfix : (Lexeme.operator operator).isPostfix = false := by
    simp [Lexeme.isPostfix, Lexeme.operator, Lexeme.dot, Lexeme.leftBracket]
  cases level with
  | unit => trivial
  | prefixed => exact noPostfix
  | operator inner => exact ⟨noPostfix, fun _ => loose⟩

theorem ends_at_right {rest : List Lexeme} (tight : level.Above (priority operator))
    (ends : EndsAt priority (.operator (priority operator)) rest) : EndsAt priority level rest := by
  intro lexeme isNext
  obtain ⟨noPostfix, looser⟩ := ends lexeme isNext
  cases level with
  | unit => trivial
  | prefixed => exact noPostfix
  | operator inner =>
      exact ⟨noPostfix, fun isOperator => Int.le_trans (looser isOperator) (Int.le_of_lt tight)⟩

end

theorem parsed_of_reads {level : Level} {tokens : List Lexeme} {value : Expression}
    (reads : Reads priority level tokens value) : Parsed priority level tokens value := by
  induction reads with
  | leaf isValue => exact fun stack rest _ _ => parse_step (step_value isValue stack) rest
  | parenthesized _ induction =>
      intro stack rest _ _
      rw [List.cons_append, List.append_assoc]
      exact parse_parenthesized induction stack rest
  | @call function arguments _ induction =>
      intro stack rest _ _
      have named : step priority (.operand stack) (.function function) =
          some (.function stack (.call function)) := rfl
      rw [List.cons_append, parse_step named]
      exact parse_enclosed induction (.call function) stack rest
  | @member tokens receiver function arguments _ _ receiverInduction induction =>
      intro stack rest _ _
      have dotted : step priority (.value stack receiver) .dot =
          some (.dot stack receiver) := rfl
      have named : step priority (.dot stack receiver) (.function function) =
          some (.function stack (.member receiver function)) := rfl
      rw [List.append_assoc, receiverInduction stack _ (admits_unit stack) (ends_at_unit _),
        List.cons_append, List.cons_append, parse_step dotted, parse_step named]
      exact parse_enclosed induction (.member receiver function) stack rest
  | @element tokens indexTokens array index level _ _ arrayInduction indexInduction =>
      intro stack rest _ _
      rw [List.append_assoc, arrayInduction stack _ (admits_unit stack) (ends_at_unit _)]
      exact parse_index indexInduction array stack rest
  | @prefixed operator level tokens operand isPrefix isOperand _ induction =>
      intro stack rest admitted ends
      have inner : EndsAt priority level rest := by
        cases level with
        | unit => exact ends_at_unit rest
        | prefixed => exact ends
        | operator => cases isOperand
      rw [List.cons_append, parse_step (step_prefixed isPrefix stack),
        induction (.prefixed operator :: stack) rest isOperand inner, parse_prefixed _ _ _ ends]
  | @binary operator leftLevel rightLevel leftTokens rightTokens left right _ _ loose tight
      leftInduction rightInduction =>
      intro stack rest admitted ends
      rw [List.append_assoc, List.cons_append,
        leftInduction stack _ (admits_left loose admitted) (ends_at_operator loose _),
        parse_step (step_operator admitted left),
        rightInduction (.left left operator :: stack) rest tight (ends_at_right tight ends),
        parse_left stack left right ends]

/-- There is at most one reading of a token sequence. -/
theorem parses_unambiguous {tokens : List Lexeme} {value other : Expression}
    (first : Parses priority tokens value) (second : Parses priority tokens other) :
    value = other := by
  have parsed {value : Expression} (parses : Parses priority tokens value) :
      parse priority (.operand []) tokens = some value := by
    obtain ⟨level, reads⟩ := parses
    have ends : EndsAt priority level [] := by
      intro _ member
      cases member
    have admitted : Admits priority level [] := trivial
    rw [← List.append_nil tokens, parsed_of_reads reads [] [] admitted ends]
    rfl
  exact Option.some.inj ((parsed first).symm.trans (parsed second))

end Expression

end KotlinLayout
