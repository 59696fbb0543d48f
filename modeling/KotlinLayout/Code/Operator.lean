/-!
Binary operators of Kotlin and how tightly they bind.
-/

namespace KotlinLayout

/-- Levels of binding; a higher priority binds tighter. -/
inductive OperatorLevel where
  | cast
  | multiplicative
  | additive
  | range
  | namedInfix
  | elvis
  | namedCheck
  | comparison
  | equality
  | conjunction
  | disjunction
  deriving DecidableEq

namespace OperatorLevel

def priority : OperatorLevel → Int
  | .cast => 3
  | .multiplicative => 2
  | .additive => 1
  | .range => 0
  | .namedInfix => -1
  | .elvis => -2
  | .namedCheck => -3
  | .comparison => -4
  | .equality => -5
  | .conjunction => -6
  | .disjunction => -7

end OperatorLevel

def operatorLevels : List (String × OperatorLevel) :=
  [("as", .cast), ("as?", .cast),
    ("*", .multiplicative), ("/", .multiplicative), ("%", .multiplicative),
    ("+", .additive), ("-", .additive),
    ("..", .range),
    ("shl", .namedInfix), ("shr", .namedInfix), ("ushr", .namedInfix), ("and", .namedInfix),
    ("or", .namedInfix), ("xor", .namedInfix),
    ("?:", .elvis),
    ("in", .namedCheck), ("!in", .namedCheck), ("is", .namedCheck), ("!is", .namedCheck),
    ("<", .comparison), (">", .comparison), ("<=", .comparison), (">=", .comparison),
    ("==", .equality), ("!=", .equality), ("===", .equality), ("!==", .equality),
    ("&&", .conjunction),
    ("||", .disjunction)]

def defaultPriority? (operator : String) : Option Int :=
  (operatorLevels.lookup operator).map OperatorLevel.priority

end KotlinLayout
