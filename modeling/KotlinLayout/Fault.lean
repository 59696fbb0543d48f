/-!
Everything that can go wrong, by cause, and the wording of each cause.
-/

namespace KotlinLayout

inductive Position where
  | expression
  | statement
  deriving DecidableEq

def Position.name : Position → String
  | .expression => "Expression"
  | .statement => "Statement"

inductive SequenceKind where
  | list
  | text
  deriving DecidableEq

def SequenceKind.name : SequenceKind → String
  | .list => "list"
  | .text => "string"

/-- A cause that concerns a value holds the written form of that value, absent where it has none,
or the name of its kind. -/
inductive Fault where
  | notText (written : Option String) (kind : String)
  | textRequired
  | lineBreakInText (written : String)
  | notDoc (shown : Option String)
  | notIterable (kind : String)
  | notReversible (kind : String)
  | noLength (kind : String)
  | noAttribute (kind part : String)
  /-- A part of a document is not of the kind that its place insists on. -/
  | assertion
  | unknownMode (shown : String)
  /-- The layout reached something it has no rule for. -/
  | noLayoutRule (written : Option String)
  | indexOutOfRange (sequence : SequenceKind)
  | indexTooLarge
  /-- A text was to be repeated more often than any text can be. -/
  | countTooLarge
  | textTooLong
  /-- There is no room for a repeated text. -/
  | outOfMemory
  | noOpenColor
  | unknownNode (position : Position) (kind : String)
  /-- An operator outside the table of operators came without a priority. -/
  | noDefaultPriority (written : Option String)
  | notHashable (kind : String)
  | notAnInteger (written : String)
  | tooManyDigits (limit digits : Nat)
  | notANumber (kind : String)
  /-- An infinite decimal, and one that is no number, have no whole part. -/
  | infiniteDecimal
  | undefinedDecimal
  | notScalable (kind : String)
  /-- A colour of neither three nor six characters. -/
  | colorLength (digits : String)
  /-- A colour with characters that are no hexadecimal digits. -/
  | colorDigits (digits : String)
  | unknownColor (name : String)
  | unbound (written : String)
  /-- The packages that colours come from are missing, or the part of the program that uses
  them. -/
  | colorPackagesMissing
  | colorModuleMissing
  deriving DecidableEq

instance : Inhabited Fault := ⟨.assertion⟩

namespace Fault

def colorMessage (name : String) : String :=
  "the color \"" ++ name ++
    "\" is unknown. Use a color in your color palette (by default: X11 rgb.txt)"

/-- The wording of a fault, unless it would need a written form that is absent. -/
def message : Fault → Option String
  | .notText written kind =>
      written.map fun written => "Got " ++ written ++ " of type " ++ kind ++ ", expected 'str'"
  | .textRequired => some "Argument to text function must be a str"
  | .lineBreakInText written =>
      some ("Text must not contain line breaks, got " ++ written ++
        ". Use HARDLINE or LINE to break lines.")
  | .notDoc shown => shown
  | .notIterable kind => some ("'" ++ kind ++ "' object is not iterable")
  | .notReversible kind => some ("'" ++ kind ++ "' object is not reversible")
  | .noLength kind => some ("object of type '" ++ kind ++ "' has no len()")
  | .noAttribute kind part =>
      some ("'" ++ kind ++ "' object has no attribute '" ++ part ++ "'")
  | .assertion => some ""
  | .unknownMode shown => some shown
  | .noLayoutRule written => written
  | .indexOutOfRange sequence => some (sequence.name ++ " index out of range")
  | .indexTooLarge | .countTooLarge => some "cannot fit 'int' into an index-sized integer"
  | .textTooLong => some "repeated string is too long"
  | .outOfMemory => some ""
  | .noOpenColor => some "pop from empty list"
  | .unknownNode position kind => some ("Unknown " ++ position.name ++ " implementer: " ++ kind)
  | .noDefaultPriority written =>
      written.map fun written =>
        "No default priority for operator " ++ written ++ ", pass one explicitly"
  | .notHashable kind => some ("unhashable type: '" ++ kind ++ "'")
  | .notAnInteger written => some ("invalid literal for int() with base 10: " ++ written)
  | .tooManyDigits limit digits =>
      some ("Exceeds the limit (" ++ toString limit ++
        " digits) for integer string conversion: value has " ++ toString digits ++
        " digits; use sys.set_int_max_str_digits() to increase the limit")
  | .notANumber kind =>
      some ("int() argument must be a string, a bytes-like object or a real number, not '" ++
        kind ++ "'")
  | .infiniteDecimal => some "cannot convert float infinity to integer"
  | .undefinedDecimal => some "cannot convert float NaN to integer"
  | .notScalable kind =>
      some ("unsupported operand type(s) for *: 'int' and '" ++ kind ++ "'")
  | .colorLength digits => some ("Hex string #" ++ digits ++ " is too long")
  | .colorDigits digits => some ("Invalid Hex String: #" ++ digits)
  | .unknownColor name => some (colorMessage name)
  | .unbound written => some written
  | .colorPackagesMissing =>
      some "'pygments' and 'colorful' packages must be installed to use colored output."
  | .colorModuleMissing =>
      some ("You need to install the 'pygments' and 'colorful' packages for colored output.")

end Fault

end KotlinLayout
