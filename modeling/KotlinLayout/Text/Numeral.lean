/-!
Numbers read from text: whole numbers in any decimal script, and the whole part of a decimal
fraction in the fewest digits that identify a double.
-/

namespace KotlinLayout.Text

/-- Code points of the digit zero of every decimal script of Unicode 14; the nine digits that
follow each of them are its other digits. -/
def zeroDigits : List Nat :=
  [0x30, 0x660, 0x6f0, 0x7c0, 0x966, 0x9e6, 0xa66, 0xae6, 0xb66, 0xbe6, 0xc66, 0xce6, 0xd66, 0xde6,
    0xe50, 0xed0, 0xf20, 0x1040, 0x1090, 0x17e0, 0x1810, 0x1946, 0x19d0, 0x1a80, 0x1a90, 0x1b50,
    0x1bb0, 0x1c40, 0x1c50, 0xa620, 0xa8d0, 0xa900, 0xa9d0, 0xa9f0, 0xaa50, 0xabf0, 0xff10, 0x104a0,
    0x10d30, 0x11066, 0x110f0, 0x11136, 0x111d0, 0x112f0, 0x11450, 0x114d0, 0x11650, 0x116c0,
    0x11730, 0x118e0, 0x11950, 0x11c50, 0x11d50, 0x11da0, 0x16a60, 0x16ac0, 0x16b50, 0x1d7ce,
    0x1d7d8, 0x1d7e2, 0x1d7ec, 0x1d7f6, 0x1e140, 0x1e2f0, 0x1e950, 0x1fbf0]

def digitValue? (character : Char) : Option Nat :=
  (zeroDigits.find? fun start => start ≤ character.toNat && character.toNat < start + 10).map
    (character.toNat - ·)

def isBlank (character : Char) : Bool :=
  let code := character.toNat
  (9 ≤ code && code ≤ 13) || (0x2000 ≤ code && code ≤ 0x200a) ||
    [0x20, 0x85, 0xa0, 0x1680, 0x2028, 0x2029, 0x202f, 0x205f, 0x3000].contains code

def isNumeralPart (character : Char) : Bool :=
  character = '_' || (digitValue? character).isSome

/-- Whether a run of digits and underscores ends in a digit and has no underscore but between two
digits, given whether a digit stands before it. -/
def isWellSeparated : Bool → List Char → Bool
  | afterDigit, [] => afterDigit
  | afterDigit, '_' :: rest => afterDigit && isWellSeparated false rest
  | _, _ :: rest => isWellSeparated true rest

/-- The most digits of a whole number that are read. -/
def digitLimit : Nat := 4300

inductive IntegerReading where
  | value (number : Int)
  | malformed
  /-- The number has more digits than are read. -/
  | tooLong (digits : Nat)
  deriving DecidableEq

/-- Reads a run of digits, with single underscores between them, and the blanks after it. What
follows a run that is too long is not looked at. -/
def readNatural (characters : List Char) : IntegerReading :=
  let run := characters.takeWhile isNumeralPart
  let digits := run.filterMap digitValue?
  if !isWellSeparated false run then .malformed
  else if digitLimit < digits.length then .tooLong digits.length
  else if (characters.dropWhile isNumeralPart).all isBlank then
    .value (digits.foldl (fun value digit => 10 * value + digit) 0 : Nat)
  else .malformed

def readInteger (text : String) : IntegerReading :=
  match text.toList.dropWhile isBlank with
  | '-' :: rest =>
      match readNatural rest with
      | .value number => .value (-number)
      | other => other
  | '+' :: rest => readNatural rest
  | rest => readNatural rest

/-- Rounds to 53 significant binary digits, a tie going to the even neighbour, as the whole part
of a double of that size is stored. -/
def roundToDouble (value : Nat) : Nat :=
  let excess := value.log2 - 52
  let unit := Nat.pow 2 excess
  let floor := value / unit
  let twice := 2 * (value % unit)
  if twice < unit ∨ (twice = unit ∧ floor % 2 = 0) then floor * unit else (floor + 1) * unit

def asciiNumber (characters : List Char) : Nat :=
  characters.foldl
    (fun value character =>
      if character.isDigit then 10 * value + (character.toNat - 48) else value) 0

/-- The whole part of an unsigned decimal such as `12.5` or `1.5e+16`. -/
def wholePart (characters : List Char) : Nat :=
  let mantissa := characters.takeWhile (· ≠ 'e')
  let exponentText := (characters.dropWhile (· ≠ 'e')).drop 1
  let fraction := (mantissa.dropWhile (· ≠ '.')).drop 1
  let digits := asciiNumber mantissa
  let size : Int := asciiNumber exponentText
  let exponent : Int := (if '-' ∈ exponentText then -size else size) - fraction.length
  if exponent < 0 then roundToDouble (digits / Nat.pow 10 exponent.natAbs)
  else roundToDouble (digits * Nat.pow 10 exponent.natAbs)

/-- The double that a decimal in its shortest form denotes, with its fraction cut off. -/
def truncateDecimal (text : String) : Int :=
  match text.toList with
  | '-' :: digits => -(wholePart digits : Int)
  | digits => wholePart digits

end KotlinLayout.Text
