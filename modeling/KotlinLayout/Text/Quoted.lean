import KotlinLayout.Text.Unprintable

/-!
The quoted form of a text, on one line. Apostrophes quote, unless the text holds one and no
double quote; the line controls have short escapes and other unprintable characters are written
by their code point.
-/

namespace KotlinLayout.Text

def hexDigit (digit : Nat) : Char :=
  if digit < 10 then Char.ofNat (48 + digit) else Char.ofNat (87 + digit)

/-- The last `width` hexadecimal digits of a number, the most significant first. -/
def hexDigits : Nat → Nat → List Char
  | 0, _ => []
  | width + 1, number => hexDigits width (number / 16) ++ [hexDigit (number % 16)]

def apostrophe : Char := '\x27'

def doubleQuote : Char := '\x22'

def backslash : Char := '\x5c'

/-- A character by its code point, with the shortest of the widths 2, 4 and 8. -/
def codeEscape (character : Char) : List Char :=
  let code := character.toNat
  if code < 0x100 then backslash :: 'x' :: hexDigits 2 code
  else if code < 0x10000 then backslash :: 'u' :: hexDigits 4 code
  else backslash :: 'U' :: hexDigits 8 code

def escape (quote character : Char) : List Char :=
  if character = quote ∨ character = backslash then [backslash, character]
  else if character = '\n' then [backslash, 'n']
  else if character = '\r' then [backslash, 'r']
  else if character = '\t' then [backslash, 't']
  else if isUnprintable character then codeEscape character
  else [character]

def quoteFor (characters : List Char) : Char :=
  if apostrophe ∈ characters ∧ doubleQuote ∉ characters then doubleQuote else apostrophe

def quoted (text : String) : String :=
  let quote := quoteFor text.toList
  String.ofList (quote :: text.toList.flatMap (escape quote) ++ [quote])

end KotlinLayout.Text
