import KotlinLayout.Render.Colored

/-!
Colours of tokens, and the terminal codes that switch them on.
-/

namespace KotlinLayout

/-- Whether terminal codes are written; without them they are still checked. -/
inductive ColorMode where
  | trueColor
  | none
  deriving DecidableEq

/-- How a kind of token looks. Colours are in hexadecimal, and an empty one is none. -/
structure Look where
  color : Option String
  background : Option String
  bold : Bool
  italic : Bool
  underline : Bool
  deriving DecidableEq

namespace Look

def plain : Look := ⟨none, none, false, false, false⟩

def colored (color : String) : Look := { plain with color := some color }

end Look

abbrev Style := Token → Look

def Style.standard : Style
  | .keyword | .keywordConstant | .keywordDeclaration => Look.colored "66d9ef"
  | .keywordNamespace | .operator => Look.colored "ff4689"
  | .nameClass | .nameFunction => Look.colored "a6e22e"
  | .nameNamespace | .nameVariable | .punctuation => Look.colored "f8f8f2"
  | .literalString => Look.colored "e6db74"
  | .number => Look.colored "ae81ff"

structure Rgb where
  red : Nat
  green : Nat
  blue : Nat
  deriving DecidableEq

namespace Rgb

def hexValue? (character : Char) : Option Nat :=
  let code := character.toNat
  if 48 ≤ code ∧ code ≤ 57 then some (code - 48)
  else if 65 ≤ code ∧ code ≤ 70 then some (code - 55)
  else if 97 ≤ code ∧ code ≤ 102 then some (code - 87)
  else none

def hexNumber (digits : List Nat) : Nat := digits.foldl (fun value digit => 16 * value + digit) 0

/-- Reads three or six digits after any number of hash signs: each third is a number of its own,
so three digits give dark colours. -/
def ofHex (text : String) : Except Fault Rgb :=
  let characters := text.toList.dropWhile (· = '#')
  if characters.length ≠ 3 ∧ characters.length ≠ 6 then
    .error (.colorLength (String.ofList characters))
  else
    match characters.mapM hexValue? with
    | none => .error (.colorDigits (String.ofList characters))
    | some digits =>
        let width := digits.length / 3
        .ok ⟨hexNumber (digits.take width), hexNumber ((digits.drop width).take width),
          hexNumber (digits.drop (2 * width))⟩

end Rgb

namespace ColorMode

def code (mode : ColorMode) (parameters : List Nat) : String :=
  match mode with
  | .none => ""
  | .trueColor => "\x1b[" ++ String.intercalate ";" (parameters.map toString) ++ "m"

def reset (mode : ColorMode) : String := mode.code [0]

def foreground (mode : ColorMode) (rgb : Rgb) : String :=
  mode.code [38, 2, rgb.red, rgb.green, rgb.blue]

def background (mode : ColorMode) (rgb : Rgb) : String :=
  mode.code [48, 2, rgb.red, rgb.green, rgb.blue]

end ColorMode

namespace Look

def colorOf? (text : Option String) : Except Fault (Option Rgb) :=
  match text with
  | none | some "" => .ok none
  | some text => some <$> Rgb.ofHex text

/-- The codes that turn a look on, from whatever was there before. No colour stands for a
background alone, and none for underlining. -/
def codes (mode : ColorMode) (look : Look) : Except Fault String := do
  let foreground ← colorOf? look.color
  let background ← colorOf? look.background
  let colors ←
    match foreground, background with
    | none, none => .ok ""
    | some front, none => .ok (mode.foreground front)
    | some front, some back => .ok (mode.foreground front ++ mode.background back)
    | none, some _ => .error (.unknownColor "")
  if look.underline then .error (.unknownColor "underline")
  else
    .ok (mode.reset ++ colors ++ (if look.bold then mode.code [1] else "") ++
      (if look.italic then mode.code [3] else ""))

end Look

def Style.coloring (mode : ColorMode) (style : Style) : Coloring :=
  ⟨mode.reset, fun token => (style token).codes mode⟩

end KotlinLayout
