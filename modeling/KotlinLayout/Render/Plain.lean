import KotlinLayout.Item
import KotlinLayout.Text.Repeated

/-!
Laid out items as text. The indentation of a line is written with its first text, so that a line
without text stays empty.
-/

namespace KotlinLayout

/-- What is written for a line break and for each column of indentation, and how many characters of
indentation there is room for. -/
structure Spacing where
  newline : String
  separator : String
  room : Nat

namespace Spacing

def standard (room : Nat) : Spacing := ⟨"\n", " ", room⟩

def indentation (spacing : Spacing) : Option Amount → Except Fault String
  | none => .ok ""
  | some indent => Text.repeated spacing.room spacing.separator indent.toInt

end Spacing

structure Output where
  pieces : List String
  fault : Option Fault

namespace Output

def text (output : Output) : String := String.join output.pieces

def afterPiece (output : Output) (piece : String) : Output :=
  { output with pieces := piece :: output.pieces }

/-- Adds a piece at the end, unless a fault came before. -/
def followedBy (output : Output) (piece : String) : Output :=
  match output.fault with
  | some _ => output
  | none => { output with pieces := output.pieces ++ [piece] }

end Output

namespace Render

/-- Writes items, which may end in a fault, after the indentation that is still to be written. -/
def write (spacing : Spacing) (ending : Option Fault) : Option Amount → List Item → Output
  | _, [] => ⟨[], ending⟩
  | pending, .text value :: rest =>
      if value = "" then write spacing ending pending rest
      else
        match spacing.indentation pending with
        | .error fault => ⟨[], some fault⟩
        | .ok indentation =>
            ((write spacing ending none rest).afterPiece value).afterPiece indentation
  | _, .line indent :: rest => (write spacing ending (some indent) rest).afterPiece spacing.newline
  | pending, _ :: rest => write spacing ending pending rest

def plain (spacing : Spacing) (items : List Item) (ending : Option Fault) : Output :=
  write spacing ending none items

end Render

end KotlinLayout
