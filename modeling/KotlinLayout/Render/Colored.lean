import KotlinLayout.Render.Plain

/-!
Laid out items as coloured text. A token that begins switches its colour on, and when it ends the
colour of the innermost token that is still open returns.
-/

namespace KotlinLayout

/-- The code that turns colours off, and what asking for the code of a token comes to. -/
structure Coloring where
  reset : String
  code : Token → Except Fault String

namespace Render

def restored (reset : String) : List String → String
  | [] => reset
  | code :: _ => code

/-- Writes items, which may end in a fault, given the codes of the open tokens, innermost first,
and the indentation that is still to be written. A fault leaves the open colours on. -/
def paint (spacing : Spacing) (coloring : Coloring) (ending : Option Fault) :
    List String → Option Amount → List Item → Output
  | active, _, [] => ⟨if active.isEmpty || ending.isSome then [] else [coloring.reset], ending⟩
  | active, pending, .text value :: rest =>
      if value = "" then paint spacing coloring ending active pending rest
      else
        match spacing.indentation pending with
        | .error fault => ⟨[], some fault⟩
        | .ok indentation =>
            ((paint spacing coloring ending active none rest).afterPiece value).afterPiece
              indentation
  | active, _, .line indent :: rest =>
      (paint spacing coloring ending active (some indent) rest).afterPiece spacing.newline
  | active, pending, .push (.token token) :: rest =>
      match coloring.code token with
      | .error fault => ⟨[], some fault⟩
      | .ok code => (paint spacing coloring ending (code :: active) pending rest).afterPiece code
  | [], _, .pop (.token _) :: _ => ⟨[], some .noOpenColor⟩
  | _ :: outer, pending, .pop (.token _) :: rest =>
      (paint spacing coloring ending outer pending rest).afterPiece (restored coloring.reset outer)
  | active, pending, _ :: rest => paint spacing coloring ending active pending rest

def colored (spacing : Spacing) (coloring : Coloring) (items : List Item)
    (ending : Option Fault) : Output :=
  paint spacing coloring ending [] none items

end Render

end KotlinLayout
