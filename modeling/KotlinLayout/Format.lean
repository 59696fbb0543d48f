import KotlinLayout.Code.Declaration
import KotlinLayout.Layout.Run
import KotlinLayout.Render.Colored

/-!
From documents and programs to text.
-/

namespace KotlinLayout

namespace Run

/-- Writes what was laid out. The writing goes along with the layout, so a fault of the writing
comes before one that ended the layout. -/
def write (run : Run) (spacing : Spacing) : Output := Render.plain spacing run.items run.fault?

def writeColored (run : Run) (spacing : Spacing) (coloring : Coloring) : Output :=
  Render.colored spacing coloring run.items run.fault?

end Run

/-- The text that was written, or the fault that ended the writing. -/
def Output.result (output : Output) : Except Fault String :=
  match output.fault with
  | some fault => .error fault
  | none => .ok output.text

/-- The text of a document on a page, with room for as many characters of indentation. -/
def formatDoc (doc : Doc) (width : Int) (room : Nat) : Except Fault String :=
  ((layout doc width).write (.standard room)).result

def formatExpression (expression : Node) (nestUnit : NestUnit) (width : Int) (room : Nat) :
    Except Fault String := do
  formatDoc (← expression.expressionDoc nestUnit) width room

def formatStatements (statements : Node) (nestUnit : NestUnit) (width : Int) (room : Nat) :
    Except Fault String := do
  formatDoc (← statements.statementsDoc nestUnit) width room

def formatClass (node : Node) (width : Int) (room : Nat) : Except Fault String := do
  formatDoc (← node.classDoc) width room

inductive ColorSupport where
  | available
  | packageMissing
  | moduleMissing
  deriving DecidableEq

def writeClass (node : Node) (width : Int) (ending : String) (room : Nat) : Output :=
  match node.classDoc with
  | .error fault => ⟨[], some fault⟩
  | .ok doc => ((layout doc width).write (.standard room)).followedBy ending

def writeColoredClass (support : ColorSupport) (node : Node) (width : Int) (ending : String)
    (room : Nat) (coloring : Coloring) : Output :=
  if support = .moduleMissing then ⟨[], some .colorModuleMissing⟩
  else
    match node.classDoc with
    | .error fault => ⟨[], some fault⟩
    | .ok doc =>
        if support = .packageMissing then ⟨[], some .colorPackagesMissing⟩
        else ((layout doc width).writeColored (.standard room) coloring).followedBy ending

structure Cursor where
  items : List Item
  fault : Option Fault

namespace Cursor

def start (doc : Doc) (width : Int) : Cursor :=
  let run := layout doc width
  ⟨run.items, run.fault?⟩

structure Answer where
  items : List Item
  fault : Option Fault
  /-- The end was noticed, which takes asking for one more item than there are. -/
  isDone : Bool
  next : Cursor

def take (cursor : Cursor) (count : Nat) : Answer :=
  if count ≤ cursor.items.length then
    ⟨cursor.items.take count, none, false, ⟨cursor.items.drop count, cursor.fault⟩⟩
  else ⟨cursor.items, cursor.fault, cursor.fault.isNone, ⟨[], none⟩⟩

end Cursor

end KotlinLayout
