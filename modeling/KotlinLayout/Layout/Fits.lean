import KotlinLayout.Doc.Basic
import KotlinLayout.Text.Repeated

/-!
Whether the beginning of a line fits: pending documents, each in its own mode, are read up to the
first line break, and the room that is left is counted down. Nothing is read once the room is
used up, so a fault beyond that point is never met.
-/

namespace KotlinLayout

inductive Mode where
  /-- Choices take their flat side. -/
  | flat
  /-- Choices take their broken side. -/
  | broken
  /-- A wrong mode, in which there is no choosing. -/
  | wrong (value : Datum)

namespace Mode

def shown : Mode → String
  | .flat => "FLAT_MODE"
  | .broken => "BREAK_MODE"
  | .wrong value => value.shown

def written : Mode → String
  | .wrong value => value.written
  | mode => Text.quoted mode.shown

def isFlat : Mode → Bool
  | .flat => true
  | _ => false

/-- The mode of that name. A list cannot be looked up among the names. -/
def ofDatum : Datum → Except Fault Mode
  | .scalar (.text "FLAT_MODE") => .ok .flat
  | .scalar (.text "BREAK_MODE") => .ok .broken
  | .list items => .error (.notHashable (Datum.list items).kind)
  | other => .ok (.wrong other)

def ofFits (fits : Bool) : Mode := if fits then .flat else .broken

end Mode

structure Entry where
  indent : Amount
  mode : Mode
  doc : Doc

/-- Where the reading of a line stands: columns are left, or the question is settled. -/
inductive Room where
  | left (columns : Int)
  | settled (fits : Bool)
  deriving DecidableEq

namespace Room

def andThen (room : Except Fault Room) (next : Int → Except Fault Room) : Except Fault Room :=
  match room with
  | .ok (.left columns) => next columns
  | other => other

def afterColumns (columns used : Int) : Room :=
  if columns - used < 0 then .settled false else .left (columns - used)

end Room

namespace Layout

def noRule (indent : Amount) (mode : Mode) (doc : Doc) : Fault :=
  let triple : Writing String := do
    return "(" ++ indent.written ++ ", " ++ mode.written ++ ", " ++ (← doc.writing) ++ ")"
  .noLayoutRule (triple.forMessage.toOption.bind id)

/-- What the rest of a sequence consists of: the items after those that are skipped, and then, for
a rest that starts before the sequence does, the whole sequence once more. -/
structure Window where
  skipped : Nat
  wraps : Bool

/-- The rest from a position on. A negative position counts from the end. -/
def Window.ofStart (sequence : SequenceKind) (length : Nat) (start : Int) : Except Fault Window :=
  if 0 ≤ start then .ok ⟨start.toNat, false⟩
  else if start < -Text.countLimit then .error .indexTooLarge
  else if start < -length then .error (.indexOutOfRange sequence)
  else .ok ⟨(length + start).toNat, true⟩

def Window.size (window : Window) (length : Nat) : Nat :=
  length - window.skipped + (if window.wraps then length else 0)

mutual

/-- Reads one document onto the columns that are left, which are not negative. -/
def read (indent : Amount) (mode : Mode) : Doc → Int → Except Fault Room
  | .nil, columns | .mark _, columns => .ok (.left columns)
  | .text value, columns => .ok (Room.afterColumns columns value.length)
  | .concat parts, columns => readAll indent mode parts 0 columns
  | .annotated _ body, columns => read indent mode body columns
  | .choice whenBroken whenFlat, columns =>
      match mode with
      | .flat => read indent .flat whenFlat columns
      | .broken => read indent .broken whenBroken columns
      | .wrong value => .error (.unknownMode value.shown)
  | .nest amount body, columns => read (.int (indent.toInt + amount.toInt)) mode body columns
  | .group body, columns => read indent mode body columns
  | .hardLine, _ => .ok (.settled true)
  | .alwaysBreak body, columns => read indent .broken body columns
  | .fill items, columns => readAll indent mode items 0 columns
  | .tail items start, columns =>
      match Window.ofStart .list items.length start.toInt with
      | .error fault => .error fault
      | .ok window =>
          Room.andThen (readAll indent mode items window.skipped columns) fun columns =>
            if window.wraps then readAll indent mode items 0 columns else .ok (.left columns)
  | .foreign (.tail (.scalar (.text value)) start), columns =>
      match Window.ofStart .text value.length start.toInt with
      | .error fault => .error fault
      | .ok window => .ok (Room.afterColumns columns (window.size value.length))
  | .foreign (.tail items _), _ => .error (.noLength items.kind)
  | .foreign (.unlisted value), _ => .error (.notReversible value.kind)
  | doc, _ => .error (noRule indent mode doc)

def readAll (indent : Amount) (mode : Mode) : List Doc → Nat → Int → Except Fault Room
  | [], _, columns => .ok (.left columns)
  | _ :: rest, skipped + 1, columns => readAll indent mode rest skipped columns
  | doc :: rest, 0, columns =>
      Room.andThen (read indent mode doc columns) fun columns =>
        readAll indent mode rest 0 columns

end

theorem read_all_drop (indent : Amount) (mode : Mode) (docs : List Doc) (skipped : Nat)
    (columns : Int) :
    readAll indent mode docs skipped columns =
      readAll indent mode (docs.drop skipped) 0 columns := by
  induction docs generalizing skipped with
  | nil => cases skipped <;> simp [readAll]
  | cons doc rest induction =>
      cases skipped with
      | zero => rfl
      | succ skipped => rw [readAll, induction, List.drop_succ_cons]

def readEntries : List Entry → Int → Except Fault Room
  | [], columns => .ok (.left columns)
  | entry :: rest, columns =>
      Room.andThen (read entry.indent entry.mode entry.doc columns) (readEntries rest)

/-- Whether the entries, followed by the pending ones, fit into the columns up to the first line
break. The next entry comes first in both lists. -/
def fits (columns : Int) (entries pending : List Entry) : Except Fault Bool :=
  if columns < 0 then .ok false
  else
    match Room.andThen (readEntries entries columns) (readEntries pending) with
    | .ok (.left _) => .ok true
    | .ok (.settled answer) => .ok answer
    | .error fault => .error fault

end Layout

end KotlinLayout
