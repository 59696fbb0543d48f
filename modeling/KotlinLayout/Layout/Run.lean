import KotlinLayout.Doc.Normal
import KotlinLayout.Layout.Fits

/-!
The layout of a document for a page width. A group is flat if its content and what comes after it
fit on the line up to the next line break. In a fill, a separator is flat if the content after it
fits as well.

Each document is laid out before the pending entries, which are only looked at to see what comes
after it on its line.
-/

namespace KotlinLayout

/-- Items that were laid out, and the column that they end at or the fault that ended them. -/
structure Run where
  items : List Item
  finish : Except Fault Int

namespace Run

def done (column : Int) : Run := ⟨[], .ok column⟩

def emit (item : Item) (column : Int) : Run := ⟨[item], .ok column⟩

def failed (fault : Fault) : Run := ⟨[], .error fault⟩

def andThen (run : Run) (next : Int → Run) : Run :=
  match run.finish with
  | .error _ => run
  | .ok column => ⟨run.items ++ (next column).items, (next column).finish⟩

/-- Goes on in the mode that a question about fitting decides. -/
def decided (answer : Except Fault Bool) (next : Mode → Run) : Run :=
  match answer with
  | .ok fits => next (Mode.ofFits fits)
  | .error fault => failed fault

def fault? (run : Run) : Option Fault :=
  match run.finish with
  | .ok _ => none
  | .error fault => some fault

theorem done_and_then (column : Int) (next : Int → Run) :
    (done column).andThen next = next column := by
  simp [done, andThen]

theorem failed_and_then (fault : Fault) (next : Int → Run) :
    (failed fault).andThen next = failed fault := by
  simp [failed, andThen]

theorem and_then_done (run : Run) : run.andThen done = run := by
  obtain ⟨items, finish⟩ := run
  cases finish <;> simp [done, andThen]

theorem and_then_assoc (run : Run) (first second : Int → Run) :
    (run.andThen first).andThen second =
      run.andThen fun column => (first column).andThen second := by
  obtain ⟨items, finish⟩ := run
  cases finish with
  | error fault => simp [andThen]
  | ok column =>
      simp only [andThen]
      cases reached : (first column).finish <;> simp [reached]

end Run

namespace Layout

mutual

def lay (width indent : Int) (mode : Mode) : Doc → List Entry → Int → Run
  | .nil, _, column => .done column
  | .text value, _, column => .emit (.text value) (column + value.length)
  | .concat parts, pending, column => layAll width indent mode parts pending column
  | .annotated label body, pending, column =>
      (Run.emit (.push label) column).andThen fun column =>
        (lay width indent mode body (⟨.int indent, mode, .mark (.pop label)⟩ :: pending)
          column).andThen (Run.emit (.pop label))
  | .mark (.pop label), _, column => .emit (.pop label) column
  | .choice whenBroken whenFlat, pending, column =>
      match mode with
      | .flat => lay width indent .flat whenFlat pending column
      | .broken => lay width indent .broken whenBroken pending column
      | .wrong value => .failed (.unknownMode value.shown)
  | .nest amount body, pending, column =>
      lay width (indent + amount.toInt) mode body pending column
  | .hardLine, _, _ => .emit (.line (.int indent)) indent
  | .group body, pending, column =>
      if mode.isFlat then lay width indent .flat body pending column
      else
        .decided (fits (width - column) [⟨.int indent, .flat, body⟩] pending) fun mode =>
          lay width indent mode body pending column
  | .alwaysBreak body, pending, column => lay width indent .broken body pending column
  | .fill items, pending, column => layFill width indent mode items 0 pending column
  | .tail items start, pending, column =>
      layFill width indent mode items start.toInt.toNat pending column
  | doc, _, _ => .failed (noRule (.int indent) mode doc)

def layAll (width indent : Int) (mode : Mode) : List Doc → List Entry → Int → Run
  | [], _, column => .done column
  | doc :: rest, pending, column =>
      (lay width indent mode doc (⟨.int indent, mode, .concat rest⟩ :: pending) column).andThen
        fun column => layAll width indent mode rest pending column

/-- Lays out contents and separators in turn, except for the given number of them in front. A
content is flat if it fits on the line by itself. The separator after it is flat if the content
that follows fits too, together with what comes after it; a last separator goes with the content
before it. -/
def layFill (width indent : Int) (mode : Mode) :
    List Doc → Nat → List Entry → Int → Run
  | [], _, _, column => .done column
  | _ :: rest, skipped + 1, pending, column =>
      layFill width indent mode rest skipped pending column
  | content :: rest, 0, pending, column =>
      if mode.isFlat then
        (lay width indent mode content (⟨.int indent, mode, .fill rest⟩ :: pending) column).andThen
          fun column => layFill width indent mode rest 0 pending column
      else
        .decided (fits (width - column) [⟨.int indent, .flat, content⟩] []) fun contentMode =>
          match rest with
          | [] => lay width indent contentMode content pending column
          | [separator] =>
              (lay width indent contentMode content
                (⟨.int indent, contentMode, separator⟩ :: pending) column).andThen fun column =>
                lay width indent contentMode separator pending column
          | separator :: next :: others =>
              .decided
                (fits (width - column)
                  [⟨.int indent, .flat, content⟩, ⟨.int indent, .flat, separator⟩,
                    ⟨.int indent, .flat, next⟩, ⟨.int indent, mode, .fill others⟩]
                  pending) fun separatorMode =>
                (lay width indent contentMode content
                  (⟨.int indent, separatorMode, separator⟩ ::
                    ⟨.int indent, mode, .fill (next :: others)⟩ :: pending) column).andThen
                  fun column =>
                    (lay width indent separatorMode separator
                      (⟨.int indent, mode, .fill (next :: others)⟩ :: pending) column).andThen
                      fun column => layFill width indent mode (next :: others) 0 pending column

end

/-- Items that are laid out already might as well not be there. -/
theorem lay_fill_drop (width indent : Int) (mode : Mode) (items : List Doc) (skipped : Nat)
    (pending : List Entry) (column : Int) :
    layFill width indent mode items skipped pending column =
      layFill width indent mode (items.drop skipped) 0 pending column := by
  induction items generalizing skipped with
  | nil => cases skipped <;> simp [layFill]
  | cons item rest induction =>
      cases skipped with
      | zero => rfl
      | succ skipped => rw [layFill, induction, List.drop_succ_cons]

def layEntries (width : Int) : List Entry → Int → Run
  | [], column => .done column
  | entry :: pending, column =>
      (lay width entry.indent.toInt entry.mode entry.doc pending column).andThen
        (layEntries width pending)

end Layout

def defaultWidth : Int := 79

def layout (doc : Doc) (width : Int) : Run :=
  match doc.normalized with
  | .error fault => .failed fault
  | .ok doc => Layout.layEntries width [⟨.int 0, .broken, doc⟩] 0

end KotlinLayout
