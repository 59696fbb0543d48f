import KotlinLayout.Layout.Run

/-!
What a document spells once nothing is left to choose: every choice takes the side of the mode it
stands in, and groups and fills leave the mode as it is. In the broken mode this is the fully
broken layout, and in the flat mode the one line of a flat group. Items are cut into lines, each
with the indentation of the line start in front of it.
-/

namespace KotlinLayout

@[simp] theorem Amount.to_int_int (value : Int) : (Amount.int value).toInt = value := rfl

structure Line where
  indent : Int
  text : String

namespace Line

/-- The column that a line ends at, whether or not anything stands on it. -/
def width (line : Line) : Int := line.indent + line.text.length

/-- The line as it is written: without a text its indentation is left out too. -/
def written (separator : String) (line : Line) : String :=
  if line.text = "" then ""
  else String.join (List.replicate line.indent.toNat separator) ++ line.text

end Line

namespace Layout

def headText : List Item → String
  | [] | .line _ :: _ => ""
  | .text value :: rest => value ++ headText rest
  | _ :: rest => headText rest

def laterLines : List Item → List Line
  | [] => []
  | .line indent :: rest => ⟨indent.toInt, headText rest⟩ :: laterLines rest
  | _ :: rest => laterLines rest

/-- The lines that items make when they go on after a line that was begun. -/
def linesFrom (current : Line) (items : List Item) : List Line :=
  ⟨current.indent, current.text ++ headText items⟩ :: laterLines items

/-- The items cut at their line starts. The first line is not indented. -/
def lines (items : List Item) : List Line := linesFrom ⟨0, ""⟩ items

def headWidth (items : List Item) : Nat := (headText items).length

def breaks : List Item → Bool
  | [] => false
  | .line _ :: _ => true
  | _ :: rest => breaks rest

@[simp] theorem head_width_nil : headWidth [] = 0 := rfl

@[simp] theorem head_width_text (value : String) (rest : List Item) :
    headWidth (.text value :: rest) = value.length + headWidth rest := by
  simp [headWidth, headText]

@[simp] theorem head_width_line (indent : Amount) (rest : List Item) :
    headWidth (.line indent :: rest) = 0 := rfl

@[simp] theorem head_width_push (label : Label) (rest : List Item) :
    headWidth (.push label :: rest) = headWidth rest := rfl

theorem head_width_append_le (first second : List Item) :
    headWidth first ≤ headWidth (first ++ second) := by
  induction first with
  | nil => simp
  | cons item rest induction => cases item <;> simp [headWidth, headText] at * <;> omega

theorem head_width_append_of_breaks {first : List Item} (broken : breaks first = true)
    (second : List Item) : headWidth (first ++ second) = headWidth first := by
  induction first with
  | nil => simp [breaks] at broken
  | cons item rest induction => cases item <;> simp_all [breaks, headWidth, headText]

theorem head_text_append_of_level {first : List Item} (level : breaks first = false)
    (second : List Item) : headText (first ++ second) = headText first ++ headText second := by
  induction first with
  | nil => simp [headText]
  | cons item rest induction =>
      cases item <;> simp_all [breaks, headText, String.append_assoc]

theorem head_width_append_of_level {first : List Item} (level : breaks first = false)
    (second : List Item) : headWidth (first ++ second) = headWidth first + headWidth second := by
  rw [headWidth, head_text_append_of_level level, String.length_append, headWidth, headWidth]

/-- What comes first on a line counts in full, and what comes after it only adds to it. -/
theorem head_width_append_mono (first : List Item) {second third : List Item}
    (shorter : headWidth second ≤ headWidth third) :
    headWidth (first ++ second) ≤ headWidth (first ++ third) := by
  cases broken : breaks first with
  | true =>
      have firstLine := head_width_append_of_breaks broken second
      have otherLine := head_width_append_of_breaks broken third
      omega
  | false =>
      have firstLine := head_width_append_of_level broken second
      have otherLine := head_width_append_of_level broken third
      omega

theorem breaks_append (first second : List Item) :
    breaks (first ++ second) = (breaks first || breaks second) := by
  induction first with
  | nil => rfl
  | cons item rest induction => cases item <;> simp [breaks, induction]

theorem later_lines_suffix (first second : List Item) :
    laterLines second <:+ laterLines (first ++ second) := by
  induction first with
  | nil => exact List.suffix_refl _
  | cons item rest induction =>
      cases item with
      | line indent => exact induction.trans (List.suffix_cons _ _)
      | _ => exact induction

theorem later_lines_of_level {first : List Item} (level : breaks first = false)
    (second : List Item) : laterLines (first ++ second) = laterLines second := by
  induction first with
  | nil => rfl
  | cons item rest induction => cases item <;> simp_all [breaks, laterLines]

theorem lines_from_text (current : Line) (value : String) (rest : List Item) :
    linesFrom current (.text value :: rest) =
      linesFrom ⟨current.indent, current.text ++ value⟩ rest := by
  simp [linesFrom, headText, laterLines, String.append_assoc]

theorem lines_from_line (current : Line) (indent : Amount) (rest : List Item) :
    linesFrom current (.line indent :: rest) =
      current :: linesFrom ⟨indent.toInt, ""⟩ rest := by
  simp [linesFrom, headText, laterLines]

def lineAfter (current : Line) : List Item → Line
  | [] => current
  | .text value :: rest => lineAfter ⟨current.indent, current.text ++ value⟩ rest
  | .line indent :: rest => lineAfter ⟨indent.toInt, ""⟩ rest
  | _ :: rest => lineAfter current rest

theorem line_after_append (current : Line) (first second : List Item) :
    lineAfter current (first ++ second) = lineAfter (lineAfter current first) second := by
  induction first generalizing current with
  | nil => rfl
  | cons item rest induction => cases item <;> exact induction _

/-- Items finish some lines, and whatever comes after them goes on with the current one. -/
theorem lines_from_append (current : Line) (items : List Item) :
    ∃ finished, ∀ later,
      linesFrom current (items ++ later) =
        finished ++ linesFrom (lineAfter current items) later := by
  induction items generalizing current with
  | nil => exact ⟨[], fun _ => rfl⟩
  | cons item rest induction =>
      cases item with
      | text value =>
          obtain ⟨finished, same⟩ := induction ⟨current.indent, current.text ++ value⟩
          refine ⟨finished, fun later => ?_⟩
          rw [List.cons_append, lines_from_text, same]
          rfl
      | line indent =>
          obtain ⟨finished, same⟩ := induction ⟨indent.toInt, ""⟩
          refine ⟨current :: finished, fun later => ?_⟩
          rw [List.cons_append, lines_from_line, same]
          rfl
      | _ => exact induction current

end Layout

namespace Doc

open Layout

mutual

/-- The items of a document in which every choice takes the side of its mode. -/
def expand (indent : Int) (mode : Mode) : Doc → List Item
  | .text value => [.text value]
  | .nil => []
  | .concat parts => (expandEach indent mode parts).flatten
  | .nest amount body => body.expand (indent + amount.toInt) mode
  | .choice whenBroken whenFlat =>
      match mode with
      | .flat => whenFlat.expand indent .flat
      | _ => whenBroken.expand indent mode
  | .hardLine => [.line (.int indent)]
  | .group body => body.expand indent mode
  | .alwaysBreak body => body.expand indent .broken
  | .fill items => (expandEach indent mode items).flatten
  | .annotated label body => .push label :: (body.expand indent mode ++ [.pop label])
  | .tail items start => ((expandEach indent mode items).drop start.toInt.toNat).flatten
  | .mark (.pop label) => [.pop label]
  | _ => []

def expandEach (indent : Int) (mode : Mode) : List Doc → List (List Item)
  | [] => []
  | doc :: rest => doc.expand indent mode :: expandEach indent mode rest

end

theorem expand_each_eq_map (indent : Int) (mode : Mode) (docs : List Doc) :
    expandEach indent mode docs = docs.map (expand indent mode) := by
  induction docs with
  | nil => rfl
  | cons doc rest induction => rw [expandEach, induction, List.map_cons]

@[simp] theorem expand_concat (indent : Int) (mode : Mode) (parts : List Doc) :
    (Doc.concat parts).expand indent mode = parts.flatMap (expand indent mode) := by
  rw [expand, expand_each_eq_map, List.flatMap_def]

@[simp] theorem expand_fill (indent : Int) (mode : Mode) (items : List Doc) :
    (Doc.fill items).expand indent mode = items.flatMap (expand indent mode) := by
  rw [expand, expand_each_eq_map, List.flatMap_def]

@[simp] theorem expand_tail (indent : Int) (mode : Mode) (items : List Doc) (start : Amount) :
    (Doc.tail items start).expand indent mode =
      (items.drop start.toInt.toNat).flatMap (expand indent mode) := by
  rw [expand, expand_each_eq_map, List.flatMap_def, List.map_drop]

@[simp] theorem expand_line_broken (indent : Int) :
    Doc.line.expand indent .broken = [.line (.int indent)] := rfl

end Doc

def Entry.expand (entry : Entry) : List Item := entry.doc.expand entry.indent.toInt entry.mode

end KotlinLayout
