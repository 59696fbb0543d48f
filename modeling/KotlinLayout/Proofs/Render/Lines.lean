import KotlinLayout.Format
import KotlinLayout.Proofs.Document.Marks
import KotlinLayout.Proofs.Layout.Expansion

/-!
The text of laid out items is made of their lines: each is written with its indentation, unless
it has no text, and writing ends at the first line that there is no room to indent. Cutting the
text at its line breaks gives the written lines back.
-/

namespace KotlinLayout

namespace Text

def lines (text : String) : List (List Char) := text.toList.splitOn '\n'

/-- There is room for the text as often as the count says. -/
structure Repeatable (room : Nat) (text : String) (count : Int) : Prop where
  above : -countLimit ≤ count
  below : count < countLimit
  short : text.length * count < countLimit
  fits : text.length * count ≤ room

theorem repeatable_iff {room : Nat} {text : String} {count : Int} :
    Repeatable room text count ↔ -countLimit ≤ count ∧ count < countLimit ∧
      text.length * count < countLimit ∧ text.length * count ≤ room :=
  ⟨fun ⟨above, below, short, fits⟩ => ⟨above, below, short, fits⟩,
    fun ⟨above, below, short, fits⟩ => ⟨above, below, short, fits⟩⟩

instance (room : Nat) (text : String) (count : Int) : Decidable (Repeatable room text count) :=
  decidable_of_iff' _ repeatable_iff

theorem repeatable_zero (room : Nat) (text : String) : Repeatable room text 0 := by
  have countable : -countLimit ≤ 0 ∧ 0 < countLimit := by decide
  simp [repeatable_iff, countable]

theorem repeatable_blank_iff {room : Nat} {count : Int} :
    Repeatable room " " count ↔ -countLimit ≤ count ∧ count < countLimit ∧ count ≤ room := by
  have one : ((" ".length : Nat) : Int) * count = count := Int.one_mul count
  rw [repeatable_iff, one]
  omega

/-- A text that is repeated less than once, or that has no characters, is repeated to nothing. -/
theorem repeated_nothing {text : String} {count : Int} (nothing : count ≤ 0 ∨ text = "") :
    String.join (List.replicate count.toNat text) = "" ∧ text.length * count ≤ 0 := by
  rcases nothing with negative | empty
  · have none : count.toNat = 0 := by omega
    rw [none]
    exact ⟨rfl, Int.mul_nonpos_of_nonneg_of_nonpos (Int.natCast_nonneg text.length) negative⟩
  · subst empty
    refine ⟨?_, by simp⟩
    induction count.toNat with
    | zero => rfl
    | succ count induction => rw [List.replicate_succ, String.join_cons, induction]; rfl

theorem repeated_eq_ok_iff {room : Nat} {text result : String} {count : Int} :
    repeated room text count = .ok result ↔
      Repeatable room text count ∧ result = String.join (List.replicate count.toNat text) := by
  have positive : 0 < countLimit := by decide
  rw [repeatable_iff]
  unfold repeated
  split
  · exact ⟨fun success => (by cases success), fun ⟨⟨above, below, _⟩, _⟩ => by omega⟩
  · split
    · rename_i nothing
      rcases repeated_nothing nothing with ⟨empty, small⟩
      rw [empty, Except.ok.injEq, eq_comm]
      exact ⟨fun same => ⟨⟨by omega, by omega, by omega, by omega⟩, same⟩, And.right⟩
    · split
      · exact ⟨fun success => (by cases success), fun ⟨⟨_, _, short, _⟩, _⟩ => by omega⟩
      · split
        · exact ⟨fun success => (by cases success), fun ⟨⟨_, _, _, fits⟩, _⟩ => by omega⟩
        · rw [Except.ok.injEq, eq_comm]
          exact ⟨fun same => ⟨⟨by omega, by omega, by omega, by omega⟩, same⟩, And.right⟩

end Text

namespace Line

def characters (line : Line) : List Char := (line.written " ").toList

/-- There is room for the indentation, or nothing asks for it. -/
def Writable (spacing : Spacing) (line : Line) : Prop :=
  line.text = "" ∨ Text.Repeatable spacing.room spacing.separator line.indent

/-- The indentation can be written in blanks, or nothing asks for it. -/
def Storable (room : Nat) (line : Line) : Prop :=
  line.text = "" ∨
    -Text.countLimit ≤ line.indent ∧ line.indent < Text.countLimit ∧ line.indent ≤ room

instance (spacing : Spacing) (line : Line) : Decidable (line.Writable spacing) :=
  inferInstanceAs (Decidable (_ ∨ _))

instance (room : Nat) (line : Line) : Decidable (line.Storable room) :=
  inferInstanceAs (Decidable (_ ∨ _))

theorem storable_iff_writable {room : Nat} {line : Line} :
    line.Storable room ↔ line.Writable (.standard room) := by
  rw [Storable, Writable, Spacing.standard, Text.repeatable_blank_iff]

theorem writable_unindented (spacing : Spacing) (text : String) :
    (⟨0, text⟩ : Line).Writable spacing :=
  .inr (Text.repeatable_zero spacing.room spacing.separator)

theorem written_unindented (separator text : String) :
    (⟨0, text⟩ : Line).written separator = text := by
  by_cases empty : text = ""
  · subst empty
    rfl
  · rw [written, if_neg empty]
    exact String.empty_append

theorem storable_unindented (room : Nat) (text : String) : (⟨0, text⟩ : Line).Storable room :=
  storable_iff_writable.mpr (writable_unindented (.standard room) text)

theorem characters_of_text {indent : Int} {text : String} (nonempty : text ≠ "") :
    (⟨indent, text⟩ : Line).characters =
      (String.join (List.replicate indent.toNat " ")).toList ++ text.toList := by
  simp [characters, written, nonempty]

theorem characters_unindented (text : String) : (⟨0, text⟩ : Line).characters = text.toList := by
  by_cases empty : text = ""
  · subst empty
    rfl
  · rw [characters_of_text empty]
    rfl

theorem join_blanks (count : Nat) :
    (String.join (List.replicate count " ")).toList = List.replicate count ' ' := by
  induction count with
  | zero => rfl
  | succ count induction =>
      rw [List.replicate_succ, String.join_cons, String.toList_append, induction]
      rfl

theorem length_characters {line : Line} (nonempty : line.text ≠ "") :
    line.characters.length = line.indent.toNat + line.text.length := by
  rw [characters_of_text nonempty, List.length_append, join_blanks, List.length_replicate,
    String.length_toList]

structure Plain (line : Line) : Prop where
  indent : 0 ≤ line.indent
  text : '\n' ∉ line.text.toList

theorem Plain.breakless {line : Line} (plain : line.Plain) : '\n' ∉ line.characters := by
  by_cases empty : line.text = ""
  · simp [characters, written, empty]
  · rw [characters_of_text empty, List.mem_append]
    rintro (blanks | text)
    · rw [join_blanks] at blanks
      exact absurd (List.eq_of_mem_replicate blanks) (by decide)
    · exact plain.text text

theorem length_eq_width {line : Line} (nonneg : 0 ≤ line.indent) (nonempty : line.text ≠ "") :
    (line.characters.length : Int) = line.width := by
  rw [length_characters nonempty, width]
  omega

theorem length_le_width {line : Line} (nonneg : 0 ≤ line.indent) :
    (line.characters.length : Int) ≤ line.width := by
  by_cases empty : line.text = ""
  · simp only [characters, written, if_pos empty, width, String.toList_empty, List.length_nil]
    omega
  · exact Int.le_of_eq (length_eq_width nonneg empty)

end Line

namespace Layout

theorem lines_plain {current : Line} {items : List Item} (begun : current.Plain)
    (plain : ∀ item ∈ items, item.Plain) : ∀ line ∈ linesFrom current items, line.Plain := by
  induction items generalizing current with
  | nil =>
      simp only [linesFrom, headText, laterLines, List.mem_singleton, forall_eq]
      exact ⟨begun.indent, by simpa using begun.text⟩
  | cons item rest induction =>
      obtain ⟨first, others⟩ := List.forall_mem_cons.mp plain
      cases item with
      | text value =>
          rw [lines_from_text]
          apply induction _ others
          refine ⟨begun.indent, ?_⟩
          rw [String.toList_append, List.mem_append]
          rintro (before | added)
          · exact begun.text before
          · exact first added
      | line indent =>
          rw [lines_from_line]
          exact List.forall_mem_cons.mpr ⟨begun, induction ⟨first, by simp⟩ others⟩
      | _ => exact induction begun others

end Layout

namespace Render

open Layout

/-- The line that writing goes on with, given the indentation that is still to be written. -/
def begun (pending : Option Amount) : Line := ⟨(pending.map Amount.toInt).getD 0, ""⟩

theorem indentation_eq (spacing : Spacing) (pending : Option Amount) :
    spacing.indentation pending =
      Text.repeated spacing.room spacing.separator (begun pending).indent := by
  cases pending <;> rfl

theorem lines_from_empty (current : Line) (items : List Item) :
    linesFrom current (.text "" :: items) = linesFrom current items := by
  rw [lines_from_text, String.append_empty]

theorem intercalate_append (separator front first : String) (rest : List String) :
    separator.intercalate ((front ++ first) :: rest) =
      front ++ separator.intercalate (first :: rest) := by
  cases rest with
  | nil => rw [String.intercalate_singleton, String.intercalate_singleton]
  | cons second rest =>
      simp only [String.intercalate_cons_cons, String.append_assoc]

/-- The first text of a line is written after the indentation of the line, and what comes after
it without one. -/
theorem intercalate_written {value : String} (nonempty : value ≠ "") (spacing : Spacing)
    (indent : Int) (rest : String) (lines : List String) :
    spacing.newline.intercalate
        ((⟨indent, value ++ rest⟩ : Line).written spacing.separator :: lines) =
      String.join (List.replicate indent.toNat spacing.separator) ++
        (value ++ spacing.newline.intercalate
          ((⟨0, rest⟩ : Line).written spacing.separator :: lines)) := by
  have visible : value ++ rest ≠ "" := by simp [nonempty]
  rw [Line.written_unindented, Line.written, if_neg visible, intercalate_append,
    intercalate_append]

section Lines

variable {spacing : Spacing} {ending : Option Fault} {pending : Option Amount} {items : List Item}

/-- Lines that there is room for are written with line breaks between them. -/
theorem write_lines
    (writable : ∀ line ∈ linesFrom (begun pending) items, line.Writable spacing) :
    (write spacing ending pending items).fault = ending ∧
      (write spacing ending pending items).text = spacing.newline.intercalate
        ((linesFrom (begun pending) items).map (Line.written spacing.separator)) := by
  induction items generalizing pending with
  | nil => exact ⟨rfl, rfl⟩
  | cons item rest induction =>
      cases item with
      | text value =>
          by_cases empty : value = ""
          · subst empty
            rw [lines_from_empty] at writable ⊢
            rw [write, if_pos rfl]
            exact induction writable
          · rw [lines_from_text] at writable ⊢
            obtain ⟨first, later⟩ := List.forall_mem_cons.mp writable
            have room := first.resolve_left (by simp [empty])
            have unindented : ∀ line ∈ linesFrom (begun none) rest,
                line.Writable spacing :=
              List.forall_mem_cons.mpr ⟨Line.writable_unindented _ _, later⟩
            have indented := Text.repeated_eq_ok_iff.mpr ⟨room, rfl⟩
            obtain ⟨finished, text⟩ := induction unindented
            rw [write, if_neg empty, indentation_eq, indented]
            refine ⟨finished, ?_⟩
            simp only [Output.text, Output.afterPiece, String.join_cons] at text ⊢
            rw [text]
            simp only [linesFrom, List.map_cons, begun, String.empty_append]
            exact (intercalate_written empty spacing _ _ _).symm
      | line indent =>
          rw [lines_from_line] at writable ⊢
          obtain ⟨finished, text⟩ := @induction (some indent) (List.forall_mem_cons.mp writable).2
          refine ⟨finished, ?_⟩
          simp only [write, Output.text, Output.afterPiece, String.join_cons] at text ⊢
          rw [text, List.map_cons, String.intercalate_cons_of_ne_nil (by simp [linesFrom])]
          exact congrArg (· ++ _) String.empty_append.symm
      | _ => exact induction writable

/-- At the first line that there is no room for, writing ends with the fault of its
indentation. The line breaks before it are written. -/
theorem write_stops {front back : List Line} {line : Line}
    (split : linesFrom (begun pending) items = front ++ line :: back)
    (writable : ∀ line ∈ front, line.Writable spacing)
    (unwritable : ¬line.Writable spacing) :
    ∃ fault, Text.repeated spacing.room spacing.separator line.indent = .error fault ∧
      (write spacing ending pending items).fault = some fault ∧
      (write spacing ending pending items).text = spacing.newline.intercalate
        (front.map (Line.written spacing.separator) ++ [""]) := by
  induction items generalizing pending front with
  | nil =>
      obtain ⟨rfl, rfl⟩ : front = [] ∧ line = begun pending := by
        cases front <;> simp_all [linesFrom, headText, laterLines, begun]
      exact absurd (.inl rfl) unwritable
  | cons item rest induction =>
      cases item with
      | text value =>
          by_cases empty : value = ""
          · subst empty
            rw [lines_from_empty] at split
            rw [write, if_pos rfl]
            exact induction split writable
          · rw [lines_from_text] at split
            rw [write, if_neg empty, indentation_eq]
            cases front with
            | nil =>
                obtain ⟨same, -⟩ := List.cons.inj split
                subst same
                have noRoom := (not_or.mp unwritable).2
                cases indented : Text.repeated spacing.room spacing.separator
                    (begun pending).indent with
                | ok indentation =>
                    exact absurd (Text.repeated_eq_ok_iff.mp indented).1 noRoom
                | error fault => exact ⟨fault, rfl, rfl, rfl⟩
            | cons first front =>
                have later : laterLines rest = front ++ line :: back := (List.cons.inj split).2
                obtain ⟨same, -⟩ := List.cons.inj split
                subst same
                obtain ⟨firstWritable, others⟩ := List.forall_mem_cons.mp writable
                have room := firstWritable.resolve_left (by simp [empty])
                have indented := Text.repeated_eq_ok_iff.mpr ⟨room, rfl⟩
                have unindented : linesFrom (begun none) rest =
                    (⟨0, headText rest⟩ :: front) ++ line :: back := by
                  rw [linesFrom, later, begun, String.empty_append]
                  rfl
                obtain ⟨fault, stuck, failed, text⟩ := induction unindented
                  (List.forall_mem_cons.mpr ⟨Line.writable_unindented _ _, others⟩)
                rw [indented]
                refine ⟨fault, stuck, failed, ?_⟩
                simp only [Output.text, Output.afterPiece, String.join_cons] at text ⊢
                rw [text]
                simp only [List.map_cons, List.cons_append, begun, String.empty_append]
                exact (intercalate_written empty spacing _ _ _).symm
      | line indent =>
          rw [lines_from_line] at split
          cases front with
          | nil =>
              obtain ⟨same, -⟩ := List.cons.inj split
              subst same
              exact absurd (.inl rfl) unwritable
          | cons first front =>
              obtain ⟨same, later⟩ := List.cons.inj split
              subst same
              obtain ⟨fault, stuck, failed, text⟩ :=
                @induction (some indent) _ later (List.forall_mem_cons.mp writable).2
              refine ⟨fault, stuck, failed, ?_⟩
              simp only [write, Output.text, Output.afterPiece, String.join_cons] at text ⊢
              rw [text, List.map_cons, List.cons_append,
                String.intercalate_cons_of_ne_nil (by simp)]
              exact congrArg (· ++ _) String.empty_append.symm
      | _ => exact induction split writable

theorem writable_or_stops (spacing : Spacing) (lines : List Line) :
    (∀ line ∈ lines, line.Writable spacing) ∨ ∃ front line back,
      lines = front ++ line :: back ∧ (∀ line ∈ front, line.Writable spacing) ∧
        ¬line.Writable spacing := by
  cases found : lines.find? fun line => !decide (line.Writable spacing) with
  | none =>
      left
      simpa using List.find?_eq_none.mp found
  | some line =>
      right
      obtain ⟨stuck, front, back, split, others⟩ := List.find?_eq_some_iff_append.mp found
      exact ⟨front, line, back, split, by simpa using others, by simpa using stuck⟩

/-- Writing without a fault gets past every indentation that it comes to. -/
theorem writable_of_write (success : (write spacing ending pending items).fault = none) :
    ∀ line ∈ linesFrom (begun pending) items, line.Writable spacing := by
  rcases writable_or_stops spacing (linesFrom (begun pending) items) with
    all | ⟨front, line, back, split, writable, unwritable⟩
  · exact all
  · obtain ⟨fault, -, failed, -⟩ :=
      @write_stops spacing ending pending items front back line split writable unwritable
    rw [success] at failed
    cases failed

end Lines

theorem write_text {room : Nat} {ending : Option Fault} {pending : Option Amount}
    {items : List Item} (success : (write (.standard room) ending pending items).fault = none) :
    (write (.standard room) ending pending items).text.toList =
      ['\n'].intercalate ((linesFrom (begun pending) items).map Line.characters) := by
  have newline : (Spacing.standard room).newline.toList = ['\n'] :=
    (by decide : "\n".toList = ['\n'])
  rw [(write_lines (writable_of_write success)).2, String.toList_intercalate, List.map_map, newline]
  rfl

theorem write_succeeds {room : Nat} {pending : Option Amount} {items : List Item}
    (storable : ∀ line ∈ linesFrom (begun pending) items, line.Storable room) :
    (write (.standard room) none pending items).fault = none := by
  have writable : ∀ line ∈ linesFrom (begun pending) items, line.Writable (.standard room) :=
    fun line member => Line.storable_iff_writable.mp (storable line member)
  exact (write_lines writable).1

theorem storable_of_write {room : Nat} {ending : Option Fault} {pending : Option Amount}
    {items : List Item} (success : (write (.standard room) ending pending items).fault = none) :
    ∀ line ∈ linesFrom (begun pending) items, line.Storable room :=
  fun line member => Line.storable_iff_writable.mpr (writable_of_write success line member)

theorem write_filter {keep : Item → Bool} {spacing : Spacing} {ending : Option Fault}
    (silent : ∀ item, ¬keep item = true → ∀ pending rest,
      write spacing ending pending (item :: rest) = write spacing ending pending rest)
    (pending : Option Amount) (items : List Item) :
    write spacing ending pending (items.filter keep) = write spacing ending pending items := by
  induction items generalizing pending with
  | nil => rfl
  | cons item rest induction =>
      by_cases kept : keep item = true
      · rw [List.filter_cons_of_pos kept]
        cases item <;> simp only [write, induction]
      · rw [List.filter_cons_of_neg kept, silent item kept, induction]

theorem write_visible (spacing : Spacing) (ending : Option Fault) (pending : Option Amount)
    (items : List Item) :
    write spacing ending pending (items.filter Item.visible) =
      write spacing ending pending items := by
  apply write_filter
  intro item invisible pending rest
  rw [Item.eq_of_not_visible invisible, write, if_pos rfl]

theorem paint_visible (spacing : Spacing) (coloring : Coloring) (ending : Option Fault)
    (active : List String) (pending : Option Amount) (items : List Item) :
    paint spacing coloring ending active pending (items.filter Item.visible) =
      paint spacing coloring ending active pending items := by
  induction items generalizing active pending with
  | nil => rfl
  | cons item rest induction =>
      by_cases visible : item.visible = true
      · rw [List.filter_cons_of_pos visible]
        cases item with
        | push label => cases label <;> simp only [paint, induction]
        | pop label => cases label <;> cases active <;> simp only [paint, induction]
        | _ => simp only [paint, induction]
      · rw [List.filter_cons_of_neg visible, Item.eq_of_not_visible visible, paint, if_pos rfl,
          induction]

end Render

open Layout

theorem lines_of_written {room : Nat} {items : List Item}
    (success : (Render.plain (.standard room) items none).fault = none)
    (breakless : ∀ line ∈ lines items, '\n' ∉ line.characters) :
    Text.lines (Render.plain (.standard room) items none).text =
      (lines items).map Line.characters := by
  rw [Text.lines, Render.plain, Render.write_text success]
  apply List.splitOn_intercalate
  · intro characters member
    obtain ⟨line, isLine, rfl⟩ := List.mem_map.mp member
    exact breakless line isLine
  · exact List.cons_ne_nil _ _

/-- Items are written as the lines that they are cut into, with a line break between two of them.
A line without a text is empty, and in front of a text stands the separator, as often as the line
start says. Where there is no room for that, writing ends with the fault of the first such line,
after the line break in front of it. -/
theorem plain_line_by_line (spacing : Spacing) (items : List Item) :
    ((∀ line ∈ lines items, line.Writable spacing) →
      (Render.plain spacing items none).result = .ok (spacing.newline.intercalate
        ((lines items).map (Line.written spacing.separator)))) ∧
      ∀ front line back, lines items = front ++ line :: back →
        (∀ line ∈ front, line.Writable spacing) →
          ¬line.Writable spacing →
            ∃ fault, Text.repeated spacing.room spacing.separator line.indent = .error fault ∧
              (Render.plain spacing items none).result = .error fault ∧
              (Render.plain spacing items none).text = spacing.newline.intercalate
                (front.map (Line.written spacing.separator) ++ [""]) := by
  constructor
  · intro writable
    obtain ⟨finished, text⟩ := @Render.write_lines spacing none none items writable
    rw [Output.result, Render.plain, finished, text]
    rfl
  · intro front line back split writable unwritable
    obtain ⟨fault, stuck, failed, text⟩ :=
      @Render.write_stops spacing none none items front back line split writable unwritable
    refine ⟨fault, stuck, ?_, text⟩
    rw [Output.result, Render.plain, failed]

/-- An empty line, a line to the left of the page and a label over two lines. -/
theorem labeled_items_line_by_line :
    let spacing : Spacing := ⟨"\r\n", "ab", 4⟩
    let label := Label.token .keyword
    let items : List Item := [.text "", .push label, .text "x", .line (.int 2), .text "",
      .line (.int (-3)), .text "y", .line (.int 2), .pop label, .text "", .text "z", .text "!"]
    (∀ line ∈ lines items, line.Writable spacing) ∧
      (Render.plain spacing items none).result = .ok "x\r\n\r\ny\r\nababz!" := by
  intro spacing label items
  have writable : ∀ line ∈ lines items, line.Writable spacing := by decide +kernel
  refine ⟨writable, ?_⟩
  rw [(plain_line_by_line spacing items).1 writable]
  exact congrArg Except.ok (by decide +kernel)

/-- A text far to the left of the page has an indentation that is nothing, but it is not written:
there are no texts that are repeated so often. -/
theorem far_left_text_is_not_written :
    let items : List Item := [.line (.int (-(Text.countLimit + 1))), .text "a"]
    "\n".intercalate ((lines items).map (Line.written " ")) = "\na" ∧
      ∀ room, (Render.plain (.standard room) items none).result = .error .countTooLarge := by
  intro items
  exact ⟨by decide +kernel, fun _ => rfl⟩

end KotlinLayout
