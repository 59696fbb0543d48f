import KotlinLayout.Proofs.Layout.Independence
import KotlinLayout.Proofs.Render.Lines

/-!
The lines that a document takes on a page, put together from the lines of its parts. What begins
on a new line takes the same lines wherever it stands, and what comes before it is laid out as if
it stood alone.
-/

namespace KotlinLayout

namespace Layout

theorem head_text_visible (items : List Item) :
    headText (items.filter Item.visible) = headText items := by
  induction items with
  | nil => rfl
  | cons item rest induction =>
      by_cases visible : item.visible = true
      · rw [List.filter_cons_of_pos visible]
        cases item <;> simp only [headText, induction]
      · rw [List.filter_cons_of_neg visible, Item.eq_of_not_visible visible, induction, headText,
          String.empty_append]

theorem later_lines_visible (items : List Item) :
    laterLines (items.filter Item.visible) = laterLines items := by
  induction items with
  | nil => rfl
  | cons item rest induction =>
      by_cases visible : item.visible = true
      · rw [List.filter_cons_of_pos visible]
        cases item <;> simp only [laterLines, head_text_visible, induction]
      · rw [List.filter_cons_of_neg visible, Item.eq_of_not_visible visible, induction]
        rfl

theorem head_text_before {items later : List Item} (silent : headText later = "") :
    headText (items ++ later) = headText items := by
  induction items with
  | nil => exact silent
  | cons item rest induction => cases item <;> simp [headText, induction]

theorem later_lines_before {items later : List Item} (silent : headText later = "") :
    laterLines (items ++ later) = laterLines items ++ laterLines later := by
  induction items with
  | nil => rfl
  | cons item rest induction =>
      cases item <;> simp [laterLines, induction, head_text_before silent]

theorem lines_from_before {items later : List Item} (current : Line)
    (silent : headText later = "") :
    linesFrom current (items ++ later) = linesFrom current items ++ laterLines later := by
  rw [linesFrom, linesFrom, head_text_before silent, later_lines_before silent, List.cons_append]

theorem lines_from_visible (current : Line) (items : List Item) :
    linesFrom current (items.filter Item.visible) = linesFrom current items := by
  rw [linesFrom, linesFrom, head_text_visible, later_lines_visible]

theorem lines_from_unindented (indent : Int) (items : List Item) :
    linesFrom ⟨indent, ""⟩ items = ⟨indent, headText items⟩ :: laterLines items := by
  rw [linesFrom, String.empty_append]

theorem lines_shift (indent : Int) (items : List Item) :
    linesFrom ⟨indent, ""⟩ (items.map (Item.shift indent)) =
      (lines items).map (Line.shift indent) := by
  rw [lines, lines_from_unindented, lines_from_unindented, head_text_shift, later_lines_shift,
    List.map_cons, Line.shift, Int.zero_add]

end Layout

open Layout

/-- The lines that a document takes on a page by itself. -/
def Doc.page (doc : Doc) (width : Int) : List Line := lines (layout doc width).items

/-- A document takes these lines where a line begins with its indentation. -/
structure Paged (width indent : Int) (doc : Doc) (page : List Line) : Prop where
  regular : doc.Regular
  lays : ∃ items finish, lay width indent .broken doc [] indent = ⟨items, .ok finish⟩ ∧
    linesFrom ⟨indent, ""⟩ items = page

/-- A document begins on a new line, if at all, and takes these lines after the one before it. -/
structure Below (width indent : Int) (doc : Doc) (page : List Line) : Prop where
  regular : doc.Regular
  closes : SameAnswers [⟨.int indent, .broken, doc⟩] []
  lays : ∀ column, ∃ items finish, lay width indent .broken doc [] column = ⟨items, .ok finish⟩ ∧
    headText items = "" ∧ laterLines items = page

variable {width indent : Int} {doc other : Doc} {docs : List Doc} {page more : List Line}

theorem Run.exists_of_keeping {run : Run} {items : List Item} {finish : Int}
    (same : run.keeping Item.visible = Run.keeping Item.visible ⟨items, .ok finish⟩) :
    ∃ others, run = ⟨others, .ok finish⟩ ∧
      others.filter Item.visible = items.filter Item.visible := by
  cases run with | mk others ended =>
  have both := Run.keeping_iff.mp same
  cases both.2
  exact ⟨others, rfl, both.1⟩

namespace Paged

theorem of_alike (paged : Paged width indent other page)
    (alike : doc.Alike Item.visible .broken other) : Paged width indent doc page := by
  rcases paged.lays with ⟨items, finish, lays, same⟩
  have run := alike.runs width indent [] indent (by simp)
  rw [lays] at run
  rcases Run.exists_of_keeping run with ⟨others, isRun, visible⟩
  refine ⟨alike.regular.1, others, finish, isRun, ?_⟩
  rw [← lines_from_visible, visible, lines_from_visible, same]

theorem of_regular (regular : doc.Regular) (width indent : Int) :
    Paged width indent doc.normalize ((doc.page (width - indent)).map (Line.shift indent)) := by
  have normal := Doc.regular_normalize regular
  rcases layout_reaches regular normal (width - indent) with ⟨items, column, -, laidOut⟩
  have moved := lay_shift normal (.inr rfl) width 0 0 indent
  rw [Int.zero_add, ← layout_eq_lay regular, laidOut] at moved
  refine ⟨normal, items.map (Item.shift indent), column + indent, moved, ?_⟩
  rw [Doc.page, laidOut]
  exact lines_shift indent items

theorem page_eq (paged : Paged width 0 doc.normalize page) (regular : doc.Regular) :
    doc.page width = page := by
  rcases paged.lays with ⟨items, finish, lays, same⟩
  rw [Doc.page, layout_eq_lay regular, lays, lines, same]

end Paged

namespace Below

theorem of_alike (below : Below width indent other page)
    (alike : doc.Alike Item.visible .broken other) : Below width indent doc page := by
  refine ⟨alike.regular.1, (alike.answers indent []).trans below.closes, fun column => ?_⟩
  rcases below.lays column with ⟨items, finish, lays, silent, same⟩
  have run := alike.runs width indent [] column (by simp)
  rw [lays] at run
  rcases Run.exists_of_keeping run with ⟨others, isRun, visible⟩
  refine ⟨others, finish, isRun, ?_, ?_⟩
  · rw [← head_text_visible, visible, head_text_visible, silent]
  · rw [← later_lines_visible, visible, later_lines_visible, same]

theorem nothing : Below width indent (.concat []) [] := by
  refine ⟨.concat (by simp), fun _ _ => rfl, fun column => ⟨[], column, ?_, rfl, rfl⟩⟩
  rw [lay, layAll]
  rfl

theorem new_line (paged : Paged width indent (.concat docs) page) :
    Below width indent (.concat (.hardLine :: docs)) page := by
  have regular := Doc.regular_concat.mp paged.regular
  refine ⟨.concat (List.forall_mem_cons.mpr ⟨.hardLine, regular⟩),
    same_answers_new_line indent .broken docs [], fun column => ?_⟩
  rcases paged.lays with ⟨items, finish, lays, same⟩
  rw [lay] at lays
  refine ⟨.line (.int indent) :: items, finish, ?_, rfl, ?_⟩
  · rw [lay, layAll, lay, Run.emit_and_then, lays]
    rfl
  · rw [← same, lines_from_unindented]
    rfl

theorem nest {amount : Amount} (below : Below width (indent + amount.toInt) doc page) :
    Below width indent (.nest amount doc) page :=
  ⟨.nest below.regular, (same_answers_nest indent .broken amount doc []).trans below.closes,
    below.lays⟩

theorem cons (first : Below width indent doc page) (rest : Below width indent (.concat docs) more) :
    Below width indent (.concat (doc :: docs)) (page ++ more) := by
  have regular := Doc.regular_concat.mp rest.regular
  refine ⟨.concat (List.forall_mem_cons.mpr ⟨first.regular, regular⟩), ?_, fun column => ?_⟩
  · exact (same_answers_cons indent .broken doc docs []).trans
      ((rest.closes.cons _).trans first.closes)
  · rcases first.lays column with ⟨items, between, lays, silent, same⟩
    rcases rest.lays between with ⟨others, finish, otherLays, otherSilent, otherSame⟩
    refine ⟨items ++ others, finish, ?_, ?_, ?_⟩
    · rw [lay, lay_all_before doc rest.closes, lays, Run.andThen]
      simp only [otherLays]
    · rw [head_text_before otherSilent, silent]
    · rw [later_lines_before otherSilent, same, otherSame]

end Below

namespace Paged

/-- What begins on a new line leaves the line empty that it comes after. -/
theorem of_below (below : Below width indent doc page) :
    Paged width indent doc (⟨indent, ""⟩ :: page) := by
  rcases below.lays indent with ⟨items, finish, lays, silent, same⟩
  refine ⟨below.regular, items, finish, lays, ?_⟩
  rw [lines_from_unindented, silent, same]

theorem cons (first : Paged width indent doc page)
    (rest : Below width indent (.concat docs) more) :
    Paged width indent (.concat (doc :: docs)) (page ++ more) := by
  have regular := Doc.regular_concat.mp rest.regular
  rcases first.lays with ⟨items, between, lays, same⟩
  rcases rest.lays between with ⟨others, finish, otherLays, silent, otherSame⟩
  refine ⟨.concat (List.forall_mem_cons.mpr ⟨first.regular, regular⟩), items ++ others, finish,
    ?_, ?_⟩
  · rw [lay, lay_all_before doc rest.closes, lays, Run.andThen]
    simp only [otherLays]
  · rw [lines_from_before _ silent, same, otherSame]

theorem stacked {pages : List (List Line)}
    (paged : List.Forall₂ (Paged width indent) docs pages) (nonempty : docs ≠ []) :
    Paged width indent (.concat (docs.intersperse .hardLine)) pages.flatten := by
  induction paged with
  | nil => exact absurd rfl nonempty
  | @cons doc page docs pages first rest induction =>
      cases rest with
      | nil => exact first.cons .nothing
      | cons second others =>
          rw [List.intersperse_cons_cons, List.flatten_cons]
          exact first.cons (.new_line (induction (List.cons_ne_nil _ _)))

end Paged

theorem Below.empty_line (below : Below width indent (.concat docs) page) :
    Below width indent (.concat (.hardLine :: docs)) (⟨indent, ""⟩ :: page) :=
  .new_line (.of_below below)

theorem Doc.alike_normalize_parts (regular : ∀ doc ∈ docs, doc.normalize.Regular) :
    (Doc.concat docs).normalize.Alike Item.visible .broken (.concat (docs.map Doc.normalize)) := by
  apply Doc.alike_normalize_concat Item.visible_empty
  rw [List.forall₂_map_right_iff, List.forall₂_same]
  exact fun doc member => .refl (regular doc member)

theorem Doc.alike_normalize_joined_parts (regular : ∀ doc ∈ docs, doc.normalize.Regular) :
    (Doc.joined docs).normalize.Alike Item.visible .broken
      (.concat (docs.map Doc.normalize)) := by
  match docs with
  | [] => exact Doc.alike_nothing.symm
  | [doc] => exact (Doc.alike_singleton (regular doc (by simp))).symm
  | first :: second :: rest => exact Doc.alike_normalize_parts regular

/-- Where lines are broken, a line is a line break. -/
theorem Doc.alike_line {keep : Item → Bool} : Doc.line.Alike keep .broken .hardLine :=
  ⟨⟨.choice trivial .hardLine (.text (by decide)), .hardLine⟩, fun _ _ _ _ => rfl,
    fun _ _ _ _ _ => rfl⟩

theorem Doc.forall₂_intersperse {relation : Doc → Doc → Prop} {separator otherSeparator : Doc}
    {docs others : List Doc} (separators : relation separator otherSeparator)
    (each : List.Forall₂ relation docs others) :
    List.Forall₂ relation (docs.intersperse separator) (others.intersperse otherSeparator) := by
  induction each with
  | nil => exact .nil
  | cons first rest induction =>
      cases rest with
      | nil => exact .cons first .nil
      | cons second others =>
          rw [List.intersperse_cons_cons, List.intersperse_cons_cons]
          exact .cons first (.cons separators induction)

namespace Paged

theorem regular_parts (paged : Paged width indent (.concat (docs.map Doc.normalize)) page) :
    ∀ doc ∈ docs, doc.normalize.Regular :=
  List.forall_mem_map.mp (Doc.regular_concat.mp paged.regular)

theorem normalize_concat (paged : Paged width indent (.concat (docs.map Doc.normalize)) page) :
    Paged width indent (Doc.concat docs).normalize page :=
  paged.of_alike (Doc.alike_normalize_parts paged.regular_parts)

theorem normalize_joined (paged : Paged width indent (.concat (docs.map Doc.normalize)) page) :
    Paged width indent (Doc.joined docs).normalize page :=
  paged.of_alike (Doc.alike_normalize_joined_parts paged.regular_parts)

theorem normalize_always_break (paged : Paged width indent doc.normalize page) :
    Paged width indent (Doc.alwaysBreak doc).normalize page :=
  paged.of_alike (Doc.alike_normalize_always_break (.refl paged.regular))

theorem hard_lines {pages : List (List Line)}
    (paged : List.Forall₂ (fun doc page => Paged width indent doc.normalize page) docs pages)
    (nonempty : docs ≠ []) :
    Paged width indent (Doc.joined (docs.intersperse .hardLine)).normalize pages.flatten := by
  apply normalize_joined
  rw [Doc.map_intersperse]
  exact stacked (List.forall₂_map_left_iff.mpr paged) (by simpa using nonempty)

theorem broken_lines {pages : List (List Line)}
    (paged : List.Forall₂ (fun doc page => Paged width indent doc.normalize page) docs pages)
    (nonempty : docs ≠ []) :
    Paged width indent (Doc.alwaysBreak (Doc.joined (docs.intersperse Doc.line))).normalize
      pages.flatten := by
  have both : List.Forall₂ (fun doc page => doc.normalize.Regular ∧
      Paged width indent doc.normalize page) docs pages :=
    paged.imp fun _ _ docPaged => ⟨docPaged.regular, docPaged⟩
  have regular := ((List.forall₂_and_left docs pages).mp both).1
  have page := stacked (List.forall₂_map_left_iff.mpr paged) (by simpa using nonempty)
  have same : List.Forall₂ (Doc.Alike Item.visible .broken)
      ((docs.map Doc.normalize).intersperse Doc.line)
      ((docs.map Doc.normalize).intersperse .hardLine) := by
    apply Doc.forall₂_intersperse Doc.alike_line
    rw [List.forall₂_same, List.forall_mem_map]
    exact fun doc member => .refl (regular doc member)
  apply normalize_always_break
  apply normalize_joined
  rw [Doc.map_intersperse]
  exact page.of_alike (.concat (.inr rfl) same)

end Paged

namespace Below

theorem normalize_joined (below : Below width indent (.concat (docs.map Doc.normalize)) page) :
    Below width indent (Doc.joined docs).normalize page :=
  below.of_alike (Doc.alike_normalize_joined_parts
    (List.forall_mem_map.mp (Doc.regular_concat.mp below.regular)))

theorem normalize_concat (below : Below width indent (.concat (docs.map Doc.normalize)) page) :
    Below width indent (Doc.concat docs).normalize page :=
  below.of_alike (Doc.alike_normalize_parts
    (List.forall_mem_map.mp (Doc.regular_concat.mp below.regular)))

theorem normalize_nest {amount : Amount}
    (below : Below width (indent + amount.toInt) doc.normalize page) :
    Below width indent (Doc.nest amount doc).normalize page :=
  below.nest.of_alike (Doc.alike_normalize_nest amount (.refl below.regular))

theorem nest_left {amount : Amount}
    (below : Below width amount.toInt doc.normalize page) :
    Below width 0 (Doc.nest amount doc).normalize page := by
  apply Below.normalize_nest
  rw [Int.zero_add]
  exact below

end Below

theorem Paged.token (token : Token) {value : String} (breakless : '\n' ∉ value.toList)
    (width indent : Int) :
    Paged width indent (Doc.token token value).normalize [⟨indent, value⟩] := by
  refine ⟨.annotated (.text breakless), [.push (.token token), .text value, .pop (.token token)],
    indent + value.length, rfl, ?_⟩
  simp [linesFrom, headText, laterLines]

theorem Line.shift_zero (line : Line) : line.shift 0 = line := by
  rw [shift, Int.add_zero]

theorem Paged.of_left (regular : doc.Regular) (width : Int) :
    Paged width 0 doc.normalize (doc.page width) := by
  have paged := Paged.of_regular regular width 0
  simpa only [Int.sub_zero, funext Line.shift_zero, List.map_id'] using paged

namespace Line

variable {line : Line} {offset : Int}

theorem Plain.shift (plain : line.Plain) (nonneg : 0 ≤ offset) : (line.shift offset).Plain :=
  ⟨Int.add_nonneg plain.indent nonneg, plain.text⟩

theorem storable_of_shift (plain : line.Plain) (nonneg : 0 ≤ offset)
    {room : Nat} (storable : (line.shift offset).Storable room) : line.Storable room := by
  rcases storable with empty | ⟨-, below, fits⟩
  · exact .inl empty
  · have limit : -Text.countLimit ≤ 0 := by decide
    have indent := plain.indent
    simp only [Line.shift] at below fits
    exact .inr ⟨by omega, by omega, by omega⟩

end Line

/-- Blanks before a line, unless it is empty. -/
def Text.indented (columns : Int) (line : List Char) : List Char :=
  if line = [] then [] else List.replicate columns.toNat ' ' ++ line

theorem Line.characters_shift {line : Line} {offset : Int} (plain : line.Plain)
    (nonneg : 0 ≤ offset) :
    (line.shift offset).characters = Text.indented offset line.characters := by
  by_cases empty : line.text = ""
  · simp [characters, written, shift, Text.indented, empty]
  · have visible : line.characters ≠ [] := by
      intro none
      have length := length_characters empty
      rw [none, List.length_nil] at length
      have nothing : line.text.length = 0 := by omega
      exact empty (String.length_eq_zero_iff.mp nothing)
    have sum : (line.indent + offset).toNat = offset.toNat + line.indent.toNat := by
      have indent := plain.indent
      omega
    rw [Text.indented, if_neg visible, shift, characters_of_text empty, characters_of_text empty,
      join_blanks, join_blanks, sum, List.replicate_add, List.append_assoc]

theorem format_doc_eq (regular : doc.Regular) (width : Int) (room : Nat) :
    formatDoc doc width room =
      (Render.plain (.standard room) (layout doc width).items none).result := by
  rcases layout_reaches regular (Doc.regular_normalize regular) width with
    ⟨items, column, -, laidOut⟩
  rw [formatDoc, laidOut]
  rfl

/-- A document whose lines can all be indented is written as the lines of its page. -/
theorem format_page (regular : doc.Regular) (plain : ∀ line ∈ doc.page width, line.Plain)
    {room : Nat} (storable : ∀ line ∈ doc.page width, line.Storable room) :
    ∃ text, formatDoc doc width room = .ok text ∧
      Text.lines text = (doc.page width).map Line.characters := by
  have success := @Render.write_succeeds room none _ storable
  refine ⟨_, ?_, lines_of_written success fun line member => (plain line member).breakless⟩
  rw [format_doc_eq regular, Output.result, Render.plain, success]

/-- At the first line that cannot be indented, writing a document ends with the fault of its
indentation. -/
theorem format_stops (regular : doc.Regular) {room : Nat} {front back : List Line} {line : Line}
    (split : doc.page width = front ++ line :: back)
    (storable : ∀ line ∈ front, line.Storable room) (unstorable : ¬line.Storable room) :
    ∃ fault, Text.repeated room " " line.indent = .error fault ∧
      formatDoc doc width room = .error fault := by
  have writable : ∀ line ∈ front, line.Writable (.standard room) :=
    fun line member => Line.storable_iff_writable.mp (storable line member)
  obtain ⟨fault, stuck, failed, -⟩ := @Render.write_stops (.standard room) none none _ front back
    line split writable (mt Line.storable_iff_writable.mpr unstorable)
  refine ⟨fault, stuck, ?_⟩
  rw [format_doc_eq regular, Output.result, Render.plain, failed]

theorem format_succeeds_iff (regular : doc.Regular) (plain : ∀ line ∈ doc.page width, line.Plain)
    (room : Nat) :
    (∃ text, formatDoc doc width room = .ok text) ↔
      ∀ line ∈ doc.page width, line.Storable room := by
  refine ⟨fun ⟨text, written⟩ line member => ?_, fun storable => ?_⟩
  · have success : (Render.plain (.standard room) (layout doc width).items none).fault = none := by
      rw [format_doc_eq regular, Output.result] at written
      split at written
      · cases written
      · assumption
    exact Render.storable_of_write success line member
  · obtain ⟨text, written, -⟩ := format_page regular plain storable
    exact ⟨text, written⟩

theorem format_lines (regular : doc.Regular) (plain : ∀ line ∈ doc.page width, line.Plain)
    {room : Nat} {text : String} (written : formatDoc doc width room = .ok text) :
    Text.lines text = (doc.page width).map Line.characters := by
  have storable := (format_succeeds_iff regular plain room).mp ⟨text, written⟩
  obtain ⟨same, isSame, lines⟩ := format_page regular plain storable
  cases isSame.symm.trans written
  exact lines

end KotlinLayout
