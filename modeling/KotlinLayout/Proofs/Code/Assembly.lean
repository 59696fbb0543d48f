import KotlinLayout.Proofs.Code.Declaration
import KotlinLayout.Proofs.Code.Overhang

/-!
The text of a class, put together from texts of its parts. The header of a class, the headers of
its methods and all their statements are formatted separately, each on a page as wide as what its
place leaves of the whole one, and then indented.
-/

namespace KotlinLayout

def Doc.textLines (doc : Doc) (width : Int) (room : Nat) : Except Fault (List (List Char)) :=
  Text.lines <$> formatDoc doc width room

namespace Node

def closingLine : List Char := "\x7d".toList

def statementLines (nestUnit : NestUnit) (width : Int) (room : Nat) (statement : Node) :
    Except Fault (List (List Char)) := do
  (← statement.statementDoc nestUnit).textLines width room

def methodLines (node : Node) (width : Int) (room : Nat) :
    Except Fault (List (List Char)) := do
  let header ← (← node.methodHeader).textLines width room
  let indent ← node.nestUnit.indent
  let statements ← node.body.mapM (statementLines node.nestUnit (width - indent.toInt) room)
  return header ++ statements.flatten.map (Text.indented indent.toInt) ++ [closingLine]

/-- Methods on what the indentation leaves of the page, each but a first member after an empty
line. -/
def memberLines (indent width : Int) (room : Nat) (isFirst : Bool) : List Node →
    Except Fault (List (List Char))
  | [] => .ok []
  | method :: rest => do
      let first ← method.methodLines (width - indent) room
      let others ← memberLines indent width room false rest
      return (if isFirst then [] else [[]]) ++ first.map (Text.indented indent) ++ others

def keywordLine (keyword : String) (name : Node) : Except Fault (List Char) := do
  return (keyword ++ " " ++ (← name.shown.text)).toList

def packageLines (package : Node) : Except Fault (List (List Char)) :=
  if package.isSet then do return [← keywordLine "package" package] else .ok []

/-- A class from its header and its members. A field leaves an empty line. -/
def classLines (node : Node) (width : Int) (room : Nat) : Except Fault (List (List Char)) := do
  let package ← packageLines node.package
  let imports ← node.imports.mapM (keywordLine "import")
  let header ← (← node.classHeader).textLines width room
  let indent ← node.nestUnit.indent
  let members ← memberLines indent.toInt width room node.fields.isEmpty node.methods
  return package ++ imports ++ header ++ node.fields.map (fun _ => []) ++ members ++ [closingLine]

end Node

open Layout

variable {width : Int} {room : Nat} {indent : Amount} {doc header : Doc} {docs : List Doc}

theorem map_characters_shift {page : List Line} {offset : Int} (plain : ∀ line ∈ page, line.Plain)
    (nonneg : 0 ≤ offset) :
    (page.map (Line.shift offset)).map Line.characters =
      (page.map Line.characters).map (Text.indented offset) := by
  rw [List.map_map, List.map_map]
  apply List.map_congr_left
  exact fun line member => Line.characters_shift (plain line member) nonneg

/-- A text with the lines of a page, as far as these can be indented. -/
structure Renders (room : Nat) (page : List Line) (text : Except Fault (List (List Char))) :
    Prop where
  plain : ∀ line ∈ page, line.Plain
  characters : (∀ line ∈ page, line.Storable room) → text = .ok (page.map Line.characters)

variable {page more : List Line} {text other : Except Fault (List (List Char))}

theorem Doc.Phrase.renders (phrase : doc.Phrase Amount.Rightward) (width : Int) (room : Nat) :
    Renders room (doc.page width) (doc.textLines width room) := by
  refine ⟨phrase.page_plain width, fun storable => ?_⟩
  rcases format_page phrase.regular (phrase.page_plain width) storable with ⟨text, written, lines⟩
  rw [Doc.textLines, written, ← lines]
  rfl

namespace Renders

theorem nothing : Renders room [] (.ok []) := ⟨by simp, fun _ => rfl⟩

theorem single {value : String} (breakless : '\n' ∉ value.toList) :
    Renders room [⟨0, value⟩] (.ok [value.toList]) := by
  refine ⟨List.forall_mem_singleton.mpr ⟨Int.le_refl 0, breakless⟩, fun _ => ?_⟩
  rw [List.map_singleton, Line.characters_unindented]

theorem append (first : Renders room page text) (rest : Renders room more other) :
    Renders room (page ++ more) (do return (← text) ++ (← other)) := by
  refine ⟨List.forall_mem_append.mpr ⟨first.plain, rest.plain⟩, fun storable => ?_⟩
  have each := List.forall_mem_append.mp storable
  rw [first.characters each.1, rest.characters each.2, List.map_append]
  rfl

theorem shift {offset : Int} (renders : Renders room page text) (nonneg : 0 ≤ offset) :
    Renders room (page.map (Line.shift offset)) (List.map (Text.indented offset) <$> text) := by
  refine ⟨List.forall_mem_map.mpr fun line member => (renders.plain line member).shift nonneg,
    fun storable => ?_⟩
  have each := List.forall_mem_map.mp storable
  have inner : ∀ line ∈ page, line.Storable room := fun line member =>
    Line.storable_of_shift (renders.plain line member) nonneg (each line member)
  rw [renders.characters inner, map_characters_shift renders.plain nonneg]
  rfl

end Renders

theorem brace_regular : Doc.rightBrace.Regular := .annotated (.text (by decide))

theorem brace_paged (width indent : Int) :
    Paged width indent Doc.rightBrace.normalize [⟨indent, "\x7d"⟩] :=
  .token .punctuation (by decide) width indent

theorem brace_renders : Renders room [⟨0, "\x7d"⟩] (.ok [Node.closingLine]) :=
  .single (by decide)

theorem brace_below (width indent : Int) :
    Below width indent (.concat [.hardLine, Doc.rightBrace.normalize]) [⟨indent, "\x7d"⟩] :=
  .new_line ((brace_paged width indent).cons .nothing)

theorem nested_lines_regular (regular : ∀ doc ∈ docs, doc.Regular) (indent : Amount) :
    ∀ part ∈ Node.nestedLines indent docs, part.Regular := by
  unfold Node.nestedLines
  split
  · simp
  · have line : Doc.line.Regular := .choice trivial .hardLine (.text (by decide))
    have block := Doc.sound_joined (Doc.holds_intersperse line regular)
    have below : (Doc.concat [.hardLine, .alwaysBreak
        (Doc.joined (docs.intersperse Doc.line))]).Regular := by
      apply Doc.Sound.concat
      simpa using ⟨Doc.Sound.hardLine, Doc.Sound.alwaysBreak block⟩
    have nest : (Doc.nest indent (.concat [.hardLine, .alwaysBreak
        (Doc.joined (docs.intersperse Doc.line))])).Regular := .nest below
    exact List.forall_mem_singleton.mpr nest

/-- Nested statements are laid out like statements on what the indentation leaves of the page. -/
theorem nested_lines_below (regular : ∀ doc ∈ docs, doc.Regular) (indent : Amount)
    {later : List Doc} {more : List Line} (below : Below width 0 (.concat later) more) :
    Below width 0 (.concat ((Node.nestedLines indent docs).map Doc.normalize ++ later))
      ((docs.flatMap (Doc.page · (width - indent.toInt))).map (Line.shift indent.toInt) ++
        more) := by
  -- Without statements there is neither nesting nor a line break.
  by_cases empty : docs = []
  · subst empty
    exact below
  · have paged : List.Forall₂ (fun doc page => Paged width indent.toInt doc.normalize page) docs
        (docs.map fun doc =>
          (doc.page (width - indent.toInt)).map (Line.shift indent.toInt)) := by
      rw [List.forall₂_map_right_iff, List.forall₂_same]
      exact fun doc member => .of_regular (regular doc member) width indent.toInt
    have pages : (docs.map fun doc =>
        (doc.page (width - indent.toInt)).map (Line.shift indent.toInt)).flatten =
        (docs.flatMap (Doc.page · (width - indent.toInt))).map (Line.shift indent.toInt) := by
      rw [List.map_flatMap, List.flatMap_def]
    have lines := (Paged.broken_lines paged empty).cons Below.nothing
    rw [List.append_nil, pages] at lines
    have nested := @Below.normalize_concat width indent.toInt [.hardLine, _] _ (.new_line lines)
    have same : Node.nestedLines indent docs = [.nest indent (.concat [.hardLine, .alwaysBreak
        (Doc.joined (docs.intersperse Doc.line))])] := by
      rw [Node.nestedLines, if_neg (by simpa using empty)]
    rw [same]
    exact nested.nest_left.cons below

/-- A method takes the lines of its header, those of its statements, and one for its brace. -/
theorem method_page (headerRegular : header.Regular) (regular : ∀ doc ∈ docs, doc.Regular)
    (indent : Amount) (width : Int) :
    (Doc.concat (header :: Node.nestedLines indent docs ++
        [.hardLine, Doc.rightBrace])).Regular ∧
      (Doc.concat (header :: Node.nestedLines indent docs ++
          [.hardLine, Doc.rightBrace])).page width =
        header.page width ++
          ((docs.flatMap (Doc.page · (width - indent.toInt))).map (Line.shift indent.toInt) ++
            [⟨0, "\x7d"⟩]) := by
  have whole : (Doc.concat (header :: Node.nestedLines indent docs ++
      [.hardLine, Doc.rightBrace])).Regular := by
    apply Doc.Sound.concat
    simp only [List.cons_append, List.forall_mem_cons, List.forall_mem_append, List.not_mem_nil,
      false_implies, implies_true, and_true]
    exact ⟨headerRegular, nested_lines_regular regular indent, .hardLine, brace_regular⟩
  refine ⟨whole, Paged.page_eq ?_ whole⟩
  apply Paged.normalize_concat
  rw [List.map_append, List.map_cons, List.cons_append]
  exact (Paged.of_left headerRegular width).cons
    (nested_lines_below regular indent (brace_below width 0))

theorem statements_render {statements : List Node}
    (success : Node.statementDocs (.columns indent) statements = .ok docs)
    (phrases : ∀ doc ∈ docs, doc.Phrase Amount.Rightward) (width : Int) (room : Nat) :
    Renders room (docs.flatMap (Doc.page · width))
      (List.flatten <$> statements.mapM (Node.statementLines (.columns indent) width room)) := by
  induction statements generalizing docs with
  | nil =>
      cases success
      exact .nothing
  | cons statement rest induction =>
      rcases bind_eq_ok_iff.mp success with ⟨first, isFirst, success⟩
      rcases bind_eq_ok_iff.mp success with ⟨others, areOthers, success⟩
      cases success
      have each := List.forall_mem_cons.mp phrases
      have renders := (each.1.renders width room).append (induction areOthers each.2)
      have same : List.flatten <$>
          (statement :: rest).mapM (Node.statementLines (.columns indent) width room) = (do
            return (← first.textLines width room) ++
              (← List.flatten <$>
                rest.mapM (Node.statementLines (.columns indent) width room))) := by
        rw [List.mapM_cons, Node.statementLines, isFirst]
        simp only [bind_assoc, map_bind, map_pure, bind_map_left, List.flatten_cons]
        rfl
      rw [same]
      exact renders

/-- The text of a method is put together from its header and its statements. -/
theorem Node.PrintableMethod.renders {node : Node} (printable : node.PrintableMethod)
    (width : Int) (room : Nat) :
    ∃ doc, node.methodDoc = .ok doc ∧ doc.Regular ∧
      Renders room (doc.page width) (node.methodLines width room) := by
  rcases printable.method_doc with
    ⟨header, indent, docs, isHeader, headerPhrase, columns, nonneg, areDocs, phrases, isDoc⟩
  have regular : ∀ doc ∈ docs, doc.Regular := fun doc member => (phrases doc member).regular
  rcases method_page headerPhrase.regular regular indent width with ⟨whole, page⟩
  have statements := statements_render areDocs phrases (width - indent.toInt) room
  have renders := (headerPhrase.renders width room).append
    ((statements.shift nonneg).append brace_renders)
  refine ⟨_, isDoc, whole, ?_⟩
  rw [page]
  convert renders using 1
  rw [methodLines, isHeader, columns]
  simp only [bind_map_left, bind_assoc, List.append_assoc]
  rfl

theorem Renders.empty {offset : Int} (nonneg : 0 ≤ offset) :
    Renders room [⟨offset, ""⟩] (.ok [[]]) :=
  ⟨List.forall_mem_singleton.mpr ⟨nonneg, String.toList_empty ▸ List.not_mem_nil⟩, fun _ => rfl⟩

theorem members_assembled {methods : List Node}
    (printable : ∀ method ∈ methods, method.PrintableMethod) {offset : Int} (nonneg : 0 ≤ offset)
    (width : Int) (room : Nat) (isFirst : Bool) :
    ∃ docs page, Node.methodDocs isFirst methods = .ok docs ∧ (∀ doc ∈ docs, doc.Regular) ∧
      Below width offset (.concat (docs.map Doc.normalize)) page ∧
      Renders room page (Node.memberLines offset width room isFirst methods) := by
  induction methods generalizing isFirst with
  | nil => exact ⟨[], [], rfl, by simp, .nothing, .nothing⟩
  | cons method rest induction =>
      have each := List.forall_mem_cons.mp printable
      rcases each.1.renders (width - offset) room with ⟨doc, isDoc, regular, first⟩
      -- The methods after this one are below it, so they are no first members.
      rcases induction each.2 false with ⟨docs, page, areDocs, others, below, renders⟩
      have gapRegular : ∀ doc ∈ if isFirst then [] else [Doc.hardLine], doc.Regular := by
        cases isFirst with
        | true => simp
        | false => exact List.forall_mem_singleton.mpr .hardLine
      have lines := Below.new_line ((Paged.of_regular regular width offset).cons below)
      have gap : Renders room (if isFirst then [] else [⟨offset, ""⟩])
          (.ok (if isFirst then [] else [[]])) := by
        cases isFirst with
        | true => exact .nothing
        | false => exact .empty nonneg
      refine ⟨(if isFirst then [] else [.hardLine]) ++ [.hardLine, doc] ++ docs,
        (if isFirst then [] else [⟨offset, ""⟩]) ++
          ((doc.page (width - offset)).map (Line.shift offset) ++ page), ?_, ?_, ?_, ?_⟩
      · rw [Node.methodDocs, isDoc, areDocs]
        rfl
      · simp only [List.forall_mem_append, List.forall_mem_cons, List.not_mem_nil, false_implies,
          implies_true, and_true]
        exact ⟨⟨gapRegular, .hardLine, regular⟩, others⟩
      · cases isFirst with
        | true => exact lines
        | false => exact lines.empty_line
      · convert gap.append ((first.shift nonneg).append renders) using 1
        simp only [Node.memberLines, bind_map_left, bind_assoc, List.append_assoc]
        rfl

/-- Every field leaves an empty line. -/
theorem fields_below {members : List Doc} {page : List Line} {offset : Int} (fields : List Node)
    (below : Below width offset (.concat members) page) :
    Below width offset (.concat (fields.map (fun _ => .hardLine) ++ members))
      (fields.map (fun _ => ⟨offset, ""⟩) ++ page) := by
  induction fields with
  | nil => exact below
  | cons field rest induction => exact induction.empty_line

theorem fields_render (fields : List Node) {offset : Int} (nonneg : 0 ≤ offset) :
    Renders room (fields.map fun _ => ⟨offset, ""⟩) (.ok (fields.map fun _ => [])) := by
  induction fields with
  | nil => exact .nothing
  | cons field rest induction => exact (Renders.empty nonneg).append induction

theorem keyword_assembled {name : Node} (named : name.Named) {keyword : String}
    (breakless : '\n' ∉ keyword.toList) (width : Int) :
    ∃ doc line, name.toToken .nameNamespace = .ok doc ∧
      (Doc.concat [Doc.token .keywordNamespace keyword, Doc.blank, doc]).Regular ∧
      Paged width 0 (Doc.concat [Doc.token .keywordNamespace keyword, Doc.blank, doc]).normalize
        [line] ∧
      Renders room [line] (List.singleton <$> Node.keywordLine keyword name) := by
  cases named with
  | @text value valueBreakless =>
  have isDoc := Node.to_token_of_cast .nameNamespace (Node.cast_text valueBreakless)
  have parts : ∀ part ∈ [Doc.token .keywordNamespace keyword, Doc.blank, .annotated
      (.token .nameNamespace) (if value = "" then .nil else .text value)], part.Regular := by
    simp only [List.forall_mem_cons, List.not_mem_nil, false_implies, implies_true, and_true]
    refine ⟨.annotated (.text breakless), .text (by decide), .annotated ?_⟩
    split
    · exact .nil
    · exact .text valueBreakless
  refine ⟨_, ⟨0, keyword ++ " " ++ value⟩, isDoc, .concat parts, .normalize_concat ⟨?_, ?_⟩, ?_⟩
  · apply Doc.Sound.concat
    exact List.forall_mem_map.mpr fun part member => Doc.regular_normalize (parts part member)
  -- An empty name is no text at all, so the items are not the same.
  · by_cases empty : value = ""
    · subst empty
      refine ⟨[.push (.token .keywordNamespace), .text keyword,
        .pop (.token .keywordNamespace), .text " ", .push (.token .nameNamespace),
        .pop (.token .nameNamespace)], _, rfl, ?_⟩
      simp [linesFrom, headText, laterLines]
    · rw [if_neg empty]
      refine ⟨[.push (.token .keywordNamespace), .text keyword,
        .pop (.token .keywordNamespace), .text " ", .push (.token .nameNamespace), .text value,
        .pop (.token .nameNamespace)], _, rfl, ?_⟩
      simp [linesFrom, headText, laterLines, String.append_assoc]
  · apply Renders.single
    simp [breakless, valueBreakless]

theorem package_assembled {package : Node} (named : package.isSet = true → package.Named)
    (width : Int) :
    ∃ docs page, Node.packageDocs package = .ok docs ∧ (∀ doc ∈ docs, doc.Regular) ∧
      List.Forall₂ (fun doc line => Paged width 0 doc.normalize [line]) docs page ∧
      Renders room page (Node.packageLines package) := by
  cases given : package.isSet with
  | false =>
      refine ⟨[], [], ?_, by simp, .nil, ?_⟩
      · simp [Node.packageDocs, given]
      · simpa [Node.packageLines, given] using Renders.nothing
  | true =>
      have breakless : '\n' ∉ "package".toList := by decide
      rcases keyword_assembled (named given) breakless width with
        ⟨doc, line, isDoc, regular, paged, renders⟩
      refine ⟨_, [line], ?_, List.forall_mem_singleton.mpr regular, .cons paged .nil, ?_⟩
      · rw [Node.packageDocs, if_pos given, isDoc]
        rfl
      · rw [Node.packageLines, if_pos given]
        exact renders

theorem imports_assembled {imports : List Node} (named : ∀ name ∈ imports, name.Named)
    (width : Int) :
    ∃ docs page, Node.importDocs imports = .ok docs ∧ (∀ doc ∈ docs, doc.Regular) ∧
      List.Forall₂ (fun doc line => Paged width 0 doc.normalize [line]) docs page ∧
      Renders room page (imports.mapM (Node.keywordLine "import")) := by
  induction imports with
  | nil => exact ⟨[], [], rfl, by simp, .nil, .nothing⟩
  | cons name rest induction =>
      have breakless : '\n' ∉ "import".toList := by decide
      have each := List.forall_mem_cons.mp named
      rcases keyword_assembled each.1 breakless width with
        ⟨doc, line, isDoc, regular, paged, renders⟩
      rcases induction each.2 with ⟨docs, page, areDocs, others, pages, otherRenders⟩
      rcases bind_eq_ok_iff.mp areDocs with ⟨names, areNames, same⟩
      cases same
      refine ⟨_, line :: page, ?_, List.forall_mem_cons.mpr ⟨regular, others⟩, .cons paged pages,
        ?_⟩
      · rw [Node.importDocs, Node.toTokens, isDoc, areNames]
        rfl
      · have both := renders.append otherRenders
        rw [bind_map_left] at both
        rw [List.mapM_cons]
        exact both

/-- A class without its package and imports takes the lines of its header, an empty line for every
field, those of its methods, and one for its brace. -/
theorem declaration_paged (headerRegular : header.Regular) (fields : List Node)
    (regular : ∀ doc ∈ docs, doc.Regular)
    (below : Below width indent.toInt (.concat (docs.map Doc.normalize)) page) :
    (Doc.concat [header, .nest indent (Doc.joined (fields.map (fun _ => .hardLine) ++ docs)),
        .hardLine, Doc.rightBrace]).Regular ∧
      Paged width 0 (Doc.concat [header, .nest indent (Doc.joined
          (fields.map (fun _ => .hardLine) ++ docs)), .hardLine, Doc.rightBrace]).normalize
        (header.page width ++
          (fields.map (fun _ => ⟨indent.toInt, ""⟩) ++ page ++ [⟨0, "\x7d"⟩])) := by
  have gaps : ∀ doc ∈ fields.map (fun _ => Doc.hardLine), doc.Regular := by
    rw [List.forall_mem_map]
    exact fun _ _ => .hardLine
  have members := Doc.sound_joined (List.forall_mem_append.mpr ⟨gaps, regular⟩)
  have membersBelow : Below width indent.toInt
      (Doc.joined (fields.map (fun _ => .hardLine) ++ docs)).normalize
      (fields.map (fun _ => ⟨indent.toInt, ""⟩) ++ page) := by
    apply Below.normalize_joined
    rw [List.map_append, List.map_map]
    exact fields_below fields below
  constructor
  · apply Doc.Sound.concat
    simp only [List.forall_mem_cons, List.not_mem_nil, false_implies, implies_true, and_true]
    exact ⟨headerRegular, .nest members, .hardLine, brace_regular⟩
  · apply Paged.normalize_concat
    exact (Paged.of_left headerRegular width).cons
      (membersBelow.nest_left.cons (brace_below width 0))

/-- The lines of a class are put together from those of its parts. -/
theorem Node.PrintableClass.renders {node : Node} (printable : node.PrintableClass)
    (width : Int) (room : Nat) :
    ∃ doc, node.classDoc = .ok doc ∧ doc.Regular ∧
      Renders room (doc.page width) (node.classLines width room) := by
  rcases printable.class_doc with ⟨header, indent, isHeader, headerPhrase, columns, nonneg,
    isPackage, areImports, areMethods, isDoc⟩
  rcases package_assembled isPackage width with
    ⟨packages, packagePage, packagesEq, packageRegular, packagePaged, packageRenders⟩
  rcases imports_assembled areImports width with
    ⟨imports, importPage, importsEq, importRegular, importPaged, importRenders⟩
  rcases members_assembled areMethods nonneg width room node.fields.isEmpty with
    ⟨members, memberPage, membersEq, memberRegular, memberBelow, memberRenders⟩
  rcases declaration_paged headerPhrase.regular node.fields memberRegular memberBelow with
    ⟨declarationRegular, declarationPaged⟩
  have paged := List.rel_append (List.rel_append (List.forall₂_map_right_iff.mpr packagePaged)
    (List.forall₂_map_right_iff.mpr importPaged)) (.cons declarationPaged .nil)
  have whole := Paged.hard_lines paged (by simp)
  have parts : ∀ part ∈ packages ++ imports ++ [Doc.concat [header, .nest indent (Doc.joined
      (node.fields.map (fun _ => .hardLine) ++ members)), .hardLine, Doc.rightBrace]],
      part.Regular := by
    simp only [List.forall_mem_append, List.forall_mem_singleton]
    exact ⟨⟨packageRegular, importRegular⟩, declarationRegular⟩
  have regular := Doc.sound_joined (Doc.holds_intersperse .hardLine parts)
  have memberLines := (fields_render node.fields nonneg).append memberRenders
  have renders := (packageRenders.append importRenders).append
    ((headerPhrase.renders width room).append (memberLines.append brace_renders))
  refine ⟨_, isDoc packages imports members packagesEq importsEq membersEq, regular, ?_⟩
  rw [whole.page_eq regular, List.flatten_append, List.flatten_append, ← List.flatMap_def,
    ← List.flatMap_def, List.flatMap_singleton', List.flatMap_singleton', List.flatten_singleton]
  convert renders using 1
  rw [Node.classLines, isHeader, columns]
  simp only [bind_assoc, pure_bind, List.append_assoc]
  rfl

theorem format_class_eq {node : Node} (isDoc : node.classDoc = .ok doc) (width : Int)
    (room : Nat) : formatClass node width room = formatDoc doc width room := by
  rw [formatClass, isDoc]
  rfl

/-- A class is the assembly of its parts, each formatted by itself, if every line with a text on it
can be indented. Otherwise writing it ends with the fault of the first indentation that cannot be
written. -/
theorem class_assembled {node : Node} (printable : node.PrintableClass) (width : Int)
    (room : Nat) :
    ∃ doc, node.classDoc = .ok doc ∧ (layout doc width).fault? = none ∧
      ((∀ line ∈ doc.page width, line.Storable room) →
        ∃ text, formatClass node width room = .ok text ∧
          node.classLines width room = .ok (Text.lines text)) ∧
      ∀ front line back, doc.page width = front ++ line :: back →
        (∀ line ∈ front, line.Storable room) → ¬line.Storable room →
          ∃ fault, Text.repeated room " " line.indent = .error fault ∧
            formatClass node width room = .error fault := by
  rcases printable.renders width room with ⟨doc, isDoc, regular, renders⟩
  rw [format_class_eq isDoc]
  refine ⟨doc, isDoc, layout_succeeds regular width, fun storable => ?_, ?_⟩
  · obtain ⟨text, written, lines⟩ := format_page regular renders.plain storable
    exact ⟨text, written, by rw [renders.characters storable, lines]⟩
  · intro front line back split storable unstorable
    exact format_stops regular split storable unstorable

/-- A class with a field and a method, one of whose statements does not fit on a line. -/
def counterClass : Node :=
  .classDecl (.text "Counter") (.text "app") [.text "app.Log"] (.text "") (.text "class ") []
    (.text "") [] [.object]
    [.methodDecl (.text "step") (.text "") [] [] (.text "")
      [.assignment (.field (.text "total")) (.field (.text "next")), .call (.text "log") []]
      (.int 4)] (.int 2)

def counterText : String :=
  "package app\nimport app.Log\nclass Counter \x7b\n\n\n" ++
    "  fun step() \x7b\n      total =\n          next\n      log()\n  \x7d\n\x7d"

/-- The assignment breaks and the call after it does not. -/
theorem counter_class_assembled :
    counterClass.PrintableClass ∧ ∃ doc, counterClass.classDoc = .ok doc ∧
      (∀ line ∈ doc.page 16, line.Storable 10) ∧
      formatClass counterClass 16 10 = .ok counterText ∧
      counterClass.classLines 16 10 = .ok (Text.lines counterText) := by
  have call : Node.PrintableStatement (.call (.text "log") []) :=
    .call (.call (by decide) (by simp))
  have assignment : Node.PrintableStatement
      (.assignment (.field (.text "total")) (.field (.text "next"))) :=
    .assignment (.field (by decide)) (.field (by decide))
  have method : Node.PrintableMethod (.methodDecl (.text "step") (.text "") [] [] (.text "")
      [.assignment (.field (.text "total")) (.field (.text "next")), .call (.text "log") []]
      (.int 4)) := by
    refine .declared rfl (.text (by decide)) (.text (by decide)) (by simp) (by simp) ?_ ?_ rfl
      (by decide)
    · exact fun _ => .text (by decide)
    · exact List.forall_mem_cons.mpr ⟨assignment, List.forall_mem_singleton.mpr call⟩
  have printable : counterClass.PrintableClass := by
    refine .declared rfl (.text (by decide)) (fun _ => .text (by decide)) ?_ (.text (by decide))
      (.text (by decide)) (by simp) (fun _ => .text (by decide)) (by simp) ?_ rfl (by decide)
    · exact List.forall_mem_singleton.mpr (.text (by decide))
    · exact List.forall_mem_singleton.mpr method
  have written : formatClass counterClass 16 10 = .ok counterText := by decide +kernel
  rcases class_assembled printable 16 10 with ⟨doc, isDoc, -, assembled, -⟩
  have storable : ∀ line ∈ doc.page 16, line.Storable 10 := by
    cases isDoc
    decide +kernel
  obtain ⟨text, same, lines⟩ := assembled storable
  cases same.symm.trans written
  exact ⟨printable, doc, isDoc, storable, written, lines⟩

/-- A class whose method is indented further than a text can be repeated. -/
def farClass : Node :=
  .classDecl (.text "A") (.text "") [] (.text "") (.text "class ") [] (.text "") [] []
    [.methodDecl (.text "f") (.text "") [] [] (.text "") [] (.int 4)] (.int Text.countLimit)

/-- All of its parts have texts, but not the whole. -/
theorem far_class_is_not_assembled :
    farClass.PrintableClass ∧ ∀ room,
      (∃ lines, farClass.classLines 79 room = .ok lines) ∧
        formatClass farClass 79 room = .error .countTooLarge := by
  have method : Node.PrintableMethod
      (.methodDecl (.text "f") (.text "") [] [] (.text "") [] (.int 4)) := by
    refine .declared rfl (.text (by decide)) (.text (by decide)) (by simp) (by simp) ?_ (by simp)
      rfl (by decide)
    exact fun _ => .text (by decide)
  refine ⟨?_, fun room => ⟨⟨_, rfl⟩, rfl⟩⟩
  refine .declared rfl (.text (by decide)) (fun _ => .text (by decide)) (by simp)
    (.text (by decide)) (.text (by decide)) (by simp) (fun _ => .text (by decide)) (by simp) ?_ rfl
    (by decide)
  exact List.forall_mem_singleton.mpr method

end KotlinLayout
