import KotlinLayout.Proofs.Layout.Page

/-!
Words in a fill are wrapped greedily. Whether a word goes on the line of the words before it is
decided by a look at the word and the line break after it, so nothing but the column counts.
-/

namespace KotlinLayout

open Layout

namespace Text

def blanks (count : Nat) : String := String.join (List.replicate count " ")

/-- The words after one that ends at a column. A word stays on the line if it fits there behind a
blank, and otherwise begins a new one. -/
def wrappedFrom (indent : Nat) (width : Int) : Int → List String → String
  | _, [] => ""
  | column, word :: rest =>
      if column + 1 + word.length ≤ width then
        " " ++ word ++ wrappedFrom indent width (column + 1 + word.length) rest
      else "\n" ++ blanks indent ++ word ++ wrappedFrom indent width (indent + word.length) rest

def wrapped (indent : Nat) (width : Int) : List String → String
  | [] => ""
  | word :: rest => word ++ wrappedFrom indent width word.length rest

/-- What words are for wrapping: they have characters, and none of them breaks the line. -/
def IsWord (text : String) : Prop := text ≠ "" ∧ '\n' ∉ text.toList

end Text

namespace Layout

variable {indent : Nat} {width : Int} {rest : List String}

def wrapItems (indent : Nat) (width : Int) : Int → List String → List Item
  | _, [] => []
  | column, word :: rest =>
      if column + 1 + word.length ≤ width then
        .text " " :: .text word :: wrapItems indent width (column + 1 + word.length) rest
      else
        .line (.int indent) :: .text word :: wrapItems indent width (indent + word.length) rest

def wordItems (indent : Nat) (width : Int) : List String → List Item
  | [] => []
  | word :: rest => .text word :: wrapItems indent width word.length rest

def wordDocs (words : List String) : List Doc := (words.map Doc.text).intersperse Doc.line

theorem word_docs_cons (word second : String) (rest : List String) :
    wordDocs (word :: second :: rest) = .text word :: Doc.line :: wordDocs (second :: rest) := rfl

theorem exists_word_docs (word : String) (rest : List String) :
    ∃ docs, wordDocs (word :: rest) = .text word :: docs ∧
      headWidth (docs.flatMap (Doc.expand indent .broken)) = 0 := by
  cases rest with
  | nil => exact ⟨[], rfl, rfl⟩
  | cons second rest => exact ⟨Doc.line :: wordDocs (second :: rest), rfl, rfl⟩

theorem word_docs_regular {words : List String} (proper : ∀ word ∈ words, Text.IsWord word) :
    ∀ doc ∈ wordDocs words, doc.Regular := by
  have blank : (Doc.text " ").Regular := .text (by decide)
  have line : Doc.line.Regular := .choice trivial .hardLine blank
  have texts : ∀ doc ∈ words.map Doc.text, doc.Regular := by
    rw [List.forall_mem_map]
    exact fun word member => .text (proper word member).2
  exact Doc.holds_intersperse line texts

/-- Whether a line is flat does not depend on what comes after the word behind it. -/
theorem mode_for_words (column : Int) (word second : String) {docs : List Doc}
    (silent : headWidth (docs.flatMap (Doc.expand indent .broken)) = 0) :
    modeFor width column [⟨.int indent, .flat, .text word⟩, ⟨.int indent, .flat, Doc.line⟩,
        ⟨.int indent, .flat, .text second⟩, ⟨.int indent, .broken, .fill docs⟩] =
      if column + word.length + 1 + second.length ≤ width then .flat else .broken := by
  have blank : Doc.line.expand indent .flat = [.text " "] := rfl
  have one : " ".length = 1 := rfl
  have same : FirstLineFits width column [⟨.int indent, .flat, .text word⟩,
      ⟨.int indent, .flat, Doc.line⟩, ⟨.int indent, .flat, .text second⟩,
      ⟨.int indent, .broken, .fill docs⟩] ↔ column + word.length + 1 + second.length ≤ width := by
    simp only [FirstLineFits, List.flatMap_cons, List.flatMap_nil, Entry.expand, Doc.expand_fill,
      Amount.to_int_int, blank, List.append_nil, List.singleton_append]
    rw [Doc.expand, Doc.expand]
    simp only [List.singleton_append, head_width_text, silent, one]
    omega
  simp only [modeFor, same]

/-- A fill of words takes the steps of a greedy wrapper. -/
theorem words_reach (column : Int) (word : String) (rest : List String) :
    ∃ last, Reaches width
      ⟨[⟨.int indent, .broken, .fill (wordDocs (word :: rest))⟩], column⟩
      (.text word :: wrapItems indent width (column + word.length) rest) ⟨[], last⟩ := by
  induction rest generalizing word column with
  | nil => exact ⟨_, .step .fillLast (.step .text .here)⟩
  | cons second rest induction =>
      obtain ⟨docs, isRest, silent⟩ := @exists_word_docs indent second rest
      have first := @Step.fillNext width (.int indent) (.text word) Doc.line (.text second) docs
        [] column
      rw [Amount.to_int_int, mode_for_words column word second silent, ← isRest,
        ← word_docs_cons] at first
      rw [wrapItems]
      split at first
      · rename_i fitting
        rw [if_pos fitting]
        obtain ⟨last, later⟩ := induction (column + word.length + 1) second
        exact ⟨last, .step first (.step .text (.step .choiceFlat (.step .text later)))⟩
      · rename_i exceeding
        rw [if_neg exceeding]
        obtain ⟨last, later⟩ := induction indent second
        exact ⟨last, .step first (.step .text (.step .choiceBroken (.step .hardLine later)))⟩

theorem wrap_items_plain (column : Int) (proper : ∀ word ∈ rest, Text.IsWord word) :
    ∀ item ∈ wrapItems indent width column rest, item.Plain := by
  have blank : (Item.text " ").Plain := by
    show '\n' ∉ " ".toList
    decide
  induction rest generalizing column with
  | nil => simp [wrapItems]
  | cons word rest induction =>
      obtain ⟨isWord, others⟩ := List.forall_mem_cons.mp proper
      rw [wrapItems]
      split
      · exact List.forall_mem_cons.mpr
          ⟨blank, List.forall_mem_cons.mpr ⟨isWord.2, induction _ others⟩⟩
      · exact List.forall_mem_cons.mpr
          ⟨Int.natCast_nonneg indent, List.forall_mem_cons.mpr ⟨isWord.2, induction _ others⟩⟩

theorem characters_append {current : Line} (begun : current.text ≠ "") (value : String) :
    (⟨current.indent, current.text ++ value⟩ : Line).characters =
      current.characters ++ value.toList := by
  have more : current.text ++ value ≠ "" := by simp [begun]
  rw [Line.characters_of_text more, Line.characters_of_text begun, String.toList_append,
    List.append_assoc]

theorem wrap_items_text {current : Line} (begun : current.text ≠ "") (column : Int)
    (proper : ∀ word ∈ rest, Text.IsWord word) :
    ['\n'].intercalate
        ((linesFrom current (wrapItems indent width column rest)).map Line.characters) =
      current.characters ++ (Text.wrappedFrom indent width column rest).toList := by
  induction rest generalizing current column with
  | nil => simp [wrapItems, Text.wrappedFrom, linesFrom, headText, laterLines]
  | cons word rest induction =>
      obtain ⟨isWord, others⟩ := List.forall_mem_cons.mp proper
      rw [wrapItems, Text.wrappedFrom]
      split
      · have more : current.text ++ " " ++ word ≠ "" := by simp [begun]
        have spaced : current.text ++ " " ≠ "" := by simp [begun]
        rw [lines_from_text, lines_from_text, induction more _ others,
          @characters_append ⟨current.indent, current.text ++ " "⟩ spaced,
          characters_append begun]
        simp only [String.toList_append, List.append_assoc]
      · have written := @induction ⟨indent, word⟩ isWord.1 (indent + word.length) others
        rw [lines_from_line, lines_from_text, List.map_cons, String.empty_append,
          Amount.to_int_int]
        rw [linesFrom, List.map_cons] at written ⊢
        rw [List.intercalate_cons_cons, written, Line.characters_of_text isWord.1,
          Int.toNat_natCast]
        simp only [String.toList_append, Text.blanks, List.append_assoc]
        rfl

/-- Every line but the first is indented and begins with a word. -/
theorem later_lines_of_wrap (column : Int) (proper : ∀ word ∈ rest, Text.IsWord word) :
    ∀ line ∈ laterLines (wrapItems indent width column rest),
      line.indent = indent ∧ line.text ≠ "" := by
  induction rest generalizing column with
  | nil => simp [wrapItems, laterLines]
  | cons word rest induction =>
      obtain ⟨isWord, others⟩ := List.forall_mem_cons.mp proper
      rw [wrapItems]
      split
      · exact induction _ others
      · exact List.forall_mem_cons.mpr
          ⟨⟨Amount.to_int_int _, by simp [headText, isWord.1]⟩, induction _ others⟩

theorem later_lines_of_wrap_eq_nil_iff (column : Int)
    (proper : ∀ word ∈ rest, Text.IsWord word) :
    laterLines (wrapItems indent width column rest) = [] ↔
      '\n' ∉ (Text.wrappedFrom indent width column rest).toList := by
  induction rest generalizing column with
  | nil => simp [wrapItems, laterLines, Text.wrappedFrom]
  | cons word rest induction =>
      obtain ⟨isWord, others⟩ := List.forall_mem_cons.mp proper
      rw [wrapItems, Text.wrappedFrom]
      split
      · have blank : '\n' ∉ " ".toList := by decide
        refine (induction _ others).trans ?_
        simp only [String.toList_append, List.mem_append, blank, isWord.2, false_or]
      · simp [laterLines]

variable {words : List String}

theorem word_items_plain (proper : ∀ word ∈ words, Text.IsWord word) :
    ∀ line ∈ lines (wordItems indent width words), line.Plain := by
  apply lines_plain ⟨Int.le_refl 0, by simp⟩
  cases words with
  | nil => simp [wordItems]
  | cons word rest =>
      obtain ⟨isWord, others⟩ := List.forall_mem_cons.mp proper
      exact List.forall_mem_cons.mpr ⟨isWord.2, wrap_items_plain _ others⟩

theorem word_items_text (proper : ∀ word ∈ words, Text.IsWord word) :
    ['\n'].intercalate ((lines (wordItems indent width words)).map Line.characters) =
      (Text.wrapped indent width words).toList := by
  cases words with
  | nil => rfl
  | cons word rest =>
      obtain ⟨isWord, others⟩ := List.forall_mem_cons.mp proper
      have begun : "" ++ word ≠ "" := by simp [isWord.1]
      rw [lines, wordItems, lines_from_text, wrap_items_text begun _ others,
        Line.characters_unindented, String.empty_append, Text.wrapped, String.toList_append]

/-- The first line is not indented, all others are, and there are others only where the wrapped
text has a line break. -/
theorem lines_of_words (proper : ∀ word ∈ words, Text.IsWord word) :
    ∃ first later, lines (wordItems indent width words) = ⟨0, first⟩ :: later ∧
      (∀ line ∈ later, line.indent = indent ∧ line.text ≠ "") ∧
      (later = [] ↔ '\n' ∉ (Text.wrapped indent width words).toList) := by
  cases words with
  | nil => exact ⟨"", [], rfl, by simp, by simp [Text.wrapped]⟩
  | cons word rest =>
      obtain ⟨isWord, others⟩ := List.forall_mem_cons.mp proper
      have unbroken := @later_lines_of_wrap_eq_nil_iff indent width rest word.length others
      refine ⟨_, _, rfl, later_lines_of_wrap _ others, unbroken.trans ?_⟩
      simp only [Text.wrapped, String.toList_append, List.mem_append, isWord.2, false_or]

end Layout

open Layout

namespace Doc

variable {indent : Nat} {width : Int} {words : List String}

def filled (indent : Nat) (words : List String) : Doc :=
  .nest (.int indent) (.fill (wordDocs words))

theorem cast_words (proper : ∀ word ∈ words, Text.IsWord word) :
    Combinator.castAll (words.map Doc.text) = .ok (words.map Doc.text) := by
  induction words with
  | nil => rfl
  | cons word rest induction =>
      obtain ⟨isWord, others⟩ := List.forall_mem_cons.mp proper
      rw [List.map_cons, Combinator.castAll, Combinator.cast, if_neg isWord.1, checkText,
        if_neg isWord.2, induction others]
      rfl

theorem build_filled (proper : ∀ word ∈ words, Text.IsWord word) :
    (Combinator.fillSep (words.map Doc.text) >>= Combinator.nest (.scalar (.int indent))) =
      .ok (filled indent words) := by
  rw [Combinator.fillSep, cast_words proper]
  rfl

theorem filled_regular (indent : Nat) (proper : ∀ word ∈ words, Text.IsWord word) :
    (filled indent words).Regular :=
  .nest (.fill trivial (word_docs_regular proper))

theorem normalize_filled (indent : Nat) (words : List String) :
    (filled indent words).normalize = filled indent words := by
  have same : (words.map Doc.text).map normalize = words.map Doc.text := by
    rw [List.map_map]
    rfl
  rw [filled, normalize, normalize, normalize_all_eq_map, wordDocs, map_intersperse, same]
  rfl

theorem page_filled (proper : ∀ word ∈ words, Text.IsWord word) :
    (filled indent words).page width = lines (wordItems indent width words) := by
  have sound := State.Sound.start (filled_regular indent proper)
  have reaches : ∃ last, Reaches width (State.start (filled indent words))
      (wordItems indent width words) ⟨[], last⟩ := by
    cases words with
    | nil => exact ⟨0, .step .nest (.step .fillNil .here)⟩
    | cons word rest =>
        obtain ⟨last, later⟩ := @words_reach indent width 0 word rest
        rw [Int.zero_add] at later
        have nested : State.mk [⟨.int (0 + indent), .broken, .fill (wordDocs (word :: rest))⟩] 0 =
            ⟨[⟨.int indent, .broken, .fill (wordDocs (word :: rest))⟩], 0⟩ := by
          rw [Int.zero_add]
        exact ⟨last, .step .nest (nested ▸ later)⟩
  obtain ⟨last, reached⟩ := reaches
  have run := reached.run_to_end sound
  rw [State.run, State.start] at run
  rw [page, layout, (filled_regular indent proper).normalized_eq, normalize_filled]
  dsimp only
  rw [run]

end Doc

/-- Words in a fill are laid out as a greedy wrapper writes them: each on the line of the word
before it, behind a blank, if it fits there, and otherwise on a line of its own. They are written
so if there is one line only or the indentation of the others can be built; otherwise the writing
fails as building the indentation does. -/
theorem fill_of_words_wraps (indent : Nat) (width : Int) (words : List String)
    (proper : ∀ word ∈ words, Text.IsWord word) :
    ∃ doc, (Combinator.fillSep (words.map Doc.text) >>=
        Combinator.nest (.scalar (.int indent))) = .ok doc ∧
      (layout doc width).fault? = none ∧
      ['\n'].intercalate ((lines (layout doc width).items).map Line.characters) =
        (Text.wrapped indent width words).toList ∧
      ∀ room,
        (('\n' ∈ (Text.wrapped indent width words).toList →
            (indent : Int) < Text.countLimit ∧ indent ≤ room) →
          formatDoc doc width room = .ok (Text.wrapped indent width words)) ∧
        ('\n' ∈ (Text.wrapped indent width words).toList →
          ¬((indent : Int) < Text.countLimit ∧ indent ≤ room) →
            ∃ fault, Text.repeated room " " indent = .error fault ∧
              formatDoc doc width room = .error fault) := by
  have regular := Doc.filled_regular indent proper
  have cut := @Doc.page_filled indent width words proper
  have text := @word_items_text indent width words proper
  rw [← cut] at text
  have plain : ∀ line ∈ (Doc.filled indent words).page width, line.Plain := by
    rw [cut]
    exact word_items_plain proper
  obtain ⟨first, later, split, indented, unbroken⟩ := @lines_of_words indent width words proper
  rw [← cut] at split
  refine ⟨Doc.filled indent words, Doc.build_filled proper, layout_succeeds regular width, text,
    fun room => ⟨fun bounded => ?_, fun broken unbounded => ?_⟩⟩
  · have storable : ∀ line ∈ (Doc.filled indent words).page width, line.Storable room := by
      rw [split]
      refine List.forall_mem_cons.mpr ⟨Line.storable_unindented room first, fun line member => ?_⟩
      have broken : '\n' ∈ (Text.wrapped indent width words).toList :=
        not_not.mp (mt unbroken.mpr (List.ne_nil_of_mem member))
      have isIndent := (indented line member).1
      have limit : -Text.countLimit ≤ 0 := by decide
      have bounds := bounded broken
      exact .inr ⟨by omega, by omega, by omega⟩
    obtain ⟨written, success, same⟩ := format_page regular plain storable
    rw [success, Except.ok.injEq, ← String.toList_inj, ← text, ← same, Text.lines,
      List.intercalate_splitOn]
  · obtain ⟨line, back, isLater⟩ := List.exists_cons_of_ne_nil (mt unbroken.mp (not_not.mpr broken))
    subst isLater
    obtain ⟨isIndent, nonempty⟩ := indented line List.mem_cons_self
    have unstorable : ¬line.Storable room := by
      rintro (empty | ⟨-, below, fits⟩)
      · exact nonempty empty
      · exact unbounded ⟨by omega, by omega⟩
    rw [← isIndent]
    exact @format_stops _ _ regular room [⟨0, first⟩] back line split
      (by simp [Line.storable_unindented]) unstorable

/-- A word that is longer than a line takes one of its own. -/
theorem long_word_wraps :
    (∀ word ∈ ["we", "wrap", "paragraphs", "of", "text"], Text.IsWord word) ∧
      ∃ doc, (Combinator.fillSep (["we", "wrap", "paragraphs", "of", "text"].map Doc.text) >>=
          Combinator.nest (.scalar (.int (2 : Nat)))) = .ok doc ∧
        formatDoc doc 9 2 = .ok "we wrap\n  paragraphs\n  of text" := by
  have proper : ∀ word ∈ ["we", "wrap", "paragraphs", "of", "text"], Text.IsWord word := by
    simp only [Text.IsWord]
    decide
  have wrapped : Text.wrapped 2 9 ["we", "wrap", "paragraphs", "of", "text"] =
      "we wrap\n  paragraphs\n  of text" := by decide
  have countable : ((2 : Nat) : Int) < Text.countLimit := by decide
  obtain ⟨doc, built, -, -, written⟩ := fill_of_words_wraps 2 9 _ proper
  exact ⟨proper, doc, built, wrapped ▸ (written 2).1 fun _ => ⟨countable, Nat.le_refl 2⟩⟩

/-- Words that a line break separates are not written where no text is repeated as often as the
indentation says. -/
theorem far_words_are_not_written :
    let words := ["a", "b"]
    let indent : Nat := 0x8000000000000000
    (∀ word ∈ words, Text.IsWord word) ∧
      ∃ doc, (Combinator.fillSep (words.map Doc.text) >>=
          Combinator.nest (.scalar (.int indent))) = .ok doc ∧
        ∀ room, formatDoc doc 1 room = .error .countTooLarge ∧
          formatDoc doc 1 room ≠ .ok (Text.wrapped indent 1 words) := by
  intro words indent
  have proper : ∀ word ∈ words, Text.IsWord word := by
    simp only [words, Text.IsWord]
    decide
  have failed : ∀ room, formatDoc (Doc.filled indent words) 1 room = .error .countTooLarge :=
    fun _ => rfl
  refine ⟨proper, Doc.filled indent words, Doc.build_filled proper, fun room => ?_⟩
  exact ⟨failed room, by simp [failed]⟩

end KotlinLayout
