import KotlinLayout.Proofs.Code.Words
import KotlinLayout.Proofs.Layout.Page
import KotlinLayout.Proofs.Layout.Renormalization
import KotlinLayout.Proofs.Render.Coloring

/-!
Programs in colour. A class without escape characters is the same text in colour, apart from
terminal codes, and can be written in colour if it can be written without.
-/

namespace KotlinLayout

open Text (escapeCharacter)

/-- Writing a laid out document ends without a fault if there is room for every indentation on its
page. -/
theorem write_succeeds_iff {doc : Doc} {width column : Int}
    (finish : (layout doc width).finish = .ok column) (spacing : Spacing) :
    ((layout doc width).write spacing).fault = none ↔
      ∀ line ∈ doc.page width, line.Writable spacing := by
  rw [Run.write, Run.fault?, finish]
  exact ⟨Render.writable_of_write, fun writable =>
    (@Render.write_lines spacing none none _ writable).1⟩

theorem Output.fault_followed_by (output : Output) (piece : String) :
    (output.followedBy piece).fault = output.fault := by
  unfold followedBy
  split <;> rfl

theorem Doc.Constructed.finishes {doc : Doc} (constructed : doc.Constructed) (width : Int) :
    doc.normalize.Regular ∧ ∃ column, (layout doc width).finish = .ok column := by
  have regular := constructed.unboxed_regular
  have normal := Doc.regular_normalize regular
  have finishes := layout_finishes regular width
  rw [Doc.normalize_unboxed] at normal
  rw [layout_unboxed] at finishes
  exact ⟨normal, finishes⟩

/-- Where terminal codes switch the colours, a class whose words have no escape character ends in
colour as it does without: in a fault exactly if some line of its page cannot be indented. What is
written in colour is what is written without, apart from terminal codes, and so it is for every
document. -/
theorem class_recolors {coloring : Coloring} (coded : coloring.Coded) :
    (∀ {node : Node} {doc : Doc}, node.Worded → node.classDoc = .ok doc →
      ∀ (width : Int) {ending : String}, escapeCharacter ∉ ending.toList → ∀ room : Nat,
        let plain := writeClass node width ending room
        let colored := writeColoredClass .available node width ending room coloring
        colored.fault = plain.fault ∧
          (plain.fault = none ↔ ∀ line ∈ doc.page width, line.Storable room) ∧
          Text.uncoded colored.text = plain.text) ∧
      ∀ {doc : Doc}, doc.Constructed → (∀ item ∈ doc.contents, item.Unescaped) →
        ∀ (width : Int) {spacing : Spacing}, spacing.Unescaped →
          let plain := (layout doc width).write spacing
          let colored := (layout doc width).writeColored spacing coloring
          colored.fault = plain.fault ∧
            (plain.fault = none ↔ ∀ line ∈ doc.page width, line.Writable spacing) ∧
            Text.uncoded colored.text = plain.text := by
  constructor
  · intro node doc worded accepted width ending unescaped room plain colored
    have clean := (Node.yields_class worded).good_of_ok doc accepted
    have normal := Doc.regular_normalize clean.regular
    obtain ⟨column, finish⟩ := layout_finishes clean.regular width
    have recolors := (layout_recolors normal clean.unescaped finish
      (Spacing.standard_unescaped room) coded).followed_by unescaped
    have isPlain : plain = ((layout doc width).write (.standard room)).followedBy ending := by
      simp only [plain, writeClass, accepted]
    have isColored : colored =
        ((layout doc width).writeColored (.standard room) coloring).followedBy ending := by
      simp [colored, writeColoredClass, accepted]
    rw [isPlain, isColored]
    refine ⟨recolors.fault, ?_, recolors.uncoded_eq⟩
    rw [Output.fault_followed_by, write_succeeds_iff finish]
    exact forall₂_congr fun line _ => Line.storable_iff_writable.symm
  · intro doc constructed unescaped width spacing unescapedSpacing
    rcases constructed.finishes width with ⟨normal, column, finish⟩
    have recolors := layout_recolors normal unescaped finish unescapedSpacing coded
    exact ⟨recolors.fault, write_succeeds_iff finish spacing, recolors.uncoded_eq⟩

def greeterClass : Node :=
  .classDecl (.text "Greeter") (.text "") [] (.text "") (.text "class ") [] (.text "") [] []
    [.methodDecl (.text "greet") (.text "") [] [] (.text "")
      [.returning (.constant (.text "hello") (.scalar (.flag true)))] (.int 2)] (.int 4)

def greeterText : String :=
  "class Greeter \x7b\n    fun greet() \x7b\n      return\n        \"hello\"\n    \x7d\n\x7d\n"

/-- The second line of a token gets its tab in the colour of the token. -/
theorem greeter_class_recolors :
    let coloring := Style.standard.coloring .trueColor
    let colored := writeColoredClass .available greeterClass 16 "\n" 8 coloring
    coloring.Coded ∧ greeterClass.Worded ∧ colored.fault = none ∧
      Text.uncoded colored.text = greeterText ∧
      let doc := Doc.nest (.int 1) (.annotated (.token .keyword)
        (.concat [.text "a", .hardLine, .boxed "b"]))
      doc.Constructed ∧
        Text.uncoded ((layout doc 9).writeColored ⟨"\r\n", "\t", 1⟩ coloring).text =
          "a\r\n\tb" := by
  intro coloring colored
  have coded : coloring.Coded := Style.standard_coded .trueColor
  have constant : Yields (fun text => escapeCharacter ∉ text.toList)
      (Node.scalar (.text "hello")).shown.text :=
    .ok (by decide : escapeCharacter ∉ "hello".toList)
  have worded : greeterClass.Worded := by
    simp only [greeterClass, Node.Worded, Node.WordedAll, Node.text, Node.Word, constant]
    simp [escapeCharacter]
  have accepted : ∃ doc, greeterClass.classDoc = .ok doc := ⟨_, rfl⟩
  rcases accepted with ⟨greeter, accepted⟩
  have written : (writeClass greeterClass 16 "\n" 8).fault = none ∧
      (writeClass greeterClass 16 "\n" 8).text = greeterText := by decide +kernel
  have unescaped : escapeCharacter ∉ "\n".toList := by decide
  rcases (class_recolors coded).1 worded accepted 16 unescaped 8 with ⟨fault, -, text⟩
  refine ⟨coded, worded, fault.trans written.1, text.trans written.2, ?_⟩
  have parts : ∀ part ∈ [Doc.text "a", .hardLine, .boxed "b"], part.Constructed := by
    simp only [List.forall_mem_cons, List.not_mem_nil, false_implies, implies_true, and_true]
    exact ⟨.text (by decide), .hardLine, .ofText (by rfl : Doc.ofText (.text "b") = _)⟩
  intro doc
  have constructed : doc.Constructed :=
    @Doc.Constructed.nest (.scalar (.int 1)) _ _ (.ofAnnotated (.ofConcat parts)) rfl
  have contents : ∀ item ∈ doc.contents, item.Unescaped := by
    simp [doc, Doc.contents, Doc.contentsAll, Item.Unescaped, escapeCharacter]
  have spacing : (⟨"\r\n", "\t", 1⟩ : Spacing).Unescaped := ⟨by decide, by decide⟩
  have plain : ((layout doc 9).write ⟨"\r\n", "\t", 1⟩).text = "a\r\n\tb" := by decide +kernel
  rcases (class_recolors coded).2 constructed contents 9 spacing with ⟨-, -, text⟩
  exact ⟨constructed, text.trans plain⟩

/-- A class that stands too far to the left for its indentation to be written. -/
def outdentedClass : Node :=
  .classDecl (.text "A") (.text "") [] (.text "") (.text "class ") [] (.text "") [] []
    [.methodDecl (.text "f") (.text "") [] [] (.text "") [] (.int 4)]
    (.int (-(Text.countLimit + 1)))

theorem outdented_class_is_not_written :
    outdentedClass.Worded ∧ (∃ doc, outdentedClass.classDoc = .ok doc) ∧
      ∀ mode room,
        let coloring := Style.standard.coloring mode
        coloring.Coded ∧ (writeColoredClass .available outdentedClass 79 "\n" room coloring).fault =
          some .countTooLarge := by
  refine ⟨?_, ⟨_, rfl⟩, fun mode room => ⟨Style.standard_coded mode, ?_⟩⟩
  · simp [outdentedClass, Node.Worded, Node.WordedAll, Node.text, Node.Word, escapeCharacter]
  · cases mode <;> rfl

end KotlinLayout
