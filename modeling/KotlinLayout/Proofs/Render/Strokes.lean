import KotlinLayout.Format
import KotlinLayout.Proofs.Layout.Labeled
import KotlinLayout.Proofs.Render.Codes
import Mathlib.Data.List.Forall2

/-!
What coloured writing puts down, stroke by stroke. The codes of the open tokens are kept for the
labels that are open, and the code that was written last is that of the innermost of them.
-/

namespace KotlinLayout

open List (Forall₂)

def Label.token? : Label → Option Token
  | .token value => some value
  | .datum _ => none

namespace Render

inductive Stroke where
  | text (value : String)
  /-- A line break or an indentation. -/
  | space (value : String)
  | code (value : String)

def Stroke.written : Stroke → String
  | .text value | .space value | .code value => value

def pendingAfter : Option Amount → List Item → Option Amount
  | pending, [] => pending
  | pending, .text value :: rest => pendingAfter (if value = "" then pending else none) rest
  | _, .line indent :: rest => pendingAfter (some indent) rest
  | pending, _ :: rest => pendingAfter pending rest

theorem pending_after_cons (pending : Option Amount) (item : Item) (rest : List Item) :
    pendingAfter pending (item :: rest) = pendingAfter (pendingAfter pending [item]) rest := by
  cases item <;> rfl

/-- What there is to write for an item, with the indentation that is pending. Only tokens have
codes. -/
inductive Writes (spacing : Spacing) (pending : Option Amount) : Item → List Stroke → Prop where
  | empty : Writes spacing pending (.text "") []
  | text {value indentation : String} :
      value ≠ "" → spacing.indentation pending = .ok indentation →
        Writes spacing pending (.text value) [.space indentation, .text value]
  | line {indent : Amount} : Writes spacing pending (.line indent) [.space spacing.newline]
  | push {token : Token} {code : String} :
      Writes spacing pending (.push (.token token)) [.code code]
  | pop {token : Token} {code : String} : Writes spacing pending (.pop (.token token)) [.code code]
  | pushDatum {value : Datum} : Writes spacing pending (.push (.datum value)) []
  | popDatum {value : Datum} : Writes spacing pending (.pop (.datum value)) []
  | blank : Writes spacing pending .blank []
  | datum {value : Datum} : Writes spacing pending (.datum value) []

inductive WritesAll (spacing : Spacing) : Option Amount → List Item → List Stroke → Prop where
  | nil {pending : Option Amount} : WritesAll spacing pending [] []
  | cons {pending : Option Amount} {item : Item} {rest : List Item} {front back : List Stroke} :
      Writes spacing pending item front →
        WritesAll spacing (pendingAfter pending [item]) rest back →
          WritesAll spacing pending (item :: rest) (front ++ back)

def lastCode : Option String → List Stroke → Option String
  | last, [] => last
  | _, .code code :: rest => lastCode (some code) rest
  | last, _ :: rest => lastCode last rest

/-- The texts among strokes, each with the last code in front of it. -/
def codedTexts : Option String → List Stroke → List (Option String × String)
  | _, [] => []
  | _, .code code :: rest => codedTexts (some code) rest
  | last, .text value :: rest => (last, value) :: codedTexts last rest
  | last, .space _ :: rest => codedTexts last rest

theorem last_code_append (last : Option String) (front back : List Stroke) :
    lastCode last (front ++ back) = lastCode (lastCode last front) back := by
  induction front generalizing last with
  | nil => rfl
  | cons stroke rest induction => cases stroke <;> exact induction _

theorem coded_texts_append (last : Option String) (front back : List Stroke) :
    codedTexts last (front ++ back) =
      codedTexts last front ++ codedTexts (lastCode last front) back := by
  induction front generalizing last with
  | nil => rfl
  | cons stroke rest induction =>
      cases stroke with
      | text value => exact congrArg _ (induction last)
      | _ => exact induction _

variable {spacing : Spacing} {coloring : Coloring}

/-- The code is that of the innermost token, and outside of tokens no code or the one that turns
colours off. -/
def Colors (coloring : Coloring) (labels : List Label) (last : Option String) : Prop :=
  match labels.findSome? Label.token? with
  | some token => ∃ code, coloring.code token = .ok code ∧ last = some code
  | none => last = none ∨ last = some coloring.reset

def Colored (coloring : Coloring) (text : List Label × String)
    (written : Option String × String) : Prop :=
  written.2 = text.2 ∧ Colors coloring text.1 written.1

def Keeps (coloring : Coloring) (labels : List Label) (active : List String) : Prop :=
  Forall₂ (fun token code => coloring.code token = .ok code) (labels.filterMap Label.token?)
    active

theorem Keeps.colors_restored {labels : List Label} {active : List String}
    (keeps : Keeps coloring labels active) :
    Colors coloring labels (some (restored coloring.reset active)) := by
  unfold Keeps at keeps
  unfold Colors
  rw [← List.head?_filterMap]
  generalize labels.filterMap Label.token? = tokens at keeps
  cases keeps with
  | nil => exact .inr rfl
  | cons success _ => exact ⟨_, success, rfl⟩

/-- Some of the items are painted, all of them if there is no fault, and the rest begins with a
text that cannot be indented otherwise. Each text is painted in its colour. -/
def Paints (spacing : Spacing) (coloring : Coloring) (labels : List Label)
    (last : Option String) (pending : Option Amount) (items : List Item) (output : Output) : Prop :=
  ∃ painted rest strokes, items = painted ++ rest ∧ WritesAll spacing pending painted strokes ∧
    output.pieces = strokes.map Stroke.written ∧
    Forall₂ (Colored coloring) (labeledTexts labels painted) (codedTexts last strokes) ∧
    match output.fault with
    | none => rest = [] ∧ Colors coloring [] (lastCode last strokes)
    | some fault => ∃ value later, rest = .text value :: later ∧ value ≠ "" ∧
        spacing.indentation (pendingAfter pending painted) = .error fault

theorem Paints.cons {labels : List Label} {last : Option String} {pending : Option Amount}
    {item : Item} {items : List Item} {front : List Stroke} {output : Output}
    (paints : Paints spacing coloring (openLabels labels [item]) (lastCode last front)
      (pendingAfter pending [item]) items output)
    (writes : Writes spacing pending item front)
    (colored : Forall₂ (Colored coloring) (labeledTexts labels [item]) (codedTexts last front)) :
    Paints spacing coloring labels last pending (item :: items)
      ⟨front.map Stroke.written ++ output.pieces, output.fault⟩ := by
  rcases paints with ⟨painted, rest, back, rfl, writesAll, pieces, coloredAll, ends⟩
  refine ⟨item :: painted, rest, front ++ back, rfl, .cons writes writesAll, ?_, ?_, ?_⟩
  · rw [pieces, List.map_append]
  · rw [coded_texts_append, ← List.singleton_append, labeled_texts_append]
    exact List.rel_append colored coloredAll
  · rw [last_code_append, pending_after_cons]
    exact ends

theorem paint_paints (usable : ∀ token, ∃ code, coloring.code token = .ok code)
    {labels : List Label} {active : List String} {last : Option String} {items : List Item}
    (closes : Closes labels items) (keeps : Keeps coloring labels active)
    (colors : Colors coloring labels last) (pending : Option Amount) :
    Paints spacing coloring labels last pending items
      (paint spacing coloring none active pending items) := by
  induction items generalizing labels active last pending with
  | nil =>
      cases closes
      cases keeps
      exact ⟨[], [], [], rfl, .nil, rfl, .nil, rfl, colors⟩
  | cons item rest induction =>
      cases item with
      | text value =>
          by_cases empty : value = ""
          · subst empty
            rw [paint, if_pos rfl]
            exact (induction closes keeps colors pending).cons .empty .nil
          · rw [paint, if_neg empty]
            cases indented : spacing.indentation pending with
            | error fault =>
                exact ⟨[], _, [], rfl, .nil, rfl, .nil, value, rest, rfl, empty, indented⟩
            | ok indentation =>
                have colored : Forall₂ (Colored coloring) (labeledTexts labels [.text value])
                    (codedTexts last [.space indentation, .text value]) := by
                  rw [labeledTexts, if_neg empty]
                  exact .cons ⟨rfl, colors⟩ .nil
                have begun : pendingAfter pending [.text value] = none := if_neg empty
                have later := induction closes keeps colors none
                rw [← begun] at later ⊢
                exact later.cons (.text empty indented) colored
      | line indent =>
          rw [paint]
          exact (induction closes keeps colors (some indent)).cons .line .nil
      | push label =>
          cases label with
          | token token =>
              rcases usable token with ⟨code, success⟩
              rw [paint, success]
              have top : Colors coloring (.token token :: labels) (some code) :=
                ⟨code, success, rfl⟩
              have kept : Keeps coloring (.token token :: labels) (code :: active) :=
                .cons success keeps
              exact (induction closes kept top pending).cons .push .nil
          | datum value =>
              rw [paint]
              · exact (induction closes keeps colors pending).cons .pushDatum .nil
              all_goals simp
      | pop label =>
          rcases closes with ⟨top, closes⟩
          cases labels with
          | nil => cases top
          | cons _ outer =>
              cases top
              cases label with
              | token token =>
                  rcases keeps with _ | ⟨_, keeps⟩
                  have restores := Keeps.colors_restored keeps
                  rw [paint]
                  exact (induction closes keeps restores pending).cons .pop .nil
              | datum value =>
                  rw [paint]
                  · exact (induction closes keeps colors pending).cons .popDatum .nil
                  all_goals simp
      | blank =>
          rw [paint]
          · exact (induction closes keeps colors pending).cons .blank .nil
          all_goals simp
      | datum value =>
          rw [paint]
          · exact (induction closes keeps colors pending).cons .datum .nil
          all_goals simp

theorem indentation_fault {pending : Option Amount} {fault : Fault}
    (failed : spacing.indentation pending = .error fault) : fault ≠ .noOpenColor := by
  rintro rfl
  cases pending with
  | none => cases failed
  | some indent =>
      simp only [Spacing.indentation, Text.repeated] at failed
      split_ifs at failed <;> cases failed

end Render

open Render

/-- Where every token has a colour, a document in colour is strokes for its items, one after
another, up to a text that cannot be indented or to the end. In front of each text the last code is
that of the innermost token around it, and a last code at the end turns colours off. -/
theorem texts_in_innermost_color {doc : Doc} (built : doc.Built Extra.all) (width : Int)
    (spacing : Spacing) {coloring : Coloring}
    (usable : ∀ token, ∃ code, coloring.code token = .ok code) :
    (layout doc width).fault? = none ∧
      let output := (layout doc width).writeColored spacing coloring
      ∃ painted rest strokes texts colored,
        (layout doc width).items = painted ++ rest ∧ WritesAll spacing none painted strokes ∧
          output.pieces = strokes.map Stroke.written ∧
          doc.LabeledTexts [] texts ∧ colored <+: texts ∧
          Forall₂ (Colored coloring) colored (codedTexts none strokes) ∧
          output.fault ≠ some .noOpenColor ∧
          (output.fault = none → rest = [] ∧ colored = texts ∧
            ∀ code, lastCode none strokes = some code → code = coloring.reset) ∧
          ∀ fault, output.fault = some fault → ∃ value later, rest = .text value :: later ∧
            value ≠ "" ∧ spacing.indentation (pendingAfter none painted) = .error fault := by
  have regular := built.sound.regular
  have normal := Doc.regular_normalize regular
  obtain ⟨column, finished⟩ := layout_finishes regular width
  have noFault := layout_succeeds regular width
  have laid := Doc.laid_layout normal finished
  have closes := composes_closes.of_laid laid (fun _ _ => trivial) [] [] rfl
  rw [List.append_nil] at closes
  have texts := laid.labeled_texts []
  rcases @paint_paints spacing _ usable _ _ _ _ closes .nil (.inl rfl) none with
    ⟨painted, rest, strokes, split, writes, pieces, colored, ends⟩
  refine ⟨noFault, ?_⟩
  rw [Run.writeColored, noFault, Render.colored]
  have whole := labeled_texts_append [] painted rest
  rw [← split] at whole
  refine ⟨painted, rest, strokes, _, _, split, writes, pieces, texts, ⟨_, whole.symm⟩, colored,
    ?_, ?_, ?_⟩
  · intro failed
    rw [failed] at ends
    rcases ends with ⟨value, later, -, -, unwritable⟩
    exact indentation_fault unwritable rfl
  · intro success
    rw [success] at ends
    rcases ends with ⟨rfl, colors⟩
    rw [List.append_nil] at split
    refine ⟨rfl, by rw [split], fun code isLast => ?_⟩
    rw [isLast] at colors
    exact Option.some.inj (colors.resolve_left (Option.some_ne_none code))
  · intro fault failed
    rw [failed] at ends
    exact ends

/-- A number and something without a colour inside a keyword, over two lines. -/
theorem label_in_keyword_in_color :
    let inner := Doc.concat [.annotated (.datum (.scalar (.int 7))) (.text "a"), .hardLine,
      .annotated (.token .number) (.text "b")]
    let doc := Doc.concat [.annotated (.token .keyword) inner, .text "c"]
    let coloring := Style.standard.coloring .trueColor
    let output := (layout doc 9).writeColored (.standard 0) coloring
    doc.Built Extra.all ∧ (∀ token, ∃ code, coloring.code token = .ok code) ∧
      output.fault = none ∧
      output.pieces = ["\x1b[0m\x1b[38;2;102;217;239m", "", "a", "\n",
        "\x1b[0m\x1b[38;2;174;129;255m", "", "b", "\x1b[0m\x1b[38;2;102;217;239m", "\x1b[0m", "",
        "c"] ∧
      ∃ strokes texts, output.pieces = List.map Stroke.written strokes ∧
        doc.LabeledTexts [] texts ∧
        Forall₂ (Colored coloring) texts (codedTexts none strokes) := by
  intro inner doc coloring output
  have text (value : String) (breakless : '\n' ∉ value.toList) : (Doc.text value).Built Extra.all :=
    .text breakless
  have unknown : (Doc.annotated (.datum (.scalar (.int 7))) (.text "a")).Built Extra.all :=
    .annotate (text "a" (by decide)) rfl
  have number : (Doc.annotated (.token .number) (.text "b")).Built Extra.all :=
    .annotate (text "b" (by decide)) rfl
  have parts : ∀ part ∈ [Doc.annotated (.datum (.scalar (.int 7))) (.text "a"), .hardLine,
      .annotated (.token .number) (.text "b")], part.Built Extra.all := by
    simp only [List.forall_mem_cons, List.not_mem_nil, false_implies, implies_true, and_true]
    exact ⟨unknown, .hardLine (by decide), number⟩
  have innerBuilt : inner.Built Extra.all := .concat parts rfl
  have outer : ∀ part ∈ [Doc.annotated (.token .keyword) inner, .text "c"],
      part.Built Extra.all := by
    simp only [List.forall_mem_cons, List.not_mem_nil, false_implies, implies_true, and_true]
    exact ⟨.annotate innerBuilt rfl, text "c" (by decide)⟩
  have built : doc.Built Extra.all := .concat outer rfl
  have success : output.fault = none := by decide +kernel
  have usable := Style.standard_code .trueColor
  rcases (texts_in_innermost_color built 9 (.standard 0) usable).2 with
    ⟨_, _, strokes, texts, colored, -, -, pieces, shown, -, inColor, -, ends, -⟩
  rcases ends success with ⟨-, rfl, -⟩
  exact ⟨built, usable, success, by decide +kernel, strokes, colored, pieces, shown, inColor⟩

/-- A text that cannot be indented leaves the colour on that was meant for it. -/
theorem unwritable_text_leaves_color :
    let doc := Doc.nest (.int (-(Text.countLimit + 1)))
      (.concat [.hardLine, .annotated (.token .keyword) (.text "a")])
    let coloring := Style.standard.coloring .trueColor
    doc.Built Extra.all ∧ (∀ token, ∃ code, coloring.code token = .ok code) ∧
      ∃ code, coloring.code .keyword = .ok code ∧ code ≠ coloring.reset ∧ ∀ room,
        let output := (layout doc 79).writeColored (.standard room) coloring
        output.fault = some .countTooLarge ∧ output.pieces = ["\n", code] := by
  intro doc coloring
  have text : (Doc.text "a").Built Extra.all := .text (by decide)
  have parts : ∀ part ∈ [Doc.hardLine, .annotated (.token .keyword) (.text "a")],
      part.Built Extra.all := by
    simp only [List.forall_mem_cons, List.not_mem_nil, false_implies, implies_true, and_true]
    exact ⟨.hardLine (by decide), .annotate text rfl⟩
  have body : (Doc.concat [.hardLine, .annotated (.token .keyword) (.text "a")]).Built Extra.all :=
    .concat parts rfl
  have built : doc.Built Extra.all :=
    @Doc.Built.nest _ (.scalar (.int (-(Text.countLimit + 1)))) _ _ body rfl
  exact ⟨built, Style.standard_code .trueColor, _, rfl, by decide, fun _ => ⟨rfl, rfl⟩⟩

end KotlinLayout
