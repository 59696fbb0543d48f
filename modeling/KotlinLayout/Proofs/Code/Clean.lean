import KotlinLayout.Code.Expression
import KotlinLayout.Proofs.Document.Contents
import KotlinLayout.Proofs.Document.Built
import KotlinLayout.Proofs.Render.Codes

/-!
Documents without escape characters in their texts, as programs are made of them. What has one only
if a part has one is put together from such documents, and so is what a computation gives that
may also end in a fault.
-/

namespace KotlinLayout

open Text (escapeCharacter)

variable {Value Result : Type} {good : Value → Prop} {other : Result → Prop}

/-- Whatever a computation gives, if it gives anything, is good. -/
structure Yields (good : Value → Prop) (value : Except Fault Value) : Prop where
  good_of_ok : ∀ result, value = .ok result → good result

namespace Yields

variable {value : Except Fault Value} {following : Value → Except Fault Result}

theorem ok {result : Value} (isGood : good result) : Yields good (.ok result) := by
  constructor
  rintro _ ⟨⟩
  exact isGood

theorem error (fault : Fault) : Yields good (.error fault) := by
  constructor
  rintro _ ⟨⟩

theorem any : Yields (fun _ => True) value :=
  ⟨fun _ _ => trivial⟩

theorem weaken {better : Value → Prop} (yields : Yields better value)
    (weaker : ∀ result, better result → good result) : Yields good value :=
  ⟨fun result success => weaker result (yields.good_of_ok result success)⟩

theorem bind (first : Yields good value)
    (next : ∀ input, good input → Yields other (following input)) :
    Yields other (value >>= following) := by
  constructor
  intro result success
  rcases bind_eq_ok_iff.mp success with ⟨input, isInput, success⟩
  exact (next input (first.good_of_ok input isInput)).good_of_ok result success

theorem map {change : Value → Result} (first : Yields good value)
    (changed : ∀ input, good input → other (change input)) : Yields other (change <$> value) := by
  constructor
  intro result success
  rcases map_eq_ok_iff.mp success with ⟨input, isInput, rfl⟩
  exact changed input (first.good_of_ok input isInput)

theorem each {Element : Type} {step : Element → Except Fault Value}
    {steps : List Element → Except Fault (List Value)} (nothing : steps [] = .ok [])
    (more : ∀ element rest, steps (element :: rest) =
      (do let first ← step element; return first :: (← steps rest)))
    {elements : List Element} (each : ∀ element ∈ elements, Yields good (step element)) :
    Yields (fun values => ∀ value ∈ values, good value) (steps elements) := by
  induction elements with
  | nil =>
      rw [nothing]
      exact .ok (List.forall_mem_nil _)
  | cons element rest induction =>
      have others := List.forall_mem_cons.mp each
      rw [more]
      apply others.1.bind
      intro first isGood
      apply (induction others.2).bind
      intro values areGood
      exact .ok (List.forall_mem_cons.mpr ⟨isGood, areGood⟩)

theorem every {Element : Type} {step : Element → Except Fault Value}
    {steps : List Element → Except Fault (List Value)} {holds : Element → Prop}
    (more : ∀ element rest, steps (element :: rest) =
      (do let first ← step element; return first :: (← steps rest)))
    {elements : List Element}
    (each : ∀ element ∈ elements, Yields (fun _ => holds element) (step element)) :
    Yields (fun _ => ∀ element ∈ elements, holds element) (steps elements) := by
  induction elements with
  | nil => exact any.weaken fun _ _ => List.forall_mem_nil _
  | cons element rest induction =>
      rcases List.forall_mem_cons.mp each with ⟨here, later⟩
      rw [more]
      apply here.bind
      intro _ holdsHere
      apply (induction later).bind
      intro _ holdsLater
      exact .ok (List.forall_mem_cons.mpr ⟨holdsHere, holdsLater⟩)

end Yields

namespace Doc

/-- What a text is cast to is the text itself, or nothing if it is empty. -/
theorem yields_cast_text (value : String) :
    Yields (fun doc => '\n' ∉ value.toList ∧ doc = if value = "" then .nil else .text value)
      (Combinator.cast (.text value)) := by
  rw [Combinator.cast]
  split
  · subst value
    exact .ok ⟨by decide, rfl⟩
  · constructor
    intro doc success
    rcases map_eq_ok_iff.mp success with ⟨checked, isChecked, rfl⟩
    rcases check_text_eq isChecked with ⟨rfl, breakless⟩
    exact ⟨breakless, rfl⟩

structure Clean (doc : Doc) : Prop where
  regular : doc.Regular
  unescaped : ∀ item ∈ doc.contents, item.Unescaped

def AllClean (docs : List Doc) : Prop := ∀ doc ∈ docs, doc.Clean

namespace AllClean

variable {doc : Doc} {docs others : List Doc}

theorem nil : AllClean [] := List.forall_mem_nil _

theorem cons (clean : doc.Clean) (rest : AllClean docs) : AllClean (doc :: docs) :=
  List.forall_mem_cons.mpr ⟨clean, rest⟩

theorem single (clean : doc.Clean) : AllClean [doc] := cons clean nil

theorem append (first : AllClean docs) (second : AllClean others) : AllClean (docs ++ others) :=
  List.forall_mem_append.mpr ⟨first, second⟩

end AllClean

namespace Clean

variable {doc : Doc} {docs : List Doc}

theorem text {value : String} (breakless : '\n' ∉ value.toList)
    (unescaped : escapeCharacter ∉ value.toList) : (Doc.text value).Clean :=
  ⟨.text breakless, List.forall_mem_singleton.mpr unescaped⟩

theorem nil : Doc.nil.Clean := ⟨.nil, by simp [contents]⟩

theorem hardLine : Doc.hardLine.Clean := ⟨.hardLine, by simp [contents]⟩

theorem line : Doc.line.Clean :=
  ⟨.choice trivial .hardLine (.text (by decide)),
    List.forall_mem_singleton.mpr (by decide : escapeCharacter ∉ " ".toList)⟩

theorem concat (clean : AllClean docs) : (Doc.concat docs).Clean := by
  refine ⟨.concat fun part member => (clean part member).regular, ?_⟩
  rw [contents_concat]
  exact List.forall_mem_flatMap.mpr fun part member => (clean part member).unescaped

theorem fill (clean : AllClean docs) : (Doc.fill docs).Clean := by
  refine ⟨.fill trivial fun item member => (clean item member).regular, ?_⟩
  rw [contents_fill]
  exact List.forall_mem_flatMap.mpr fun item member => (clean item member).unescaped

theorem nest (amount : Amount) (clean : doc.Clean) : (Doc.nest amount doc).Clean :=
  ⟨.nest clean.regular, clean.unescaped⟩

theorem group (clean : doc.Clean) : (Doc.group doc).Clean := ⟨.group clean.regular, clean.unescaped⟩

theorem alwaysBreak (clean : doc.Clean) : (Doc.alwaysBreak doc).Clean :=
  ⟨.alwaysBreak clean.regular, clean.unescaped⟩

theorem annotated (label : Label) (clean : doc.Clean) : (Doc.annotated label doc).Clean :=
  ⟨.annotated clean.regular, List.forall_mem_cons.mpr ⟨trivial, clean.unescaped⟩⟩

theorem joined (clean : AllClean docs) : (Doc.joined docs).Clean :=
  holds_joined nil clean (concat clean)

theorem intersperse {separator : Doc} (separated : separator.Clean) (clean : AllClean docs) :
    AllClean (docs.intersperse separator) :=
  holds_intersperse separated clean

theorem token (token : Token) {value : String}
    (plain : '\n' ∉ value.toList ∧ escapeCharacter ∉ value.toList) :
    (Doc.token token value).Clean :=
  annotated _ (text plain.1 plain.2)

theorem blank : Doc.blank.Clean := text (by decide) (by decide)

theorem comma : Doc.comma.Clean := token .punctuation (by decide)

theorem colon : Doc.colon.Clean := token .punctuation (by decide)

theorem dot : Doc.dot.Clean := token .punctuation (by decide)

theorem leftParen : Doc.leftParen.Clean := token .punctuation (by decide)

theorem rightParen : Doc.rightParen.Clean := token .punctuation (by decide)

theorem leftBrace : Doc.leftBrace.Clean := token .punctuation (by decide)

theorem rightBrace : Doc.rightBrace.Clean := token .punctuation (by decide)

theorem parenthesized (clean : doc.Clean) : doc.parenthesized.Clean :=
  concat (.cons leftParen (.cons clean (.single rightParen)))

theorem operand (clean : doc.Clean) (withParens : Bool) : (doc.operand withParens).Clean := by
  cases withParens with
  | true => exact clean.parenthesized
  | false => exact clean

theorem indexed {array index : Doc} (arrayClean : array.Clean) (indexClean : index.Clean) :
    (Doc.indexed array index).Clean := by
  have left : Doc.leftBracket.Clean := token .punctuation (by decide)
  have right : Doc.rightBracket.Clean := token .punctuation (by decide)
  apply group
  exact concat (.cons arrayClean (.cons left (.cons indexClean (.single right))))

end Clean

end Doc

open Doc (Clean AllClean)

theorem NestUnit.yields_nest (nestUnit : NestUnit) {doc : Doc} (clean : doc.Clean) :
    Yields Clean (nestUnit.nest doc) :=
  Yields.any.bind fun indent _ => .ok (clean.nest indent)

theorem Doc.yields_after_keyword {keyword value : Doc} (keywordClean : keyword.Clean)
    (valueClean : value.Clean) (nestUnit : NestUnit) :
    Yields Clean (Doc.afterKeyword keyword value nestUnit) := by
  have moved : (Doc.concat [Doc.line, value]).Clean :=
    .concat (.cons .line (.single valueClean))
  rw [Doc.afterKeyword]
  apply (nestUnit.yields_nest moved).bind
  intro nested nestedClean
  exact .ok (.group (.concat (.cons keywordClean (.single nestedClean))))

end KotlinLayout
