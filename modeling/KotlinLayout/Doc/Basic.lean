import KotlinLayout.Item

/-!
Documents: texts with possible line breaks, whose layout is still to be chosen.

The last three forms never come out of the combinators. A `tail` is the rest of a fill that is
partly laid out, a `mark` is a finished item among documents, and `foreign` is whatever else may
stand where a document is expected.
-/

namespace KotlinLayout

/-- What may stand in the place of a document without being a usable one. -/
inductive Foreign where
  | datum (value : Datum)
  /-- A concatenation of something that is no sequence. -/
  | unlisted (value : Datum)
  /-- An empty document other than the constant; only the constant is left out of layouts. -/
  | otherNil
  /-- A document without content. -/
  | bare
  /-- The rest of a fill whose items are no list; a text is the sequence of its characters. -/
  | tail (items : Datum) (start : Amount)

inductive Doc where
  | text (value : String)
  | nil
  /-- A checked text, which normalization unwraps. -/
  | boxed (value : String)
  | concat (parts : List Doc)
  | nest (indent : Amount) (body : Doc)
  | choice (whenBroken whenFlat : Doc)
  | hardLine
  | group (body : Doc)
  | alwaysBreak (body : Doc)
  /-- Contents and separators in turn. -/
  | fill (items : List Doc)
  | annotated (label : Label) (body : Doc)
  | tail (items : List Doc) (start : Amount)
  | mark (item : Item)
  | foreign (value : Foreign)

instance : Inhabited Doc := ⟨.nil⟩

namespace Doc

/-- A line break, or a blank on a flat line. -/
def line : Doc := .choice .hardLine (.text " ")

/-- A line break, or nothing on a flat line. -/
def softLine : Doc := .choice .hardLine .nil

def ofDatum : Datum → Doc
  | .scalar (.text value) => .text value
  | other => .foreign (.datum other)

def ofItem : Item → Doc
  | .text value => .text value
  | .datum value => ofDatum value
  | item => .mark item

/-- The parts one after another: none is the empty document and a single one stands for itself. -/
def joined : List Doc → Doc
  | [] => .nil
  | [part] => part
  | parts => .concat parts

def characters (value : String) : List Doc := value.toList.map fun c => .text (String.singleton c)

def kind : Doc → String
  | .text _ => "str"
  | .nil | .foreign .otherNil => "Nil"
  | .boxed _ => "Text"
  | .concat _ | .foreign (.unlisted _) => "Concat"
  | .nest .. => "Nest"
  | .choice .. => "FlatChoice"
  | .hardLine => "HardLine"
  | .group _ => "Group"
  | .alwaysBreak _ => "AlwaysBreak"
  | .fill _ => "Fill"
  | .annotated .. => "Annotated"
  | .tail .. | .foreign (.tail ..) => "FillTail"
  | .mark item => item.kind
  | .foreign .bare => "Doc"
  | .foreign (.datum value) => value.kind

/-- Rests of fills, finished items and plain values are no documents. -/
def isDoc : Doc → Bool
  | .tail .. | .mark _ | .foreign (.tail ..) | .foreign (.datum _) => false
  | _ => true

/-- Only the constant counts: neither the empty text nor another empty document is it. -/
def isNil : Doc → Bool
  | .nil => true
  | _ => false

mutual

def writing : Doc → Writing String
  | .text value => return Text.quoted value
  | .nil | .foreign .otherNil => return "NIL"
  | .boxed value => return "Text(" ++ Text.quoted value ++ ")"
  | .concat parts => return "Concat(" ++ commaSeparated (← writingAll parts) ++ ")"
  | .nest indent body => return "Nest(" ++ indent.written ++ ", " ++ (← body.writing) ++ ")"
  | .choice whenBroken whenFlat => do
      let broken ← whenBroken.writing
      let flat ← whenFlat.writing
      return "FlatChoice(when_broken=" ++ broken ++ ", when_flat=" ++ flat ++ ")"
  | .hardLine => return "HardLine()"
  | .group body => return "Group(" ++ (← body.writing) ++ ")"
  | .alwaysBreak body => return "AlwaysBreak(" ++ (← body.writing) ++ ")"
  | .fill items => return "Fill(" ++ bracketed (← writingAll items) ++ ")"
  | .annotated label body => return "Annotated(" ++ (← body.writing) ++ ", " ++ label.written ++ ")"
  | .tail items start =>
      return "FillTail(" ++ bracketed (← writingAll items) ++ ", " ++ start.written ++ ")"
  | .mark item => item.written
  | .foreign (.unlisted value) => throw (.notIterable value.kind)
  | .foreign .bare => Writing.anonymous "Doc()"
  | .foreign (.tail items start) =>
      return "FillTail(" ++ items.written ++ ", " ++ start.written ++ ")"
  | .foreign (.datum value) => return value.written

def writingAll : List Doc → Writing (List String)
  | [] => return []
  | doc :: rest => do
      let first ← doc.writing
      return first :: (← writingAll rest)

end

def written (doc : Doc) : Except Fault String := doc.writing.text

end Doc

end KotlinLayout
