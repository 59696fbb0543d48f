import KotlinLayout.Doc.Basic

/-!
The combinators that documents are built with. Each checks what it is given, first to last, and
the first fault is the answer.
-/

namespace KotlinLayout

inductive Parts where
  | list (docs : List Doc)
  | datum (value : Datum)

namespace Parts

/-- A text is the sequence of its characters; no other plain value is a sequence. -/
def toList : Parts → Except Fault (List Doc)
  | .list docs => .ok docs
  | .datum (.scalar (.text value)) => .ok (Doc.characters value)
  | .datum value => .error (.notIterable value.kind)

end Parts

namespace Doc

def checkText (value : String) : Except Fault String :=
  if '\n' ∈ value.toList then .error (.lineBreakInText (Text.quoted value)) else .ok value

def textOf : Doc → Except Fault String
  | .text value => checkText value
  | other => do .error (.notText (← other.writing.forMessage) other.kind)

def checkIndent (indent : Datum) : Except Fault Amount :=
  match Amount.ofDatum? indent with
  | some indent => .ok indent
  | none => .error .assertion

def checkDoc (doc : Doc) : Except Fault Doc :=
  if doc.isDoc then .ok doc else .error .assertion

def ofText (doc : Doc) : Except Fault Doc := .boxed <$> textOf doc

/-- Parts that are no sequence are only missed when they are used. -/
def ofConcat : Parts → Doc
  | .list docs => .concat docs
  | .datum (.scalar (.text value)) => .concat (characters value)
  | .datum value => .foreign (.unlisted value)

def ofTail (parts : Parts) (start : Amount) : Doc :=
  match parts with
  | .list docs => .tail docs start
  | .datum value => .foreign (.tail value start)

def ofFill (parts : Parts) : Except Fault Doc := .fill <$> parts.toList

def ofGroup (doc : Doc) : Except Fault Doc := .group <$> checkDoc doc

def ofAlwaysBreak (doc : Doc) : Except Fault Doc := .alwaysBreak <$> checkDoc doc

def ofNest (indent : Datum) (doc : Doc) : Except Fault Doc := do
  let indent ← checkIndent indent
  return .nest indent (← checkDoc doc)

end Doc

namespace Combinator

open Doc (checkText checkIndent joined)

/-- Any document as a part of another: an empty text becomes the empty document. -/
def cast (doc : Doc) : Except Fault Doc :=
  match doc with
  | .text value => if value = "" then .ok .nil else Doc.text <$> checkText value
  | other => if other.isDoc then .ok other else do .error (.notDoc (← other.writing.forMessage))

def castAll : List Doc → Except Fault (List Doc)
  | [] => .ok []
  | doc :: rest => do
      let first ← cast doc
      return first :: (← castAll rest)

def text (doc : Doc) : Except Fault Doc :=
  match doc with
  | .text _ => cast doc
  | _ => .error .textRequired

def concat (docs : List Doc) : Except Fault Doc := joined <$> castAll docs

def annotate (label : Label) (doc : Doc) : Except Fault Doc :=
  Doc.annotated label <$> cast doc

def group (doc : Doc) : Except Fault Doc := Doc.group <$> cast doc

/-- Breaks the document over lines, and with it everything around it. Its parts may still be
flat. -/
def alwaysBreak (doc : Doc) : Except Fault Doc := Doc.alwaysBreak <$> cast doc

def nest (indent : Datum) (doc : Doc) : Except Fault Doc := do
  let body ← cast doc
  return .nest (← checkIndent indent) body

def choice (whenBroken whenFlat : Doc) : Except Fault Doc := do
  let broken ← cast whenBroken
  return .choice broken (← cast whenFlat)

def stack (upper lower : Doc) : Except Fault Doc := concat [upper, Doc.line, lower]

def hsep (docs : List Doc) : Except Fault Doc := concat (docs.intersperse (.text " "))

def vsep (docs : List Doc) : Except Fault Doc := concat (docs.intersperse Doc.line)

def fill (docs : List Doc) : Except Fault Doc := Doc.fill <$> castAll docs

def fillSep (docs : List Doc) : Except Fault Doc :=
  (fun parts => Doc.fill (parts.intersperse Doc.line)) <$> castAll docs

end Combinator

end KotlinLayout
