import KotlinLayout.Doc.Basic

/-!
The normal form of documents. Nested concatenations become one, empty parts go, checked texts
become plain ones, and a forced break moves up to everything around it, where it makes groups
pointless. Fills keep forced breaks to themselves.
-/

namespace KotlinLayout.Doc

/-- What a normalized part contributes to a concatenation: the parts of another concatenation,
the content of a forced break, and nothing if it is empty. -/
def spliced : Doc → List Doc
  | .concat parts => parts
  | .alwaysBreak body => [body]
  | .nil => []
  | .text value => if value = "" then [] else [.text value]
  | other => [other]

def forces : Doc → Bool
  | .alwaysBreak _ | .hardLine => true
  | _ => false

/-- Puts a form around a document, inside a forced break if there is one. -/
def wrapped (form : Doc → Doc) : Doc → Doc
  | .alwaysBreak body => .alwaysBreak (form body)
  | other => form other

def grouped : Doc → Doc
  | .hardLine => .alwaysBreak .hardLine
  | .alwaysBreak body => .alwaysBreak body
  | .text value => .text value
  | .group body => .group body
  | .nil => .nil
  | .foreign .otherNil => .foreign .otherNil
  | other => .group other

def broken : Doc → Doc
  | .alwaysBreak body => .alwaysBreak body
  | other => .alwaysBreak other

/-- A choice whose broken side forces a break is decided. -/
def chosen (whenFlat : Doc) : Doc → Doc
  | .alwaysBreak body => .alwaysBreak body
  | whenBroken => .choice whenBroken whenFlat

def assembled (parts : List Doc) : Doc :=
  let whole := joined (parts.flatMap spliced)
  if parts.any forces then .alwaysBreak whole else whole

mutual

def normalize : Doc → Doc
  | .boxed value => .text value
  | .concat parts => assembled (normalizeAll parts)
  | .nest indent body => wrapped (.nest indent) body.normalize
  | .choice whenBroken whenFlat => chosen whenFlat.normalize whenBroken.normalize
  | .group body => grouped body.normalize
  | .alwaysBreak body => broken body.normalize
  | .fill items => .fill (normalizeAll items)
  | .annotated label body => wrapped (.annotated label) body.normalize
  | other => other

def normalizeAll : List Doc → List Doc
  | [] => []
  | doc :: rest => doc.normalize :: normalizeAll rest

end

mutual

/-- The first part, in reading order, that has no normal form. -/
def defect? : Doc → Option Fault
  | .concat parts => defectAmong? parts
  | .nest _ body => body.defect?
  | .choice whenBroken whenFlat => whenBroken.defect?.or whenFlat.defect?
  | .group body => body.defect?
  | .alwaysBreak body => body.defect?
  | .fill items => defectAmong? items
  | .annotated _ body => body.defect?
  | .tail .. | .foreign (.tail ..) => some (.noAttribute "FillTail" "normalize")
  | .mark item => some (.noAttribute item.kind "normalize")
  | .foreign (.datum value) => some (.noAttribute value.kind "normalize")
  | .foreign (.unlisted value) => some (.notIterable value.kind)
  | _ => none

def defectAmong? : List Doc → Option Fault
  | [] => none
  | doc :: rest => doc.defect?.or (defectAmong? rest)

end

theorem normalize_all_eq_map (docs : List Doc) : normalizeAll docs = docs.map normalize := by
  induction docs with
  | nil => rfl
  | cons doc rest induction => rw [normalizeAll, induction, List.map_cons]

theorem defect_among_eq_none (docs : List Doc) :
    defectAmong? docs = none ↔ ∀ doc ∈ docs, doc.defect? = none := by
  induction docs with
  | nil => simp [defectAmong?]
  | cons doc rest induction => simp [defectAmong?, induction]

def normalized (doc : Doc) : Except Fault Doc :=
  match doc.defect? with
  | some fault => .error fault
  | none => .ok doc.normalize

end KotlinLayout.Doc
