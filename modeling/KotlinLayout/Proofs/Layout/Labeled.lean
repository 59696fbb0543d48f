import KotlinLayout.Proofs.Layout.Brackets

/-!
The texts of a document on the page, each with the labels around it. Between the marks of a layout
the same labels are open.
-/

namespace KotlinLayout

/-- The texts that are on the page if one side of each choice is taken, with the labels around
them, the innermost one first. Nothing is to be seen of an empty text. -/
inductive Doc.LabeledTexts : List Label → Doc → List (List Label × String) → Prop where
  | empty {labels : List Label} : LabeledTexts labels (.text "") []
  | text {labels : List Label} {value : String} :
      value ≠ "" → LabeledTexts labels (.text value) [(labels, value)]
  | boxed {labels : List Label} {value : String} {texts : List (List Label × String)} :
      LabeledTexts labels (.text value) texts → LabeledTexts labels (.boxed value) texts
  | nil {labels : List Label} : LabeledTexts labels .nil []
  | hardLine {labels : List Label} : LabeledTexts labels .hardLine []
  | concatNil {labels : List Label} : LabeledTexts labels (.concat []) []
  | concatCons {labels : List Label} {part : Doc} {rest : List Doc}
      {first others : List (List Label × String)} :
      LabeledTexts labels part first → LabeledTexts labels (.concat rest) others →
        LabeledTexts labels (.concat (part :: rest)) (first ++ others)
  | fillNil {labels : List Label} : LabeledTexts labels (.fill []) []
  | fillCons {labels : List Label} {item : Doc} {rest : List Doc}
      {first others : List (List Label × String)} :
      LabeledTexts labels item first → LabeledTexts labels (.fill rest) others →
        LabeledTexts labels (.fill (item :: rest)) (first ++ others)
  | nest {labels : List Label} {amount : Amount} {body : Doc} {texts : List (List Label × String)} :
      LabeledTexts labels body texts → LabeledTexts labels (.nest amount body) texts
  | group {labels : List Label} {body : Doc} {texts : List (List Label × String)} :
      LabeledTexts labels body texts → LabeledTexts labels (.group body) texts
  | alwaysBreak {labels : List Label} {body : Doc} {texts : List (List Label × String)} :
      LabeledTexts labels body texts → LabeledTexts labels (.alwaysBreak body) texts
  | onBroken {labels : List Label} {whenBroken whenFlat : Doc}
      {texts : List (List Label × String)} :
      LabeledTexts labels whenBroken texts → LabeledTexts labels (.choice whenBroken whenFlat) texts
  | onFlat {labels : List Label} {whenBroken whenFlat : Doc} {texts : List (List Label × String)} :
      LabeledTexts labels whenFlat texts → LabeledTexts labels (.choice whenBroken whenFlat) texts
  | annotated {labels : List Label} {label : Label} {body : Doc}
      {texts : List (List Label × String)} :
      LabeledTexts (label :: labels) body texts → LabeledTexts labels (.annotated label body) texts

def labeledTexts : List Label → List Item → List (List Label × String)
  | _, [] => []
  | labels, .text value :: rest =>
      if value = "" then labeledTexts labels rest else (labels, value) :: labeledTexts labels rest
  | labels, .push label :: rest => labeledTexts (label :: labels) rest
  | labels, .pop _ :: rest => labeledTexts labels.tail rest
  | labels, _ :: rest => labeledTexts labels rest

variable {labels : List Label} {doc : Doc} {docs : List Doc} {items : List Item}
  {texts : List (List Label × String)}

theorem open_labels_append (labels : List Label) (front back : List Item) :
    openLabels labels (front ++ back) = openLabels (openLabels labels front) back := by
  induction front generalizing labels with
  | nil => rfl
  | cons item rest induction => cases item <;> exact induction _

theorem labeled_texts_append (labels : List Label) (front back : List Item) :
    labeledTexts labels (front ++ back) =
      labeledTexts labels front ++ labeledTexts (openLabels labels front) back := by
  induction front generalizing labels with
  | nil => rfl
  | cons item rest induction =>
      cases item with
      | text value =>
          simp only [List.cons_append, labeledTexts, openLabels, induction]
          split <;> rfl
      | _ => exact induction _

namespace Doc

/-- Every label that begins in the layout of a document ends there. -/
theorem Laid.open_labels (laid : doc.Laid items) (labels : List Label) :
    openLabels labels items = labels := by
  induction laid generalizing labels with
  | text | empty | nil | hardLine | concatNil | fillNil => rfl
  | concatCons _ _ first rest | fillCons _ _ first rest => rw [open_labels_append, first, rest]
  | boxed _ induction | nest _ induction | group _ induction | alwaysBreak _ induction
  | onBroken _ induction | onFlat _ induction => exact induction labels
  | @annotated label _ _ _ induction =>
      rw [openLabels, open_labels_append, induction]
      rfl

theorem Laid.labeled_texts (laid : doc.Laid items) (labels : List Label) :
    doc.LabeledTexts labels (labeledTexts labels items) := by
  induction laid generalizing labels with
  | @text value =>
      by_cases empty : value = ""
      · subst empty
        exact .empty
      · rw [labeledTexts, if_neg empty]
        exact .text empty
  | empty => exact .empty
  | boxed _ induction => exact .boxed (induction labels)
  | nil => exact .nil
  | hardLine => exact .hardLine
  | concatNil => exact .concatNil
  | fillNil => exact .fillNil
  | concatCons laid _ first rest =>
      rw [labeled_texts_append, laid.open_labels]
      exact .concatCons (first labels) (rest labels)
  | fillCons laid _ first rest =>
      rw [labeled_texts_append, laid.open_labels]
      exact .fillCons (first labels) (rest labels)
  | nest _ induction => exact .nest (induction labels)
  | group _ induction => exact .group (induction labels)
  | alwaysBreak _ induction => exact .alwaysBreak (induction labels)
  | onBroken _ induction => exact .onBroken (induction labels)
  | onFlat _ induction => exact .onFlat (induction labels)
  | @annotated label _ _ _ induction =>
      rw [labeledTexts, labeled_texts_append]
      apply LabeledTexts.annotated
      simpa [labeledTexts] using induction (label :: labels)

end Doc

end KotlinLayout
