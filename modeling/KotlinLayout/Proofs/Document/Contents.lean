import KotlinLayout.Doc.Basic

/-!
What a document may put on the page besides line starts: its texts and the beginnings of its
labels, from both sides of every choice.
-/

namespace KotlinLayout.Doc

mutual

def contents : Doc → List Item
  | .text value | .boxed value => [.text value]
  | .concat parts => contentsAll parts
  | .nest _ body | .group body | .alwaysBreak body => body.contents
  | .choice whenBroken whenFlat => whenBroken.contents ++ whenFlat.contents
  | .fill items => contentsAll items
  | .annotated label body => .push label :: body.contents
  | _ => []

def contentsAll : List Doc → List Item
  | [] => []
  | doc :: rest => doc.contents ++ contentsAll rest

end

theorem contents_all_eq_flat_map (docs : List Doc) :
    contentsAll docs = docs.flatMap contents := by
  induction docs with
  | nil => rfl
  | cons doc rest induction => rw [contentsAll, induction, List.flatMap_cons]

@[simp] theorem contents_concat (parts : List Doc) :
    (Doc.concat parts).contents = parts.flatMap contents := by
  rw [contents, contents_all_eq_flat_map]

@[simp] theorem contents_fill (items : List Doc) :
    (Doc.fill items).contents = items.flatMap contents := by
  rw [contents, contents_all_eq_flat_map]

end KotlinLayout.Doc
