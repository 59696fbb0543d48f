import KotlinLayout.Proofs.Document.Built

/-!
What a document puts on the page before any line break is chosen, in reading order, for documents
whose only choice is between a line break and a blank. Normalization leaves these marks alone,
except that it drops empty texts.
-/

namespace KotlinLayout

inductive Mark where
  | item (value : Item)
  /-- A line start, with the indentation around it. -/
  | hardLine (indent : Int)
  /-- A line start or a blank. -/
  | line (indent : Int)

def Item.visible : Item → Bool
  | .text value => value ≠ ""
  | _ => true

theorem Item.visible_empty : Item.visible (.text "") = false := by
  decide

theorem Item.eq_of_not_visible {item : Item} (invisible : ¬item.visible = true) :
    item = .text "" := by
  cases item with
  | text value => simpa [Item.visible] using invisible
  | _ => exact absurd rfl invisible

def Mark.visible : Mark → Bool
  | .item value => value.visible
  | _ => true

def Item.Plain : Item → Prop
  | .text value => '\n' ∉ value.toList
  | .line indent => 0 ≤ indent.toInt
  | _ => True

def Mark.Plain : Mark → Prop
  | .item value => value.Plain
  | .hardLine indent => 0 ≤ indent
  | .line indent => 0 ≤ indent

namespace Doc

mutual

/-- The marks of a document inside some indentation. Every choice counts as a line. -/
def marks (indent : Int) : Doc → List Mark
  | .text value => [.item (.text value)]
  | .concat parts => (marksEach indent parts).flatten
  | .nest amount body => body.marks (indent + amount.toInt)
  | .choice _ _ => [.line indent]
  | .hardLine => [.hardLine indent]
  | .group body => body.marks indent
  | .alwaysBreak body => body.marks indent
  | .fill items => (marksEach indent items).flatten
  | .annotated label body => .item (.push label) :: (body.marks indent ++ [.item (.pop label)])
  | .tail items start => ((marksEach indent items).drop start.toInt.toNat).flatten
  | .mark item => [.item item]
  | _ => []

def marksEach (indent : Int) : List Doc → List (List Mark)
  | [] => []
  | doc :: rest => doc.marks indent :: marksEach indent rest

end

theorem marks_each_eq_map (indent : Int) (docs : List Doc) :
    marksEach indent docs = docs.map (marks indent) := by
  induction docs with
  | nil => rfl
  | cons doc rest induction => rw [marksEach, induction, List.map_cons]

@[simp] theorem marks_concat (indent : Int) (parts : List Doc) :
    (Doc.concat parts).marks indent = parts.flatMap (marks indent) := by
  rw [marks, marks_each_eq_map, List.flatMap_def]

@[simp] theorem marks_fill (indent : Int) (items : List Doc) :
    (Doc.fill items).marks indent = items.flatMap (marks indent) := by
  rw [marks, marks_each_eq_map, List.flatMap_def]

@[simp] theorem marks_tail (indent : Int) (items : List Doc) (start : Amount) :
    (Doc.tail items start).marks indent =
      (items.drop start.toInt.toNat).flatMap (marks indent) := by
  rw [marks, marks_each_eq_map, List.flatMap_def, List.map_drop]

def LineOnly (whenBroken whenFlat : Doc) : Prop := whenBroken = .hardLine ∧ whenFlat = .text " "

end Doc

/-- The thinned marks are the whole ones without some of the empty texts. -/
structure Thins (thinned whole : List Mark) : Prop where
  sublist : thinned.Sublist whole
  kept : thinned.filter Mark.visible = whole.filter Mark.visible

namespace Thins

theorem refl (marks : List Mark) : Thins marks marks := ⟨List.Sublist.refl _, rfl⟩

theorem append {first second thinnedFirst thinnedSecond : List Mark}
    (left : Thins thinnedFirst first) (right : Thins thinnedSecond second) :
    Thins (thinnedFirst ++ thinnedSecond) (first ++ second) := by
  constructor
  · exact left.sublist.append right.sublist
  · rw [List.filter_append, List.filter_append, left.kept, right.kept]

theorem trans {thinned between whole : List Mark} (first : Thins thinned between)
    (second : Thins between whole) : Thins thinned whole :=
  ⟨first.sublist.trans second.sublist, first.kept.trans second.kept⟩

theorem flat_map {docs : List Doc} {thinned whole : Doc → List Mark}
    (each : ∀ doc ∈ docs, Thins (thinned doc) (whole doc)) :
    Thins (docs.flatMap thinned) (docs.flatMap whole) := by
  induction docs with
  | nil => exact refl []
  | cons doc rest induction =>
      rw [List.flatMap_cons, List.flatMap_cons]
      exact (each doc (by simp)).append (induction fun doc member => each doc (by simp [member]))

/-- Where there are no empty texts nothing is dropped. -/
theorem eq_of_visible {thinned whole : List Mark} (thins : Thins thinned whole)
    (visible : ∀ mark ∈ whole, mark.visible = true) : thinned = whole := by
  have all := List.filter_eq_self.mpr visible
  have some := List.filter_eq_self.mpr fun mark member => visible mark (thins.sublist.subset member)
  rw [← some, thins.kept, all]

end Thins

namespace Doc

variable {choices : Doc → Doc → Prop} {fills : Prop}

theorem joined_marks (indent : Int) (parts : List Doc) :
    (joined parts).marks indent = parts.flatMap (marks indent) := by
  match parts with
  | [] => rfl
  | [part] => simp [joined]
  | first :: second :: rest => exact marks_concat indent _

theorem thins_spliced (indent : Int) (doc : Doc) :
    Thins ((spliced doc).flatMap (marks indent)) (doc.marks indent) := by
  cases doc with
  | text value =>
      by_cases empty : value = ""
      · subst empty
        exact ⟨List.nil_sublist _, by simp [spliced, marks, Mark.visible, Item.visible]⟩
      · simp only [spliced, if_neg empty, List.flatMap_singleton]
        exact Thins.refl _
  | concat parts =>
      rw [marks_concat]
      exact Thins.refl _
  | _ =>
      simp only [spliced, List.flatMap_singleton, List.flatMap_nil]
      exact Thins.refl _

theorem thins_assembled (indent : Int) (parts : List Doc) :
    Thins ((assembled parts).marks indent) (parts.flatMap (marks indent)) := by
  have whole : (assembled parts).marks indent =
      (parts.flatMap spliced).flatMap (marks indent) := by
    simp only [assembled]
    split
    · exact joined_marks indent _
    · exact joined_marks indent _
  rw [whole, List.flatMap_assoc]
  exact Thins.flat_map fun part _ => thins_spliced indent part

theorem grouped_marks (indent : Int) (doc : Doc) :
    (grouped doc).marks indent = doc.marks indent := by
  unfold grouped
  split <;> simp [marks]

theorem broken_marks (indent : Int) (doc : Doc) :
    (broken doc).marks indent = doc.marks indent := by
  unfold broken
  split <;> simp [marks]

theorem wrapped_nest_marks (indent : Int) (amount : Amount) (doc : Doc) :
    (wrapped (.nest amount) doc).marks indent = doc.marks (indent + amount.toInt) := by
  unfold wrapped
  split <;> simp [marks]

theorem wrapped_annotated_marks (indent : Int) (label : Label) (doc : Doc) :
    (wrapped (.annotated label) doc).marks indent =
      .item (.push label) :: (doc.marks indent ++ [.item (.pop label)]) := by
  unfold wrapped
  split <;> simp [marks]

theorem thins_normalize {doc : Doc} (sound : doc.Sound LineOnly fills) (indent : Int) :
    Thins (doc.normalize.marks indent) (doc.marks indent) := by
  induction sound generalizing indent with
  | text _ | nil | hardLine => exact Thins.refl _
  | concat _ induction =>
      rw [Doc.normalize, normalize_all_eq_map, marks_concat]
      apply (thins_assembled indent _).trans
      rw [List.flatMap_map]
      exact Thins.flat_map fun part member => induction part member indent
  | fill _ _ induction =>
      rw [Doc.normalize, normalize_all_eq_map, marks_fill, marks_fill, List.flatMap_map]
      exact Thins.flat_map fun item member => induction item member indent
  | @nest amount body _ induction =>
      rw [Doc.normalize, wrapped_nest_marks, marks]
      exact induction (indent + amount.toInt)
  | annotated _ induction =>
      rw [Doc.normalize, wrapped_annotated_marks, marks]
      exact (Thins.refl [_]).append ((induction indent).append (Thins.refl _))
  | choice allowed _ _ _ _ =>
      obtain ⟨rfl, rfl⟩ := allowed
      exact Thins.refl _
  | group _ induction =>
      rw [Doc.normalize, grouped_marks, marks]
      exact induction indent
  | alwaysBreak _ induction =>
      rw [Doc.normalize, broken_marks, marks]
      exact induction indent

end Doc

end KotlinLayout
