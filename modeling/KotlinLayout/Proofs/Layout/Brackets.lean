import KotlinLayout.Proofs.Document.Built
import KotlinLayout.Proofs.Layout.Composition

/-!
The marks of labels, read as brackets. A label ends after everything that has begun inside it, and
every label that begins ends.
-/

namespace KotlinLayout

namespace Item

def isPush : Item → Bool
  | .push _ => true
  | _ => false

def isPop : Item → Bool
  | .pop _ => true
  | _ => false

end Item

/-- The labels that have begun and not ended, the last one first. A mark at the end of a label
ends the one that began last, whichever label it names. -/
def openLabels : List Label → List Item → List Label
  | labels, [] => labels
  | labels, .push label :: rest => openLabels (label :: labels) rest
  | labels, .pop _ :: rest => openLabels labels.tail rest
  | labels, _ :: rest => openLabels labels rest

structure WellBracketed (items : List Item) : Prop where
  /-- No more labels end than begin, up to any place. -/
  balanced (before : List Item) :
    before <+: items → before.countP Item.isPop ≤ before.countP Item.isPush
  /-- Where a label ends, it is the last one that is open. -/
  nested (before : List Item) (label : Label) :
    before ++ [.pop label] <+: items → (openLabels [] before).head? = some label
  closed : openLabels [] items = []

/-- The items end the open labels, the last one first, and all those that begin in between. -/
def Closes : List Label → List Item → Prop
  | labels, [] => labels = []
  | labels, .push label :: rest => Closes (label :: labels) rest
  | labels, .pop label :: rest => labels.head? = some label ∧ Closes labels.tail rest
  | labels, _ :: rest => Closes labels rest

namespace Closes

theorem of_append {labels : List Label} {before after : List Item}
    (closes : Closes labels (before ++ after)) : Closes (openLabels labels before) after := by
  induction before generalizing labels with
  | nil => exact closes
  | cons item rest induction =>
      cases item with
      | pop label => exact induction closes.2
      | text | line | push | blank | datum => exact induction closes

/-- Only labels that are open or begin can end. -/
theorem count_le {labels : List Label} {before after : List Item}
    (closes : Closes labels (before ++ after)) :
    before.countP Item.isPop ≤ before.countP Item.isPush + labels.length := by
  induction before generalizing labels with
  | nil => exact Nat.zero_le _
  | cons item rest induction =>
      rw [List.countP_cons, List.countP_cons]
      cases item with
      | pop label =>
          obtain ⟨top, closes⟩ := closes
          have shorter : labels.tail.length + 1 = labels.length := by
            cases labels with
            | nil => cases top
            | cons => rfl
          have later := induction closes
          simp only [Item.isPop, Item.isPush, if_true, Bool.false_eq_true, if_false]
          omega
      | push label =>
          have later := induction closes
          simp only [Item.isPop, Item.isPush, if_true, Bool.false_eq_true, if_false,
            List.length_cons] at later ⊢
          omega
      | text | line | blank | datum => exact induction closes

theorem well_bracketed {items : List Item} (closes : Closes [] items) : WellBracketed items := by
  constructor
  · rintro before ⟨after, rfl⟩
    exact closes.count_le
  · rintro before label ⟨after, rfl⟩
    rw [List.append_assoc] at closes
    exact closes.of_append.1
  · rw [← List.append_nil items] at closes
    exact closes.of_append

end Closes

/-- What a layout is composed of leaves the open labels as they are, whatever comes after it. -/
theorem composes_closes :
    Composes (fun _ => True) fun items =>
      ∀ labels rest, Closes labels rest → Closes labels (items ++ rest) where
  nothing _ _ closes := closes
  append first second labels rest closes := by
    rw [List.append_assoc]
    exact first labels _ (second labels rest closes)
  text _ _ _ closes := closes
  line _ _ closes := closes
  labeled {label inner} _ closed labels rest closes := by
    have ends : Closes (label :: labels) (.pop label :: rest) := ⟨rfl, closes⟩
    rw [List.cons_append, List.append_assoc]
    exact closed (label :: labels) _ ends

/-- On every page the marks of labels in a layout are well bracketed. -/
theorem layout_well_bracketed {doc : Doc} (built : doc.Built Extra.all) (width : Int) :
    (layout doc width).fault? = none ∧ WellBracketed (layout doc width).items := by
  have regular := built.sound.regular
  have normal := Doc.regular_normalize regular
  obtain ⟨column, finished⟩ := layout_finishes regular width
  have closes := composes_closes.layout normal (fun _ _ => trivial) finished [] [] rfl
  rw [List.append_nil] at closes
  exact ⟨layout_succeeds regular width, closes.well_bracketed⟩

/-- A label around a fill, over a line break in front of which another label ends. -/
theorem label_around_fill_well_bracketed :
    let inner := Doc.annotated (.token .number) (.text "a")
    let doc := Doc.annotated (.token .keyword) (.fill [inner, Doc.line, .text "b"])
    doc.Built Extra.all ∧
      (layout doc 2).items =
        [.push (.token .keyword), .push (.token .number), .text "a", .pop (.token .number),
          .line (.int 0), .text "b", .pop (.token .keyword)] ∧
      WellBracketed (layout doc 2).items := by
  intro inner doc
  have text : (Doc.text "a").Built Extra.all := .text (by decide)
  have labeled : inner.Built Extra.all := .annotate text rfl
  have parts : ∀ part ∈ [inner, Doc.line, .text "b"], part.Built Extra.all := by
    simp only [List.forall_mem_cons, List.not_mem_nil, false_implies, implies_true, and_true]
    exact ⟨labeled, .line, .text (by decide)⟩
  have built : doc.Built Extra.all := .annotate (.fill (by decide) parts rfl) rfl
  exact ⟨built, rfl, (layout_well_bracketed built 2).2⟩

end KotlinLayout
