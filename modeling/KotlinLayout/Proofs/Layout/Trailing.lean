import KotlinLayout.Proofs.Layout.Composition
import KotlinLayout.Proofs.Layout.Page

/-!
Documents that leave no line with a blank at its end. A blank may stand in front of a text, and a
line break only where the line does not end in a blank so far, whichever lines are broken.
-/

namespace KotlinLayout

open Layout

namespace Text

def EndsInBlank (text : String) : Prop := text.toList.getLast? = some ' '

instance (text : String) : Decidable (EndsInBlank text) :=
  inferInstanceAs (Decidable (text.toList.getLast? = some ' '))

def EndsVisibly (text : String) : Prop := text ≠ "" ∧ ¬EndsInBlank text

instance (text : String) : Decidable (EndsVisibly text) :=
  inferInstanceAs (Decidable (text ≠ "" ∧ ¬EndsInBlank text))

theorem EndsVisibly.append {text : String} (visible : EndsVisibly text) (front : String) :
    ¬EndsInBlank (front ++ text) := by
  have some : text.toList ≠ [] := mt String.toList_eq_nil_iff.mp visible.1
  rw [EndsInBlank, String.toList_append, List.getLast?_append_of_ne_nil _ some]
  exact visible.2

end Text

open Text (EndsInBlank EndsVisibly)

/-- After a line that may or may not end in a blank the document goes on without leaving one at the
end of a line, and may or may not leave one where it ends itself. -/
inductive Doc.Leads : Bool → Doc → Bool → Prop where
  | text {before : Bool} {value : String} : EndsVisibly value → Leads before (.text value) false
  | anyText {before : Bool} {value : String} : Leads before (.text value) true
  | nil {before after : Bool} : (before = true → after = true) → Leads before .nil after
  | line : Leads false Doc.line true
  | hardLine : Leads false .hardLine false
  | concatNil {state : Bool} : Leads state (.concat []) state
  | concatCons {before between after : Bool} {part : Doc} {rest : List Doc} :
      Leads before part between → Leads between (.concat rest) after →
        Leads before (.concat (part :: rest)) after
  | fillNil {state : Bool} : Leads state (.fill []) state
  | fillCons {before between after : Bool} {item : Doc} {rest : List Doc} :
      Leads before item between → Leads between (.fill rest) after →
        Leads before (.fill (item :: rest)) after
  | nest {before after : Bool} {amount : Amount} {body : Doc} :
      Leads before body after → Leads before (.nest amount body) after
  | group {before after : Bool} {body : Doc} :
      Leads before body after → Leads before (.group body) after
  | alwaysBreak {before after : Bool} {body : Doc} :
      Leads before body after → Leads before (.alwaysBreak body) after
  | annotated {before after : Bool} {label : Label} {body : Doc} :
      Leads before body after → Leads before (.annotated label body) after

namespace Doc

/-- A document that ends in a text without a blank at its end, and begins with one or with a
blank. -/
def Sealed (doc : Doc) : Prop := ∀ before, doc.Leads before false

variable {before between after : Bool} {doc separator : Doc} {docs others : List Doc}

namespace Leads

theorem single (leads : doc.Leads before after) : (Doc.concat [doc]).Leads before after :=
  .concatCons leads .concatNil

theorem append (front : (Doc.concat docs).Leads before between)
    (back : (Doc.concat others).Leads between after) :
    (Doc.concat (docs ++ others)).Leads before after := by
  induction docs generalizing before with
  | nil =>
      cases front
      exact back
  | cons doc rest induction =>
      cases front with
      | concatCons first later => exact .concatCons first (induction later)

theorem joined (leads : (Doc.concat docs).Leads before after) :
    (Doc.joined docs).Leads before after := by
  match docs with
  | [] =>
      cases leads
      exact .nil id
  | [doc] =>
      cases leads with
      | concatCons first rest =>
          cases rest
          exact first
  | first :: second :: rest => exact leads

theorem filled (leads : (Doc.concat docs).Leads before after) :
    (Doc.fill docs).Leads before after := by
  induction docs generalizing before with
  | nil =>
      cases leads
      exact .fillNil
  | cons doc rest induction =>
      cases leads with
      | concatCons first later => exact .fillCons first (induction later)

end Leads

theorem sealed_intersperse (sealed : ∀ doc ∈ docs, doc.Sealed)
    (separates : separator.Leads false between) (nonempty : docs ≠ []) :
    (Doc.concat (docs.intersperse separator)).Sealed := by
  intro before
  induction docs generalizing before with
  | nil => exact absurd rfl nonempty
  | cons doc rest induction =>
      rcases List.forall_mem_cons.mp sealed with ⟨first, others⟩
      cases rest with
      | nil => exact (first before).single
      | cons second rest =>
          rw [List.intersperse_cons_cons]
          exact .concatCons (first before)
            (.concatCons separates (induction others (List.cons_ne_nil _ _) _))

/-- Documents with something in between may also be none, where no blank is in front of them. -/
theorem leads_intersperse (sealed : ∀ doc ∈ docs, doc.Sealed)
    (separates : separator.Leads false between) :
    (Doc.concat (docs.intersperse separator)).Leads false false := by
  by_cases none : docs = []
  · subst none
    exact .concatNil
  · exact sealed_intersperse sealed separates none false

end Doc

/-- If no line ends in a blank from where the items end, none does from where they begin. Whether
the line that goes on there ends in a blank is only known if it is said not to. -/
def Trims (before after : Bool) (items : List Item) : Prop :=
  ∀ (current : Line) (later : List Item), (EndsInBlank current.text → before = true) →
    (∀ next : Line, (EndsInBlank next.text → after = true) →
      ∀ line ∈ linesFrom next later, ¬EndsInBlank line.text) →
    ∀ line ∈ linesFrom current (items ++ later), ¬EndsInBlank line.text

namespace Trims

variable {before between after : Bool} {items others : List Item}

theorem nil (weaker : before = true → after = true) : Trims before after [] :=
  fun current _ begun trimmed => trimmed current fun blank => weaker (begun blank)

theorem append (first : Trims before between items) (second : Trims between after others) :
    Trims before after (items ++ others) := by
  intro current later begun trimmed
  rw [List.append_assoc]
  exact first current _ begun fun next begun => second next later begun trimmed

theorem text {value : String} (ends : ∀ front, EndsInBlank (front ++ value) → after = true) :
    Trims before after [.text value] := by
  intro current later _ trimmed
  rw [List.singleton_append, lines_from_text]
  exact trimmed _ (ends current.text)

theorem line (indent : Amount) : Trims false after [.line indent] := by
  intro current later begun trimmed
  rw [List.singleton_append, lines_from_line]
  refine List.forall_mem_cons.mpr ⟨fun blank => ?_, trimmed _ nofun⟩
  cases begun blank

theorem labeled {label : Label} (inner : Trims before after items) :
    Trims before after (.push label :: (items ++ [.pop label])) := by
  intro current later begun trimmed
  rw [List.cons_append, List.append_assoc]
  exact inner current _ begun trimmed

end Trims

theorem Doc.Laid.of_text {value : String} {items : List Item} (laid : (Doc.text value).Laid items) :
    items = [.text value] ∨ value = "" ∧ items = [] := by
  generalize isText : Doc.text value = doc at laid
  cases laid with
  | text =>
      cases isText
      exact .inl rfl
  | empty =>
      cases isText
      exact .inr ⟨rfl, rfl⟩
  | _ => cases isText

theorem Doc.Leads.trims {before after : Bool} {doc : Doc} {items : List Item}
    (leads : doc.Leads before after) (laid : doc.Laid items) : Trims before after items := by
  induction leads generalizing items with
  | text visible =>
      rcases laid.of_text with rfl | ⟨empty, -⟩
      · exact .text fun front blank => absurd blank (visible.append front)
      · exact absurd empty visible.1
  | anyText =>
      rcases laid.of_text with rfl | ⟨-, rfl⟩
      · exact .text fun _ _ => rfl
      · exact .nil fun _ => rfl
  | nil weaker =>
      cases laid
      exact .nil weaker
  | line =>
      cases laid with
      | onBroken broken =>
          cases broken
          exact .line _
      | onFlat flat =>
          rcases flat.of_text with rfl | ⟨empty, -⟩
          · exact .text fun _ _ => rfl
          · exact absurd empty (by decide)
  | hardLine =>
      cases laid
      exact .line _
  | concatNil | fillNil =>
      cases laid
      exact .nil id
  | concatCons _ _ first rest =>
      cases laid with
      | concatCons firstLaid restLaid => exact (first firstLaid).append (rest restLaid)
  | fillCons _ _ first rest =>
      cases laid with
      | fillCons firstLaid restLaid => exact (first firstLaid).append (rest restLaid)
  | nest _ induction | group _ induction | alwaysBreak _ induction =>
      cases laid
      exact induction ‹_›
  | annotated _ induction =>
      cases laid with
      | annotated inner => exact (induction inner).labeled

/-- On no page does a line end in a blank. -/
theorem Doc.Leads.page {doc : Doc} (leads : doc.Leads false false) (regular : doc.Regular)
    (width : Int) : ∀ line ∈ doc.page width, ¬EndsInBlank line.text := by
  have normal := regular_normalize regular
  obtain ⟨column, finished⟩ := layout_finishes regular width
  have trims := leads.trims (laid_layout normal finished) ⟨0, ""⟩ [] nofun
  rw [List.append_nil] at trims
  apply trims
  intro next visible line member blank
  rw [linesFrom, headText, laterLines, List.mem_singleton, String.append_empty] at member
  rw [member] at blank
  cases visible blank

/-- An indentation in front does not change where a line ends. -/
theorem Line.last_character_ne {line : Line} (visible : ¬EndsInBlank line.text) :
    line.characters.getLast? ≠ some ' ' := by
  by_cases empty : line.text = ""
  · simp [characters, written, empty]
  · have some : line.text.toList ≠ [] := mt String.toList_eq_nil_iff.mp empty
    rw [characters_of_text empty, List.getLast?_append_of_ne_nil _ some]
    exact visible

end KotlinLayout
