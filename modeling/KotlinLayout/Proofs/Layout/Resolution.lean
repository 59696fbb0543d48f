import KotlinLayout.Proofs.Document.Marks
import KotlinLayout.Proofs.Layout.Reach
import Mathlib.Data.List.Forall2

/-!
A layout chooses line breaks and nothing else: its items are the marks of the document in order,
where each line became a blank or a line start. The invariant is about the marks of everything
that is pending; a step either emits the first of them or leaves them as they are.
-/

namespace KotlinLayout

/-- What a layout may make of a mark. -/
inductive Mark.Becomes : Mark → Item → Prop where
  | item {value : Item} : Becomes (.item value) value
  | hardLine {indent : Int} : Becomes (.hardLine indent) (.line (.int indent))
  | blank {indent : Int} : Becomes (.line indent) (.text " ")
  | line {indent : Int} : Becomes (.line indent) (.line (.int indent))

theorem Mark.Becomes.visible_iff {mark : Mark} {item : Item} (becomes : mark.Becomes item) :
    mark.visible = true ↔ item.visible = true := by
  cases becomes <;> simp [Mark.visible, Item.visible]

theorem Mark.Becomes.plain {mark : Mark} {item : Item} (becomes : mark.Becomes item)
    (plain : mark.Plain) : item.Plain := by
  cases becomes with
  | blank =>
      show '\n' ∉ " ".toList
      decide
  | _ => exact plain

def Entry.marks (entry : Entry) : List Mark := entry.doc.marks entry.indent.toInt

namespace Layout

open List (Forall₂)
open Mark (Becomes)
open Doc (LineOnly)

variable {fills : Prop} {width : Int}

def State.marks (state : State) : List Mark := state.pending.flatMap Entry.marks

theorem Step.resolves {state next : State} {items later : List Item}
    (step : Step width state items next) (sound : state.Sound LineOnly fills)
    (resolved : Forall₂ Becomes next.marks later) :
    Forall₂ Becomes state.marks (items ++ later) := by
  cases step with
  | text => exact .cons .item resolved
  | hardLine => exact .cons .hardLine resolved
  | pop => exact .cons .item resolved
  | nil | nest | groupFlat | group | alwaysBreak => exact resolved
  | concat => simpa [State.marks, Entry.marks, List.flatMap_map] using resolved
  | fillNil | fillFlat | fillLast | fillPair | fillNext | tail =>
      simpa [State.marks, Entry.marks] using resolved
  | annotated =>
      simp only [State.marks, List.flatMap_cons, Entry.marks, Doc.marks, List.cons_append,
        List.append_assoc, List.nil_append] at resolved ⊢
      exact .cons .item resolved
  | choiceFlat =>
      obtain ⟨⟨rfl, rfl⟩, _⟩ := sound.of_choice
      cases resolved with | cons first rest =>
      cases first with | item =>
      exact .cons .blank rest
  | choiceBroken =>
      obtain ⟨⟨rfl, rfl⟩, _⟩ := sound.of_choice
      cases resolved with | cons first rest =>
      cases first with | hardLine =>
      exact .cons .line rest

theorem Reaches.resolves {state last : State} {items : List Item}
    (reaches : Reaches width state items last) (sound : state.Sound LineOnly fills)
    (finished : last.pending = []) : Forall₂ Becomes state.marks items := by
  induction reaches with
  | here =>
      rw [State.marks, finished]
      exact .nil
  | step first _ induction => exact first.resolves sound (induction (first.sound sound) finished)

theorem exists_mark {marks : List Mark} {items : List Item} (resolves : Forall₂ Becomes marks items)
    {item : Item} (member : item ∈ items) : ∃ mark ∈ marks, mark.Becomes item := by
  induction resolves with
  | nil => cases member
  | cons first _ induction =>
      rcases List.mem_cons.mp member with rfl | member
      · exact ⟨_, List.mem_cons_self, first⟩
      · obtain ⟨mark, isMark, becomes⟩ := induction member
        exact ⟨mark, List.mem_cons_of_mem _ isMark, becomes⟩

end Layout

open Layout Doc

theorem line_only_normalize {doc : Doc} {fills : Prop} (sound : doc.Sound LineOnly fills) :
    doc.normalize.Sound LineOnly fills := by
  apply sound.normalize
  rintro _ _ ⟨rfl, rfl⟩
  exact ⟨rfl, rfl⟩

/-- The layout of a document resolves the marks of its normal form. -/
theorem layout_resolves {doc : Doc} {fills : Prop} (sound : doc.Sound LineOnly fills)
    (width : Int) :
    ∃ items column, layout doc width = ⟨items, .ok column⟩ ∧
      List.Forall₂ Mark.Becomes (doc.normalize.marks 0) items := by
  have normal := line_only_normalize sound
  obtain ⟨items, column, reaches, same⟩ := layout_reaches sound normal width
  refine ⟨items, column, same, ?_⟩
  simpa [State.marks, State.start, Entry.marks] using
    reaches.resolves (State.Sound.start normal) rfl

theorem line_only_sound {extras : List Extra} {doc : Doc} (built : doc.Built extras)
    (plain : Extra.softLine ∉ extras ∧ Extra.choice ∉ extras) : doc.Sound LineOnly True := by
  refine built.sound.weaken ?_ fun _ => trivial
  rintro whenBroken whenFlat (line | ⟨used, -⟩ | used)
  · exact line
  · exact absurd used plain.1
  · exact absurd used plain.2

/-- Nothing that a document puts on the page is lost, duplicated, moved or indented differently,
and a line break becomes a blank or a line start. -/
theorem layout_only_chooses_line_breaks {doc : Doc} (built : doc.Built [.hardLine, .fill])
    (width : Int) :
    (layout doc width).fault? = none ∧
      List.Forall₂ Mark.Becomes ((doc.marks 0).filter Mark.visible)
        ((layout doc width).items.filter Item.visible) := by
  have sound := line_only_sound built (by decide)
  obtain ⟨items, column, same, resolves⟩ := layout_resolves sound width
  rw [same, ← (thins_normalize sound 0).kept]
  exact ⟨rfl, List.rel_filter (fun _ _ becomes => becomes.visible_iff) resolves⟩

theorem fill_in_nest_only_chooses_line_breaks :
    (Doc.nest (.int 2) (.fill [.text "a", Doc.line, .text "b"])).Built [.hardLine, .fill] ∧
      (layout (Doc.nest (.int 2) (.fill [.text "a", Doc.line, .text "b"])) 2).fault? = none ∧
      List.Forall₂ Mark.Becomes [.item (.text "a"), .line 2, .item (.text "b")]
        ((layout (Doc.nest (.int 2) (.fill [.text "a", Doc.line, .text "b"])) 2).items.filter
          Item.visible) := by
  have parts : ∀ part ∈ [.text "a", Doc.line, .text "b"], part.Built [.hardLine, .fill] := by
    simp only [List.forall_mem_cons, List.not_mem_nil, false_implies, implies_true, and_true]
    exact ⟨.text (by decide), .line, .text (by decide)⟩
  have inner : (Doc.fill [.text "a", Doc.line, .text "b"]).Built [.hardLine, .fill] :=
    .fill (by decide) parts rfl
  have success : Combinator.nest (.scalar (.int 2)) (.fill [.text "a", Doc.line, .text "b"]) =
      .ok (.nest (.int 2) (.fill [.text "a", Doc.line, .text "b"])) := rfl
  have built := Built.nest inner success
  exact ⟨built, layout_only_chooses_line_breaks built 2⟩

end KotlinLayout
