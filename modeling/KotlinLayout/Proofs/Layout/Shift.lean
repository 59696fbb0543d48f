import KotlinLayout.Proofs.Layout.Reach

/-!
Layouts that stand further to the right on a page that is wider by as much. Every step is the same
step there, so the whole layout is, with every line start moved.
-/

namespace KotlinLayout

/-- Line starts moved to the right, and everything else as it is. -/
def Item.shift (offset : Int) : Item → Item
  | .line indent => .line (.int (indent.toInt + offset))
  | other => other

def Line.shift (offset : Int) (line : Line) : Line := ⟨line.indent + offset, line.text⟩

def Run.shift (offset : Int) (run : Run) : Run :=
  ⟨run.items.map (Item.shift offset), (· + offset) <$> run.finish⟩

def Entry.shift (offset : Int) (entry : Entry) : Entry :=
  ⟨.int (entry.indent.toInt + offset), entry.mode, entry.doc⟩

namespace Layout

open Doc (expand expandEach)

variable {width : Int}

@[simp] theorem head_text_shift (offset : Int) (items : List Item) :
    headText (items.map (Item.shift offset)) = headText items := by
  induction items with
  | nil => rfl
  | cons item rest induction => cases item <;> simp [Item.shift, headText, induction]

@[simp] theorem later_lines_shift (offset : Int) (items : List Item) :
    laterLines (items.map (Item.shift offset)) = (laterLines items).map (Line.shift offset) := by
  induction items with
  | nil => rfl
  | cons item rest induction =>
      cases item <;> simp [Item.shift, laterLines, Line.shift, induction]

mutual

theorem expand_shift (doc : Doc) (indent offset : Int) (mode : Mode) :
    doc.expand (indent + offset) mode = (doc.expand indent mode).map (Item.shift offset) := by
  match doc with
  | .text _ | .nil | .boxed _ | .hardLine | .foreign _ => rfl
  | .mark item => cases item <;> rfl
  | .concat parts | .fill parts =>
      rw [expand, expand, expand_each_shift, List.map_flatten]
  | .tail items start =>
      rw [expand, expand, expand_each_shift, List.map_flatten, List.map_drop]
  | .nest amount body =>
      rw [expand, expand, Int.add_right_comm]
      exact expand_shift body _ offset mode
  | .choice whenBroken whenFlat =>
      cases mode with
      | flat => exact expand_shift whenFlat indent offset .flat
      | broken => exact expand_shift whenBroken indent offset .broken
      | wrong value => exact expand_shift whenBroken indent offset (.wrong value)
  | .group body => exact expand_shift body indent offset mode
  | .alwaysBreak body => exact expand_shift body indent offset .broken
  | .annotated label body =>
      rw [expand, expand, expand_shift body indent offset mode, List.map_cons, List.map_append]
      rfl

theorem expand_each_shift (docs : List Doc) (indent offset : Int) (mode : Mode) :
    expandEach (indent + offset) mode docs =
      (expandEach indent mode docs).map (List.map (Item.shift offset)) := by
  match docs with
  | [] => rfl
  | doc :: rest =>
      rw [expandEach, expandEach, expand_shift doc, expand_each_shift rest, List.map_cons]

end

theorem entries_expand_shift (offset : Int) (entries : List Entry) :
    (entries.map (Entry.shift offset)).flatMap Entry.expand =
      (entries.flatMap Entry.expand).map (Item.shift offset) := by
  rw [List.flatMap_map, List.map_flatMap]
  congr 1
  funext entry
  exact expand_shift entry.doc entry.indent.toInt offset entry.mode

theorem mode_for_shift (column offset : Int) (entries : List Entry) :
    modeFor width (column + offset) (entries.map (Entry.shift offset)) =
      modeFor (width - offset) column entries := by
  have same : FirstLineFits width (column + offset) (entries.map (Entry.shift offset)) ↔
      FirstLineFits (width - offset) column entries := by
    unfold FirstLineFits
    rw [entries_expand_shift, headWidth, head_text_shift, ← headWidth]
    omega
  simp only [modeFor, same]

def State.shift (offset : Int) (state : State) : State :=
  ⟨state.pending.map (Entry.shift offset), state.column + offset⟩

theorem State.Sound.shift {choices : Doc → Doc → Prop} {fills : Prop} {state : State}
    (sound : state.Sound choices fills) (offset : Int) :
    (state.shift offset).Sound choices fills := by
  intro entry member
  obtain ⟨entry, isEntry, rfl⟩ := List.mem_map.mp member
  exact ⟨(sound entry isEntry).mode, (sound entry isEntry).doc⟩

/-- A step on the narrower page is a step on the wider one. -/
theorem Step.shift {offset : Int} {state next : State} {items : List Item}
    (step : Step (width - offset) state items next) :
    Step width (state.shift offset) (items.map (Item.shift offset)) (next.shift offset) := by
  -- The page matters to the fit checks only, which have the same columns left.
  cases step with
  | nil => exact .nil
  | choiceFlat => exact .choiceFlat
  | choiceBroken => exact .choiceBroken
  | groupFlat => exact .groupFlat
  | alwaysBreak => exact .alwaysBreak
  | annotated => exact .annotated
  | pop => exact .pop
  | fillNil => exact .fillNil
  | fillFlat => exact .fillFlat
  | tail => exact .tail
  | hardLine => exact .hardLine
  | @text indent mode value pending column =>
      have step : Step width (State.shift offset ⟨⟨indent, mode, .text value⟩ :: pending, column⟩)
          [.text value] ⟨pending.map (Entry.shift offset), column + offset + value.length⟩ := .text
      rw [Int.add_right_comm] at step
      exact step
  | @nest indent mode amount body pending column =>
      have step : Step width
          (State.shift offset ⟨⟨indent, mode, .nest amount body⟩ :: pending, column⟩) []
          ⟨⟨.int (indent.toInt + offset + amount.toInt), mode, body⟩ ::
            pending.map (Entry.shift offset), column + offset⟩ := .nest
      rw [Int.add_right_comm] at step
      exact step
  | @concat indent mode parts pending column =>
      have step : Step width
          (State.shift offset ⟨⟨indent, mode, .concat parts⟩ :: pending, column⟩) []
          ⟨parts.map (Entry.mk (.int (indent.toInt + offset)) mode) ++
            pending.map (Entry.shift offset), column + offset⟩ := .concat
      have moved : (parts.map (Entry.mk (.int indent.toInt) mode) ++ pending).map
          (Entry.shift offset) = parts.map (Entry.mk (.int (indent.toInt + offset)) mode) ++
            pending.map (Entry.shift offset) := by
        rw [List.map_append, List.map_map]
        rfl
      rw [← moved] at step
      exact step
  | group =>
      rw [← mode_for_shift]
      exact .group
  | fillLast =>
      rw [← mode_for_shift]
      exact .fillLast
  | fillPair =>
      rw [← mode_for_shift]
      exact .fillPair
  | fillNext =>
      rw [← mode_for_shift, ← mode_for_shift]
      exact .fillNext

theorem Reaches.shift {offset : Int} {state last : State} {items : List Item}
    (reaches : Reaches (width - offset) state items last) :
    Reaches width (state.shift offset) (items.map (Item.shift offset)) (last.shift offset) := by
  induction reaches with
  | here => exact .here
  | step first _ induction =>
      rw [List.map_append]
      exact .step first.shift induction

/-- A layout further to the right, on a page that is wider by as much. -/
theorem State.Sound.run_shift {choices : Doc → Doc → Prop} {fills : Prop} {state : State}
    (sound : state.Sound choices fills) (width offset : Int) :
    (state.shift offset).run width = (state.run (width - offset)).shift offset := by
  obtain ⟨items, column, reaches⟩ := sound.reaches_end (width - offset)
  rw [reaches.run_to_end sound, reaches.shift.run_to_end (sound.shift offset)]
  rfl

theorem lay_shift {choices : Doc → Doc → Prop} {fills : Prop} {doc : Doc}
    (sound : doc.Sound choices fills) {mode : Mode} (decides : mode.Decides)
    (width indent column offset : Int) :
    lay width (indent + offset) mode doc [] (column + offset) =
      (lay (width - offset) indent mode doc [] column).shift offset := by
  have state : State.Sound choices fills ⟨[⟨.int indent, mode, doc⟩], column⟩ :=
    List.forall_mem_singleton.mpr (entry_sound decides sound)
  have moved := state.run_shift width offset
  have ending (width : Int) : layEntries width [] = Run.done := by
    funext column
    rw [layEntries]
  simpa only [State.run, State.shift, Entry.shift, List.map_cons, List.map_nil, layEntries, ending,
    Run.and_then_done, Amount.to_int_int] using moved

end Layout

end KotlinLayout
