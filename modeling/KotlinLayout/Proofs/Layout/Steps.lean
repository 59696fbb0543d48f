import KotlinLayout.Proofs.Layout.FirstLine

/-!
A layout as a run of single steps. A state holds the entries that are still pending and the
column that was reached; a step takes the first entry off, emits at most one item and may put
other entries in its place. Every state of sound entries takes steps until nothing is pending,
and the items emitted on the way are those of the layout.
-/

namespace KotlinLayout

namespace Run

def after (items : List Item) (run : Run) : Run := ⟨items ++ run.items, run.finish⟩

theorem after_after (first second : List Item) (run : Run) :
    (run.after second).after first = run.after (first ++ second) := by
  simp [after]

theorem emit_and_then (item : Item) (column : Int) (next : Int → Run) :
    (emit item column).andThen next = (next column).after [item] := rfl

end Run

namespace Layout

def SameReading (pending other : List Entry) : Prop :=
  ∀ columns, readEntries pending columns = readEntries other columns

/-- The fit check gives the same answer, whatever is asked for in front. -/
def SameAnswers (pending other : List Entry) : Prop :=
  ∀ columns entries, fits columns entries pending = fits columns entries other

theorem SameReading.same_answers {pending other : List Entry} (same : SameReading pending other) :
    SameAnswers pending other := by
  intro columns entries
  have functions : readEntries pending = readEntries other := funext same
  simp only [fits, functions]

theorem read_entries_append (entries pending : List Entry) (columns : Int) :
    readEntries (entries ++ pending) columns =
      Room.andThen (readEntries entries columns) (readEntries pending) := by
  induction entries generalizing columns with
  | nil => rfl
  | cons entry rest induction =>
      have functions : readEntries (rest ++ pending) = fun columns =>
          Room.andThen (readEntries rest columns) (readEntries pending) := funext induction
      rw [List.cons_append, readEntries, functions, readEntries]
      cases read entry.indent entry.mode entry.doc columns with
      | error fault => rfl
      | ok room => cases room <;> rfl

theorem fits_append (columns : Int) (entries others pending : List Entry) :
    fits columns (entries ++ others) pending = fits columns entries (others ++ pending) := by
  have functions : readEntries (others ++ pending) = fun columns =>
      Room.andThen (readEntries others columns) (readEntries pending) :=
    funext (read_entries_append others pending)
  simp only [fits, functions, read_entries_append]
  cases readEntries entries columns with
  | error fault => rfl
  | ok room => cases room <;> rfl

namespace SameAnswers

variable {pending other : List Entry}

theorem cons (same : SameAnswers pending other) (entry : Entry) :
    SameAnswers (entry :: pending) (entry :: other) := by
  intro columns entries
  have left := fits_append columns entries [entry] pending
  have right := fits_append columns entries [entry] other
  rw [List.singleton_append] at left right
  rw [← left, ← right, same]

end SameAnswers

mutual

theorem lay_congr (width indent : Int) (mode : Mode) (doc : Doc) {pending other : List Entry}
    (same : SameAnswers pending other) (column : Int) :
    lay width indent mode doc pending column = lay width indent mode doc other column := by
  match doc with
  | .text _ | .nil | .boxed _ | .hardLine | .foreign _ => rfl
  | .mark item => cases item <;> rfl
  | .concat parts => exact lay_all_congr width indent mode parts same column
  | .nest amount body => exact lay_congr width _ mode body same column
  | .choice whenBroken whenFlat =>
      cases mode with
      | flat => exact lay_congr width indent .flat whenFlat same column
      | broken => exact lay_congr width indent .broken whenBroken same column
      | wrong => rfl
  | .group body =>
      simp only [lay, same _ _]
      split
      · exact lay_congr width indent .flat body same column
      · congr 1
        funext mode
        exact lay_congr width indent mode body same column
  | .alwaysBreak body => exact lay_congr width indent .broken body same column
  | .fill items => exact lay_fill_congr width indent mode items 0 same column
  | .tail items start => exact lay_fill_congr width indent mode items _ same column
  | .annotated label body =>
      simp only [lay]
      congr 1
      funext column
      rw [lay_congr width indent mode body (same.cons _) column]

theorem lay_all_congr (width indent : Int) (mode : Mode) (docs : List Doc)
    {pending other : List Entry} (same : SameAnswers pending other) (column : Int) :
    layAll width indent mode docs pending column = layAll width indent mode docs other column := by
  match docs with
  | [] => rfl
  | doc :: rest =>
      rw [layAll, layAll, lay_congr width indent mode doc (same.cons _) column]
      congr 1
      funext column
      exact lay_all_congr width indent mode rest same column

theorem lay_fill_congr (width indent : Int) (mode : Mode) (docs : List Doc) (skipped : Nat)
    {pending other : List Entry} (same : SameAnswers pending other) (column : Int) :
    layFill width indent mode docs skipped pending column =
      layFill width indent mode docs skipped other column := by
  match docs, skipped with
  | [], _ => simp [layFill]
  | _ :: rest, skipped + 1 => exact lay_fill_congr width indent mode rest skipped same column
  | content :: rest, 0 =>
      rw [layFill, layFill]
      split
      · rw [lay_congr width indent mode content (same.cons _) column]
        congr 1
        funext column
        exact lay_fill_congr width indent mode rest 0 same column
      · congr 1
        funext contentMode
        match rest with
        | [] => exact lay_congr width indent contentMode content same column
        | [separator] =>
            dsimp only
            rw [lay_congr width indent contentMode content (same.cons _) column]
            congr 1
            funext column
            exact lay_congr width indent contentMode separator same column
        | separator :: next :: others =>
            dsimp only
            rw [same]
            congr 1
            funext separatorMode
            rw [lay_congr width indent contentMode content ((same.cons _).cons _) column]
            congr 1
            funext column
            rw [lay_congr width indent separatorMode separator (same.cons _) column]
            congr 1
            funext column
            exact lay_fill_congr width indent mode (next :: others) 0 same column

end

theorem same_reading_parts (indent : Amount) (mode : Mode) (parts : List Doc)
    (pending : List Entry) :
    SameReading (parts.map (Entry.mk indent mode) ++ pending)
      (⟨indent, mode, .concat parts⟩ :: pending) := by
  intro columns
  rw [readEntries, read]
  induction parts generalizing columns with
  | nil => rw [readAll]; rfl
  | cons part rest induction =>
      have functions : readEntries (rest.map (Entry.mk indent mode) ++ pending) =
          fun columns => Room.andThen (readAll indent mode rest 0 columns)
            (readEntries pending) := funext induction
      rw [List.map_cons, List.cons_append, readEntries, functions, readAll]
      cases read indent mode part columns with
      | error fault => rfl
      | ok room => cases room <;> rfl

theorem lay_parts (width indent : Int) (mode : Mode) (parts : List Doc) (pending : List Entry)
    (column : Int) :
    layEntries width (parts.map (Entry.mk (.int indent) mode) ++ pending) column =
      (layAll width indent mode parts pending column).andThen (layEntries width pending) := by
  induction parts generalizing column with
  | nil => rw [layAll, Run.done_and_then]; rfl
  | cons part rest induction =>
      rw [List.map_cons, List.cons_append, layEntries, layAll, Run.and_then_assoc,
        lay_congr width _ mode part
          (same_reading_parts (.int indent) mode rest pending).same_answers]
      congr 1
      funext column
      exact induction column

/-- Entries still to be laid out, the next one first, and the column that was reached. -/
structure State where
  pending : List Entry
  column : Int

def State.run (width : Int) (state : State) : Run := layEntries width state.pending state.column

/-- The first line of the entries ends within the page. -/
def FirstLineFits (width column : Int) (entries : List Entry) : Prop :=
  column + headWidth (entries.flatMap Entry.expand) ≤ width

instance (width column : Int) (entries : List Entry) :
    Decidable (FirstLineFits width column entries) :=
  inferInstanceAs (Decidable (_ ≤ _))

def modeFor (width column : Int) (entries : List Entry) : Mode :=
  if FirstLineFits width column entries then .flat else .broken

theorem mode_for_fitting {width column : Int} {entries : List Entry}
    (fitting : FirstLineFits width column entries) : modeFor width column entries = .flat :=
  if_pos fitting

theorem mode_for_exceeding {width column : Int} {entries : List Entry}
    (exceeding : ¬FirstLineFits width column entries) : modeFor width column entries = .broken :=
  if_neg exceeding

theorem mode_for_decides (width column : Int) (entries : List Entry) :
    (modeFor width column entries).Decides := by
  unfold modeFor
  split
  · exact .inl rfl
  · exact .inr rfl

/-- What a layout does with its next entry. -/
inductive Step (width : Int) : State → List Item → State → Prop where
  | text {indent mode value pending column} :
      Step width ⟨⟨indent, mode, .text value⟩ :: pending, column⟩ [.text value]
        ⟨pending, column + value.length⟩
  | nil {indent mode pending column} :
      Step width ⟨⟨indent, mode, .nil⟩ :: pending, column⟩ [] ⟨pending, column⟩
  | concat {indent mode parts pending column} :
      Step width ⟨⟨indent, mode, .concat parts⟩ :: pending, column⟩ []
        ⟨parts.map (Entry.mk (.int indent.toInt) mode) ++ pending, column⟩
  | nest {indent mode amount body pending column} :
      Step width ⟨⟨indent, mode, .nest amount body⟩ :: pending, column⟩ []
        ⟨⟨.int (indent.toInt + amount.toInt), mode, body⟩ :: pending, column⟩
  | choiceFlat {indent whenBroken whenFlat pending column} :
      Step width ⟨⟨indent, .flat, .choice whenBroken whenFlat⟩ :: pending, column⟩ []
        ⟨⟨.int indent.toInt, .flat, whenFlat⟩ :: pending, column⟩
  | choiceBroken {indent whenBroken whenFlat pending column} :
      Step width ⟨⟨indent, .broken, .choice whenBroken whenFlat⟩ :: pending, column⟩ []
        ⟨⟨.int indent.toInt, .broken, whenBroken⟩ :: pending, column⟩
  | hardLine {indent mode pending column} :
      Step width ⟨⟨indent, mode, .hardLine⟩ :: pending, column⟩ [.line (.int indent.toInt)]
        ⟨pending, indent.toInt⟩
  | groupFlat {indent body pending column} :
      Step width ⟨⟨indent, .flat, .group body⟩ :: pending, column⟩ []
        ⟨⟨.int indent.toInt, .flat, body⟩ :: pending, column⟩
  | group {indent body pending column} :
      Step width ⟨⟨indent, .broken, .group body⟩ :: pending, column⟩ []
        ⟨⟨.int indent.toInt, modeFor width column (⟨.int indent.toInt, .flat, body⟩ :: pending),
          body⟩ :: pending, column⟩
  | alwaysBreak {indent mode body pending column} :
      Step width ⟨⟨indent, mode, .alwaysBreak body⟩ :: pending, column⟩ []
        ⟨⟨.int indent.toInt, .broken, body⟩ :: pending, column⟩
  | annotated {indent mode label body pending column} :
      Step width ⟨⟨indent, mode, .annotated label body⟩ :: pending, column⟩ [.push label]
        ⟨⟨.int indent.toInt, mode, body⟩ ::
          ⟨.int indent.toInt, mode, .mark (.pop label)⟩ :: pending, column⟩
  | pop {indent mode label pending column} :
      Step width ⟨⟨indent, mode, .mark (.pop label)⟩ :: pending, column⟩ [.pop label]
        ⟨pending, column⟩
  | fillNil {indent mode pending column} :
      Step width ⟨⟨indent, mode, .fill []⟩ :: pending, column⟩ [] ⟨pending, column⟩
  | fillFlat {indent item items pending column} :
      Step width ⟨⟨indent, .flat, .fill (item :: items)⟩ :: pending, column⟩ []
        ⟨⟨.int indent.toInt, .flat, item⟩ :: ⟨.int indent.toInt, .flat, .fill items⟩ :: pending,
          column⟩
  /-- A last content is only asked whether it fits by itself. -/
  | fillLast {indent content pending column} :
      Step width ⟨⟨indent, .broken, .fill [content]⟩ :: pending, column⟩ []
        ⟨⟨.int indent.toInt, modeFor width column [⟨.int indent.toInt, .flat, content⟩], content⟩ ::
          pending, column⟩
  | fillPair {indent content separator pending column} :
      Step width ⟨⟨indent, .broken, .fill [content, separator]⟩ :: pending, column⟩ []
        ⟨⟨.int indent.toInt, modeFor width column [⟨.int indent.toInt, .flat, content⟩], content⟩ ::
          ⟨.int indent.toInt, modeFor width column [⟨.int indent.toInt, .flat, content⟩],
            separator⟩ :: pending, column⟩
  | fillNext {indent content separator next others pending column} :
      Step width
        ⟨⟨indent, .broken, .fill (content :: separator :: next :: others)⟩ :: pending, column⟩ []
        ⟨⟨.int indent.toInt, modeFor width column [⟨.int indent.toInt, .flat, content⟩], content⟩ ::
          ⟨.int indent.toInt,
            modeFor width column
              (⟨.int indent.toInt, .flat, content⟩ :: ⟨.int indent.toInt, .flat, separator⟩ ::
                ⟨.int indent.toInt, .flat, next⟩ :: ⟨.int indent.toInt, .broken, .fill others⟩ ::
                pending),
            separator⟩ ::
          ⟨.int indent.toInt, .broken, .fill (next :: others)⟩ :: pending, column⟩
  | tail {indent mode items start pending column} :
      Step width ⟨⟨indent, mode, .tail items start⟩ :: pending, column⟩ []
        ⟨⟨.int indent.toInt, mode, .fill (items.drop start.toInt.toNat)⟩ :: pending, column⟩

variable {choices : Doc → Doc → Prop} {fills : Prop}

def State.Sound (choices : Doc → Doc → Prop) (fills : Prop) (state : State) : Prop :=
  ∀ entry ∈ state.pending, entry.Sound choices fills

theorem decided_fits (width column : Int) {entries pending : List Entry}
    (sound : ∀ entry ∈ entries, entry.Sound choices fills)
    (pendingSound : ∀ entry ∈ pending, entry.Sound choices fills) (next : Mode → Run) :
    Run.decided (fits (width - column) entries pending) next =
      next (modeFor width column (entries ++ pending)) := by
  rw [fits_eq (width - column) sound pendingSound]
  by_cases fitting : FirstLineFits width column (entries ++ pending)
  · have enough : headWidth ((entries ++ pending).flatMap Entry.expand) ≤ width - column := by
      unfold FirstLineFits at fitting
      omega
    rw [decide_eq_true enough, mode_for_fitting fitting]
    rfl
  · have tight : ¬headWidth ((entries ++ pending).flatMap Entry.expand) ≤ width - column := by
      unfold FirstLineFits at fitting
      omega
    rw [decide_eq_false tight, mode_for_exceeding fitting]
    rfl

theorem entry_sound {indent : Amount} {mode : Mode} {doc : Doc} (decides : mode.Decides)
    (sound : doc.Sound choices fills) : (Entry.mk indent mode doc).Sound choices fills :=
  ⟨decides, .doc sound⟩

theorem State.Sound.of_cons {entry : Entry} {pending : List Entry} {column : Int}
    (sound : State.Sound choices fills ⟨entry :: pending, column⟩) :
    entry.Sound choices fills ∧ ∀ entry ∈ pending, entry.Sound choices fills :=
  List.forall_mem_cons.mp sound

theorem State.Sound.of_choice {indent : Amount} {mode : Mode} {whenBroken whenFlat : Doc}
    {pending : List Entry} {column : Int}
    (sound : State.Sound choices fills
      ⟨⟨indent, mode, .choice whenBroken whenFlat⟩ :: pending, column⟩) :
    choices whenBroken whenFlat ∧ (mode.Decides ∧ whenBroken.Sound choices fills ∧
      whenFlat.Sound choices fills) ∧ ∀ entry ∈ pending, entry.Sound choices fills := by
  rcases sound.of_cons with ⟨⟨decides, stacked⟩, rest⟩
  cases stacked with | doc whole =>
  cases whole with | choice allowed broken flat =>
  exact ⟨allowed, ⟨decides, broken, flat⟩, rest⟩

theorem State.Sound.of_group {indent : Amount} {mode : Mode} {body : Doc} {pending : List Entry}
    {column : Int}
    (sound : State.Sound choices fills ⟨⟨indent, mode, .group body⟩ :: pending, column⟩) :
    mode.Decides ∧ body.Sound choices fills ∧ ∀ entry ∈ pending, entry.Sound choices fills := by
  rcases sound.of_cons with ⟨⟨decides, stacked⟩, rest⟩
  cases stacked with | doc whole =>
  cases whole with | group body =>
  exact ⟨decides, body, rest⟩

theorem State.Sound.of_fill {indent : Amount} {mode : Mode} {items : List Doc}
    {pending : List Entry} {column : Int}
    (sound : State.Sound choices fills ⟨⟨indent, mode, .fill items⟩ :: pending, column⟩) :
    (mode.Decides ∧ fills) ∧ (∀ item ∈ items, item.Sound choices fills) ∧
      ∀ entry ∈ pending, entry.Sound choices fills := by
  rcases sound.of_cons with ⟨⟨decides, stacked⟩, rest⟩
  cases stacked with | doc whole =>
  cases whole with | fill wanted items =>
  exact ⟨⟨decides, wanted⟩, items, rest⟩

/-- A step replaces a sound entry by sound entries, and leaves those after it as they are. -/
theorem Step.replaces {width : Int} {entry : Entry} {pending : List Entry} {column : Int}
    {next : State} {items : List Item} (step : Step width ⟨entry :: pending, column⟩ items next)
    (sound : entry.Sound choices fills) :
    ∃ front, next.pending = front ++ pending ∧ ∀ entry ∈ front, entry.Sound choices fills := by
  have alone : State.Sound choices fills ⟨[entry], column⟩ := List.forall_mem_singleton.mpr sound
  cases step with
  | text | nil | hardLine | pop | fillNil => exact ⟨[], rfl, by simp⟩
  | concat =>
      obtain ⟨decides, stacked⟩ := sound
      cases stacked with | doc whole =>
      cases whole with | concat parts =>
      refine ⟨_, rfl, ?_⟩
      rw [List.forall_mem_map]
      exact fun part member => entry_sound decides (parts part member)
  | nest =>
      obtain ⟨decides, stacked⟩ := sound
      cases stacked with | doc whole =>
      cases whole with | nest body =>
      exact ⟨[_], rfl, List.forall_mem_singleton.mpr (entry_sound decides body)⟩
  | choiceFlat =>
      obtain ⟨_, ⟨decides, _, flat⟩, _⟩ := alone.of_choice
      exact ⟨[_], rfl, List.forall_mem_singleton.mpr (entry_sound decides flat)⟩
  | choiceBroken =>
      obtain ⟨_, ⟨decides, broken, _⟩, _⟩ := alone.of_choice
      exact ⟨[_], rfl, List.forall_mem_singleton.mpr (entry_sound decides broken)⟩
  | groupFlat =>
      obtain ⟨decides, body, _⟩ := alone.of_group
      exact ⟨[_], rfl, List.forall_mem_singleton.mpr (entry_sound decides body)⟩
  | group =>
      obtain ⟨_, body, _⟩ := alone.of_group
      exact ⟨[_], rfl,
        List.forall_mem_singleton.mpr (entry_sound (mode_for_decides _ _ _) body)⟩
  | alwaysBreak =>
      obtain ⟨_, stacked⟩ := sound
      cases stacked with | doc whole =>
      cases whole with | alwaysBreak body =>
      exact ⟨[_], rfl, List.forall_mem_singleton.mpr (entry_sound (.inr rfl) body)⟩
  | annotated =>
      obtain ⟨decides, stacked⟩ := sound
      cases stacked with | doc whole =>
      cases whole with | annotated body =>
      exact ⟨[_, _], rfl, List.forall_mem_cons.mpr
        ⟨entry_sound decides body, List.forall_mem_singleton.mpr ⟨decides, .pop⟩⟩⟩
  | fillFlat =>
      obtain ⟨⟨decides, wanted⟩, items, _⟩ := alone.of_fill
      obtain ⟨item, items⟩ := List.forall_mem_cons.mp items
      exact ⟨[_, _], rfl, List.forall_mem_cons.mpr
        ⟨entry_sound decides item,
          List.forall_mem_singleton.mpr (entry_sound decides (.fill wanted items))⟩⟩
  | fillLast =>
      obtain ⟨_, items, _⟩ := alone.of_fill
      exact ⟨[_], rfl, List.forall_mem_singleton.mpr
        (entry_sound (mode_for_decides _ _ _) (items _ (by simp)))⟩
  | fillPair =>
      obtain ⟨_, items, _⟩ := alone.of_fill
      exact ⟨[_, _], rfl, List.forall_mem_cons.mpr
        ⟨entry_sound (mode_for_decides _ _ _) (items _ (by simp)),
          List.forall_mem_singleton.mpr
            (entry_sound (mode_for_decides _ _ _) (items _ (by simp)))⟩⟩
  | fillNext =>
      obtain ⟨⟨decides, wanted⟩, items, _⟩ := alone.of_fill
      have others := (List.forall_mem_cons.mp (List.forall_mem_cons.mp items).2).2
      exact ⟨[_, _, _], rfl, List.forall_mem_cons.mpr
        ⟨entry_sound (mode_for_decides _ _ _) (items _ (by simp)), List.forall_mem_cons.mpr
          ⟨entry_sound (mode_for_decides _ _ _) (items _ (by simp)),
            List.forall_mem_singleton.mpr (entry_sound decides (.fill wanted others))⟩⟩⟩
  | tail =>
      obtain ⟨decides, stacked⟩ := sound
      cases stacked with
      | doc whole => cases whole
      | tail wanted _ items =>
          refine ⟨[_], rfl, List.forall_mem_singleton.mpr (entry_sound decides (.fill wanted ?_))⟩
          exact fun item member => items item (List.mem_of_mem_drop member)

theorem Step.sound {width : Int} {state next : State} {items : List Item}
    (step : Step width state items next) (sound : state.Sound choices fills) :
    next.Sound choices fills := by
  obtain ⟨pending, column⟩ := state
  cases pending with
  | nil => cases step
  | cons entry pending =>
      obtain ⟨first, rest⟩ := sound.of_cons
      obtain ⟨front, same, each⟩ := step.replaces first
      rw [State.Sound, same]
      exact List.forall_mem_append.mpr ⟨each, rest⟩

/-- A step emits its items and leaves the rest of the layout to the state it leads to. -/
theorem Step.run_eq {width : Int} {state next : State} {items : List Item}
    (step : Step width state items next) (sound : state.Sound choices fills) :
    state.run width = (next.run width).after items := by
  cases step with
  | text | nil | hardLine | pop | fillNil =>
      simp [State.run, layEntries, lay, layFill, Run.emit_and_then, Run.done_and_then, Run.after]
  | nest | choiceFlat | choiceBroken | groupFlat | alwaysBreak => rfl
  | concat =>
      rw [State.run, State.run, lay_parts]
      rfl
  | annotated =>
      simp only [State.run, layEntries, lay]
      rw [Run.and_then_assoc, Run.emit_and_then, Run.and_then_assoc]
      rfl
  | tail =>
      simp only [State.run, layEntries, lay]
      rw [lay_fill_drop]
      rfl
  | fillFlat =>
      simp only [State.run, layEntries, lay]
      rw [layFill, if_pos (by rfl), Run.and_then_assoc]
      rfl
  | group =>
      obtain ⟨_, body, rest⟩ := sound.of_group
      simp only [State.run, layEntries, lay]
      rw [if_neg (by simp [Mode.isFlat]),
        decided_fits width _ (List.forall_mem_singleton.mpr (entry_sound (.inl rfl) body)) rest]
      rfl
  | fillLast =>
      obtain ⟨_, items, _⟩ := sound.of_fill
      have content := (List.forall_mem_cons.mp items).1
      simp only [State.run, layEntries, lay]
      rw [layFill, if_neg (by simp [Mode.isFlat]),
        decided_fits width _ (List.forall_mem_singleton.mpr (entry_sound (.inl rfl) content))
          (by simp)]
      rfl
  | fillPair =>
      obtain ⟨_, items, _⟩ := sound.of_fill
      have content := (List.forall_mem_cons.mp items).1
      simp only [State.run, layEntries, lay]
      rw [layFill, if_neg (by simp [Mode.isFlat]),
        decided_fits width _ (List.forall_mem_singleton.mpr (entry_sound (.inl rfl) content))
          (by simp)]
      dsimp only
      rw [Run.and_then_assoc]
      rfl
  | @fillNext indent content separator next others pending column =>
      obtain ⟨⟨decides, wanted⟩, items, rest⟩ := sound.of_fill
      simp only [List.forall_mem_cons] at items
      obtain ⟨first, between, second, more⟩ := items
      have alone : ∀ entry ∈ [(⟨.int indent.toInt, .flat, content⟩ : Entry)],
          entry.Sound choices fills := List.forall_mem_singleton.mpr (entry_sound (.inl rfl) first)
      have ahead : ∀ entry ∈ [(⟨.int indent.toInt, .flat, content⟩ : Entry),
          ⟨.int indent.toInt, .flat, separator⟩, ⟨.int indent.toInt, .flat, next⟩,
          ⟨.int indent.toInt, .broken, .fill others⟩], entry.Sound choices fills := by
        simp only [List.forall_mem_cons, List.not_mem_nil, false_implies, implies_true, and_true]
        exact ⟨entry_sound (.inl rfl) first, entry_sound (.inl rfl) between,
          entry_sound (.inl rfl) second, entry_sound decides (.fill wanted more)⟩
      simp only [State.run, layEntries, lay]
      rw [layFill, if_neg (by simp [Mode.isFlat]), decided_fits width _ alone (by simp)]
      dsimp only
      rw [decided_fits width _ ahead rest, Run.and_then_assoc]
      simp only [Run.and_then_assoc]
      rfl

end Layout

end KotlinLayout
