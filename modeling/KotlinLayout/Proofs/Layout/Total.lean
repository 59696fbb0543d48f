import KotlinLayout.Proofs.Document.Built
import KotlinLayout.Proofs.Layout.Check

/-!
Layouts of built documents are total on every page, also on one without columns. No state is
stuck, no check that a state asks for is stuck, neither goes on forever, and no text that is
emitted breaks its line.
-/

namespace KotlinLayout

open Relation (ReflTransGen)

namespace Layout

variable {choices : Doc → Doc → Prop} {fills : Prop} {width : Int}

def Advances (width : Int) (state next : State) : Prop := ∃ items, Step width state items next

def State.Finished (state : State) : Prop := state.pending = []

/-- The fit checks a state asks for: the columns that are left, what is to fit into them, and what
is pending after it. A content of a fill is checked by itself. -/
inductive Asks (width : Int) : State → Int → List Entry → List Entry → Prop where
  | group {indent : Amount} {body : Doc} {pending : List Entry} {column : Int} :
      Asks width ⟨⟨indent, .broken, .group body⟩ :: pending, column⟩ (width - column)
        [⟨.int indent.toInt, .flat, body⟩] pending
  | content {indent : Amount} {content : Doc} {rest : List Doc} {pending : List Entry}
      {column : Int} :
      Asks width ⟨⟨indent, .broken, .fill (content :: rest)⟩ :: pending, column⟩ (width - column)
        [⟨.int indent.toInt, .flat, content⟩] []
  | separator {indent : Amount} {content separator next : Doc} {others : List Doc}
      {pending : List Entry} {column : Int} :
      Asks width
        ⟨⟨indent, .broken, .fill (content :: separator :: next :: others)⟩ :: pending, column⟩
        (width - column)
        [⟨.int indent.toInt, .flat, content⟩, ⟨.int indent.toInt, .flat, separator⟩,
          ⟨.int indent.toInt, .flat, next⟩, ⟨.int indent.toInt, .broken, .fill others⟩]
        pending

theorem Asks.sound {state : State} {columns : Int} {entries pending : List Entry}
    (asks : Asks width state columns entries pending) (sound : state.Sound choices fills) :
    ∀ entry ∈ entries ++ pending, entry.Sound choices fills := by
  cases asks with
  | group =>
      obtain ⟨_, body, rest⟩ := sound.of_group
      exact List.forall_mem_cons.mpr ⟨entry_sound (.inl rfl) body, rest⟩
  | content =>
      obtain ⟨_, items, _⟩ := sound.of_fill
      exact List.forall_mem_singleton.mpr (entry_sound (.inl rfl) (items _ List.mem_cons_self))
  | separator =>
      obtain ⟨⟨decides, wanted⟩, items, rest⟩ := sound.of_fill
      simp only [List.forall_mem_cons] at items
      obtain ⟨first, between, second, more⟩ := items
      simp only [List.cons_append, List.nil_append, List.forall_mem_cons]
      exact ⟨entry_sound (.inl rfl) first, entry_sound (.inl rfl) between,
        entry_sound (.inl rfl) second, entry_sound decides (.fill wanted more), rest⟩

theorem sound_of_advances {state last : State} (sound : state.Sound choices fills)
    (reaches : ReflTransGen (Advances width) state last) : last.Sound choices fills := by
  induction reaches with
  | refl => exact sound
  | tail _ step induction =>
      obtain ⟨items, step⟩ := step
      exact step.sound induction

/-- From a sound state the layout takes steps until nothing is pending. -/
theorem State.Sound.completes {state : State} (sound : state.Sound choices fills) (width : Int) :
    Completes (Advances width) State.Finished state := by
  refine .of_weight (State.Sound choices fills) (fun state => entriesWeight state.pending)
    ?_ ?_ ?_ sound
  · rintro state next ⟨items, step⟩
    exact step.weight_lt
  · rintro state next ⟨items, step⟩ sound
    exact step.sound sound
  · rintro ⟨pending, column⟩ sound
    cases pending with
    | nil => exact .inl rfl
    | cons entry pending =>
        obtain ⟨items, next, step⟩ := sound.step width
        exact .inr ⟨next, items, step⟩

def Breakless (items : List Item) : Prop := ∀ value, .text value ∈ items → '\n' ∉ value.toList

theorem Step.breakless {state next : State} {items : List Item}
    (step : Step width state items next) (sound : state.Sound choices fills) :
    Breakless items := by
  cases step with
  | text =>
      obtain ⟨⟨_, stacked⟩, _⟩ := sound.of_cons
      cases stacked with | doc whole =>
      cases whole with | text breakless =>
      intro value member
      cases List.mem_singleton.mp member
      exact breakless
  | _ => simp [Breakless]

theorem Reaches.breakless {state last : State} {items : List Item}
    (reaches : Reaches width state items last) (sound : state.Sound choices fills) :
    Breakless items := by
  induction reaches with
  | here => simp [Breakless]
  | step first _ induction =>
      intro value member
      rcases List.mem_append.mp member with member | member
      · exact first.breakless sound value member
      · exact induction (first.sound sound) value member

end Layout

open Layout

/-- Every built document is laid out without a fault on every page, and the layout is what the
steps from its normal form emit until nothing is pending. -/
theorem layout_total {doc : Doc} (built : doc.Built Extra.all) (width : Int) :
    doc.normalized = .ok doc.normalize ∧
      Completes (Advances width) State.Finished (State.start doc.normalize) ∧
      (∀ state, ReflTransGen (Advances width) (State.start doc.normalize) state →
        ∀ columns entries pending, Asks width state columns entries pending →
          Completes ReadStep Reading.Settled ⟨columns, entries ++ pending⟩ ∧
            ∃ last, ReflTransGen ReadStep ⟨columns, entries ++ pending⟩ last ∧ last.Settled ∧
              fits columns entries pending = .ok (decide (0 ≤ last.columns))) ∧
      (∃ column, Reaches width (State.start doc.normalize) (layout doc width).items
        ⟨[], column⟩) ∧
      (layout doc width).fault? = none ∧ Breakless (layout doc width).items := by
  have regular := built.sound.regular
  have normal := Doc.regular_normalize regular
  have start := State.Sound.start normal
  obtain ⟨items, column, reaches, same⟩ := layout_reaches regular normal width
  refine ⟨regular.normalized_eq, start.completes width, ?_, ⟨column, ?_⟩,
    layout_succeeds regular width, ?_⟩
  · intro state reached columns entries pending asks
    exact fits_completes columns (asks.sound (sound_of_advances start reached))
  · rw [same]
    exact reaches
  · rw [same]
    exact reaches.breakless start

/-- Without a column to stand in, a fill breaks its lines and is laid out all the same. -/
theorem fill_without_columns_total :
    (Doc.fill [.text "a", Doc.softLine, .text "b"]).Built Extra.all ∧
      Completes (Advances (-1)) State.Finished
        (State.start (.fill [.text "a", Doc.softLine, .text "b"])) ∧
      (layout (.fill [.text "a", Doc.softLine, .text "b"]) (-1)).fault? = none ∧
      Breakless [.text "a", .line (.int 0), .text "b"] := by
  have parts : ∀ part ∈ [.text "a", Doc.softLine, .text "b"], part.Built Extra.all := by
    simp only [List.forall_mem_cons, List.not_mem_nil, false_implies, implies_true, and_true]
    exact ⟨.text (by decide), .softLine (by decide), .text (by decide)⟩
  have built : (Doc.fill [.text "a", Doc.softLine, .text "b"]).Built Extra.all :=
    .fill (by decide) parts rfl
  obtain ⟨-, completes, -, -, succeeds, breakless⟩ := layout_total built (-1)
  exact ⟨built, completes, succeeds, breakless⟩

end KotlinLayout
