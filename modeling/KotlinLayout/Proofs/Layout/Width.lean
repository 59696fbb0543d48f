import KotlinLayout.Proofs.Document.Built
import KotlinLayout.Proofs.Layout.Level
import KotlinLayout.Proofs.Layout.Reach

/-!
Layouts keep within the page where the fully broken layout does. A step leaves the expansion of
what is pending as it is, unless it lays something out flat; then the line was seen to fit, up to
the next line start and with what comes after. Only the last content of a fill is laid out flat
without a look at what comes after it.
-/

namespace KotlinLayout

/-- Entries whose documents are steady, and what is left of a fill that is laid out flat. -/
inductive Entry.Steady : Entry → Prop where
  | doc {indent : Amount} {mode : Mode} {doc : Doc} : doc.Steady → Entry.Steady ⟨indent, mode, doc⟩
  | rest {indent : Amount} {items : List Doc} :
      (∀ item ∈ items, item.Steady) → Entry.Steady ⟨indent, .flat, .fill items⟩

namespace Layout

open Doc (expand Level Steady Separated)

variable {width : Int}

def State.Steady (state : State) : Prop := ∀ entry ∈ state.pending, entry.Steady

def State.expand (state : State) : List Item := state.pending.flatMap Entry.expand

/-- The last content of a fill fits by itself, but not with what comes after it. -/
inductive Overhangs (width : Int) : State → Prop where
  | last {indent content pending column} :
      FirstLineFits width column [⟨.int indent.toInt, .flat, content⟩] →
        ¬FirstLineFits width column (⟨.int indent.toInt, .flat, content⟩ :: pending) →
          Overhangs width ⟨⟨indent, .broken, .fill [content]⟩ :: pending, column⟩

theorem State.Steady.of_cons {entry : Entry} {pending : List Entry} {column : Int}
    (steady : State.Steady ⟨entry :: pending, column⟩) :
    entry.Steady ∧ ∀ entry ∈ pending, entry.Steady :=
  List.forall_mem_cons.mp steady

theorem State.Steady.cons {indent : Amount} {mode : Mode} {doc : Doc} {pending : List Entry}
    {column : Int} (first : doc.Steady) (rest : ∀ entry ∈ pending, entry.Steady) :
    State.Steady ⟨⟨indent, mode, doc⟩ :: pending, column⟩ :=
  List.forall_mem_cons.mpr ⟨.doc first, rest⟩

theorem State.Steady.of_group {indent : Amount} {mode : Mode} {body : Doc} {pending : List Entry}
    {column : Int} (steady : State.Steady ⟨⟨indent, mode, .group body⟩ :: pending, column⟩) :
    body.Level ∧ body.Steady ∧ ∀ entry ∈ pending, entry.Steady := by
  rcases steady.of_cons with ⟨whole, rest⟩
  cases whole with | doc whole =>
  cases whole with | group level body =>
  exact ⟨level, body, rest⟩

/-- Only the rest of a flat fill may begin with a separator. -/
theorem State.Steady.of_fill {indent : Amount} {items : List Doc} {pending : List Entry}
    {column : Int} (steady : State.Steady ⟨⟨indent, .broken, .fill items⟩ :: pending, column⟩) :
    Separated items ∧ ((∀ item ∈ items, item.Level) ∧ ∀ item ∈ items, item.Steady) ∧
      ∀ entry ∈ pending, entry.Steady := by
  rcases steady.of_cons with ⟨whole, rest⟩
  cases whole with | doc whole =>
  cases whole with | fill separated level items =>
  exact ⟨separated, ⟨level, items⟩, rest⟩

theorem Step.steady {state next : State} {items : List Item}
    (step : Step width state items next) (steady : state.Steady) : next.Steady := by
  cases step with
  | text | nil | hardLine | pop | fillNil => exact steady.of_cons.2
  | concat =>
      obtain ⟨whole, rest⟩ := steady.of_cons
      cases whole with | doc whole =>
      cases whole with | concat parts =>
      intro entry member
      rcases List.mem_append.mp member with member | member
      · obtain ⟨part, isPart, rfl⟩ := List.mem_map.mp member
        exact .doc (parts part isPart)
      · exact rest entry member
  | nest =>
      obtain ⟨whole, rest⟩ := steady.of_cons
      cases whole with | doc whole =>
      cases whole with | nest body =>
      exact .cons body rest
  | choiceFlat =>
      obtain ⟨whole, rest⟩ := steady.of_cons
      cases whole with | doc whole =>
      cases whole with | choice flat =>
      exact .cons flat rest
  | choiceBroken =>
      obtain ⟨whole, rest⟩ := steady.of_cons
      cases whole with | doc whole =>
      cases whole with | choice _ =>
      exact .cons .hardLine rest
  | groupFlat | group =>
      obtain ⟨_, body, rest⟩ := steady.of_group
      exact .cons body rest
  | alwaysBreak =>
      obtain ⟨whole, rest⟩ := steady.of_cons
      cases whole with | doc whole =>
      cases whole with | alwaysBreak body =>
      exact .cons body rest
  | annotated =>
      obtain ⟨whole, rest⟩ := steady.of_cons
      cases whole with | doc whole =>
      cases whole with | annotated body =>
      exact .cons body (List.forall_mem_cons.mpr ⟨.doc .mark, rest⟩)
  | @fillFlat _ item items _ _ =>
      obtain ⟨whole, rest⟩ := steady.of_cons
      have each : ∀ doc ∈ item :: items, doc.Steady := by
        cases whole with
        | doc whole => cases whole with | fill _ _ each => exact each
        | rest each => exact each
      obtain ⟨first, others⟩ := List.forall_mem_cons.mp each
      exact .cons first (List.forall_mem_cons.mpr ⟨.rest others, rest⟩)
  | fillLast =>
      obtain ⟨_, ⟨_, items⟩, rest⟩ := steady.of_fill
      exact .cons (List.forall_mem_cons.mp items).1 rest
  | fillPair =>
      cases steady.of_fill.1
  | fillNext =>
      obtain ⟨separated, ⟨level, items⟩, rest⟩ := steady.of_fill
      cases separated with | next others =>
      simp only [List.forall_mem_cons] at items level
      obtain ⟨content, separator, following⟩ := items
      refine .cons content (List.forall_mem_cons.mpr ⟨.doc separator,
        List.forall_mem_cons.mpr ⟨.doc (.fill others ?_ ?_), rest⟩⟩)
      · exact List.forall_mem_cons.mpr level.2.2
      · exact List.forall_mem_cons.mpr following
  | tail =>
      obtain ⟨whole, rest⟩ := steady.of_cons
      cases whole with | doc whole =>
      cases whole

theorem FirstLineFits.of_shorter {column : Int} {entries others : List Entry}
    (fitting : FirstLineFits width column others)
    (shorter : headWidth (entries.flatMap Entry.expand) ≤ headWidth (others.flatMap Entry.expand)) :
    FirstLineFits width column entries := by
  unfold FirstLineFits at fitting ⊢
  omega

/-- A step that leaves the first line longer and the later lines a part of what they were, but
not without a look at the width of the first line. -/
structure Flattens (width : Int) (state next : State) : Prop where
  later : laterLines next.expand <:+ laterLines state.expand
  longer : headWidth state.expand ≤ headWidth next.expand
  checked : FirstLineFits width next.column next.pending ∨ Overhangs width state

theorem expand_cons (indent : Amount) (mode : Mode) (doc : Doc) (pending : List Entry)
    (column : Int) :
    State.expand ⟨⟨indent, mode, doc⟩ :: pending, column⟩ =
      doc.expand indent.toInt mode ++ State.expand ⟨pending, column⟩ :=
  List.flatMap_cons

theorem expand_fill_cons (indent : Amount) (mode : Mode) (item : Doc) (items : List Doc)
    (pending : List Entry) (column : Int) :
    State.expand ⟨⟨indent, mode, .fill (item :: items)⟩ :: pending, column⟩ =
      item.expand indent.toInt mode ++
        State.expand ⟨⟨indent, mode, .fill items⟩ :: pending, column⟩ := by
  simp [expand_cons]

theorem flattens_of_flat {state next : State} {doc : Doc} {indent : Int} {rest after : List Item}
    (level : doc.Level) (steady : doc.Steady)
    (isState : state.expand = doc.expand indent .broken ++ rest)
    (isNext : next.expand = doc.expand indent .flat ++ after)
    (later : laterLines after <:+ laterLines rest) (longer : headWidth rest ≤ headWidth after)
    (checked : FirstLineFits width next.column next.pending ∨ Overhangs width state) :
    Flattens width state next := by
  refine ⟨?_, ?_, checked⟩
  · rw [isState, isNext, later_lines_of_level (level.stays indent)]
    exact later.trans (later_lines_suffix _ rest)
  · rw [isState, isNext]
    calc headWidth (doc.expand indent .broken ++ rest)
        ≤ headWidth (doc.expand indent .flat ++ rest) := steady.narrower indent rest
      _ ≤ headWidth (doc.expand indent .flat ++ after) := head_width_append_mono _ longer

def Follows (width : Int) (state : State) (items : List Item) (next : State) : Prop :=
  state.expand = items ++ next.expand ∨ items = [] ∧ Flattens width state next

theorem group_follows {indent : Amount} {body : Doc} {pending : List Entry} {column : Int}
    (level : body.Level) (steady : body.Steady) :
    Follows width ⟨⟨indent, .broken, .group body⟩ :: pending, column⟩ []
      ⟨⟨.int indent.toInt, modeFor width column (⟨.int indent.toInt, .flat, body⟩ :: pending),
        body⟩ :: pending, column⟩ := by
  by_cases fitting : FirstLineFits width column (⟨.int indent.toInt, .flat, body⟩ :: pending)
  · rw [mode_for_fitting fitting]
    right
    refine ⟨rfl, ?_⟩
    exact flattens_of_flat level steady rfl rfl (List.suffix_refl _) (Nat.le_refl _)
      (.inl fitting)
  · rw [mode_for_exceeding fitting]
    left
    rfl

theorem fill_last_follows {indent : Amount} {content : Doc} {pending : List Entry} {column : Int}
    (level : content.Level) (steady : content.Steady) :
    Follows width ⟨⟨indent, .broken, .fill [content]⟩ :: pending, column⟩ []
      ⟨⟨.int indent.toInt, modeFor width column [⟨.int indent.toInt, .flat, content⟩], content⟩ ::
        pending, column⟩ := by
  have same : State.expand ⟨⟨indent, .broken, .fill [content]⟩ :: pending, column⟩ =
      content.expand indent.toInt .broken ++ State.expand ⟨pending, column⟩ := by
    rw [expand_fill_cons, expand_cons, Doc.expand_fill, List.flatMap_nil, List.nil_append]
  by_cases alone : FirstLineFits width column [⟨.int indent.toInt, .flat, content⟩]
  · rw [mode_for_fitting alone]
    -- What is pending was not asked for, so it may be too much for the line.
    have checked : FirstLineFits width column (⟨.int indent.toInt, .flat, content⟩ :: pending) ∨
        Overhangs width ⟨⟨indent, .broken, .fill [content]⟩ :: pending, column⟩ := by
      by_cases whole : FirstLineFits width column (⟨.int indent.toInt, .flat, content⟩ :: pending)
      · exact .inl whole
      · exact .inr (.last alone whole)
    right
    refine ⟨rfl, ?_⟩
    exact flattens_of_flat level steady same rfl (List.suffix_refl _) (Nat.le_refl _) checked
  · rw [mode_for_exceeding alone]
    left
    exact same

theorem fill_next_follows {indent : Amount} {content next : Doc} {others : List Doc}
    {pending : List Entry} {column : Int} (level : content.Level) (steady : content.Steady)
    (nextSteady : next.Steady) :
    Follows width
      ⟨⟨indent, .broken, .fill (content :: .line :: next :: others)⟩ :: pending, column⟩ []
      ⟨⟨.int indent.toInt, modeFor width column [⟨.int indent.toInt, .flat, content⟩], content⟩ ::
        ⟨.int indent.toInt,
          modeFor width column
            (⟨.int indent.toInt, .flat, content⟩ :: ⟨.int indent.toInt, .flat, .line⟩ ::
              ⟨.int indent.toInt, .flat, next⟩ :: ⟨.int indent.toInt, .broken, .fill others⟩ ::
              pending),
          .line⟩ ::
        ⟨.int indent.toInt, .broken, .fill (next :: others)⟩ :: pending, column⟩ := by
  let rest := State.expand ⟨⟨.int indent.toInt, .broken, .fill (next :: others)⟩ :: pending, column⟩
  let pair := (⟨.int indent.toInt, .flat, content⟩ :: ⟨.int indent.toInt, .flat, .line⟩ ::
    ⟨.int indent.toInt, .flat, next⟩ :: ⟨.int indent.toInt, .broken, .fill others⟩ :: pending :
      List Entry)
  have before : State.expand
      ⟨⟨indent, .broken, .fill (content :: .line :: next :: others)⟩ :: pending, column⟩ =
      content.expand indent.toInt .broken ++ .line (.int indent.toInt) :: rest := by
    rw [expand_fill_cons, expand_fill_cons, Doc.expand_line_broken]
    rfl
  have after (mode : Mode) : State.expand
      ⟨⟨.int indent.toInt, .flat, content⟩ :: ⟨.int indent.toInt, mode, .line⟩ ::
        ⟨.int indent.toInt, .broken, .fill (next :: others)⟩ :: pending, column⟩ =
      content.expand indent.toInt .flat ++ (Doc.line.expand indent.toInt mode ++ rest) := by
    rw [expand_cons, expand_cons, Amount.to_int_int]
  by_cases alone : FirstLineFits width column [⟨.int indent.toInt, .flat, content⟩]
  · rw [mode_for_fitting alone]
    right
    refine ⟨rfl, ?_⟩
    by_cases both : FirstLineFits width column pair
    · rw [mode_for_fitting both]
      apply flattens_of_flat level steady before (after .flat) (List.suffix_cons _ _)
        (Nat.zero_le _)
      -- The next content was measured flat and may be broken, which is no wider.
      left
      apply both.of_shorter
      apply head_width_append_mono
      apply head_width_append_mono
      show headWidth rest ≤ headWidth (next.expand indent.toInt .flat ++
        State.expand ⟨⟨.int indent.toInt, .broken, .fill others⟩ :: pending, column⟩)
      rw [show rest = _ from expand_fill_cons ..]
      exact nextSteady.narrower indent.toInt _
    · rw [mode_for_exceeding both]
      apply flattens_of_flat level steady before (after .broken) (List.suffix_refl _)
        (Nat.zero_le _)
      left
      apply alone.of_shorter
      exact head_width_append_mono _ (Nat.le_refl 0)
  · have both : ¬FirstLineFits width column pair := by
      intro both
      apply alone
      apply both.of_shorter
      exact head_width_append_mono _ (Nat.zero_le _)
    rw [mode_for_exceeding alone, mode_for_exceeding both]
    left
    exact before

theorem Step.follows {state next : State} {items : List Item}
    (step : Step width state items next) (steady : state.Steady) :
    Follows width state items next := by
  cases step with
  | text | nil | nest | hardLine | choiceFlat | choiceBroken | groupFlat | alwaysBreak | pop
  | fillNil =>
      left
      rfl
  | concat =>
      left
      simp [State.expand, Entry.expand, List.flatMap_map]
  | annotated =>
      left
      simp [State.expand, Entry.expand, expand]
  | fillFlat | tail =>
      left
      simp [State.expand, Entry.expand]
  | group =>
      obtain ⟨level, body, _⟩ := steady.of_group
      exact group_follows level body
  | fillLast =>
      obtain ⟨_, ⟨level, items⟩, _⟩ := steady.of_fill
      exact fill_last_follows (List.forall_mem_singleton.mp level)
        (List.forall_mem_singleton.mp items)
  | fillPair => cases steady.of_fill.1
  | fillNext =>
      obtain ⟨separated, ⟨level, items⟩, _⟩ := steady.of_fill
      cases separated with | next _ =>
      have first := (List.forall_mem_cons.mp level).1
      obtain ⟨content, _, next, _⟩ := by simpa only [List.forall_mem_cons] using items
      exact fill_next_follows first content next

theorem Step.column_eq {state next : State} {items : List Item}
    (step : Step width state items next) {current : Line} (reached : current.width = state.column) :
    (lineAfter current items).width = next.column := by
  cases step with
  | text =>
      simp only [Line.width] at reached
      simp only [lineAfter, Line.width, String.length_append]
      omega
  | hardLine => simp [lineAfter, Line.width]
  | _ => exact reached

theorem Reaches.column_eq {state last : State} {items : List Item}
    (reaches : Reaches width state items last) {current : Line}
    (reached : current.width = state.column) :
    (lineAfter current items).width = last.column := by
  induction reaches generalizing current with
  | here => exact reached
  | @step state next last items later first _ induction =>
      rw [line_after_append]
      exact induction (first.column_eq reached)

theorem FirstLineFits.column_le {column : Int} {entries : List Entry}
    (fitting : FirstLineFits width column entries) : column ≤ width := by
  unfold FirstLineFits at fitting
  omega

theorem Overhangs.column_le {state : State} (overhangs : Overhangs width state) :
    state.column ≤ width := by
  cases overhangs with
  | last alone _ => exact alone.column_le

/-- What holds of the expected lines holds of those that come out, if it goes on to a line with
the same indentation that was checked for its width. -/
theorem Reaches.lines_within {state last : State} {items : List Item} {good : Line → Prop}
    (reaches : Reaches width state items last) (steady : state.Steady)
    (finished : last.pending = [])
    (checked : ∀ before between, Reaches width state before between →
      ∀ line other : Line, good other → line.indent = other.indent → line.indent ≤ width →
        line.width ≤ width ∨ Overhangs width between → good line)
    {current : Line} (reached : current.width = state.column)
    (expected : ∀ line ∈ linesFrom current state.expand, good line) :
    ∀ line ∈ linesFrom current items, good line := by
  induction reaches generalizing current with
  | here =>
      rw [State.expand, finished] at expected
      exact expected
  | @step state next last items later first _ induction =>
      have nextSteady := first.steady steady
      have nextChecked : ∀ before between, Reaches width next before between →
          ∀ line other : Line, good other → line.indent = other.indent → line.indent ≤ width →
            line.width ≤ width ∨ Overhangs width between → good line :=
        fun before between reaches => checked (items ++ before) between (.step first reaches)
      have nextReached := first.column_eq reached
      obtain ⟨lines, cut⟩ := lines_from_append current items
      rcases first.follows steady with same | ⟨rfl, flattens⟩
      · rw [same, cut, List.forall_mem_append] at expected
        rw [cut, List.forall_mem_append]
        exact ⟨expected.1, induction nextSteady finished nextChecked nextReached expected.2⟩
      · -- Nothing was emitted, and of the expected lines only the first became another one.
        apply induction nextSteady finished nextChecked nextReached
        obtain ⟨head, others⟩ := List.forall_mem_cons.mp expected
        apply List.forall_mem_cons.mpr ⟨_, fun line member => others line
          (flattens.later.subset member)⟩
        have column : state.column ≤ width := by
          rcases flattens.checked with fitting | overhangs
          · exact nextReached.symm.trans reached ▸ fitting.column_le
          · exact overhangs.column_le
        refine checked [] state .here ⟨current.indent, current.text ++ headText next.expand⟩ _ head
          rfl ?_ ?_
        · simp only [Line.width] at reached
          show current.indent ≤ width
          omega
        · apply flattens.checked.imp_left
          intro fitting
          have length : (headText next.expand).length =
              headWidth (next.pending.flatMap Entry.expand) := rfl
          simp only [Line.width, lineAfter, String.length_append] at nextReached ⊢
          unfold FirstLineFits at fitting
          omega

theorem Reaches.steady {state last : State} {items : List Item}
    (reaches : Reaches width state items last) (steady : state.Steady) : last.Steady := by
  induction reaches with
  | here => exact steady
  | step first _ induction => exact induction (first.steady steady)

/-- No first line comes out shorter than it was expected. -/
theorem Reaches.head_width_le {state last : State} {items : List Item}
    (reaches : Reaches width state items last) (steady : state.Steady)
    (finished : last.pending = []) : headWidth state.expand ≤ headWidth items := by
  induction reaches with
  | here =>
      rw [State.expand, finished]
      exact Nat.le_refl _
  | @step state next last items later first _ induction =>
      have nextWidth := induction (first.steady steady) finished
      rcases first.follows steady with same | ⟨rfl, flattens⟩
      · rw [same]
        exact head_width_append_mono items nextWidth
      · exact Nat.le_trans flattens.longer nextWidth

theorem State.Steady.start {doc : Doc} (steady : doc.Steady) : (State.start doc).Steady :=
  List.forall_mem_singleton.mpr (.doc steady)

theorem start_expand (doc : Doc) : (State.start doc).expand = doc.expand 0 .broken := by
  simp [State.start, State.expand, Entry.expand]

theorem State.Sound.not_overhangs {choices : Doc → Doc → Prop} {state : State}
    (sound : state.Sound choices False) : ¬Overhangs width state := by
  rintro ⟨_, _⟩
  exact sound.of_fill.1.2

end Layout

open Layout

theorem break_only_sound {doc : Doc} (built : doc.Built [.softLine, .hardLine]) :
    doc.Sound Doc.BreakOnly False := by
  refine built.sound.weaken ?_ (by decide)
  rintro whenBroken whenFlat (⟨broken, flat⟩ | ⟨_, broken, flat⟩ | used)
  · exact ⟨broken, .inl flat⟩
  · exact ⟨broken, .inr flat⟩
  · exact absurd used (by decide)

/-- Where no line of the fully broken layout is wider than the page, no line of the layout is. -/
theorem layout_within_width {doc : Doc} (built : doc.Built [.softLine, .hardLine])
    (confined : doc.confined = true) (width : Int)
    (broken : ∀ line ∈ lines (doc.normalize.expand 0 .broken), line.width ≤ width) :
    (layout doc width).fault? = none ∧
      ∀ line ∈ lines (layout doc width).items, line.width ≤ width := by
  have sound := break_only_sound built
  have normal : doc.normalize.Sound Doc.BreakOnly False := by
    apply sound.normalize
    rintro _ _ ⟨rfl, rfl | rfl⟩
    · exact ⟨rfl, .inl rfl⟩
    · exact ⟨rfl, .inr rfl⟩
  obtain ⟨items, column, reaches, same⟩ := layout_reaches sound normal width
  have steady := State.Steady.start (Doc.settled_normalize sound confined).steady
  rw [same]
  refine ⟨rfl, reaches.lines_within steady rfl ?_ rfl ?_⟩
  · intro before between part line other _ _ _ narrow
    exact narrow.resolve_right (part.sound (State.Sound.start normal)).not_overhangs
  · rw [start_expand]
    exact broken

theorem group_below_hard_line_within_width :
    let doc := Doc.concat
      [.text "ab", .hardLine, .group (.concat [.text "c", .softLine, .text "d"])]
    (∀ line ∈ lines (doc.normalize.expand 0 .broken), line.width ≤ 2) ∧
      (layout doc 2).fault? = none ∧ ∀ line ∈ lines (layout doc 2).items, line.width ≤ 2 := by
  intro doc
  have inner : ∀ part ∈ [.text "c", Doc.softLine, .text "d"],
      part.Built [.softLine, .hardLine] := by
    simp only [List.forall_mem_cons, List.not_mem_nil, false_implies, implies_true, and_true]
    exact ⟨.text (by decide), .softLine (by decide), .text (by decide)⟩
  have parts : ∀ part ∈ [Doc.text "ab", .hardLine,
      .group (.concat [.text "c", Doc.softLine, .text "d"])],
      part.Built [.softLine, .hardLine] := by
    simp only [List.forall_mem_cons, List.not_mem_nil, false_implies, implies_true, and_true]
    exact ⟨.text (by decide), .hardLine (by decide), .group (.concat inner rfl) rfl⟩
  have broken : ∀ line ∈ lines (doc.normalize.expand 0 .broken), line.width ≤ 2 := by decide
  exact ⟨broken, layout_within_width (.concat parts rfl) rfl 2 broken⟩

end KotlinLayout
