import KotlinLayout.Proofs.Document.Built
import KotlinLayout.Proofs.Layout.Width

/-!
Separators of fills that are laid out flat. Such a separator was seen to fit together with the
contents on both sides of it, as they are when flat. This look ends at a forced break in the
content before it, which then ends at another column, and fills inside of the two contents may go
on without a look at what comes after them. Where neither happens, what comes after the separator
ends its first line within the page.
-/

namespace KotlinLayout

namespace Layout

variable {width : Int}

/-- A content of a fill is laid out flat because it fits by itself, though not with what comes
after it. -/
inductive Oversteps (width : Int) : State → Prop where
  | last {state : State} : Overhangs width state → Oversteps width state
  | pair {indent content separator pending column} :
      FirstLineFits width column [⟨.int indent.toInt, .flat, content⟩] →
        ¬FirstLineFits width column (⟨.int indent.toInt, .flat, content⟩ ::
            ⟨.int indent.toInt, .flat, separator⟩ :: pending) →
          Oversteps width ⟨⟨indent, .broken, .fill [content, separator]⟩ :: pending, column⟩
  /-- The separator is not flat, so its first line counts as it is when broken. -/
  | next {indent content separator next others pending column} :
      FirstLineFits width column [⟨.int indent.toInt, .flat, content⟩] →
        ¬FirstLineFits width column (⟨.int indent.toInt, .flat, content⟩ ::
            ⟨.int indent.toInt, .flat, separator⟩ :: ⟨.int indent.toInt, .flat, next⟩ ::
              ⟨.int indent.toInt, .broken, .fill others⟩ :: pending) →
          ¬FirstLineFits width column (⟨.int indent.toInt, .flat, content⟩ ::
              ⟨.int indent.toInt, .broken, separator⟩ ::
                ⟨.int indent.toInt, .broken, .fill (next :: others)⟩ :: pending) →
            Oversteps width
              ⟨⟨indent, .broken, .fill (content :: separator :: next :: others)⟩ :: pending, column⟩

/-- Only fills that are laid out broken overstep. -/
theorem not_oversteps {entry : Entry} {pending : List Entry} {column : Int}
    (other : ∀ indent items, entry ≠ ⟨indent, .broken, .fill items⟩) :
    ¬Oversteps width ⟨entry :: pending, column⟩ := by
  intro oversteps
  cases oversteps with
  | last overhangs =>
      cases overhangs with
      | last => exact other _ _ rfl
  | pair | next => exact other _ _ rfl

theorem not_oversteps_of_no_fills {choices : Doc → Doc → Prop} {entry : Entry}
    {pending : List Entry} {column : Int} (sound : entry.Sound choices False) :
    ¬Oversteps width ⟨entry :: pending, column⟩ := by
  apply not_oversteps
  rintro indent items rfl
  cases sound.doc with | doc whole =>
  cases whole with | fill used _ =>
  exact used

/-- What entries come to when at most one content of a fill among them, the next one, is laid out
flat. -/
inductive Expects : List Entry → List Item → Prop where
  | plain {entries : List Entry} : Expects entries (entries.flatMap Entry.expand)
  | content {indent : Amount} {content : Doc} {others : List Doc} {entries : List Entry} :
      Expects (⟨indent, .broken, .fill (content :: others)⟩ :: entries)
        (content.expand indent.toInt .flat ++
          (others.flatMap (Doc.expand indent.toInt .broken) ++ entries.flatMap Entry.expand))
  | later {entry : Entry} {entries : List Entry} {items : List Item} :
      Expects entries items → Expects (entry :: entries) (entry.expand ++ items)

namespace Expects

variable {entry : Entry} {entries : List Entry} {items : List Item}

theorem append (expects : Expects entries items) (front : List Entry) :
    Expects (front ++ entries) (front.flatMap Entry.expand ++ items) := by
  induction front with
  | nil => exact expects
  | cons entry front induction =>
      rw [List.flatMap_cons, List.append_assoc]
      exact .later induction

theorem of_cons (expects : Expects (entry :: entries) items)
    (single : ∀ indent content others, entry ≠ ⟨indent, .broken, .fill (content :: others)⟩) :
    ∃ rest, Expects entries rest ∧ items = entry.expand ++ rest := by
  cases expects with
  | plain => exact ⟨_, .plain, List.flatMap_cons⟩
  | content => exact absurd rfl (single _ _ _)
  | later rest => exact ⟨_, rest, rfl⟩

end Expects

/-- What is pending before the outer entries is expected to end its line within the page. -/
def State.OnPage (width : Int) (outer : List Entry) (state : State) : Prop :=
  ∃ entries items, state.pending = entries ++ outer ∧ Expects entries items ∧
    state.column + headWidth items ≤ width

section

variable {entry : Entry} {entries outer : List Entry} {items emitted : List Item} {column : Int}

theorem FirstLineFits.of_append (fitting : FirstLineFits width column (entries ++ outer)) :
    FirstLineFits width column entries := by
  have shorter := head_width_append_le (entries.flatMap Entry.expand) (outer.flatMap Entry.expand)
  rw [FirstLineFits, List.flatMap_append] at fitting
  rw [FirstLineFits]
  omega

theorem FirstLineFits.on_page (front : List Entry)
    (fitting : FirstLineFits width column (front ++ (entries ++ outer))) :
    State.OnPage width outer ⟨front ++ (entries ++ outer), column⟩ := by
  rw [← List.append_assoc] at fitting ⊢
  exact ⟨front ++ entries, _, rfl, .plain, fitting.of_append⟩

theorem Expects.on_page (expects : Expects entries items) (front : List Entry)
    {expected : List Item} (same : front.flatMap Entry.expand ++ items = expected)
    (room : column + headWidth expected ≤ width) :
    State.OnPage width outer ⟨front ++ (entries ++ outer), column⟩ := by
  refine ⟨front ++ entries, _, (List.append_assoc _ _ _).symm, expects.append front, ?_⟩
  rw [same]
  exact room

theorem Expects.replaced (expects : Expects (entry :: entries) items)
    (single : ∀ indent content others, entry ≠ ⟨indent, .broken, .fill (content :: others)⟩)
    (room : column + headWidth items ≤ width) (front : List Entry)
    (same : front.flatMap Entry.expand = entry.expand) :
    State.OnPage width outer ⟨front ++ (entries ++ outer), column⟩ := by
  obtain ⟨rest, more, rfl⟩ := expects.of_cons single
  exact more.on_page front (congrArg (· ++ rest) same) room

section

variable {indent : Amount} {content separator next : Doc} {others : List Doc}

/-- Only a content that fits by itself may be expected flat. -/
theorem Expects.of_exceeding
    (expects : Expects (⟨indent, .broken, .fill (content :: others)⟩ :: entries) items)
    (room : column + headWidth items ≤ width)
    (exceeding : ¬FirstLineFits width column [⟨.int indent.toInt, .flat, content⟩]) :
    ∃ rest, Expects entries rest ∧ items = content.expand indent.toInt .broken ++
      (others.flatMap (Doc.expand indent.toInt .broken) ++ rest) := by
  cases expects with
  | plain =>
      refine ⟨_, .plain, ?_⟩
      simp [Entry.expand]
  | later rest =>
      refine ⟨_, rest, ?_⟩
      simp [Entry.expand]
  | content =>
      apply absurd _ exceeding
      have shorter := head_width_append_le (content.expand indent.toInt .flat)
        (others.flatMap (Doc.expand indent.toInt .broken) ++ entries.flatMap Entry.expand)
      rw [FirstLineFits, List.flatMap_singleton]
      show column + headWidth (content.expand indent.toInt .flat) ≤ width
      omega

theorem group_on_page {body : Doc}
    (expects : Expects (⟨indent, .broken, .group body⟩ :: entries) items)
    (room : column + headWidth items ≤ width) :
    State.OnPage width outer
      ⟨⟨.int indent.toInt,
          modeFor width column (⟨.int indent.toInt, .flat, body⟩ :: (entries ++ outer)), body⟩ ::
        (entries ++ outer), column⟩ := by
  by_cases whole : FirstLineFits width column
      (⟨.int indent.toInt, .flat, body⟩ :: (entries ++ outer))
  · rw [mode_for_fitting whole]
    exact whole.on_page [_]
  · rw [mode_for_exceeding whole]
    exact expects.replaced (by simp) room [_] (List.flatMap_singleton ..)

theorem fill_last_on_page
    (expects : Expects (⟨indent, .broken, .fill [content]⟩ :: entries) items)
    (room : column + headWidth items ≤ width)
    (heeds : ¬Oversteps width ⟨⟨indent, .broken, .fill [content]⟩ :: (entries ++ outer), column⟩) :
    State.OnPage width outer
      ⟨⟨.int indent.toInt, modeFor width column [⟨.int indent.toInt, .flat, content⟩], content⟩ ::
        (entries ++ outer), column⟩ := by
  by_cases alone : FirstLineFits width column [⟨.int indent.toInt, .flat, content⟩]
  · have whole : FirstLineFits width column
        (⟨.int indent.toInt, .flat, content⟩ :: (entries ++ outer)) :=
      Classical.not_not.mp fun exceeding => heeds (.last (.last alone exceeding))
    rw [mode_for_fitting alone]
    exact whole.on_page [_]
  · obtain ⟨rest, more, rfl⟩ := expects.of_exceeding room alone
    rw [mode_for_exceeding alone]
    exact more.on_page [⟨.int indent.toInt, .broken, content⟩] (by simp [Entry.expand]) room

theorem fill_pair_on_page
    (expects : Expects (⟨indent, .broken, .fill [content, separator]⟩ :: entries) items)
    (room : column + headWidth items ≤ width)
    (heeds : ¬Oversteps width
      ⟨⟨indent, .broken, .fill [content, separator]⟩ :: (entries ++ outer), column⟩) :
    State.OnPage width outer
      ⟨⟨.int indent.toInt, modeFor width column [⟨.int indent.toInt, .flat, content⟩], content⟩ ::
        ⟨.int indent.toInt, modeFor width column [⟨.int indent.toInt, .flat, content⟩],
          separator⟩ :: (entries ++ outer), column⟩ := by
  by_cases alone : FirstLineFits width column [⟨.int indent.toInt, .flat, content⟩]
  · have whole : FirstLineFits width column (⟨.int indent.toInt, .flat, content⟩ ::
        ⟨.int indent.toInt, .flat, separator⟩ :: (entries ++ outer)) :=
      Classical.not_not.mp fun exceeding => heeds (.pair alone exceeding)
    rw [mode_for_fitting alone]
    exact whole.on_page [_, _]
  · obtain ⟨rest, more, rfl⟩ := expects.of_exceeding room alone
    rw [mode_for_exceeding alone]
    exact more.on_page
      [⟨.int indent.toInt, .broken, content⟩, ⟨.int indent.toInt, .broken, separator⟩]
      (by simp [Entry.expand]) room

/-- Whatever comes after it, a content has the room that it takes by itself. -/
theorem content_on_page
    (expects : Expects (⟨indent, .broken, .fill (content :: others)⟩ :: entries) items)
    (room : column + headWidth items ≤ width) :
    State.OnPage width outer
      ⟨⟨.int indent.toInt, modeFor width column [⟨.int indent.toInt, .flat, content⟩], content⟩ ::
        outer, column⟩ := by
  refine ⟨[_], _, rfl, .plain, ?_⟩
  rw [List.flatMap_singleton]
  by_cases alone : FirstLineFits width column [⟨.int indent.toInt, .flat, content⟩]
  · rw [mode_for_fitting alone]
    rw [FirstLineFits, List.flatMap_singleton] at alone
    exact alone
  · obtain ⟨rest, -, rfl⟩ := expects.of_exceeding room alone
    rw [mode_for_exceeding alone]
    have shorter := head_width_append_le (content.expand indent.toInt .broken)
      (others.flatMap (Doc.expand indent.toInt .broken) ++ rest)
    show column + headWidth (content.expand indent.toInt .broken) ≤ width
    omega

def pairEntries (indent : Int) (content separator next : Doc) (others : List Doc) : List Entry :=
  [⟨.int indent, .flat, content⟩, ⟨.int indent, .flat, separator⟩, ⟨.int indent, .flat, next⟩,
    ⟨.int indent, .broken, .fill others⟩]

theorem fits_of_pair
    (both : FirstLineFits width column
      (pairEntries indent.toInt content separator next others ++ entries)) :
    FirstLineFits width column [⟨.int indent.toInt, .flat, content⟩] :=
  FirstLineFits.of_append both

/-- A separator that fits together with the contents around it promises that the next one can be
flat. -/
theorem pair_on_page
    (both : FirstLineFits width column
      (pairEntries indent.toInt content separator next others ++ (entries ++ outer))) :
    State.OnPage width outer
      ⟨⟨.int indent.toInt, .flat, content⟩ :: ⟨.int indent.toInt, .flat, separator⟩ ::
        ⟨.int indent.toInt, .broken, .fill (next :: others)⟩ :: (entries ++ outer), column⟩ := by
  rw [← List.append_assoc] at both
  have fitting := both.of_append
  have expects : Expects (⟨.int indent.toInt, .broken, .fill (next :: others)⟩ :: entries) _ :=
    .content
  refine ⟨_, _, rfl, .later (.later expects), ?_⟩
  simpa [FirstLineFits, pairEntries, Entry.expand] using fitting

theorem fill_next_on_page
    (expects : Expects
      (⟨indent, .broken, .fill (content :: separator :: next :: others)⟩ :: entries) items)
    (room : column + headWidth items ≤ width)
    (heeds : ¬Oversteps width
      ⟨⟨indent, .broken, .fill (content :: separator :: next :: others)⟩ :: (entries ++ outer),
        column⟩) :
    State.OnPage width outer
      ⟨⟨.int indent.toInt, modeFor width column [⟨.int indent.toInt, .flat, content⟩], content⟩ ::
        ⟨.int indent.toInt,
          modeFor width column
            (pairEntries indent.toInt content separator next others ++ (entries ++ outer)),
          separator⟩ ::
        ⟨.int indent.toInt, .broken, .fill (next :: others)⟩ :: (entries ++ outer), column⟩ := by
  by_cases both : FirstLineFits width column
      (pairEntries indent.toInt content separator next others ++ (entries ++ outer))
  · rw [mode_for_fitting both, mode_for_fitting (fits_of_pair both)]
    exact pair_on_page both
  rw [mode_for_exceeding both]
  by_cases alone : FirstLineFits width column [⟨.int indent.toInt, .flat, content⟩]
  · have whole : FirstLineFits width column (⟨.int indent.toInt, .flat, content⟩ ::
        ⟨.int indent.toInt, .broken, separator⟩ ::
          ⟨.int indent.toInt, .broken, .fill (next :: others)⟩ :: (entries ++ outer)) :=
      Classical.not_not.mp fun exceeding => heeds (.next alone both exceeding)
    rw [mode_for_fitting alone]
    exact whole.on_page [_, _, _]
  · obtain ⟨rest, more, rfl⟩ := expects.of_exceeding room alone
    rw [mode_for_exceeding alone]
    exact more.on_page
      [⟨.int indent.toInt, .broken, content⟩, ⟨.int indent.toInt, .broken, separator⟩,
        ⟨.int indent.toInt, .broken, .fill (next :: others)⟩]
      (by simp [Entry.expand]) room

end

/-- A step that does not break the line keeps to what is expected of it. -/
theorem Step.on_page {next : State}
    (step : Step width ⟨entry :: (entries ++ outer), column⟩ emitted next)
    (level : breaks emitted = false) (expects : Expects (entry :: entries) items)
    (room : column + headWidth items ≤ width)
    (heeds : ¬Oversteps width ⟨entry :: (entries ++ outer), column⟩) :
    next.column = column + headWidth emitted ∧ next.OnPage width outer := by
  cases step with
  | @text _ _ value =>
      obtain ⟨rest, more, rfl⟩ := expects.of_cons (by simp)
      have narrower : column + (value.length + headWidth rest) ≤ width := by
        simpa [Entry.expand, Doc.expand] using room
      refine ⟨by simp, _, _, rfl, more, ?_⟩
      show column + (value.length : Int) + headWidth rest ≤ width
      omega
  | nil | fillNil | pop =>
      obtain ⟨rest, more, rfl⟩ := expects.of_cons (by simp)
      exact ⟨(Int.add_zero _).symm, more.on_page [] rfl room⟩
  | hardLine => cases level
  | @concat indent mode parts =>
      have same : (parts.map (Entry.mk (.int indent.toInt) mode)).flatMap Entry.expand =
          (Entry.mk indent mode (.concat parts)).expand := by
        simp [Entry.expand, List.flatMap_map]
      exact ⟨(Int.add_zero _).symm, expects.replaced (by simp) room _ same⟩
  | nest | choiceFlat | choiceBroken | groupFlat | alwaysBreak =>
      exact ⟨(Int.add_zero _).symm,
        expects.replaced (by simp) room [_] (List.flatMap_singleton ..)⟩
  | tail =>
      refine ⟨(Int.add_zero _).symm, expects.replaced (by simp) room [_] ?_⟩
      simp [Entry.expand]
  | @annotated indent mode label body =>
      obtain ⟨rest, more, rfl⟩ := expects.of_cons (by simp)
      refine ⟨(Int.add_zero _).symm, more.on_page
        [⟨.int indent.toInt, mode, body⟩, ⟨.int indent.toInt, mode, .mark (.pop label)⟩] rfl ?_⟩
      simpa [Entry.expand, Doc.expand] using room
  | group => exact ⟨(Int.add_zero _).symm, group_on_page expects room⟩
  | fillFlat =>
      refine ⟨(Int.add_zero _).symm, expects.replaced (by simp) room [_, _] ?_⟩
      simp [Entry.expand]
  | fillLast => exact ⟨(Int.add_zero _).symm, fill_last_on_page expects room heeds⟩
  | fillPair => exact ⟨(Int.add_zero _).symm, fill_pair_on_page expects room heeds⟩
  | fillNext => exact ⟨(Int.add_zero _).symm, fill_next_on_page expects room heeds⟩

/-- Steps that do not overstep before the line is broken. -/
inductive Heeds (width : Int) : State → List Item → State → Prop where
  | here {state : State} : Heeds width state [] state
  | step {state next last : State} {items later : List Item} :
      ¬Oversteps width state → Step width state items next → Heeds width next later last →
        Heeds width state (items ++ later) last
  | line {state next last : State} {items later : List Item} :
      Step width state items next → breaks items = true → Reaches width next later last →
        Heeds width state (items ++ later) last

theorem Heeds.reaches {state last : State} (heeds : Heeds width state items last) :
    Reaches width state items last := by
  induction heeds with
  | here => exact .here
  | step _ first _ induction => exact .step first induction
  | line first _ rest => exact .step first rest

theorem Reaches.heeds {choices : Doc → Doc → Prop} {state last : State} {front : List Entry}
    (reaches : Reaches width state items last) (isPending : state.pending = front ++ outer)
    (sound : ∀ entry ∈ front, entry.Sound choices False)
    (outlasts : entriesWeight outer ≤ entriesWeight last.pending) :
    Heeds width state items last := by
  induction reaches generalizing front with
  | here => exact .here
  | @step state next last items later first rest induction =>
      obtain ⟨pending, column⟩ := state
      subst isPending
      cases front with
      | nil => exact absurd outlasts (Nat.not_le_of_lt (rest.weight_lt first))
      | cons entry front =>
          obtain ⟨isSound, others⟩ := List.forall_mem_cons.mp sound
          obtain ⟨replaced, same, each⟩ := first.replaces isSound
          have isNext : next.pending = replaced ++ front ++ outer :=
            same.trans (List.append_assoc _ _ _).symm
          exact .step (not_oversteps_of_no_fills isSound) first
            (induction isNext (List.forall_mem_append.mpr ⟨each, others⟩) outlasts)

theorem Step.ends_line {state next : State} (step : Step width state emitted next)
    (broken : breaks emitted = true) (later : List Item) :
    headWidth (emitted ++ later) = 0 ∧ breaks (emitted ++ later) = true := by
  cases step with
  | hardLine => exact ⟨rfl, rfl⟩
  | _ => cases broken

theorem State.OnPage.column_le {state : State} (onPage : state.OnPage width outer) :
    state.column ≤ width := by
  obtain ⟨_, _, -, -, room⟩ := onPage
  omega

/-- What is expected to end its line within the page does so, before the outer entries are
begun. -/
theorem Heeds.on_page {state last : State} (heeds : Heeds width state items last)
    (onPage : state.OnPage width outer)
    (outlasts : entriesWeight outer ≤ entriesWeight last.pending) :
    state.column + headWidth items ≤ width ∧ (breaks items = false → last.OnPage width outer) := by
  have column := onPage.column_le
  induction heeds with
  | here => exact ⟨(Int.add_zero _).symm ▸ column, fun _ => onPage⟩
  | @line state next last items later first broken rest =>
      obtain ⟨empty, ended⟩ := first.ends_line broken later
      rw [empty, ended]
      exact ⟨(Int.add_zero _).symm ▸ column, nofun⟩
  | @step state next last items later heeded first rest induction =>
      obtain ⟨pending, reached⟩ := state
      obtain ⟨entries, expected, rfl, expects, room⟩ := onPage
      cases entries with
      | nil =>
          -- The outer entries are pending to the end, and this step takes one of them off.
          exact absurd outlasts (Nat.not_le_of_lt (rest.reaches.weight_lt first))
      | cons entry entries =>
          cases broken : breaks items with
          | false =>
              obtain ⟨column, onPage⟩ := first.on_page broken expects room heeded
              obtain ⟨narrow, ends⟩ := induction onPage outlasts onPage.column_le
              rw [head_width_append_of_level broken, breaks_append, broken]
              refine ⟨?_, ends⟩
              show reached + _ ≤ width
              omega
          | true =>
              obtain ⟨empty, ended⟩ := first.ends_line broken later
              rw [empty, ended]
              exact ⟨(Int.add_zero _).symm ▸ column, nofun⟩

end

/-- A line between two contents of a fill, and what else is pending. -/
structure LinePlace where
  indent : Amount
  content : Doc
  next : Doc
  others : List Doc
  pending : List Entry
  column : Int

namespace LinePlace

variable (place : LinePlace)

def state : State :=
  ⟨⟨place.indent, .broken, .fill (place.content :: Doc.line :: place.next :: place.others)⟩ ::
    place.pending, place.column⟩

def flatLine : Entry := ⟨.int place.indent.toInt, .flat, Doc.line⟩

def rest : List Entry :=
  ⟨.int place.indent.toInt, .broken, .fill (place.next :: place.others)⟩ :: place.pending

/-- The content before the line is to be laid out, and then the line, which is flat. -/
def decided (mode : Mode) : State :=
  ⟨⟨.int place.indent.toInt, mode, place.content⟩ :: place.flatLine :: place.rest, place.column⟩

end LinePlace

/-- A line of a fill that a layout makes flat, with what it emits for the contents around it. -/
structure FlatSeparator (width : Int) (start : State) extends LinePlace where
  before : List Item
  comes : Reaches width start before toLinePlace.state
  mode : Mode
  decides : Step width toLinePlace.state [] (toLinePlace.decided mode)
  first : List Item
  reached : Int
  front : Reaches width (toLinePlace.decided mode) first
    ⟨toLinePlace.flatLine :: toLinePlace.rest, reached⟩
  nextMode : Mode
  more : List Entry
  goesOn : Step width ⟨toLinePlace.rest, reached + 1⟩ []
    ⟨⟨.int indent.toInt, nextMode, next⟩ :: more, reached + 1⟩
  second : List Item
  last : Int
  back : Reaches width ⟨⟨.int indent.toInt, nextMode, next⟩ :: more, reached + 1⟩ second
    ⟨more, last⟩

theorem LinePlace.reaches_rest (place : LinePlace) (width column : Int) :
    Reaches width ⟨place.flatLine :: place.rest, column⟩ [.text " "] ⟨place.rest, column + 1⟩ :=
  .step .choiceFlat (.step .text .here)

/-- However the fill goes on, its next content comes first. -/
theorem Step.cases_rest {place : LinePlace} {column : Int} {emitted : List Item} {next : State}
    (step : Step width ⟨place.rest, column⟩ emitted next) :
    emitted = [] ∧ ∃ more, next =
      ⟨⟨.int place.indent.toInt,
        modeFor width column [⟨.int place.indent.toInt, .flat, place.next⟩], place.next⟩ :: more,
        column⟩ := by
  rcases place with ⟨indent, content, following, others, pending, _⟩
  cases step with
  | fillLast => exact ⟨rfl, _, rfl⟩
  | fillPair => exact ⟨rfl, _, rfl⟩
  | fillNext => exact ⟨rfl, _, rfl⟩

/-- Wherever a layout makes a line of a fill flat, it goes on to the contents around it. -/
theorem exists_flat_separator {choices : Doc → Doc → Prop} {fills : Prop} {start : State}
    {place : LinePlace} {before : List Item} {mode : Mode} (sound : start.Sound choices fills)
    (comes : Reaches width start before place.state)
    (decides : Step width place.state [] (place.decided mode)) :
    ∃ flat : FlatSeparator width start, flat.toLinePlace = place ∧ flat.before = before := by
  have decided := decides.sound (comes.sound sound)
  obtain ⟨first, reached, front⟩ := @State.Sound.reaches_past _ _ width
    [⟨.int place.indent.toInt, mode, place.content⟩] (place.flatLine :: place.rest) place.column
    decided
  have following := (place.reaches_rest width reached).sound (front.sound decided)
  obtain ⟨emitted, next, step⟩ := following.step width
  obtain ⟨rfl, more, rfl⟩ := step.cases_rest
  obtain ⟨second, last, back⟩ := @State.Sound.reaches_past _ _ width [_] more _
    (step.sound following)
  exact ⟨⟨place, before, comes, mode, decides, first, reached, front, _, more, step, second, last,
    back⟩, rfl, rfl⟩

theorem fits_of_flat {column : Int} {entries : List Entry}
    (flat : modeFor width column entries = .flat) : FirstLineFits width column entries := by
  by_cases fitting : FirstLineFits width column entries
  · exact fitting
  · rw [mode_for_exceeding fitting] at flat
    cases flat

theorem Step.cases_line {place : LinePlace} {emitted : List Item} {next : State}
    (step : Step width place.state emitted next) :
    next.pending =
      ⟨.int place.indent.toInt,
        modeFor width place.column [⟨.int place.indent.toInt, .flat, place.content⟩],
        place.content⟩ ::
      ⟨.int place.indent.toInt,
        modeFor width place.column
          (pairEntries place.indent.toInt place.content .line place.next place.others ++
            place.pending), Doc.line⟩ :: place.rest := by
  cases step with
  | fillNext => rfl

namespace FlatSeparator

variable {start : State} (place : FlatSeparator width start)

theorem decides_eq :
    place.mode = modeFor width place.column [⟨.int place.indent.toInt, .flat, place.content⟩] ∧
      .flat = modeFor width place.column
        (pairEntries place.indent.toInt place.content .line place.next place.others ++
          place.pending) := by
  have decided := place.decides.cases_line
  simp only [LinePlace.decided, LinePlace.flatLine, List.cons.injEq, Entry.mk.injEq, true_and,
    and_true] at decided
  exact decided

theorem next_mode_eq :
    place.nextMode =
      modeFor width (place.reached + 1) [⟨.int place.indent.toInt, .flat, place.next⟩] := by
  obtain ⟨-, more, same⟩ := place.goesOn.cases_rest
  simp only [State.mk.injEq, List.cons.injEq, Entry.mk.injEq, true_and, and_true] at same
  exact same.1

theorem decided_on_page : (place.decided place.mode).OnPage width [] := by
  obtain ⟨first, second⟩ := place.decides_eq
  have both := fits_of_flat second.symm
  rw [LinePlace.decided, first, mode_for_fitting (fits_of_pair both)]
  rw [← List.append_nil place.pending] at both
  have onPage := pair_on_page both
  rw [List.append_nil] at onPage
  exact onPage

theorem next_on_page
    (onPage : State.OnPage width [] ⟨place.flatLine :: place.rest, place.reached⟩) :
    State.OnPage width place.more
      ⟨⟨.int place.indent.toInt, place.nextMode, place.next⟩ :: place.more, place.reached + 1⟩ := by
  obtain ⟨entries, items, isPending, expects, room⟩ := onPage
  rw [List.append_nil] at isPending
  change place.flatLine :: place.rest = entries at isPending
  subst isPending
  obtain ⟨rest, following, rfl⟩ := expects.of_cons (by simp [LinePlace.flatLine])
  have narrow : place.reached + 1 + headWidth rest ≤ width := by
    have blank : headWidth (place.flatLine.expand ++ rest) = 1 + headWidth rest :=
      head_width_text " " rest
    rw [blank] at room
    change place.reached + ((1 + headWidth rest : Nat) : Int) ≤ width at room
    omega
  have next : State.OnPage width place.more _ := content_on_page following narrow
  rw [place.next_mode_eq]
  exact next

/-- The contents around the line are laid out without overstepping, up to their line breaks. -/
def Heeded : Prop :=
  Heeds width (place.decided place.mode) place.first
      ⟨place.flatLine :: place.rest, place.reached⟩ ∧
    Heeds width ⟨⟨.int place.indent.toInt, place.nextMode, place.next⟩ :: place.more,
      place.reached + 1⟩ place.second ⟨place.more, place.last⟩

theorem heeded_of_no_fills {choices : Doc → Doc → Prop}
    (content : place.content.Sound choices False) (next : place.next.Sound choices False) :
    place.Heeded := by
  have mode : place.mode.Decides := by
    rw [place.decides_eq.1]
    exact mode_for_decides _ _ _
  have nextMode : place.nextMode.Decides := by
    rw [place.next_mode_eq]
    exact mode_for_decides _ _ _
  exact ⟨@Reaches.heeds _ _ _ _ _ _ [_] place.front rfl
      (List.forall_mem_singleton.mpr (entry_sound mode content)) (Nat.le_refl _),
    @Reaches.heeds _ _ _ _ _ _ [_] place.back rfl
      (List.forall_mem_singleton.mpr (entry_sound nextMode next)) (Nat.le_refl _)⟩

theorem second_fits (level : breaks place.first = false) (heeded : place.Heeded) :
    place.reached + 1 + headWidth place.second ≤ width := by
  have onPage := (heeded.1.on_page place.decided_on_page (Nat.zero_le _)).2 level
  exact (heeded.2.on_page (place.next_on_page onPage) (Nat.le_refl _)).1

def upToLine : List Item := place.before ++ (place.first ++ [.text " "])

theorem reaches_rest : Reaches width start place.upToLine ⟨place.rest, place.reached + 1⟩ := by
  have line := place.toLinePlace.reaches_rest width place.reached
  exact place.comes.trans (@Reaches.step _ _ _ _ [] _ place.decides (place.front.trans line))

theorem reaches_more :
    Reaches width start (place.upToLine ++ place.second) ⟨place.more, place.last⟩ :=
  place.reaches_rest.trans (@Reaches.step _ _ _ _ [] _ place.goesOn place.back)

end FlatSeparator

end Layout

open Layout

/-- Wherever a layout makes a line between contents of a fill flat, it emits the content before the
line, a blank and the next content. That ends its first line within the page, if the content
before does not break the line and no fill inside of the two oversteps. -/
theorem flat_separator_fits {doc : Doc} (built : doc.Built Extra.all) (width : Int) :
    (∀ {place : LinePlace} {before : List Item} {mode : Mode},
      Reaches width (State.start doc.normalize) before place.state →
        Step width place.state [] (place.decided mode) →
          ∃ flat : FlatSeparator width (State.start doc.normalize),
            flat.toLinePlace = place ∧ flat.before = before) ∧
      ∀ place : FlatSeparator width (State.start doc.normalize),
        (∃ later, (layout doc width).items = place.upToLine ++ (place.second ++ later)) ∧
          (breaks place.first = false → place.Heeded →
            (lineAfter ⟨0, ""⟩ place.upToLine).width + headWidth place.second ≤ width) := by
  have regular := built.sound.regular
  have start := State.Sound.start (Doc.regular_normalize regular)
  refine ⟨fun comes decides => exists_flat_separator start comes decides, fun place => ⟨?_, ?_⟩⟩
  · have run := place.reaches_more.run_eq start
    refine ⟨(State.run width ⟨place.more, place.last⟩).items, ?_⟩
    rw [layout, regular.normalized_eq]
    refine (congrArg Run.items run).trans ?_
    rw [Run.after, List.append_assoc]
  · intro level heeded
    rw [place.reaches_rest.column_eq rfl]
    exact place.second_fits level heeded

theorem broken_content_after_flat_line :
    let doc := Doc.nest (.int 2)
      (.fill [.text "a", Doc.line, .concat [.text "b", .hardLine, .text "c"]])
    doc.Built Extra.all ∧ ∃ place : FlatSeparator 3 (State.start doc.normalize),
      place.upToLine = [.text "a", .text " "] ∧
      place.second = [.text "b", .line (.int 2), .text "c"] ∧
      breaks place.first = false ∧ place.Heeded ∧
      (lineAfter ⟨0, ""⟩ place.upToLine).width + headWidth place.second ≤ 3 := by
  intro doc
  have parts : ∀ part ∈ [Doc.text "b", .hardLine, .text "c"], part.Built Extra.all := by
    simp only [List.forall_mem_cons, List.not_mem_nil, false_implies, implies_true, and_true]
    exact ⟨.text (by decide), .hardLine (by decide), .text (by decide)⟩
  have items : ∀ item ∈ [Doc.text "a", Doc.line, .concat [.text "b", .hardLine, .text "c"]],
      item.Built Extra.all := by
    simp only [List.forall_mem_cons, List.not_mem_nil, false_implies, implies_true, and_true]
    exact ⟨.text (by decide), .line, .concat parts rfl⟩
  have built : doc.Built Extra.all :=
    @Doc.Built.nest _ (.scalar (.int 2)) _ _ (.fill (by decide) items rfl) rfl
  let place : FlatSeparator 3 (State.start doc.normalize) :=
    { indent := .int 2, content := .text "a"
      next := .alwaysBreak (.concat [.text "b", .hardLine, .text "c"])
      others := [], pending := [], column := 0
      before := [], comes := .step .nest .here
      mode := .flat, decides := .fillNext
      first := [.text "a"], reached := 1, front := .step .text .here
      nextMode := .flat, more := [], goesOn := .fillLast
      second := [.text "b", .line (.int 2), .text "c"], last := 3
      back := .step .alwaysBreak
        (.step .concat (.step .text (.step .hardLine (.step .text .here)))) }
  have content : place.content.Sound (Extra.choices []) False := .text (by decide)
  have next : place.next.Sound (Extra.choices []) False := by
    apply Doc.Sound.alwaysBreak
    apply Doc.Sound.concat
    simp only [List.forall_mem_cons, List.not_mem_nil, false_implies, implies_true, and_true]
    exact ⟨.text (by decide), .hardLine, .text (by decide)⟩
  have heeded := place.heeded_of_no_fills content next
  exact ⟨built, place, rfl, rfl, rfl, heeded,
    ((flat_separator_fits built 3).2 place).2 rfl heeded⟩

/-- A content with a line break in it ends further to the right than the fill looked for. -/
example :
    (lines (layout (.fill [.concat [.text "a", .hardLine, .text "bbbbbbbb"], Doc.line,
      .text "cccccccc"]) 10).items).map (Line.written " ") = ["a", "bbbbbbbb cccccccc"] :=
  rfl

end KotlinLayout
