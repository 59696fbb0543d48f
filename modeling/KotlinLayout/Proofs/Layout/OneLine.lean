import KotlinLayout.Proofs.Layout.Fitting
import KotlinLayout.Proofs.Layout.Resolution

/-!
Documents that take one line if the page has room for it. Their line breaks are all inside of
groups, and a group that fits, with everything after it, is laid out flat. On a narrower page the
same texts are spread over more lines.
-/

namespace KotlinLayout

open Layout

namespace Doc

/-- Nothing outside of groups can break the line. -/
inductive Enclosed : Doc → Prop where
  | text {value : String} : Enclosed (.text value)
  | nil : Enclosed .nil
  | concat {parts : List Doc} : (∀ part ∈ parts, part.Enclosed) → Enclosed (.concat parts)
  | nest {amount : Amount} {body : Doc} : body.Enclosed → Enclosed (.nest amount body)
  | group {body : Doc} : Enclosed (.group body)
  | annotated {label : Label} {body : Doc} : body.Enclosed → Enclosed (.annotated label body)

/-- What is enclosed in groups that fit on a line, if they are given one. -/
structure Linear (doc : Doc) : Prop where
  enclosed : doc.Enclosed
  level : doc.Level
  steady : doc.Steady

end Doc

open Doc (Enclosed Linear)

/-- Entries that go on with the line, if it has room. -/
inductive Entry.Linear : Entry → Prop where
  | flat {indent : Amount} {doc : Doc} : doc.Level → Entry.Linear ⟨indent, .flat, doc⟩
  | broken {indent : Amount} {doc : Doc} : doc.Linear → Entry.Linear ⟨indent, .broken, doc⟩
  | pop {indent : Amount} {mode : Mode} {label : Label} :
      Entry.Linear ⟨indent, mode, .mark (.pop label)⟩

def flatTextOf (pending : List Entry) : String :=
  String.join (pending.map fun entry => entry.doc.flatText)

theorem flat_text_of_cons (entry : Entry) (pending : List Entry) :
    flatTextOf (entry :: pending) = entry.doc.flatText ++ flatTextOf pending :=
  String.join_cons

theorem flat_text_of_append (first second : List Entry) :
    flatTextOf (first ++ second) = flatTextOf first ++ flatTextOf second := by
  rw [flatTextOf, List.map_append, String.join_append]
  rfl

theorem flat_text_of_parts (indent : Amount) (mode : Mode) (parts : List Doc) :
    flatTextOf (parts.map (Entry.mk indent mode)) = String.join (parts.map Doc.flatText) := by
  rw [flatTextOf, List.map_map]
  rfl

namespace Entry.Linear

variable {entry : Entry} {pending : List Entry}

/-- Broken or not, it takes no more of the line than its text. -/
theorem head_width_le (linear : entry.Linear) (later : List Item) :
    headWidth (entry.expand ++ later) ≤ entry.doc.flatText.length + headWidth later := by
  have flat {indent : Int} {doc : Doc} (level : doc.Level) :
      headWidth (doc.expand indent .flat ++ later) = doc.flatText.length + headWidth later := by
    rw [head_width_append_of_level (level.stays indent), headWidth, level.head_text_eq]
  cases linear with
  | flat level => exact Nat.le_of_eq (flat level)
  | @broken indent doc linear =>
      have narrower := linear.steady.narrower indent.toInt later
      rw [flat linear.level] at narrower
      exact narrower
  | pop => exact Nat.le_add_left _ _

theorem head_width_each_le (linear : ∀ entry ∈ pending, entry.Linear) :
    headWidth (pending.flatMap Entry.expand) ≤ (flatTextOf pending).length := by
  induction pending with
  | nil => exact Nat.le_refl 0
  | cons entry pending induction =>
      obtain ⟨first, rest⟩ := List.forall_mem_cons.mp linear
      have whole := first.head_width_le (pending.flatMap Entry.expand)
      have others := induction rest
      rw [flat_text_of_cons, List.flatMap_cons, String.length_append]
      omega

end Entry.Linear

namespace Layout

variable {width : Int}

structure State.HasRoom (width : Int) (state : State) : Prop where
  linear : ∀ entry ∈ state.pending, entry.Linear
  room : state.column + (flatTextOf state.pending).length ≤ width

/-- What is emitted is the first of the text, on the same line. -/
structure Continues (state : State) (items : List Item) (next : State) : Prop where
  level : breaks items = false
  text : flatTextOf state.pending = headText items ++ flatTextOf next.pending
  column : next.column = state.column + headWidth items

theorem Continues.trans {first second third : State} {items later : List Item}
    (front : Continues first items second) (back : Continues second later third) :
    Continues first (items ++ later) third := by
  refine ⟨?_, ?_, ?_⟩
  · rw [breaks_append, front.level, back.level, Bool.false_or]
  · rw [head_text_append_of_level front.level, String.append_assoc, ← back.text, front.text]
  · have front := front.column
    have back := back.column
    rw [head_width_append_of_level ‹Continues first items second›.level]
    omega

theorem Continues.silent {pending replaced : List Entry} {column : Int}
    (same : flatTextOf pending = flatTextOf replaced) :
    Continues ⟨pending, column⟩ [] ⟨replaced, column⟩ :=
  ⟨rfl, same.trans String.empty_append.symm, (Int.add_zero _).symm⟩

section

variable {indent inner : Amount} {mode : Mode} {amount : Amount} {label : Label} {body : Doc}
  {parts : List Doc} {pending : List Entry} {column : Int}

theorem linear_parts (linear : Entry.Linear ⟨indent, mode, .concat parts⟩) :
    ∀ entry ∈ parts.map (Entry.mk inner mode), entry.Linear := by
  rw [List.forall_mem_map]
  intro part member
  cases linear with
  | flat level =>
      cases level with | concat level =>
      exact .flat (level part member)
  | broken linear =>
      cases linear.enclosed with | concat enclosed =>
      cases linear.level with | concat level =>
      cases linear.steady with | concat steady =>
      exact .broken ⟨enclosed part member, level part member, steady part member⟩

theorem linear_nested (linear : Entry.Linear ⟨indent, mode, .nest amount body⟩) :
    Entry.Linear ⟨inner, mode, body⟩ := by
  cases linear with
  | flat level =>
      cases level with | nest level =>
      exact .flat level
  | broken linear =>
      cases linear.enclosed with | nest enclosed =>
      cases linear.level with | nest level =>
      cases linear.steady with | nest steady =>
      exact .broken ⟨enclosed, level, steady⟩

theorem linear_labeled (linear : Entry.Linear ⟨indent, mode, .annotated label body⟩) :
    Entry.Linear ⟨inner, mode, body⟩ := by
  cases linear with
  | flat level =>
      cases level with | annotated level =>
      exact .flat level
  | broken linear =>
      cases linear.enclosed with | annotated enclosed =>
      cases linear.level with | annotated level =>
      cases linear.steady with | annotated steady =>
      exact .broken ⟨enclosed, level, steady⟩

theorem linear_grouped (linear : Entry.Linear ⟨indent, mode, .group body⟩) :
    Entry.Linear ⟨inner, .flat, body⟩ := by
  cases linear with
  | flat level =>
      cases level with | group level =>
      exact .flat level
  | broken linear =>
      cases linear.level with | group level =>
      exact .flat level

theorem State.HasRoom.mode_for_group
    (hasRoom : HasRoom width ⟨⟨indent, .broken, .group body⟩ :: pending, column⟩) :
    modeFor width column (⟨.int indent.toInt, .flat, body⟩ :: pending) = .flat := by
  obtain ⟨first, rest⟩ := List.forall_mem_cons.mp hasRoom.linear
  have linear : ∀ entry ∈ (⟨.int indent.toInt, .flat, body⟩ : Entry) :: pending, entry.Linear :=
    List.forall_mem_cons.mpr ⟨linear_grouped first, rest⟩
  have narrow := Entry.Linear.head_width_each_le linear
  have room : column + (flatTextOf (⟨.int indent.toInt, .flat, body⟩ :: pending)).length ≤ width :=
    hasRoom.room
  apply mode_for_fitting
  rw [FirstLineFits]
  omega

end

theorem Step.continues {state next : State} {items : List Item}
    (step : Step width state items next) (hasRoom : state.HasRoom width) :
    Continues state items next ∧ ∀ entry ∈ next.pending, entry.Linear := by
  have linear := hasRoom.linear
  cases step with
  | @text indent mode value pending column =>
      refine ⟨⟨rfl, ?_, ?_⟩, (List.forall_mem_cons.mp linear).2⟩
      · simp [flat_text_of_cons, Doc.flatText, headText]
      · simp
  | nil | pop | fillNil =>
      exact ⟨⟨rfl, rfl, (Int.add_zero _).symm⟩, (List.forall_mem_cons.mp linear).2⟩
  | concat =>
      obtain ⟨first, rest⟩ := List.forall_mem_cons.mp linear
      refine ⟨.silent ?_, List.forall_mem_append.mpr ⟨linear_parts first, rest⟩⟩
      rw [flat_text_of_append, flat_text_of_parts, flat_text_of_cons, Doc.flat_text_concat]
  | nest =>
      obtain ⟨first, rest⟩ := List.forall_mem_cons.mp linear
      exact ⟨.silent rfl, List.forall_mem_cons.mpr ⟨linear_nested first, rest⟩⟩
  | annotated =>
      obtain ⟨first, rest⟩ := List.forall_mem_cons.mp linear
      refine ⟨⟨rfl, ?_, (Int.add_zero _).symm⟩, List.forall_mem_cons.mpr
        ⟨linear_labeled first, List.forall_mem_cons.mpr ⟨.pop, rest⟩⟩⟩
      simp [flat_text_of_cons, Doc.flatText, headText]
  | groupFlat =>
      obtain ⟨first, rest⟩ := List.forall_mem_cons.mp linear
      exact ⟨.silent rfl, List.forall_mem_cons.mpr ⟨linear_grouped first, rest⟩⟩
  | group =>
      obtain ⟨first, rest⟩ := List.forall_mem_cons.mp linear
      rw [hasRoom.mode_for_group]
      exact ⟨.silent rfl, List.forall_mem_cons.mpr ⟨linear_grouped first, rest⟩⟩
  | choiceFlat =>
      obtain ⟨first, rest⟩ := List.forall_mem_cons.mp linear
      cases first with | flat level =>
      cases level with | choice level =>
      exact ⟨.silent rfl, List.forall_mem_cons.mpr ⟨.flat level, rest⟩⟩
  | fillFlat =>
      obtain ⟨first, rest⟩ := List.forall_mem_cons.mp linear
      cases first with | flat level =>
      cases level with | fill each =>
      obtain ⟨level, others⟩ := List.forall_mem_cons.mp each
      refine ⟨.silent ?_, List.forall_mem_cons.mpr
        ⟨.flat level, List.forall_mem_cons.mpr ⟨.flat (.fill others), rest⟩⟩⟩
      simp [flat_text_of_cons, String.append_assoc]
  -- What is left could break the line, and stands nowhere in what is linear.
  | choiceBroken | fillLast | fillPair | fillNext =>
      cases (List.forall_mem_cons.mp linear).1 with | broken linear =>
      cases linear.enclosed
  | hardLine | alwaysBreak | tail =>
      cases (List.forall_mem_cons.mp linear).1 with
      | flat level => cases level
      | broken linear => cases linear.level

theorem Step.has_room {state next : State} {items : List Item}
    (step : Step width state items next) (hasRoom : state.HasRoom width) :
    Continues state items next ∧ next.HasRoom width := by
  obtain ⟨continues, linear⟩ := step.continues hasRoom
  refine ⟨continues, linear, ?_⟩
  have room := hasRoom.room
  have column := continues.column
  rw [continues.text, String.length_append] at room
  rw [column, headWidth]
  omega

theorem Reaches.continues {state last : State} {items : List Item}
    (reaches : Reaches width state items last) (hasRoom : state.HasRoom width) :
    Continues state items last := by
  induction reaches with
  | here => exact .silent rfl
  | step first _ induction =>
      obtain ⟨continues, next⟩ := first.has_room hasRoom
      exact continues.trans (induction next)

end Layout

/-- A document that goes on with the line, and fits on it, is written as its text. -/
theorem Doc.Linear.format {doc : Doc} (linear : doc.normalize.Linear) (regular : doc.Regular)
    {width : Int} (fitting : doc.normalize.flatText.length ≤ width) (room : Nat) :
    formatDoc doc width room = .ok doc.normalize.flatText := by
  obtain ⟨items, column, reaches, laidOut⟩ :=
    layout_reaches regular (Doc.regular_normalize regular) width
  have whole : flatTextOf (State.start doc.normalize).pending = doc.normalize.flatText := by
    simp [State.start, flatTextOf]
  have hasRoom : (State.start doc.normalize).HasRoom width := by
    refine ⟨List.forall_mem_singleton.mpr (.broken linear), ?_⟩
    rw [whole, State.start, Int.zero_add]
    exact fitting
  obtain ⟨level, text, -⟩ := reaches.continues hasRoom
  have same : headText items = doc.normalize.flatText := by
    rw [← whole, text]
    exact String.append_empty.symm
  rw [formatDoc, laidOut, ← same]
  exact Render.write_of_level level room

def Item.inline : Item → String
  | .text value => value
  | .line _ => " "
  | _ => ""

def Mark.inline : Mark → String
  | .item value => value.inline
  | .hardLine _ | .line _ => " "

theorem Mark.Becomes.inline_eq {mark : Mark} {item : Item} (becomes : mark.Becomes item) :
    item.inline = mark.inline := by
  cases becomes <;> rfl

theorem inline_of_becomes {marks : List Mark} {items : List Item}
    (resolves : List.Forall₂ Mark.Becomes marks items) :
    items.map Item.inline = marks.map Mark.inline := by
  induction resolves with
  | nil => rfl
  | cons first _ induction => rw [List.map_cons, List.map_cons, first.inline_eq, induction]

theorem inline_visible (marks : List Mark) :
    String.join ((marks.filter Mark.visible).map Mark.inline) =
      String.join (marks.map Mark.inline) := by
  induction marks with
  | nil => rfl
  | cons mark rest induction =>
      by_cases visible : mark.visible = true
      · rw [List.filter_cons_of_pos visible, List.map_cons, List.map_cons, String.join_cons,
          String.join_cons, induction]
      · cases mark with
        | item value =>
            rw [List.filter_cons_of_neg visible, Item.eq_of_not_visible visible, List.map_cons,
              String.join_cons, induction]
            exact String.empty_append.symm
        | _ => exact absurd rfl visible

theorem layout_inline {doc : Doc} {fills : Prop} (sound : doc.Sound Doc.LineOnly fills)
    (width : Int) :
    (layout doc width).fault? = none ∧
      String.join ((layout doc width).items.map Item.inline) =
        String.join ((doc.marks 0).map Mark.inline) := by
  obtain ⟨items, column, laidOut, resolves⟩ := layout_resolves sound width
  rw [laidOut]
  refine ⟨rfl, ?_⟩
  rw [inline_of_becomes resolves, ← inline_visible, (Doc.thins_normalize sound 0).kept,
    inline_visible]

end KotlinLayout
