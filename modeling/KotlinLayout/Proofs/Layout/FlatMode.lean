import KotlinLayout.Format
import KotlinLayout.Proofs.Layout.Width

/-!
Forced breaks and the groups around them. A forced break inside a group makes the group one
itself, unless it is a line break that stands directly in an indentation or a label. As long as
none does, no line starts where the layout is flat.
-/

namespace KotlinLayout

namespace Doc

/-- The normal form of a document without fills is a forced break exactly if some part of the
document is one, or has a line break to make one of. -/
theorem is_break_normalize {doc : Doc} (sound : doc.Sound BreakOnly False) :
    doc.normalize.isBreak = (doc.within false false).any opensBreak := by
  have forced {doc : Doc} (sound : doc.Sound BreakOnly False)
      (same : doc.normalize.isBreak = (doc.within false false).any opensBreak) :
      forces doc.normalize = (doc.isHardLine || (doc.within false false).any opensBreak) := by
    rw [forces_eq, is_hard_line_normalize sound.regular, same]
  induction sound with
  | text | nil | hardLine => rfl
  | fill used => exact used.elim
  | @concat parts sound induction =>
      have tidy : ∀ part ∈ parts.map normalize, part.Tidy :=
        List.forall_mem_map.mpr fun part member => tidy_normalize (sound part member).regular
      rw [normalize, normalize_all_eq_map, is_break_assembled tidy, within_concat, List.any_cons,
        opensBreak, List.any_flatMap, List.any_map]
      rw [Bool.eq_iff_iff, Bool.or_eq_true, List.any_eq_true, List.any_eq_true, List.any_eq_true]
      constructor
      · rintro ⟨part, member, forcing⟩
        rw [Function.comp_apply, forced (sound part member) (induction part member),
          Bool.or_eq_true] at forcing
        exact forcing.imp (fun line => ⟨part, member, line⟩) fun opening => ⟨part, member, opening⟩
      · rintro (⟨part, member, found⟩ | ⟨part, member, found⟩) <;>
          refine ⟨part, member, ?_⟩ <;>
          rw [Function.comp_apply, forced (sound part member) (induction part member), found]
        · rfl
        · exact Bool.or_true _
  | nest _ induction => exact (is_break_wrapped (solid_nest _) _).trans induction
  | annotated _ induction => exact (is_break_wrapped (solid_annotated _) _).trans induction
  | choice allowed =>
      rcases allowed with ⟨rfl, rfl | rfl⟩
      · rfl
      · rfl
  | group sound induction => exact (is_break_grouped _).trans (forced sound induction)
  | alwaysBreak => exact is_break_broken _

/-- Where no line break is hidden, every forced break opens something, or is the document. -/
theorem opens_of_forces {doc : Doc} (sound : doc.Sound BreakOnly False)
    (isOpen : ∀ part ∈ doc.within false false, part.hidesBreak = false)
    (forced : ∃ part ∈ doc.within false false, forces part = true) :
    doc.isHardLine = true ∨ ∃ part ∈ doc.within false false, part.opensBreak = true := by
  induction sound with
  | text | nil | choice => simp [within, forces] at forced
  | hardLine => exact .inl rfl
  | fill used => exact used.elim
  | concat _ induction =>
      rw [within_concat] at isOpen forced ⊢
      rw [List.forall_mem_cons, List.forall_mem_flatMap] at isOpen
      rcases forced with ⟨found, member, forcing⟩
      rcases List.mem_cons.mp member with rfl | member
      · cases forcing
      · rcases List.mem_flatMap.mp member with ⟨part, isPart, member⟩
        right
        rcases induction part isPart (isOpen.2 part isPart) ⟨found, member, forcing⟩ with
          line | ⟨opening, inside, opens⟩
        · exact ⟨_, List.mem_cons_self, List.any_eq_true.mpr ⟨part, isPart, line⟩⟩
        · exact ⟨opening,
            List.mem_cons_of_mem _ (List.mem_flatMap.mpr ⟨part, isPart, inside⟩), opens⟩
  | nest _ induction | annotated _ induction =>
      rcases List.forall_mem_cons.mp isOpen with ⟨visible, inside⟩
      rcases forced with ⟨found, member, forcing⟩
      rcases List.mem_cons.mp member with rfl | member
      · cases forcing
      · rcases induction inside ⟨found, member, forcing⟩ with line | ⟨opening, inside, opens⟩
        · rw [hidesBreak, line] at visible
          cases visible
        · exact .inr ⟨opening, List.mem_cons_of_mem _ inside, opens⟩
  | group _ induction =>
      rcases forced with ⟨found, member, forcing⟩
      rcases List.mem_cons.mp member with rfl | member
      · cases forcing
      · rcases induction (List.forall_mem_cons.mp isOpen).2 ⟨found, member, forcing⟩ with
          line | ⟨opening, inside, opens⟩
        · exact .inr ⟨_, List.mem_cons_self, line⟩
        · exact .inr ⟨opening, List.mem_cons_of_mem _ inside, opens⟩
  | alwaysBreak => exact .inr ⟨_, List.mem_cons_self, rfl⟩

end Doc

/-- Entries that start no line where they are laid out flat. -/
inductive Entry.Firm : Entry → Prop where
  | flat {indent : Amount} {doc : Doc} : doc.Level → Entry.Firm ⟨indent, .flat, doc⟩
  | broken {indent : Amount} {doc : Doc} : doc.Steady → Entry.Firm ⟨indent, .broken, doc⟩
  | mark {indent : Amount} {mode : Mode} {item : Item} : Entry.Firm ⟨indent, mode, .mark item⟩

open Layout

namespace Entry.Firm

variable {width column : Int} {entries : List Entry} {indent other : Amount} {doc : Doc}

theorem of_mode (level : doc.Level) (steady : doc.Steady) :
    Firm ⟨indent, modeFor width column entries, doc⟩ := by
  unfold modeFor
  split
  · exact .flat level
  · exact .broken steady

theorem level (firm : Firm ⟨indent, .flat, doc⟩)
    (isDoc : ∀ item, doc ≠ .mark item) : doc.Level := by
  cases firm with
  | flat level => exact level
  | mark => exact absurd rfl (isDoc _)

theorem steady (firm : Firm ⟨indent, .broken, doc⟩) : doc.Steady := by
  cases firm with
  | broken steady => exact steady
  | mark => exact .mark

/-- The parts of a fill may be laid out as the check for each of them says. -/
theorem decided {items : List Doc} (firm : Firm ⟨indent, .broken, .fill items⟩) {item : Doc}
    (member : item ∈ items) : Firm ⟨other, modeFor width column entries, item⟩ := by
  cases firm.steady with | fill _ level steady =>
  exact of_mode (level item member) (steady item member)

end Entry.Firm

namespace Layout

variable {width : Int}

def State.Firm (state : State) : Prop := ∀ entry ∈ state.pending, entry.Firm

def BreaksBroken (width : Int) (state : State) : Prop :=
  ∀ items next, Step width state items next → breaks items = true →
    ∃ entry ∈ state.pending.head?, entry.mode = .broken

theorem State.Firm.cons {entry : Entry} {pending : List Entry} {column : Int}
    (first : entry.Firm) (rest : ∀ entry ∈ pending, entry.Firm) :
    State.Firm ⟨entry :: pending, column⟩ :=
  List.forall_mem_cons.mpr ⟨first, rest⟩

theorem Step.firm {state next : State} {items : List Item} (step : Step width state items next)
    (firm : state.Firm) : next.Firm := by
  cases step with
  | text | nil | hardLine | pop | fillNil => exact (List.forall_mem_cons.mp firm).2
  | @concat indent mode parts pending column =>
      rcases List.forall_mem_cons.mp firm with ⟨whole, rest⟩
      have each : ∀ part ∈ parts, Entry.Firm ⟨.int indent.toInt, mode, part⟩ := by
        intro part member
        cases whole with
        | flat level =>
            cases level with | concat parts =>
            exact .flat (parts part member)
        | broken steady =>
            cases steady with | concat parts =>
            exact .broken (parts part member)
      exact List.forall_mem_append.mpr ⟨List.forall_mem_map.mpr each, rest⟩
  | nest =>
      rcases List.forall_mem_cons.mp firm with ⟨whole, rest⟩
      cases whole with
      | flat level =>
          cases level with | nest body =>
          exact .cons (.flat body) rest
      | broken steady =>
          cases steady with | nest body =>
          exact .cons (.broken body) rest
  | choiceFlat =>
      rcases List.forall_mem_cons.mp firm with ⟨whole, rest⟩
      cases whole.level (by simp) with | choice flat =>
      exact .cons (.flat flat) rest
  | choiceBroken =>
      rcases List.forall_mem_cons.mp firm with ⟨whole, rest⟩
      cases whole.steady with | choice =>
      exact .cons (.broken .hardLine) rest
  | groupFlat =>
      rcases List.forall_mem_cons.mp firm with ⟨whole, rest⟩
      cases whole.level (by simp) with | group body =>
      exact .cons (.flat body) rest
  | group =>
      rcases List.forall_mem_cons.mp firm with ⟨whole, rest⟩
      cases whole.steady with | group level steady =>
      exact .cons (Entry.Firm.of_mode level steady) rest
  | alwaysBreak =>
      rcases List.forall_mem_cons.mp firm with ⟨whole, rest⟩
      cases whole with
      | flat level => cases level
      | broken steady =>
          cases steady with | alwaysBreak body =>
          exact .cons (.broken body) rest
  | annotated =>
      rcases List.forall_mem_cons.mp firm with ⟨whole, rest⟩
      cases whole with
      | flat level =>
          cases level with | annotated body =>
          exact .cons (.flat body) (List.forall_mem_cons.mpr ⟨.mark, rest⟩)
      | broken steady =>
          cases steady with | annotated body =>
          exact .cons (.broken body) (List.forall_mem_cons.mpr ⟨.mark, rest⟩)
  | fillFlat =>
      rcases List.forall_mem_cons.mp firm with ⟨whole, rest⟩
      cases whole.level (by simp) with | fill items =>
      rcases List.forall_mem_cons.mp items with ⟨first, others⟩
      exact .cons (.flat first) (List.forall_mem_cons.mpr ⟨.flat (.fill others), rest⟩)
  | fillLast =>
      rcases List.forall_mem_cons.mp firm with ⟨whole, rest⟩
      exact .cons (whole.decided (by simp)) rest
  | fillPair =>
      rcases List.forall_mem_cons.mp firm with ⟨whole, rest⟩
      exact .cons (whole.decided (by simp))
        (List.forall_mem_cons.mpr ⟨whole.decided (by simp), rest⟩)
  | @fillNext indent _ _ next others _ _ =>
      rcases List.forall_mem_cons.mp firm with ⟨whole, rest⟩
      have more : Entry.Firm ⟨.int indent.toInt, .broken, .fill (next :: others)⟩ := by
        cases whole.steady with | fill separated level steady =>
        cases separated with | next separated =>
        exact .broken (.fill separated (fun part member => level part (by simp [member]))
          fun part member => steady part (by simp [member]))
      exact .cons (whole.decided (by simp))
        (List.forall_mem_cons.mpr ⟨whole.decided (by simp),
          List.forall_mem_cons.mpr ⟨more, rest⟩⟩)
  | tail =>
      rcases List.forall_mem_cons.mp firm with ⟨whole, -⟩
      cases whole with
      | flat level => cases level
      | broken steady => cases steady

theorem State.Firm.breaks_broken {state : State} (firm : state.Firm) :
    BreaksBroken width state := by
  intro items next step breaking
  cases step with
  | hardLine =>
      rcases List.forall_mem_cons.mp firm with ⟨whole, -⟩
      cases whole with
      | flat level => cases level
      | broken => exact ⟨_, rfl, rfl⟩
  | _ => cases breaking

theorem Reaches.firm {state last : State} {items : List Item}
    (reaches : Reaches width state items last) (firm : state.Firm) : last.Firm := by
  induction reaches with
  | here => exact firm
  | step first _ induction => exact induction (first.firm firm)

end Layout

/-- The normal form of a group is a forced break exactly if something in the group is one, or has a
line break among its parts. If no line break stands directly in an indentation or a label, every
forced break in the group is found, and on no page a line starts where the layout is flat. -/
theorem forced_breaks_reach_group {doc : Doc} (built : doc.Built [.softLine, .hardLine]) :
    ∃ grouped, Combinator.group doc = .ok grouped ∧
      ((∃ body, grouped.normalize = .alwaysBreak body) ↔
        ∃ part ∈ grouped.within false false, part.opensBreak = true) ∧
      ((∀ part ∈ doc.within false false, part.hidesBreak = false) →
        ((∃ part ∈ doc.within false false, Doc.forces part = true) →
          ∃ body, grouped.normalize = .alwaysBreak body) ∧
        ∀ width, ∃ items column,
          Reaches width (State.start grouped.normalize) items ⟨[], column⟩ ∧
            layout grouped width = ⟨items, .ok column⟩ ∧
            ∀ before state, Reaches width (State.start grouped.normalize) before state →
              BreaksBroken width state) := by
  have sound := break_only_sound built
  -- The group may be around the empty document instead of an empty text.
  have cast : ∃ part, Combinator.cast doc = .ok part ∧ part.Sound Doc.BreakOnly False ∧
      ((∀ inner ∈ doc.within false false, inner.hidesBreak = false) →
        ∀ inner ∈ part.within false false, inner.hidesBreak = false) ∧
      ((∃ inner ∈ doc.within false false, Doc.forces inner = true) →
        ∃ inner ∈ part.within false false, Doc.forces inner = true) := by
    rcases Doc.cast_succeeds sound with success | ⟨rfl, success⟩
    · exact ⟨doc, success, sound, id, id⟩
    · exact ⟨.nil, success, .nil, by simp [Doc.within, Doc.hidesBreak],
        by simp [Doc.within, Doc.forces]⟩
  rcases cast with ⟨part, success, partSound, isOpen, forced⟩
  have groupSound : (Doc.group part).Sound Doc.BreakOnly False := .group partSound
  have opens : (∃ body, (Doc.group part).normalize = .alwaysBreak body) ↔
      ∃ inner ∈ (Doc.group part).within false false, inner.opensBreak = true := by
    rw [← Doc.is_break_iff, Doc.is_break_normalize groupSound, List.any_eq_true]
  refine ⟨.group part, ?_, opens, fun unhidden => ⟨fun found => opens.mpr ?_, fun width => ?_⟩⟩
  · rw [Combinator.group, success]
    rfl
  · rcases Doc.opens_of_forces partSound (isOpen unhidden) (forced found) with
      line | ⟨inner, member, opening⟩
    · exact ⟨_, List.mem_cons_self, line⟩
    · exact ⟨inner, List.mem_cons_of_mem _ member, opening⟩
  · have settled := Doc.settled_of_open groupSound
      (List.forall_mem_cons.mpr ⟨rfl, isOpen unhidden⟩) rfl
    have start : (State.start (Doc.group part).normalize).Firm :=
      List.forall_mem_singleton.mpr (.broken settled.steady)
    rcases layout_reaches groupSound.regular (Doc.regular_normalize groupSound.regular) width with
      ⟨items, column, reaches, laidOut⟩
    exact ⟨items, column, reaches, laidOut, fun before state reaches =>
      (reaches.firm start).breaks_broken⟩

/-- From a labeled group the forced break of its line break reaches the group around it. -/
theorem line_break_in_label_reaches_group :
    let inner := Doc.annotated (.token .keyword) (.group (.concat [.text "b", .hardLine]))
    let doc := Doc.concat [.text "a", Doc.line, inner]
    (∀ part ∈ doc.within false false, part.hidesBreak = false) ∧
      (∃ part ∈ doc.within false false, Doc.forces part = true) ∧
      ∃ grouped, Combinator.group doc = .ok grouped ∧
        (∃ body, grouped.normalize = .alwaysBreak body) ∧
        ∀ before state, Reaches 9 (State.start grouped.normalize) before state →
          BreaksBroken 9 state := by
  intro inner doc
  have lines : ∀ part ∈ [.text "b", Doc.hardLine], part.Built [.softLine, .hardLine] := by
    simp only [List.forall_mem_cons, List.not_mem_nil, false_implies, implies_true, and_true]
    exact ⟨.text (by decide), .hardLine (by decide)⟩
  have labeled : inner.Built [.softLine, .hardLine] :=
    .annotate (.group (.concat lines rfl) rfl) rfl
  have parts : ∀ part ∈ [.text "a", Doc.line, inner], part.Built [.softLine, .hardLine] := by
    simp only [List.forall_mem_cons, List.not_mem_nil, false_implies, implies_true, and_true]
    exact ⟨.text (by decide), .line, labeled⟩
  have unhidden : ∀ part ∈ doc.within false false, part.hidesBreak = false := by decide
  have forced : ∃ part ∈ doc.within false false, Doc.forces part = true := by decide
  rcases forced_breaks_reach_group (.concat parts rfl) with ⟨grouped, success, -, reaching⟩
  rcases reaching unhidden with ⟨found, lines⟩
  rcases lines 9 with ⟨items, column, -, -, broken⟩
  exact ⟨unhidden, forced, grouped, success, found forced, broken⟩

/-- Directly in an indentation a line break stays where it is, and the group around it flat. -/
example :
    formatDoc (.group (.concat [.text "a", Doc.line, .text "b", .nest (.int 2) .hardLine,
      .text "c"])) 79 2 = .ok "a b\n  c" :=
  rfl

end KotlinLayout
