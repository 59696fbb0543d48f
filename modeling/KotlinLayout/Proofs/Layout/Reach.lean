import KotlinLayout.Proofs.Layout.Steps

/-!
Steps lead from every sound state to one with nothing pending. A whole layout is such a run from
its normal form, so what every step preserves holds of every layout.
-/

namespace KotlinLayout

namespace Layout

/-- Steps from one state to another, and the items they emit. -/
inductive Reaches (width : Int) : State → List Item → State → Prop where
  | here {state : State} : Reaches width state [] state
  | step {state next last : State} {items later : List Item} :
      Step width state items next → Reaches width next later last →
        Reaches width state (items ++ later) last

variable {choices : Doc → Doc → Prop} {fills : Prop} {width : Int}

theorem Reaches.sound {state last : State} {items : List Item}
    (reaches : Reaches width state items last) (sound : state.Sound choices fills) :
    last.Sound choices fills := by
  induction reaches with
  | here => exact sound
  | step first _ induction => exact induction (first.sound sound)

theorem Reaches.run_eq {state last : State} {items : List Item}
    (reaches : Reaches width state items last) (sound : state.Sound choices fills) :
    state.run width = (last.run width).after items := by
  induction reaches with
  | here => rfl
  | step first _ induction =>
      rw [first.run_eq sound, induction (first.sound sound), Run.after_after]

theorem Reaches.trans {first second third : State} {items later : List Item}
    (front : Reaches width first items second) (back : Reaches width second later third) :
    Reaches width first (items ++ later) third := by
  induction front with
  | here => exact back
  | step first _ induction =>
      rw [List.append_assoc]
      exact .step first (induction back)

theorem Reaches.run_to_end {state : State} {items : List Item} {column : Int}
    (reaches : Reaches width state items ⟨[], column⟩) (sound : state.Sound choices fills) :
    state.run width = ⟨items, .ok column⟩ := by
  rw [reaches.run_eq sound]
  simp [State.run, layEntries, Run.after, Run.done]

noncomputable def docWeight : Doc → Nat
  | .mark _ => 1
  | doc => 2 * sizeOf doc

noncomputable def entriesWeight : List Entry → Nat
  | [] => 0
  | entry :: rest => docWeight entry.doc + entriesWeight rest

theorem doc_weight_le (doc : Doc) : docWeight doc ≤ 2 * sizeOf doc := by
  cases doc with
  | mark item =>
      rw [docWeight, Doc.mark.sizeOf_spec]
      omega
  | _ => exact Nat.le_refl _

@[simp] theorem entries_weight_cons (entry : Entry) (rest : List Entry) :
    entriesWeight (entry :: rest) = docWeight entry.doc + entriesWeight rest :=
  rfl

theorem parts_weight_le (indent : Amount) (mode : Mode) (parts : List Doc) (rest : List Entry) :
    entriesWeight (parts.map (Entry.mk indent mode) ++ rest) ≤
      2 * sizeOf parts + entriesWeight rest := by
  induction parts with
  | nil => simp
  | cons part parts induction =>
      have first := doc_weight_le part
      simp only [List.map_cons, List.cons_append, entries_weight_cons, List.cons.sizeOf_spec]
      omega

theorem size_drop_le (items : List Doc) (count : Nat) :
    sizeOf (items.drop count) ≤ sizeOf items := by
  induction items generalizing count with
  | nil => simp
  | cons item rest induction =>
      cases count with
      | zero => exact Nat.le_refl _
      | succ count =>
          have shorter := induction count
          simp only [List.drop_succ_cons, List.cons.sizeOf_spec]
          omega

theorem Step.weight_lt {state next : State} {items : List Item}
    (step : Step width state items next) :
    entriesWeight next.pending < entriesWeight state.pending := by
  cases step with
  | text | nil | hardLine | pop | fillNil =>
      simp only [entries_weight_cons, docWeight, Doc.text.sizeOf_spec, Doc.nil.sizeOf_spec,
        Doc.hardLine.sizeOf_spec, Doc.fill.sizeOf_spec]
      omega
  | nest | choiceFlat | choiceBroken | groupFlat | group | alwaysBreak =>
      simp only [entries_weight_cons]
      apply Nat.add_lt_add_right
      apply Nat.lt_of_le_of_lt (doc_weight_le _)
      simp only [docWeight, Doc.nest.sizeOf_spec, Doc.choice.sizeOf_spec, Doc.group.sizeOf_spec,
        Doc.alwaysBreak.sizeOf_spec]
      omega
  | @concat indent mode parts pending _ =>
      have smaller := parts_weight_le (.int indent.toInt) mode parts pending
      simp only [entries_weight_cons, docWeight, Doc.concat.sizeOf_spec]
      omega
  | @annotated _ _ _ body _ _ =>
      have smaller := doc_weight_le body
      simp only [entries_weight_cons, docWeight, Doc.annotated.sizeOf_spec] at smaller ⊢
      omega
  | @fillFlat _ item _ _ _ =>
      have smaller := doc_weight_le item
      simp only [entries_weight_cons, docWeight, Doc.fill.sizeOf_spec,
        List.cons.sizeOf_spec] at smaller ⊢
      omega
  | @fillLast _ content _ _ =>
      have smaller := doc_weight_le content
      simp only [entries_weight_cons, docWeight, Doc.fill.sizeOf_spec,
        List.cons.sizeOf_spec] at smaller ⊢
      omega
  | @fillPair _ content separator _ _ | @fillNext _ content separator _ _ _ _ =>
      have first := doc_weight_le content
      have second := doc_weight_le separator
      simp only [entries_weight_cons, docWeight, Doc.fill.sizeOf_spec,
        List.cons.sizeOf_spec] at first second ⊢
      omega
  | @tail _ _ items start _ _ =>
      have shorter := size_drop_le items start.toInt.toNat
      have positive : 0 < sizeOf start := by
        cases start <;> simp only [Amount.int.sizeOf_spec, Amount.flag.sizeOf_spec] <;> omega
      simp only [entries_weight_cons, docWeight, Doc.fill.sizeOf_spec, Doc.tail.sizeOf_spec]
      omega

/-- As long as something is pending there is a step to take. -/
theorem State.Sound.step {entry : Entry} {pending : List Entry} {column : Int} (width : Int)
    (sound : State.Sound choices fills ⟨entry :: pending, column⟩) :
    ∃ items next, Step width ⟨entry :: pending, column⟩ items next := by
  obtain ⟨indent, mode, doc⟩ := entry
  obtain ⟨⟨decides, stacked⟩, -⟩ := sound.of_cons
  cases stacked with
  | pop => exact ⟨_, _, .pop⟩
  | tail => exact ⟨_, _, .tail⟩
  | doc whole =>
      cases whole with
      | text => exact ⟨_, _, .text⟩
      | nil => exact ⟨_, _, .nil⟩
      | concat => exact ⟨_, _, .concat⟩
      | nest => exact ⟨_, _, .nest⟩
      | hardLine => exact ⟨_, _, .hardLine⟩
      | alwaysBreak => exact ⟨_, _, .alwaysBreak⟩
      | annotated => exact ⟨_, _, .annotated⟩
      | choice =>
          rcases decides with rfl | rfl
          · exact ⟨_, _, .choiceFlat⟩
          · exact ⟨_, _, .choiceBroken⟩
      | group =>
          rcases decides with rfl | rfl
          · exact ⟨_, _, .groupFlat⟩
          · exact ⟨_, _, .group⟩
      | @fill items =>
          rcases decides with rfl | rfl
          · cases items with
            | nil => exact ⟨_, _, .fillNil⟩
            | cons => exact ⟨_, _, .fillFlat⟩
          · match items with
            | [] => exact ⟨_, _, .fillNil⟩
            | [content] => exact ⟨_, _, .fillLast⟩
            | [content, separator] => exact ⟨_, _, .fillPair⟩
            | content :: separator :: next :: others => exact ⟨_, _, .fillNext⟩

theorem Reaches.weight_le {state last : State} {items : List Item}
    (reaches : Reaches width state items last) :
    entriesWeight last.pending ≤ entriesWeight state.pending := by
  induction reaches with
  | here => exact Nat.le_refl _
  | step first _ induction => exact Nat.le_trans induction (Nat.le_of_lt first.weight_lt)

theorem Reaches.weight_lt {state next last : State} {items later : List Item}
    (rest : Reaches width next later last) (first : Step width state items next) :
    entriesWeight last.pending < entriesWeight state.pending :=
  Nat.lt_of_le_of_lt rest.weight_le first.weight_lt

/-- Entries are finished before those after them. -/
theorem State.Sound.reaches_past (width : Int) {front pending : List Entry} {column : Int}
    (sound : State.Sound choices fills ⟨front ++ pending, column⟩) :
    ∃ items reached, Reaches width ⟨front ++ pending, column⟩ items ⟨pending, reached⟩ := by
  induction weight : entriesWeight (front ++ pending) using Nat.strongRecOn
    generalizing front column with
  | ind weight induction =>
      cases front with
      | nil => exact ⟨[], column, .here⟩
      | cons entry front =>
          rw [List.cons_append] at sound weight ⊢
          obtain ⟨items, ⟨replaced, reached⟩, step⟩ := sound.step width
          obtain ⟨more, rfl, _⟩ := step.replaces sound.of_cons.1
          rw [← List.append_assoc] at step
          obtain ⟨later, last, reaches⟩ :=
            induction _ (weight ▸ step.weight_lt) (step.sound sound) rfl
          exact ⟨items ++ later, last, .step step reaches⟩

theorem State.Sound.reaches_end (width : Int) {state : State}
    (sound : state.Sound choices fills) :
    ∃ items column, Reaches width state items ⟨[], column⟩ := by
  obtain ⟨pending, column⟩ := state
  rw [← List.append_nil pending] at sound ⊢
  exact sound.reaches_past width

/-- Where the layout of a normal form starts. -/
def State.start (doc : Doc) : State := ⟨[⟨.int 0, .broken, doc⟩], 0⟩

theorem State.Sound.start {doc : Doc} (sound : doc.Sound choices fills) :
    (State.start doc).Sound choices fills :=
  List.forall_mem_singleton.mpr (entry_sound (.inr rfl) sound)

end Layout

open Layout

variable {choices : Doc → Doc → Prop} {fills : Prop}

/-- Sound documents are laid out without a fault, step by step from their normal form. -/
theorem layout_reaches {doc : Doc} (sound : doc.Sound choices fills)
    (normal : doc.normalize.Sound choices fills) (width : Int) :
    ∃ items column, Reaches width (State.start doc.normalize) items ⟨[], column⟩ ∧
      layout doc width = ⟨items, .ok column⟩ := by
  have start := State.Sound.start normal
  obtain ⟨items, column, reaches⟩ := start.reaches_end width
  refine ⟨items, column, reaches, ?_⟩
  rw [layout, sound.normalized_eq]
  exact reaches.run_to_end start

theorem layout_finishes {doc : Doc} (regular : doc.Regular) (width : Int) :
    ∃ column, (layout doc width).finish = .ok column := by
  rcases layout_reaches regular (Doc.regular_normalize regular) width with ⟨items, column, -, same⟩
  exact ⟨column, by rw [same]⟩

theorem layout_succeeds {doc : Doc} (regular : doc.Regular) (width : Int) :
    (layout doc width).fault? = none := by
  obtain ⟨column, finished⟩ := layout_finishes regular width
  rw [Run.fault?, finished]

end KotlinLayout
