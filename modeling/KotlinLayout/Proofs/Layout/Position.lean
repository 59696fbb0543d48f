import KotlinLayout.Proofs.Document.Built
import KotlinLayout.Proofs.Layout.Alike
import KotlinLayout.Proofs.Layout.Check

/-!
Fills that are walked by position. Nothing of such a fill is copied: what is left of it is all of
its items and the position that was reached. A walk gives the items that a layout gives which
copies what is left, and the fit check does not tell the two apart.
-/

namespace KotlinLayout

namespace Layout

variable {width : Int} {entries others front back : List Entry}

/-- Entries that read alike, and that lay out alike before whatever is pending. -/
structure Swappable (width : Int) (entries others : List Entry) : Prop where
  reads : SameReading entries others
  lays : ∀ pending column,
    layEntries width (entries ++ pending) column = layEntries width (others ++ pending) column

theorem SameReading.append (same : SameReading entries others) (sameBack : SameReading front back) :
    SameReading (entries ++ front) (others ++ back) := by
  intro columns
  rw [read_entries_append, read_entries_append, same, funext sameBack]

theorem fits_of_same (same : SameReading entries others) (sameBack : SameReading front back)
    (columns : Int) : fits columns entries front = fits columns others back := by
  rw [fits, fits, same, funext sameBack]

namespace Swappable

theorem cons (swappable : Swappable width entries others) (entry : Entry) :
    Swappable width (entry :: entries) (entry :: others) := by
  refine ⟨SameReading.append (fun _ => rfl : SameReading [entry] [entry]) swappable.reads,
    fun pending column => ?_⟩
  have ahead : SameAnswers (entries ++ pending) (others ++ pending) :=
    (swappable.reads.append fun _ => rfl).same_answers
  rw [List.cons_append, List.cons_append, layEntries, layEntries,
    lay_congr width _ entry.mode entry.doc ahead, funext (swappable.lays pending)]

theorem after (swappable : Swappable width entries others) (front : List Entry) :
    Swappable width (front ++ entries) (front ++ others) := by
  induction front with
  | nil => exact swappable
  | cons entry front induction => exact induction.cons entry

end Swappable

theorem swappable_position (width : Int) (indent : Amount) (mode : Mode) (items : List Doc)
    (position : Nat) :
    Swappable width [⟨indent, mode, .tail items (.int position)⟩]
      [⟨indent, mode, .fill (items.drop position)⟩] := by
  have nonneg : 0 ≤ (Amount.int position).toInt := Int.natCast_nonneg position
  constructor
  · intro columns
    rw [readEntries, readEntries, read_tail_eq nonneg]
    rfl
  · intro pending column
    simp only [List.singleton_append, layEntries, lay]
    rw [lay_fill_drop]
    rfl

theorem same_reading_fill_concat (indent : Amount) (mode : Mode) (docs : List Doc) :
    SameReading [⟨indent, mode, .fill docs⟩] [⟨indent, mode, .concat docs⟩] :=
  fun _ => rfl

theorem lay_flat_fill_eq (width indent : Int) (docs : List Doc) (pending : List Entry)
    (column : Int) :
    layFill width indent .flat docs 0 pending column =
      layAll width indent .flat docs pending column := by
  induction docs generalizing column with
  | nil => rw [layFill, layAll]
  | cons doc rest induction =>
      have ahead : SameAnswers (⟨.int indent, .flat, .fill rest⟩ :: pending)
          (⟨.int indent, .flat, .concat rest⟩ :: pending) :=
        SameReading.same_answers fun _ => rfl
      rw [layFill, if_pos (by rfl), layAll, lay_congr width indent .flat doc ahead,
        funext induction]

theorem swappable_flat_fill (width : Int) (indent : Amount) (docs : List Doc) :
    Swappable width [⟨indent, .flat, .fill docs⟩] [⟨indent, .flat, .concat docs⟩] := by
  refine ⟨same_reading_fill_concat indent .flat docs, fun pending column => ?_⟩
  simp only [List.singleton_append, layEntries, lay, lay_flat_fill_eq]

/-- What a fill from a position on puts in front of what is pending: the next content, in a mode
of its own, the separator after it, and what is left by its position. -/
def unrolled (width indent : Int) (mode : Mode) (items : List Doc) (position : Nat)
    (pending : List Entry) (column : Int) : Except Fault (List Entry) :=
  let entry (mode : Mode) (doc : Doc) : Entry := ⟨.int indent, mode, doc⟩
  let rest (position : Nat) : Entry := ⟨.int indent, mode, .tail items (.int position)⟩
  match items[position]? with
  | none => .ok []
  | some content =>
      if mode.isFlat then .ok [entry mode content, rest (position + 1)]
      else do
        let contentMode := Mode.ofFits (← fits (width - column) [entry .flat content] [])
        match items[position + 1]? with
        | none => return [entry contentMode content]
        | some separator =>
            match items[position + 2]? with
            | none => return [entry contentMode content, entry contentMode separator]
            | some next =>
                let ahead := [entry .flat content, entry .flat separator, entry .flat next,
                  rest (position + 3)]
                let separatorMode := Mode.ofFits (← fits (width - column) ahead pending)
                return [entry contentMode content, entry separatorMode separator,
                  rest (position + 2)]

/-- What was put in front is laid out as the fill is, and a fault ends both. -/
theorem lay_unrolled (width indent : Int) (mode : Mode) (items : List Doc) (position : Nat)
    (pending : List Entry) (column : Int) :
    (layFill width indent mode items position pending column).andThen (layEntries width pending) =
      match unrolled width indent mode items position pending column with
      | .ok front => layEntries width (front ++ pending) column
      | .error fault => .failed fault := by
  have rest (count : Nat) : Swappable width
      [⟨.int indent, mode, .tail items (.int (position + count : Nat))⟩]
      [⟨.int indent, mode, .fill ((items.drop position).drop count)⟩] := by
    rw [List.drop_drop]
    exact swappable_position width (.int indent) mode items (position + count)
  have item (count : Nat) : items[position + count]? = (items.drop position)[count]? :=
    List.getElem?_drop.symm
  have first := item 0
  rw [Nat.add_zero] at first
  rw [lay_fill_drop, unrolled, first, item 1, item 2]
  generalize items.drop position = left at rest
  cases left with
  | nil => rw [layFill, Run.done_and_then]; rfl
  | cons content left =>
      rw [layFill]
      by_cases flat : mode.isFlat = true
      · have onward := (rest 1).cons ⟨.int indent, mode, content⟩
        rw [if_pos flat, Run.and_then_assoc]
        simp only [List.getElem?_cons_zero, if_pos flat]
        exact (onward.lays pending column).symm
      · rw [if_neg flat]
        simp only [List.getElem?_cons_zero, List.getElem?_cons_succ, if_neg flat]
        cases fits (width - column) [⟨.int indent, .flat, content⟩] [] with
        | error fault => exact Run.failed_and_then fault _
        | ok contentFits =>
            cases left with
            | nil => rfl
            | cons separator left =>
            cases left with
            | nil => exact Run.and_then_assoc _ _ _
            | cons next others =>
                -- The look ahead goes over what is left after the second content as well.
                have look := ((rest 3).after [⟨.int indent, .flat, content⟩,
                  ⟨.int indent, .flat, separator⟩, ⟨.int indent, .flat, next⟩]).reads
                have ahead := fits_of_same look (fun _ => rfl : SameReading pending pending)
                  (width - column)
                simp only [List.cons_append, List.nil_append, List.drop_succ_cons,
                  List.drop_zero] at ahead
                simp only [Run.decided, List.getElem?_cons_zero, List.getElem?_cons_succ, bind,
                  Except.bind, pure, Except.pure, ahead]
                cases fits (width - column) [⟨.int indent, .flat, content⟩,
                    ⟨.int indent, .flat, separator⟩, ⟨.int indent, .flat, next⟩,
                    ⟨.int indent, mode, .fill others⟩] pending with
                | error fault => exact Run.failed_and_then fault _
                | ok separatorFits =>
                    have onward := (rest 2).after [⟨.int indent, .ofFits contentFits, content⟩,
                      ⟨.int indent, .ofFits separatorFits, separator⟩]
                    simp only [Run.and_then_assoc]
                    exact (onward.lays pending column).symm

inductive Unrolls (indent : Int) (mode : Mode) (items : List Doc) (position : Nat) :
    List Doc → List Entry → Prop where
  | nil : Unrolls indent mode items position [] []
  | flat {content : Doc} {left : List Doc} :
      Unrolls indent mode items position (content :: left)
        [⟨.int indent, mode, content⟩, ⟨.int indent, mode, .tail items (.int (position + 1 : Nat))⟩]
  | last {content : Doc} {fits : Bool} :
      Unrolls indent mode items position [content] [⟨.int indent, .ofFits fits, content⟩]
  | pair {content separator : Doc} {fits : Bool} :
      Unrolls indent mode items position [content, separator]
        [⟨.int indent, .ofFits fits, content⟩, ⟨.int indent, .ofFits fits, separator⟩]
  | next {content separator next : Doc} {others : List Doc} {fits separatorFits : Bool} :
      Unrolls indent mode items position (content :: separator :: next :: others)
        [⟨.int indent, .ofFits fits, content⟩, ⟨.int indent, .ofFits separatorFits, separator⟩,
          ⟨.int indent, mode, .tail items (.int (position + 2 : Nat))⟩]

theorem unrolls_of_unrolled {indent : Int} {mode : Mode} {items : List Doc} {position : Nat}
    {pending : List Entry} {column : Int}
    (success : unrolled width indent mode items position pending column = .ok front) :
    Unrolls indent mode items position (items.drop position) front := by
  have item (count : Nat) : items[position + count]? = (items.drop position)[count]? :=
    List.getElem?_drop.symm
  have first := item 0
  rw [Nat.add_zero] at first
  rw [unrolled, first, item 1, item 2] at success
  generalize items.drop position = left at success
  cases left with
  | nil =>
      cases success
      exact .nil
  | cons content left =>
      simp only [List.getElem?_cons_zero, List.getElem?_cons_succ] at success
      split at success
      · cases success
        exact .flat
      · rcases bind_eq_ok_iff.mp success with ⟨contentFits, -, success⟩
        match left with
        | [] =>
            cases success
            exact .last
        | [separator] =>
            cases success
            exact .pair
        | separator :: next :: others =>
            rcases bind_eq_ok_iff.mp success with ⟨separatorFits, -, success⟩
            cases success
            exact .next

theorem Unrolls.regular {indent : Int} {mode : Mode} {items left : List Doc} {position : Nat}
    (unrolls : Unrolls indent mode items position left front) (decides : mode.Decides)
    (regular : ∀ item ∈ items, item.Regular) (leftRegular : ∀ item ∈ left, item.Regular) :
    ∀ entry ∈ front, entry.Regular := by
  have rest (count : Nat) :
      (Entry.mk (.int indent) mode (.tail items (.int (count : Nat)))).Regular :=
    ⟨decides, .tail trivial (Int.natCast_nonneg count) regular⟩
  cases unrolls with
  | nil => simp
  | flat =>
      exact List.forall_mem_cons.mpr ⟨entry_sound decides (leftRegular _ (by simp)),
        List.forall_mem_singleton.mpr (rest _)⟩
  | last =>
      exact List.forall_mem_singleton.mpr
        (entry_sound (Mode.of_fits_decides _) (leftRegular _ (by simp)))
  | pair =>
      exact List.forall_mem_cons.mpr
        ⟨entry_sound (Mode.of_fits_decides _) (leftRegular _ (by simp)),
          List.forall_mem_singleton.mpr
            (entry_sound (Mode.of_fits_decides _) (leftRegular _ (by simp)))⟩
  | next =>
      exact List.forall_mem_cons.mpr
        ⟨entry_sound (Mode.of_fits_decides _) (leftRegular _ (by simp)), List.forall_mem_cons.mpr
          ⟨entry_sound (Mode.of_fits_decides _) (leftRegular _ (by simp)),
            List.forall_mem_singleton.mpr (rest _)⟩⟩

/-- What a walk does with its next entry: fills are unrolled from their position on, and all else
goes as it does in a layout. -/
inductive Walk (width : Int) : State → List Item → State → Prop where
  | fill {indent mode items front pending column} :
      unrolled width indent.toInt mode items 0 pending column = .ok front →
        Walk width ⟨⟨indent, mode, .fill items⟩ :: pending, column⟩ [] ⟨front ++ pending, column⟩
  | tail {indent mode items start front pending column} :
      unrolled width indent.toInt mode items start.toInt.toNat pending column = .ok front →
        Walk width ⟨⟨indent, mode, .tail items start⟩ :: pending, column⟩ []
          ⟨front ++ pending, column⟩
  | other {entry pending column items next} :
      (∀ docs, entry.doc ≠ .fill docs) → (∀ docs start, entry.doc ≠ .tail docs start) →
        Step width ⟨entry :: pending, column⟩ items next →
          Walk width ⟨entry :: pending, column⟩ items next

inductive Walks (width : Int) : State → List Item → State → Prop where
  | here {state : State} : Walks width state [] state
  | step {state next last : State} {items later : List Item} :
      Walk width state items next → Walks width next later last →
        Walks width state (items ++ later) last

def State.Regular (state : State) : Prop := state.Sound (fun _ _ => True) True

theorem run_unrolled {indent : Int} {mode : Mode} {items : List Doc} {position : Nat}
    {pending : List Entry} {column : Int}
    (success : unrolled width indent mode items position pending column = .ok front) :
    (layFill width indent mode items position pending column).andThen (layEntries width pending) =
      State.run width ⟨front ++ pending, column⟩ := by
  rw [lay_unrolled, success]
  rfl

/-- A step of a walk emits its items and leaves the rest of the layout to the state it leads to. -/
theorem Walk.run_eq {state next : State} {items : List Item} (walk : Walk width state items next)
    (regular : state.Regular) : state.run width = (next.run width).after items := by
  cases walk with
  | fill success | tail success => exact run_unrolled success
  | other _ _ step => exact step.run_eq regular

theorem Walk.regular {state next : State} {items : List Item} (walk : Walk width state items next)
    (regular : state.Regular) : next.Regular := by
  cases walk with
  | fill success =>
      obtain ⟨⟨decides, -⟩, items, rest⟩ := State.Sound.of_fill regular
      have unrolls := unrolls_of_unrolled success
      exact List.forall_mem_append.mpr ⟨unrolls.regular decides items items, rest⟩
  | tail success =>
      obtain ⟨⟨decides, stacked⟩, rest⟩ := State.Sound.of_cons regular
      cases stacked with
      | doc whole => cases whole
      | tail _ _ items =>
          have unrolls := unrolls_of_unrolled success
          refine List.forall_mem_append.mpr ⟨unrolls.regular decides items ?_, rest⟩
          exact fun item member => items item (List.mem_of_mem_drop member)
  | other _ _ step => exact step.sound regular

theorem Walks.run_eq {state last : State} {items : List Item} (walks : Walks width state items last)
    (regular : state.Regular) : state.run width = (last.run width).after items := by
  induction walks with
  | here => rfl
  | step first _ induction =>
      rw [first.run_eq regular, induction (first.regular regular), Run.after_after]

def copied : Doc → Doc
  | .tail items start => .fill (items.drop start.toInt.toNat)
  | doc => doc

noncomputable def walkWeight (entries : List Entry) : Nat :=
  entriesWeight (entries.map fun entry => { entry with doc := copied entry.doc })

theorem walk_weight_append (entries others : List Entry) :
    walkWeight (entries ++ others) = walkWeight entries + walkWeight others := by
  rw [walkWeight, List.map_append, entries_weight_append, walkWeight, walkWeight]

theorem walk_weight_cons (entry : Entry) (rest : List Entry) :
    walkWeight (entry :: rest) = docWeight (copied entry.doc) + walkWeight rest := by
  rw [walkWeight, List.map_cons, entries_weight_cons, walkWeight]

theorem copied_weight_le (doc : Doc) : docWeight (copied doc) ≤ docWeight doc := by
  cases doc with
  | tail items start =>
      have shorter := size_drop_le items start.toInt.toNat
      simp only [copied, docWeight, Doc.fill.sizeOf_spec, Doc.tail.sizeOf_spec]
      omega
  | _ => exact Nat.le_refl _

theorem walk_weight_le (entries : List Entry) : walkWeight entries ≤ entriesWeight entries := by
  induction entries with
  | nil => exact Nat.le_refl _
  | cons entry rest induction =>
      have smaller := copied_weight_le entry.doc
      rw [walk_weight_cons, entries_weight_cons]
      omega

theorem Unrolls.weight_lt {indent : Int} {mode : Mode} {items left : List Doc} {position : Nat}
    (unrolls : Unrolls indent mode items position left front)
    (split : items.drop position = left) : walkWeight front < docWeight (.fill left) := by
  have content (doc : Doc) : docWeight (copied doc) ≤ 2 * sizeOf doc :=
    Nat.le_trans (copied_weight_le doc) (doc_weight_le doc)
  have rest (count : Nat) : copied (.tail items (.int (position + count : Nat))) =
      .fill (left.drop count) := by
    rw [← split, List.drop_drop]
    rfl
  have fill (items : List Doc) : docWeight (.fill items) = 2 * (1 + sizeOf items) := by
    rw [docWeight, Doc.fill.sizeOf_spec]
    simp
  have nothing : walkWeight [] = 0 := rfl
  cases unrolls with
  | nil =>
      rw [nothing, fill]
      omega
  | @flat first left =>
      have firstWeight := content first
      simp only [walk_weight_cons, nothing, rest, List.drop_succ_cons, List.drop_zero, fill,
        List.cons.sizeOf_spec]
      omega
  | @last first =>
      have firstWeight := content first
      simp only [walk_weight_cons, nothing, fill, List.cons.sizeOf_spec]
      omega
  | @pair first separator =>
      have firstWeight := content first
      have separatorWeight := content separator
      simp only [walk_weight_cons, nothing, fill, List.cons.sizeOf_spec]
      omega
  | @next first separator =>
      have firstWeight := content first
      have separatorWeight := content separator
      simp only [walk_weight_cons, nothing, rest, List.drop_succ_cons, List.drop_zero, fill,
        List.cons.sizeOf_spec]
      omega

theorem Walk.weight_lt {state next : State} {items : List Item} (walk : Walk width state items next)
    (regular : state.Regular) : walkWeight next.pending < walkWeight state.pending := by
  cases walk with
  | fill success | tail success =>
      rw [walk_weight_append, walk_weight_cons]
      exact Nat.add_lt_add_right ((unrolls_of_unrolled success).weight_lt rfl) _
  | @other entry pending _ _ _ notFill notTail step =>
      have whole : copied entry.doc = entry.doc := by
        cases same : entry.doc with
        | tail docs start => exact absurd same (notTail docs start)
        | _ => rfl
      obtain ⟨front, replaced, -⟩ := step.replaces (State.Sound.of_cons regular).1
      have lighter := step.weight_lt
      have smaller := walk_weight_le front
      rw [replaced, entries_weight_append, entries_weight_cons] at lighter
      rw [replaced, walk_weight_append, walk_weight_cons, whole]
      omega

theorem exists_walk {entry : Entry} {pending : List Entry} {column : Int} (width : Int)
    (regular : State.Regular ⟨entry :: pending, column⟩) :
    ∃ items next, Walk width ⟨entry :: pending, column⟩ items next := by
  obtain ⟨indent, mode, doc⟩ := entry
  obtain ⟨emitted, reached, reaches⟩ := State.Sound.reaches_end width regular
  have finishes := reaches.run_to_end regular
  -- A fault of the unrolling would be a fault of the layout.
  have unrolls (items : List Doc) (position : Nat)
      (same : State.run width ⟨⟨indent, mode, doc⟩ :: pending, column⟩ =
        (layFill width indent.toInt mode items position pending column).andThen
          (layEntries width pending)) :
      ∃ front, unrolled width indent.toInt mode items position pending column = .ok front := by
    rw [finishes, lay_unrolled] at same
    cases success : unrolled width indent.toInt mode items position pending column with
    | ok front => exact ⟨front, rfl⟩
    | error fault =>
        rw [success] at same
        cases same
  cases doc with
  | fill items =>
      obtain ⟨front, success⟩ := unrolls items 0 rfl
      exact ⟨_, _, .fill success⟩
  | tail items start =>
      obtain ⟨front, success⟩ := unrolls items start.toInt.toNat rfl
      exact ⟨_, _, .tail success⟩
  | _ =>
      obtain ⟨items, next, step⟩ := State.Sound.step width regular
      exact ⟨items, next, .other (by simp) (by simp) step⟩

theorem exists_walks {state : State} (width : Int) (regular : state.Regular) :
    ∃ items reached, Walks width state items ⟨[], reached⟩ := by
  obtain ⟨pending, column⟩ := state
  induction weight : walkWeight pending using Nat.strongRecOn generalizing pending column with
  | ind weight induction =>
      cases pending with
      | nil => exact ⟨[], column, .here⟩
      | cons entry pending =>
          obtain ⟨items, next, walk⟩ := exists_walk width regular
          obtain ⟨later, reached, walks⟩ :=
            induction _ (weight ▸ walk.weight_lt regular) next.pending next.column
              (walk.regular regular) rfl
          exact ⟨items ++ later, reached, .step walk walks⟩

/-- The walk to the end emits what the layout emits. -/
theorem walks_iff {state : State} (regular : state.Regular) {items : List Item} {reached : Int} :
    Walks width state items ⟨[], reached⟩ ↔ state.run width = ⟨items, .ok reached⟩ := by
  have ended {items : List Item} {reached : Int} (walks : Walks width state items ⟨[], reached⟩) :
      state.run width = ⟨items, .ok reached⟩ := by
    rw [walks.run_eq regular]
    simp [State.run, layEntries, Run.after, Run.done]
  refine ⟨ended, fun same => ?_⟩
  obtain ⟨others, last, walks⟩ := exists_walks width regular
  have unique := (ended walks).symm.trans same
  cases unique
  exact walks

/-- No fit check tells the entries apart, be they among those it asks for or among the pending. -/
def FitAlike (entries others : List Entry) : Prop :=
  ∀ columns front back stack,
    fits columns (front ++ entries ++ back) stack = fits columns (front ++ others ++ back) stack ∧
      fits columns stack (front ++ entries ++ back) = fits columns stack (front ++ others ++ back)

/-- No layout tells the entries apart. -/
def LayAlike (entries others : List Entry) : Prop :=
  ∀ width front back column,
    layEntries width (front ++ entries ++ back) column =
      layEntries width (front ++ others ++ back) column

theorem SameReading.fit_alike (same : SameReading entries others) : FitAlike entries others := by
  intro columns front back stack
  have refl (entries : List Entry) : SameReading entries entries := fun _ => rfl
  have whole := ((refl front).append same).append (refl back)
  exact ⟨fits_of_same whole (refl stack) columns, fits_of_same (refl stack) whole columns⟩

theorem lay_alike (swappable : ∀ width, Swappable width entries others) :
    LayAlike entries others := by
  intro width front back column
  exact ((swappable width).after front).lays back column

theorem same_reading_next {items : List Doc} {position : Nat} {item : Doc}
    (here : items[position]? = some item) (indent : Amount) (mode : Mode) :
    SameReading [⟨indent, mode, .tail items (.int position)⟩]
      [⟨indent, mode, item⟩, ⟨indent, mode, .tail items (.int (position + 1 : Nat))⟩] := by
  obtain ⟨inside, rfl⟩ := List.getElem?_eq_some_iff.mp here
  have split := List.drop_eq_getElem_cons inside
  intro columns
  have copy := (swappable_position 0 indent mode items position).reads columns
  have onward := (swappable_position 0 indent mode items (position + 1)).reads
  rw [copy, split, readEntries, readEntries, funext onward]
  simp only [read, readAll, readEntries]
  cases read indent mode items[position] columns with
  | error fault => rfl
  | ok room => cases room <;> rfl

/-- What is left of a fill may be a position in it or a copy of its last items: wherever they
stand, no layout and no fit check tells them apart, and walks from both emit the same items. A fill
that is flat, or that is only checked, may be a concatenation as well. -/
theorem rest_of_fill_by_position (docs : List Doc) (start : Nat) (indent : Int) (mode : Mode) :
    let position (start : Nat) : Entry := ⟨.int indent, mode, .tail docs (.int start)⟩
    let copy : Entry := ⟨.int indent, mode, .fill (docs.drop start)⟩
    LayAlike [position start] [copy] ∧ FitAlike [position start] [copy] ∧
      (∀ doc, docs[start]? = some doc →
        FitAlike [position start] [⟨.int indent, mode, doc⟩, position (start + 1)]) ∧
      ((∀ doc ∈ docs, doc.Regular) → mode.Decides →
        ∀ width pending column, (∀ entry ∈ pending, entry.Regular) →
          ∃ items reached, layEntries width (position start :: pending) column =
              ⟨items, .ok reached⟩ ∧
            Walks width ⟨position start :: pending, column⟩ items ⟨[], reached⟩ ∧
              Walks width ⟨copy :: pending, column⟩ items ⟨[], reached⟩) ∧
      LayAlike [⟨.int indent, .flat, .fill docs⟩] [⟨.int indent, .flat, .concat docs⟩] ∧
      FitAlike [⟨.int indent, mode, .fill docs⟩] [⟨.int indent, mode, .concat docs⟩] := by
  intro position copy
  have swappable (width : Int) := swappable_position width (.int indent) mode docs start
  refine ⟨lay_alike swappable, (swappable 0).reads.fit_alike, ?_, ?_,
    lay_alike fun width => swappable_flat_fill width (.int indent) docs,
    (same_reading_fill_concat (.int indent) mode docs).fit_alike⟩
  · intro doc here
    exact (same_reading_next here (.int indent) mode).fit_alike
  · intro regular decides width pending column pendingRegular
    have positionRegular : State.Regular ⟨position start :: pending, column⟩ :=
      List.forall_mem_cons.mpr ⟨⟨decides, .tail trivial (Int.natCast_nonneg start) regular⟩,
        pendingRegular⟩
    have left : (Doc.fill (docs.drop start)).Regular :=
      .fill trivial fun doc member => regular doc (List.mem_of_mem_drop member)
    have copyRegular : State.Regular ⟨copy :: pending, column⟩ :=
      List.forall_mem_cons.mpr ⟨entry_sound decides left, pendingRegular⟩
    obtain ⟨items, reached, walks⟩ := exists_walks width positionRegular
    have ended := (walks_iff positionRegular).mp walks
    have same := (swappable width).lays pending column
    exact ⟨items, reached, ended, walks, (walks_iff copyRegular).mpr (same.symm.trans ended)⟩

/-- The last two contents of a fill of three, with more behind them than fits on the page. -/
theorem rest_of_words_by_position :
    let docs := [Doc.text "aa", .line, .text "bb", .line, .text "cc"]
    let position : Entry := ⟨.int 1, .broken, .tail docs (.int 2)⟩
    let copy : Entry := ⟨.int 1, .broken, .fill [.text "bb", .line, .text "cc"]⟩
    let pending : List Entry := [⟨.int 0, .broken, .text ";"⟩]
    let items : List Item := [.text "bb", .line (.int 1), .text "cc", .text ";"]
    (∀ doc ∈ docs, doc.Regular) ∧ Mode.broken.Decides ∧ (∀ entry ∈ pending, entry.Regular) ∧
      Walks 5 ⟨position :: pending, 0⟩ items ⟨[], 4⟩ ∧
      Walks 5 ⟨copy :: pending, 0⟩ items ⟨[], 4⟩ := by
  intro docs position copy pending items
  have text (value : String) (breakless : '\n' ∉ value.toList) : (Doc.text value).Regular :=
    .text breakless
  have line : Doc.line.Regular := .choice trivial .hardLine (text " " (by decide))
  have regular : ∀ doc ∈ docs, doc.Regular := by
    simp only [docs, List.forall_mem_cons, List.not_mem_nil, false_implies, implies_true, and_true]
    exact ⟨text _ (by decide), line, text _ (by decide), line, text _ (by decide)⟩
  have pendingRegular : ∀ entry ∈ pending, entry.Regular :=
    List.forall_mem_singleton.mpr (entry_sound (.inr rfl) (text _ (by decide)))
  obtain ⟨-, -, -, walk, -⟩ := rest_of_fill_by_position docs 2 1 .broken
  obtain ⟨others, reached, laidOut, walks, copyWalks⟩ :=
    walk regular (.inr rfl) 5 pending 0 pendingRegular
  have same : layEntries 5 (position :: pending) 0 = ⟨items, .ok 4⟩ := by rfl
  cases laidOut.symm.trans same
  exact ⟨regular, .inr rfl, pendingRegular, walks, copyWalks⟩

end Layout

end KotlinLayout
