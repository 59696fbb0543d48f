import KotlinLayout.Proofs.Layout.Steps
import Mathlib.Data.List.Forall2

/-!
Documents that no layout tells apart: the fit check answers the same with either of them pending,
and laid out they give the same items, apart from items that are not kept, and end at the same
column. Documents with alike parts are alike, so parts can be replaced wherever they stand.
-/

namespace KotlinLayout

namespace Run

variable {keep : Item → Bool}

def keeping (keep : Item → Bool) (run : Run) : Run := ⟨run.items.filter keep, run.finish⟩

theorem keeping_iff {run other : Run} :
    run.keeping keep = other.keeping keep ↔
      run.items.filter keep = other.items.filter keep ∧ run.finish = other.finish := by
  rw [keeping, keeping, Run.mk.injEq]

theorem keeping_and_then (run : Run) (next : Int → Run) :
    (run.andThen next).keeping keep =
      (run.keeping keep).andThen fun column => (next column).keeping keep := by
  obtain ⟨items, finish⟩ := run
  cases finish <;> simp [andThen, keeping]

theorem keeping_emit (item : Item) (column : Int) :
    (emit item column).keeping keep = if keep item then emit item column else done column := by
  cases kept : keep item <;> simp [keeping, emit, done, kept]

theorem keeping_and_then_congr {run other : Run} {next following : Int → Run}
    (first : run.keeping keep = other.keeping keep)
    (second : ∀ column, (next column).keeping keep = (following column).keeping keep) :
    (run.andThen next).keeping keep = (other.andThen following).keeping keep := by
  rw [keeping_and_then, keeping_and_then, first, funext second]

theorem keeping_decided_congr {answer : Except Fault Bool} {next following : Mode → Run}
    (same : ∀ fits, answer = .ok fits →
      (next (.ofFits fits)).keeping keep = (following (.ofFits fits)).keeping keep) :
    (decided answer next).keeping keep = (decided answer following).keeping keep := by
  cases answer with
  | error fault => rfl
  | ok fits => exact same fits rfl

end Run

theorem Mode.of_fits_decides (fits : Bool) : (Mode.ofFits fits).Decides := by
  cases fits
  · exact .inr rfl
  · exact .inl rfl

def Entry.Regular (entry : Entry) : Prop := entry.Sound (fun _ _ => True) True

namespace Layout

theorem and_then_nonneg {room : Except Fault Room} {next : Int → Except Fault Room}
    (roomNonneg : ∀ columns, room = .ok (.left columns) → 0 ≤ columns)
    (nextNonneg : ∀ columns left, 0 ≤ columns → next columns = .ok (.left left) → 0 ≤ left)
    {left : Int} (reads : Room.andThen room next = .ok (.left left)) : 0 ≤ left := by
  match room with
  | .error _ => cases reads
  | .ok (.settled _) => cases reads
  | .ok (.left columns) => exact nextNonneg columns left (roomNonneg columns rfl) reads

theorem after_columns_nonneg {columns used left : Int}
    (reads : (.ok (Room.afterColumns columns used) : Except Fault Room) = .ok (.left left)) :
    0 ≤ left := by
  unfold Room.afterColumns at reads
  split at reads
  · cases reads
  · cases reads
    omega

mutual

theorem read_nonneg (indent : Amount) (mode : Mode) (doc : Doc) {columns left : Int}
    (wide : 0 ≤ columns) (reads : read indent mode doc columns = .ok (.left left)) :
    0 ≤ left := by
  match doc with
  | .nil | .mark _ =>
      cases reads
      exact wide
  | .text _ => exact after_columns_nonneg reads
  | .concat parts => exact read_all_nonneg indent mode parts 0 wide reads
  | .annotated _ body => exact read_nonneg indent mode body wide reads
  | .choice whenBroken whenFlat =>
      cases mode with
      | flat => exact read_nonneg indent .flat whenFlat wide reads
      | broken => exact read_nonneg indent .broken whenBroken wide reads
      | wrong => cases reads
  | .nest amount body => exact read_nonneg _ mode body wide reads
  | .group body => exact read_nonneg indent mode body wide reads
  | .alwaysBreak body => exact read_nonneg indent .broken body wide reads
  | .fill items => exact read_all_nonneg indent mode items 0 wide reads
  | .tail items start =>
      rw [read] at reads
      split at reads
      · cases reads
      · rename_i window _
        refine and_then_nonneg (fun columns => read_all_nonneg indent mode items _ wide) ?_ reads
        intro columns left wide reads
        split at reads
        · exact read_all_nonneg indent mode items 0 wide reads
        · cases reads
          exact wide
  | .hardLine | .boxed _ => cases reads
  | .foreign (.tail (.scalar (.text value)) start) =>
      rw [read] at reads
      split at reads
      · cases reads
      · exact after_columns_nonneg reads
  | .foreign (.tail (.scalar .none) _) | .foreign (.tail (.scalar (.flag _)) _)
  | .foreign (.tail (.scalar (.int _)) _) | .foreign (.tail (.scalar (.decimal _)) _)
  | .foreign (.tail (.list _) _) | .foreign (.datum _) | .foreign (.unlisted _)
  | .foreign .otherNil | .foreign .bare => cases reads

theorem read_all_nonneg (indent : Amount) (mode : Mode) (docs : List Doc) (skipped : Nat)
    {columns left : Int} (wide : 0 ≤ columns)
    (reads : readAll indent mode docs skipped columns = .ok (.left left)) : 0 ≤ left := by
  match docs, skipped with
  | [], _ =>
      rw [readAll] at reads
      cases reads
      exact wide
  | _ :: rest, skipped + 1 => exact read_all_nonneg indent mode rest skipped wide reads
  | doc :: rest, 0 =>
      rw [readAll] at reads
      exact and_then_nonneg (fun columns => read_nonneg indent mode doc wide)
        (fun columns left wide => read_all_nonneg indent mode rest 0 wide) reads

end

theorem read_entries_nonneg (entries : List Entry) {columns left : Int} (wide : 0 ≤ columns)
    (reads : readEntries entries columns = .ok (.left left)) : 0 ≤ left := by
  induction entries generalizing columns left with
  | nil =>
      cases reads
      exact wide
  | cons entry rest induction =>
      exact and_then_nonneg (fun columns => read_nonneg entry.indent entry.mode entry.doc wide)
        (fun _ _ wide => induction wide) reads

/-- An entry that takes no columns of the line may as well not be pending. -/
theorem same_answers_of_silent {entry : Entry} {pending : List Entry}
    (silent : ∀ columns, 0 ≤ columns →
      read entry.indent entry.mode entry.doc columns = .ok (.left columns)) :
    SameAnswers (entry :: pending) pending := by
  intro columns entries
  by_cases narrow : columns < 0
  · rw [fits, fits, if_pos narrow, if_pos narrow]
  · have same : Room.andThen (readEntries entries columns) (readEntries (entry :: pending)) =
        Room.andThen (readEntries entries columns) (readEntries pending) := by
      cases reads : readEntries entries columns with
      | error fault => rfl
      | ok room =>
          cases room with
          | settled => rfl
          | left rest =>
              have wide := read_entries_nonneg entries (Int.not_lt.mp narrow) reads
              simp only [Room.andThen, readEntries, silent rest wide]
    rw [fits, fits, same]

namespace SameAnswers

variable {pending other : List Entry}

theorem symm (same : SameAnswers pending other) : SameAnswers other pending :=
  fun columns entries => (same columns entries).symm

theorem trans {third : List Entry} (first : SameAnswers pending other)
    (second : SameAnswers other third) : SameAnswers pending third :=
  fun columns entries => (first columns entries).trans (second columns entries)

theorem asked {entries others : List Entry} {columns : Int}
    (same : SameAnswers (entries ++ pending) (others ++ other)) :
    fits columns entries pending = fits columns others other := by
  have left := fits_append columns [] entries pending
  have right := fits_append columns [] others other
  rw [List.nil_append] at left right
  rw [left, right, same]

end SameAnswers

end Layout

open Layout

/-- Documents that no layout tells apart in a mode, as far as the items go that are kept. -/
structure Doc.Alike (keep : Item → Bool) (mode : Mode) (doc other : Doc) : Prop where
  regular : doc.Regular ∧ other.Regular
  answers : ∀ (indent : Int) (pending : List Entry),
    SameAnswers (⟨.int indent, mode, doc⟩ :: pending) (⟨.int indent, mode, other⟩ :: pending)
  runs : ∀ (width indent : Int) (pending : List Entry) (column : Int),
    (∀ entry ∈ pending, entry.Regular) →
      (lay width indent mode doc pending column).keeping keep =
        (lay width indent mode other pending column).keeping keep

/-- Documents that no layout tells apart. -/
def Doc.Interchangeable (keep : Item → Bool) (doc other : Doc) : Prop :=
  ∀ mode : Mode, mode.Decides → doc.Alike keep mode other

namespace Doc

variable {keep : Item → Bool} {mode : Mode} {doc other third : Doc}

theorem entry_regular (indent : Int) {pending : List Entry} (decides : mode.Decides)
    (regular : doc.Regular) (sound : ∀ entry ∈ pending, entry.Regular) :
    ∀ entry ∈ (⟨.int indent, mode, doc⟩ : Entry) :: pending, entry.Regular :=
  List.forall_mem_cons.mpr ⟨entry_sound decides regular, sound⟩

namespace Alike

theorem refl (regular : doc.Regular) : doc.Alike keep mode doc :=
  ⟨⟨regular, regular⟩, fun _ _ _ _ => rfl, fun _ _ _ _ _ => rfl⟩

theorem symm (alike : doc.Alike keep mode other) : other.Alike keep mode doc :=
  ⟨alike.regular.symm, fun indent pending columns entries =>
      (alike.answers indent pending columns entries).symm,
    fun width indent pending column sound => (alike.runs width indent pending column sound).symm⟩

theorem trans (first : doc.Alike keep mode other) (second : other.Alike keep mode third) :
    doc.Alike keep mode third :=
  ⟨⟨first.regular.1, second.regular.2⟩, fun indent pending columns entries =>
      (first.answers indent pending columns entries).trans
        (second.answers indent pending columns entries),
    fun width indent pending column sound =>
      (first.runs width indent pending column sound).trans
        (second.runs width indent pending column sound)⟩

theorem runs_before (alike : doc.Alike keep mode other) {pending following : List Entry}
    (sound : ∀ entry ∈ pending, entry.Regular) (same : SameAnswers pending following)
    (width indent column : Int) :
    (lay width indent mode doc pending column).keeping keep =
      (lay width indent mode other following column).keeping keep := by
  rw [alike.runs width indent pending column sound, lay_congr width indent mode other same]

/-- A form that leaves both the reading and the layout to its content. -/
theorem of_same {form : Doc → Doc} {inner : Mode} (move : Int → Int)
    (regular : ∀ body : Doc, body.Regular → (form body).Regular)
    (reads : ∀ (body : Doc) (indent columns : Int), read (.int indent) mode (form body) columns =
      read (.int (move indent)) inner body columns)
    (lays : ∀ (body : Doc) (width indent : Int) (pending : List Entry) (column : Int),
      lay width indent mode (form body) pending column =
        lay width (move indent) inner body pending column)
    (alike : doc.Alike keep inner other) : (form doc).Alike keep mode (form other) := by
  have reading (body : Doc) (indent : Int) (pending : List Entry) :
      SameReading (⟨.int indent, mode, form body⟩ :: pending)
        (⟨.int (move indent), inner, body⟩ :: pending) := by
    intro columns
    simp only [readEntries, reads]
  refine ⟨⟨regular doc alike.regular.1, regular other alike.regular.2⟩,
    fun indent pending columns entries => ?_, fun width indent pending column sound => ?_⟩
  · rw [(reading doc indent pending).same_answers, (reading other indent pending).same_answers]
    exact alike.answers _ _ _ _
  · rw [lays, lays]
    exact alike.runs _ _ _ _ sound

theorem nest (amount : Amount) (alike : doc.Alike keep mode other) :
    (Doc.nest amount doc).Alike keep mode (.nest amount other) :=
  of_same (· + amount.toInt) (fun _ => Sound.nest) (fun _ _ _ => rfl) (fun _ _ _ _ _ => rfl) alike

theorem alwaysBreak (alike : doc.Alike keep .broken other) :
    (Doc.alwaysBreak doc).Alike keep mode (.alwaysBreak other) :=
  of_same id (fun _ => Sound.alwaysBreak) (fun _ _ _ => rfl) (fun _ _ _ _ _ => rfl) alike

theorem group_flat (alike : doc.Alike keep .flat other) :
    (Doc.group doc).Alike keep .flat (.group other) :=
  of_same id (fun _ => Sound.group) (fun _ _ _ => rfl) (fun _ _ _ _ _ => rfl) alike

/-- A flat choice leaves everything to its flat side, and a broken one to its broken side. -/
theorem choice {broken otherBroken flat otherFlat : Doc} (decides : mode.Decides)
    (alikeBroken : broken.Alike keep .broken otherBroken)
    (alikeFlat : flat.Alike keep .flat otherFlat) :
    (Doc.choice broken flat).Alike keep mode (.choice otherBroken otherFlat) := by
  have regular : (Doc.choice broken flat).Regular ∧ (Doc.choice otherBroken otherFlat).Regular :=
    ⟨.choice trivial alikeBroken.regular.1 alikeFlat.regular.1,
      .choice trivial alikeBroken.regular.2 alikeFlat.regular.2⟩
  rcases decides with rfl | rfl
  · exact ⟨regular, alikeFlat.answers, alikeFlat.runs⟩
  · exact ⟨regular, alikeBroken.answers, alikeBroken.runs⟩

theorem annotated (label : Label) (decides : mode.Decides) (alike : doc.Alike keep mode other) :
    (Doc.annotated label doc).Alike keep mode (.annotated label other) := by
  refine ⟨⟨.annotated alike.regular.1, .annotated alike.regular.2⟩, alike.answers,
    fun width indent pending column sound => ?_⟩
  rw [lay, lay]
  apply Run.keeping_and_then_congr rfl
  intro column
  apply Run.keeping_and_then_congr _ fun _ => rfl
  exact alike.runs _ _ _ _ (List.forall_mem_cons.mpr ⟨⟨decides, .pop⟩, sound⟩)

end Alike

/-- A broken group is laid out in either mode, and it is measured flat. -/
theorem Interchangeable.group (alike : doc.Interchangeable keep other) :
    (Doc.group doc).Interchangeable keep (.group other) := by
  rintro mode (rfl | rfl)
  · exact (alike .flat (.inl rfl)).group_flat
  · have flat := alike .flat (.inl rfl)
    have broken := alike .broken (.inr rfl)
    refine ⟨⟨.group flat.regular.1, .group flat.regular.2⟩, broken.answers,
      fun width indent pending column sound => ?_⟩
    have same : fits (width - column) [⟨.int indent, .flat, doc⟩] pending =
        fits (width - column) [⟨.int indent, .flat, other⟩] pending :=
      (flat.answers indent pending).asked
    rw [lay, lay, if_neg (by decide), if_neg (by decide), same]
    apply Run.keeping_decided_congr
    intro fits _
    exact (alike _ (Mode.of_fits_decides fits)).runs _ _ _ _ sound

section Sequences

open List (Forall₂)

variable {docs others : List Doc}

theorem regular_of_alike (alike : Forall₂ (Alike keep mode) docs others) :
    (∀ doc ∈ docs, doc.Regular) ∧ ∀ other ∈ others, other.Regular := by
  induction alike with
  | nil => simp
  | cons first _ induction =>
      exact ⟨List.forall_mem_cons.mpr ⟨first.regular.1, induction.1⟩,
        List.forall_mem_cons.mpr ⟨first.regular.2, induction.2⟩⟩

theorem same_answers_each (alike : Forall₂ (Alike keep mode) docs others) (indent : Int)
    (pending : List Entry) :
    SameAnswers (docs.map (Entry.mk (.int indent) mode) ++ pending)
      (others.map (Entry.mk (.int indent) mode) ++ pending) := by
  induction alike with
  | nil => exact fun _ _ => rfl
  | cons first _ induction => exact (first.answers indent _).trans (induction.cons _)

theorem same_answers_concat (alike : Forall₂ (Alike keep mode) docs others) (indent : Int)
    (pending : List Entry) :
    SameAnswers (⟨.int indent, mode, .concat docs⟩ :: pending)
      (⟨.int indent, mode, .concat others⟩ :: pending) := by
  have left := (same_reading_parts (.int indent) mode docs pending).same_answers
  have right := (same_reading_parts (.int indent) mode others pending).same_answers
  exact left.symm.trans ((same_answers_each alike indent pending).trans right)

/-- Before it is laid out a fill is read as one item after another. -/
theorem same_answers_fill (alike : Forall₂ (Alike keep mode) docs others) (indent : Int)
    (pending : List Entry) :
    SameAnswers (⟨.int indent, mode, .fill docs⟩ :: pending)
      (⟨.int indent, mode, .fill others⟩ :: pending) :=
  same_answers_concat alike indent pending

theorem Alike.concat (decides : mode.Decides) (alike : Forall₂ (Alike keep mode) docs others) :
    (Doc.concat docs).Alike keep mode (.concat others) := by
  have regular := regular_of_alike alike
  refine ⟨⟨.concat regular.1, .concat regular.2⟩, same_answers_concat alike,
    fun width indent pending column sound => ?_⟩
  rw [lay, lay]
  induction alike generalizing column with
  | nil => rfl
  | @cons doc other docs others first rest induction =>
      have regular := regular_of_alike rest
      rw [layAll, layAll]
      apply Run.keeping_and_then_congr _ (induction regular)
      have pendingSound := entry_regular indent decides (Sound.concat regular.1) sound
      exact first.runs_before pendingSound (same_answers_concat rest indent pending) _ _ _

theorem same_check_of_pair {content other separator otherSeparator next otherNext : Doc}
    (first : content.Alike keep .flat other) (between : separator.Alike keep .flat otherSeparator)
    (second : next.Alike keep .flat otherNext) (alike : Forall₂ (Alike keep mode) docs others)
    (indent : Int) (pending : List Entry) (columns : Int) :
    fits columns
        [⟨.int indent, .flat, content⟩, ⟨.int indent, .flat, separator⟩,
          ⟨.int indent, .flat, next⟩, ⟨.int indent, mode, .fill docs⟩] pending =
      fits columns
        [⟨.int indent, .flat, other⟩, ⟨.int indent, .flat, otherSeparator⟩,
          ⟨.int indent, .flat, otherNext⟩, ⟨.int indent, mode, .fill others⟩] pending := by
  apply SameAnswers.asked
  apply (first.answers indent _).trans (SameAnswers.cons _ _)
  apply (between.answers indent _).trans (SameAnswers.cons _ _)
  apply (second.answers indent _).trans (SameAnswers.cons _ _)
  exact same_answers_fill alike indent pending

/-- The answers for contents of fills and the modes they are laid out in do not tell alike items
apart. -/
theorem lay_fill_alike (width indent : Int) {mode : Mode} (decides : mode.Decides)
    {docs others : List Doc} (alike : Forall₂ (Interchangeable keep) docs others)
    {pending : List Entry} (sound : ∀ entry ∈ pending, entry.Regular) (column : Int) :
    (layFill width indent mode docs 0 pending column).keeping keep =
      (layFill width indent mode others 0 pending column).keeping keep := by
  match docs, others, alike with
  | [], [], .nil => rfl
  | content :: rest, other :: others, .cons first more =>
      have alikeRest := more.imp fun _ _ same => same mode decides
      rw [layFill, layFill]
      split
      · apply Run.keeping_and_then_congr _ (lay_fill_alike width indent decides more sound)
        exact (first mode decides).runs_before
          (entry_regular indent decides (Sound.fill trivial (regular_of_alike alikeRest).1) sound)
          (same_answers_fill alikeRest indent pending) _ _ _
      · have flat := fun {doc other : Doc} (alike : doc.Interchangeable keep other) =>
          alike .flat (.inl rfl)
        have alone : fits (width - column) [⟨.int indent, .flat, content⟩] [] =
            fits (width - column) [⟨.int indent, .flat, other⟩] [] :=
          ((flat first).answers indent []).asked
        rw [alone]
        apply Run.keeping_decided_congr
        intro contentFits _
        have contentDecides := Mode.of_fits_decides contentFits
        have alikeContent := first _ contentDecides
        match rest, others, more with
        | [], [], .nil => exact alikeContent.runs _ _ _ _ sound
        | [separator], [otherSeparator], .cons second .nil =>
            have alikeSeparator := second _ contentDecides
            apply Run.keeping_and_then_congr
            · exact alikeContent.runs_before
                (entry_regular indent contentDecides alikeSeparator.regular.1 sound)
                (alikeSeparator.answers indent pending) _ _ _
            · exact fun column => alikeSeparator.runs _ _ _ _ sound
        | separator :: next :: docs, otherSeparator :: otherNext :: others,
            .cons second (.cons third last) =>
            -- The check is for flat contents, whatever mode they are laid out in afterwards.
            have alikeLast := last.imp fun _ _ same => same mode decides
            have pair := same_check_of_pair (flat first) (flat second) (flat third) alikeLast
              indent pending (width - column)
            dsimp only
            rw [pair]
            apply Run.keeping_decided_congr
            intro separatorFits _
            have separatorDecides := Mode.of_fits_decides separatorFits
            have alikeSeparator := second _ separatorDecides
            have alikeNext := List.Forall₂.cons (third mode decides) alikeLast
            have nextSound := entry_regular indent decides
              (Sound.fill trivial (regular_of_alike alikeNext).1) sound
            have sameNext := same_answers_fill alikeNext indent pending
            apply Run.keeping_and_then_congr
            · exact alikeContent.runs_before
                (entry_regular indent separatorDecides alikeSeparator.regular.1 nextSound)
                ((alikeSeparator.answers indent _).trans (sameNext.cons _)) _ _ _
            · intro column
              apply Run.keeping_and_then_congr
              · exact alikeSeparator.runs_before nextSound sameNext _ _ _
              · exact lay_fill_alike width indent decides (.cons third last) sound

theorem Interchangeable.fill (alike : Forall₂ (Interchangeable keep) docs others) :
    (Doc.fill docs).Interchangeable keep (.fill others) := by
  intro mode decides
  have items := alike.imp fun _ _ same => same mode decides
  have regular := regular_of_alike items
  exact ⟨⟨.fill trivial regular.1, .fill trivial regular.2⟩, same_answers_fill items,
    fun width indent pending column sound => lay_fill_alike width indent decides alike sound column⟩

end Sequences

end Doc

end KotlinLayout
