import KotlinLayout.Proofs.Layout.Reach
import Mathlib.Logic.Relation

/-!
The fit check as a run of single steps, and runs of steps that end. A reading holds the columns
that are left and the entries that are still to be read; a step takes the first entry off, uses up
the columns of a text and may put other entries in its place. The check is settled as soon as the
columns are used up, nothing is left to read or a line break is next.
-/

namespace KotlinLayout

open Relation (ReflTransGen)

/-- Every run of steps comes to an end, and none gets stuck before it is done. -/
structure Completes {State : Type} (step : State → State → Prop) (finished : State → Prop)
    (start : State) : Prop where
  accessible : Acc (fun next state => step state next) start
  progress : ∀ state, ReflTransGen step start state → finished state ∨ ∃ next, step state next

namespace Completes

variable {State : Type} {step : State → State → Prop} {finished : State → Prop} {start : State}

/-- Steps that keep an invariant and make states lighter complete. -/
theorem of_weight (invariant : State → Prop) (weight : State → Nat)
    (lighter : ∀ state next, step state next → weight next < weight state)
    (kept : ∀ state next, step state next → invariant state → invariant next)
    (progress : ∀ state, invariant state → finished state ∨ ∃ next, step state next)
    (holds : invariant start) : Completes step finished start := by
  constructor
  · exact Subrelation.accessible (fun {next state} => lighter state next)
      ((measure weight).wf.apply start)
  · intro state reaches
    apply progress
    induction reaches with
    | refl => exact holds
    | tail _ last induction => exact kept _ _ last induction

theorem exists_finished (completes : Completes step finished start) :
    ∃ last, ReflTransGen step start last ∧ finished last := by
  obtain ⟨accessible, progress⟩ := completes
  induction accessible with
  | intro state _ induction =>
      rcases progress state .refl with done | ⟨next, first⟩
      · exact ⟨state, .refl, done⟩
      · obtain ⟨last, reaches, done⟩ :=
          induction next first fun state reaches => progress state (.head first reaches)
        exact ⟨last, .head first reaches, done⟩

end Completes

/-- What reading an entry takes of the columns, and what is to be read in its place. -/
inductive Entry.Opens : Entry → Nat → List Entry → Prop where
  | nil {indent mode} : Opens ⟨indent, mode, .nil⟩ 0 []
  | mark {indent mode item} : Opens ⟨indent, mode, .mark item⟩ 0 []
  | text {indent mode value} : Opens ⟨indent, mode, .text value⟩ value.length []
  | concat {indent mode parts} :
      Opens ⟨indent, mode, .concat parts⟩ 0 (parts.map (Entry.mk indent mode))
  | annotated {indent mode label body} :
      Opens ⟨indent, mode, .annotated label body⟩ 0 [⟨indent, mode, body⟩]
  | choiceFlat {indent whenBroken whenFlat} :
      Opens ⟨indent, .flat, .choice whenBroken whenFlat⟩ 0 [⟨indent, .flat, whenFlat⟩]
  | choiceBroken {indent whenBroken whenFlat} :
      Opens ⟨indent, .broken, .choice whenBroken whenFlat⟩ 0 [⟨indent, .broken, whenBroken⟩]
  | nest {indent mode amount body} :
      Opens ⟨indent, mode, .nest amount body⟩ 0
        [⟨.int (indent.toInt + amount.toInt), mode, body⟩]
  | group {indent mode body} : Opens ⟨indent, mode, .group body⟩ 0 [⟨indent, mode, body⟩]
  | alwaysBreak {indent mode body} :
      Opens ⟨indent, mode, .alwaysBreak body⟩ 0 [⟨indent, .broken, body⟩]
  | fillNil {indent mode} : Opens ⟨indent, mode, .fill []⟩ 0 []
  | fillCons {indent mode item items} :
      Opens ⟨indent, mode, .fill (item :: items)⟩ 0
        [⟨indent, mode, item⟩, ⟨indent, mode, .fill items⟩]
  | tail {indent mode items start} :
      0 ≤ start.toInt →
        Opens ⟨indent, mode, .tail items start⟩ 0
          [⟨indent, mode, .fill (items.drop start.toInt.toNat)⟩]

namespace Layout

/-- The columns that are left of a line, and what is still to be read onto it. -/
structure Reading where
  columns : Int
  entries : List Entry

inductive ReadStep : Reading → Reading → Prop where
  | opened {columns : Int} {entry : Entry} {rest entries : List Entry} {used : Nat} :
      0 ≤ columns → entry.Opens used entries →
        ReadStep ⟨columns, entry :: rest⟩ ⟨columns - used, entries ++ rest⟩

/-- The check has its answer: whether the columns are not used up. -/
inductive Reading.Settled : Reading → Prop where
  | narrow {columns : Int} {entries : List Entry} : columns < 0 → Settled ⟨columns, entries⟩
  | read {columns : Int} : Settled ⟨columns, []⟩
  | hardLine {columns : Int} {indent : Amount} {mode : Mode} {rest : List Entry} :
      Settled ⟨columns, ⟨indent, mode, .hardLine⟩ :: rest⟩

theorem Reading.Settled.fits_eq {reading : Reading} (settled : reading.Settled) :
    fits reading.columns reading.entries [] = .ok (decide (0 ≤ reading.columns)) := by
  cases settled with
  | narrow narrow => rw [fits, if_pos narrow, decide_eq_false (Int.not_le.mpr narrow)]
  | @read columns | @hardLine columns =>
      by_cases narrow : columns < 0
      · rw [fits, if_pos narrow, decide_eq_false (Int.not_le.mpr narrow)]
      · rw [fits, if_neg narrow, decide_eq_true (Int.not_lt.mp narrow)]
        rfl

theorem fits_of_same_reading {entries others : List Entry} (same : SameReading entries others)
    (columns : Int) : fits columns entries [] = fits (columns - (0 : Nat)) others [] := by
  rw [Int.natCast_zero, Int.sub_zero, fits, fits, same]

theorem ReadStep.fits_eq {reading next : Reading} (step : ReadStep reading next) :
    fits reading.columns reading.entries [] = fits next.columns next.entries [] := by
  cases step with
  | @opened columns entry rest entries used wide opens =>
      cases opens with
      | nil | mark | annotated | choiceFlat | choiceBroken | nest | group | alwaysBreak | fillNil =>
          exact fits_of_same_reading (fun _ => rfl) columns
      | @text indent mode value =>
          rw [fits, readEntries, read, Room.afterColumns, if_neg (Int.not_lt.mpr wide)]
          by_cases narrow : columns - value.length < 0
          · rw [if_pos narrow, fits, if_pos narrow]
            rfl
          · rw [if_neg narrow, fits, if_neg narrow]
            rfl
      | @concat indent mode parts =>
          exact fits_of_same_reading (fun columns =>
            (same_reading_parts indent mode parts rest columns).symm) columns
      | @fillCons indent mode item items =>
          apply fits_of_same_reading
          intro columns
          simp only [readEntries, List.cons_append, List.nil_append, read, readAll]
          cases read indent mode item columns with
          | error fault => rfl
          | ok room => cases room <;> rfl
      | @tail indent mode items start nonneg =>
          apply fits_of_same_reading
          intro columns
          simp only [readEntries, List.cons_append, List.nil_append, read_tail_eq nonneg]

theorem entries_weight_append (entries others : List Entry) :
    entriesWeight (entries ++ others) = entriesWeight entries + entriesWeight others := by
  induction entries with
  | nil => exact (Nat.zero_add _).symm
  | cons entry rest induction =>
      rw [List.cons_append, entries_weight_cons, entries_weight_cons, induction, Nat.add_assoc]

theorem ReadStep.weight_lt {reading next : Reading} (step : ReadStep reading next) :
    entriesWeight next.entries < entriesWeight reading.entries := by
  cases step with
  | @opened columns entry rest entries used wide opens =>
      rw [entries_weight_append, entries_weight_cons]
      apply Nat.add_lt_add_right
      cases opens with
      | nil | mark | text | fillNil =>
          simp only [docWeight, entriesWeight, Doc.nil.sizeOf_spec, Doc.text.sizeOf_spec,
            Doc.fill.sizeOf_spec]
          omega
      | @concat indent mode parts =>
          have smaller := parts_weight_le indent mode parts []
          rw [List.append_nil] at smaller
          simp only [docWeight, Doc.concat.sizeOf_spec, entriesWeight] at smaller ⊢
          omega
      | @annotated _ _ _ body | @nest _ _ _ body | @group _ _ body | @alwaysBreak _ _ body
      | @choiceFlat _ _ body | @choiceBroken _ body _ =>
          have smaller := doc_weight_le body
          simp only [docWeight, entriesWeight, Doc.annotated.sizeOf_spec,
            Doc.nest.sizeOf_spec, Doc.group.sizeOf_spec, Doc.alwaysBreak.sizeOf_spec,
            Doc.choice.sizeOf_spec] at smaller ⊢
          omega
      | @fillCons _ _ item _ =>
          have smaller := doc_weight_le item
          simp only [docWeight, entriesWeight, Doc.fill.sizeOf_spec,
            List.cons.sizeOf_spec] at smaller ⊢
          omega
      | @tail _ _ items start _ =>
          -- A tail from the start on is as long as its fill, but its start counts as well.
          have shorter := size_drop_le items start.toInt.toNat
          have positive : 0 < sizeOf start := by
            cases start <;> simp only [Amount.int.sizeOf_spec, Amount.flag.sizeOf_spec] <;> omega
          simp only [docWeight, entriesWeight, Doc.fill.sizeOf_spec,
            Doc.tail.sizeOf_spec]
          omega

variable {choices : Doc → Doc → Prop} {fills : Prop}

theorem exists_opens {entry : Entry} (sound : entry.Sound choices fills)
    (inline : entry.doc ≠ .hardLine) : ∃ used entries, entry.Opens used entries := by
  obtain ⟨indent, mode, doc⟩ := entry
  obtain ⟨decides, stacked⟩ := sound
  cases stacked with
  | pop => exact ⟨_, _, .mark⟩
  | tail _ nonneg _ => exact ⟨_, _, .tail nonneg⟩
  | doc whole =>
      cases whole with
      | hardLine => exact absurd rfl inline
      | text => exact ⟨_, _, .text⟩
      | nil => exact ⟨_, _, .nil⟩
      | concat => exact ⟨_, _, .concat⟩
      | nest => exact ⟨_, _, .nest⟩
      | group => exact ⟨_, _, .group⟩
      | alwaysBreak => exact ⟨_, _, .alwaysBreak⟩
      | annotated => exact ⟨_, _, .annotated⟩
      | choice =>
          rcases decides with rfl | rfl
          · exact ⟨_, _, .choiceFlat⟩
          · exact ⟨_, _, .choiceBroken⟩
      | @fill items =>
          cases items with
          | nil => exact ⟨_, _, .fillNil⟩
          | cons => exact ⟨_, _, .fillCons⟩

theorem sound_opened {entry : Entry} {used : Nat} {entries : List Entry}
    (opens : entry.Opens used entries) (sound : entry.Sound choices fills) :
    ∀ part ∈ entries, part.Sound choices fills := by
  obtain ⟨decides, stacked⟩ := sound
  cases opens with
  | nil | mark | text | fillNil => simp
  | concat =>
      cases stacked with | doc whole =>
      cases whole with | concat parts =>
      intro entry member
      obtain ⟨part, isPart, rfl⟩ := List.mem_map.mp member
      exact entry_sound decides (parts part isPart)
  | annotated | nest | group =>
      cases stacked with | doc whole =>
      cases whole
      exact List.forall_mem_singleton.mpr (entry_sound decides ‹_›)
  | alwaysBreak =>
      cases stacked with | doc whole =>
      cases whole with | alwaysBreak body =>
      exact List.forall_mem_singleton.mpr (entry_sound (.inr rfl) body)
  | choiceFlat =>
      cases stacked with | doc whole =>
      cases whole with | choice _ _ flat =>
      exact List.forall_mem_singleton.mpr (entry_sound decides flat)
  | choiceBroken =>
      cases stacked with | doc whole =>
      cases whole with | choice _ broken _ =>
      exact List.forall_mem_singleton.mpr (entry_sound decides broken)
  | fillCons =>
      cases stacked with | doc whole =>
      cases whole with | fill wanted items =>
      obtain ⟨item, items⟩ := List.forall_mem_cons.mp items
      exact List.forall_mem_cons.mpr ⟨entry_sound decides item,
        List.forall_mem_singleton.mpr (entry_sound decides (.fill wanted items))⟩
  | tail =>
      cases stacked with
      | doc whole => cases whole
      | tail wanted _ items =>
          exact List.forall_mem_singleton.mpr (entry_sound decides
            (.fill wanted fun item member => items item (List.mem_of_mem_drop member)))

/-- On sound entries every check comes to its answer, and the answer is that of the fit check. -/
theorem fits_completes (columns : Int) {entries pending : List Entry}
    (sound : ∀ entry ∈ entries ++ pending, entry.Sound choices fills) :
    Completes ReadStep Reading.Settled ⟨columns, entries ++ pending⟩ ∧
      ∃ last, ReflTransGen ReadStep ⟨columns, entries ++ pending⟩ last ∧ last.Settled ∧
        fits columns entries pending = .ok (decide (0 ≤ last.columns)) := by
  have completes : Completes ReadStep Reading.Settled ⟨columns, entries ++ pending⟩ := by
    -- The invariant is soundness, and the weight is that of what is still to be read.
    refine Completes.of_weight
      (fun reading => ∀ entry ∈ reading.entries, entry.Sound choices fills)
      (fun reading => entriesWeight reading.entries) (fun _ _ step => step.weight_lt) ?_ ?_ sound
    · rintro _ _ ⟨wide, opens⟩ sound
      obtain ⟨first, rest⟩ := List.forall_mem_cons.mp sound
      exact List.forall_mem_append.mpr ⟨sound_opened opens first, rest⟩
    · rintro ⟨columns, entries⟩ sound
      cases entries with
      | nil => exact .inl .read
      | cons entry rest =>
          by_cases narrow : columns < 0
          · exact .inl (.narrow narrow)
          · by_cases breaks : entry.doc = .hardLine
            · obtain ⟨indent, mode, doc⟩ := entry
              subst breaks
              exact .inl .hardLine
            · obtain ⟨used, entries, opens⟩ := exists_opens (List.forall_mem_cons.mp sound).1 breaks
              exact .inr ⟨_, .opened (Int.not_lt.mp narrow) opens⟩
  obtain ⟨last, reaches, settled⟩ := completes.exists_finished
  refine ⟨completes, last, reaches, settled, ?_⟩
  have answer : ∀ reading, ReflTransGen ReadStep ⟨columns, entries ++ pending⟩ reading →
      fits columns entries pending = fits reading.columns reading.entries [] := by
    intro reading reaches
    induction reaches with
    | refl => rw [fits_append, List.append_nil]
    | tail _ step induction => rw [induction, step.fits_eq]
  rw [answer last reaches, settled.fits_eq]

end Layout

end KotlinLayout
