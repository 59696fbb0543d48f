import KotlinLayout.Format
import KotlinLayout.Proofs.Document.Built
import KotlinLayout.Proofs.Layout.Composition
import KotlinLayout.Proofs.Layout.Parallel
import KotlinLayout.Proofs.Render.Lines

/-!
Labels and layouts. The fit check looks through labels, and what is laid out without them differs
only by their marks. Normalization looks through them as well, except that it takes a label around
a line break for a part that forces nothing.
-/

namespace KotlinLayout

open Layout

namespace Item

def isMark : Item → Bool
  | .push _ | .pop _ => true
  | _ => false

/-- What plain text shows: neither the marks of labels nor empty texts. -/
def shown (item : Item) : Bool := item.visible && !item.isMark

theorem shown_empty : shown (.text "") = false := by
  decide

end Item

namespace Doc

open List (Forall₂)

variable {keep : Item → Bool} {mode : Mode} {doc other : Doc} {docs others : List Doc}

mutual

def unlabeled : Doc → Doc
  | .annotated _ body => body.unlabeled
  | .concat parts => .concat (unlabeledAll parts)
  | .nest indent body => .nest indent body.unlabeled
  | .choice whenBroken whenFlat => .choice whenBroken.unlabeled whenFlat.unlabeled
  | .group body => .group body.unlabeled
  | .alwaysBreak body => .alwaysBreak body.unlabeled
  | .fill items => .fill (unlabeledAll items)
  | other => other

def unlabeledAll : List Doc → List Doc
  | [] => []
  | doc :: rest => doc.unlabeled :: unlabeledAll rest

end

theorem unlabeled_all_eq_map (docs : List Doc) : unlabeledAll docs = docs.map unlabeled := by
  induction docs with
  | nil => rfl
  | cons doc rest induction => rw [unlabeledAll, induction, List.map_cons]

theorem regular_unlabeled (regular : doc.Regular) : doc.unlabeled.Regular := by
  induction regular with
  | text breakless => exact .text breakless
  | nil => exact .nil
  | hardLine => exact .hardLine
  | concat _ induction =>
      rw [unlabeled, unlabeled_all_eq_map]
      exact .concat (List.forall_mem_map.mpr induction)
  | fill _ _ induction =>
      rw [unlabeled, unlabeled_all_eq_map]
      exact .fill trivial (List.forall_mem_map.mpr induction)
  | nest _ induction => exact .nest induction
  | choice _ _ _ broken flat => exact .choice trivial broken flat
  | group _ induction => exact .group induction
  | alwaysBreak _ induction => exact .alwaysBreak induction
  | annotated _ induction => exact induction

theorem contents_unlabeled (regular : doc.Regular) :
    ∀ item ∈ doc.unlabeled.contents, item.isMark = false := by
  induction regular with
  | text => exact List.forall_mem_singleton.mpr rfl
  | nil | hardLine => simp [unlabeled, contents]
  | concat _ induction =>
      rw [unlabeled, unlabeled_all_eq_map, contents_concat, List.flatMap_map]
      exact List.forall_mem_flatMap.mpr induction
  | fill _ _ induction =>
      rw [unlabeled, unlabeled_all_eq_map, contents_fill, List.flatMap_map]
      exact List.forall_mem_flatMap.mpr induction
  | choice _ _ _ broken flat => exact List.forall_mem_append.mpr ⟨broken, flat⟩
  | nest _ induction | group _ induction | alwaysBreak _ induction | annotated _ induction =>
      exact induction

/-- A label is laid out like what it is around, except for its marks. -/
theorem alike_annotated (label : Label)
    (silent : keep (.push label) = false ∧ keep (.pop label) = false) (regular : doc.Regular) :
    (Doc.annotated label doc).Alike keep mode doc := by
  refine ⟨⟨.annotated regular, regular⟩, fun _ _ _ _ => rfl,
    fun width indent pending column sound => ?_⟩
  have mark : SameAnswers (⟨.int indent, mode, .mark (.pop label)⟩ :: pending) pending :=
    same_answers_of_silent fun _ _ => rfl
  rw [lay, Run.keeping_and_then, Run.keeping_emit, if_neg (by simp [silent.1]),
    Run.done_and_then, Run.keeping_and_then]
  simp only [Run.keeping_emit, silent.2, Bool.false_eq_true, if_false, Run.and_then_done]
  rw [lay_congr width indent mode doc mark]

/-- A label can be taken off unless it hides a line break. -/
theorem Parallel.unlabel (label : Label)
    (silent : keep (.push label) = false ∧ keep (.pop label) = false)
    (parallel : doc.Parallel keep other) (visible : doc.isHardLine = false) :
    (Doc.wrapped (.annotated label) doc).Parallel keep other := by
  have solid := solid_annotated label
  have bare : Doc.wrapped id other = other := by
    cases other <;> rfl
  constructor
  · have alike := parallel.wrapped (.annotated label) id fun _ alike =>
      (alike_annotated label silent alike.regular.1).trans alike
    rwa [bare] at alike
  · rw [is_hard_line_wrapped solid, ← visible, parallel.isHardLine]
  · rw [is_break_wrapped solid, parallel.isBreak]

/-- Normal forms with and without labels are laid out the same wherever they stand. -/
theorem parallel_unlabeled (regular : doc.Regular)
    (bare : ∀ label, .annotated label .hardLine ∉ doc.within true true) :
    doc.normalize.Parallel Item.shown doc.unlabeled.normalize := by
  induction regular with
  | text breakless => exact .refl (.text breakless)
  | nil => exact .refl .nil
  | hardLine => exact .refl .hardLine
  | @concat parts regular induction =>
      rw [within_concat] at bare
      have each : Forall₂ (Parallel Item.shown) (parts.map normalize)
          ((parts.map unlabeled).map normalize) := by
        rw [List.map_map, List.forall₂_map_left_iff, List.forall₂_map_right_iff, List.forall₂_same]
        intro part member
        apply induction part member
        intro label labeled
        exact bare label (List.mem_cons_of_mem _ (List.mem_flatMap.mpr ⟨part, member, labeled⟩))
      rw [unlabeled, unlabeled_all_eq_map, normalize, normalize, normalize_all_eq_map,
        normalize_all_eq_map]
      apply Parallel.assembled Item.shown_empty _ _ each
      · exact List.forall_mem_map.mpr fun part member => tidy_normalize (regular part member)
      · rw [List.forall_mem_map, List.forall_mem_map]
        exact fun part member => tidy_normalize (regular_unlabeled (regular part member))
  | @fill items _ _ induction =>
      rw [within_fill] at bare
      rw [unlabeled, unlabeled_all_eq_map, normalize, normalize, normalize_all_eq_map,
        normalize_all_eq_map]
      apply Parallel.fill
      rw [List.map_map, List.forall₂_map_left_iff, List.forall₂_map_right_iff, List.forall₂_same]
      intro item member
      apply induction item member
      intro label labeled
      exact bare label (List.mem_cons_of_mem _ (List.mem_flatMap.mpr ⟨item, member, labeled⟩))
  | @nest amount body _ induction =>
      exact (induction fun label member => bare label (List.mem_cons_of_mem _ member)).nest amount
  | group _ induction =>
      exact (induction fun label member => bare label (List.mem_cons_of_mem _ member)).grouped
  | alwaysBreak _ induction =>
      exact (induction fun label member => bare label (List.mem_cons_of_mem _ member)).broken
  | choice _ _ _ broken flat =>
      simp only [within, if_true, List.mem_cons, List.mem_append, not_or] at bare
      exact (flat fun label => (bare label).2.2).chosen (broken fun label => (bare label).2.1)
  | @annotated label body regular induction =>
      have inner := induction fun label member => bare label (List.mem_cons_of_mem _ member)
      apply inner.unlabel label ⟨rfl, rfl⟩
      rw [is_hard_line_normalize regular]
      cases line : body.isHardLine with
      | false => rfl
      | true =>
          rw [eq_of_is_hard_line line] at bare
          exact absurd (mem_within_self _ _ _) (bare label)

end Doc

namespace Render

theorem write_shown (spacing : Spacing) (ending : Option Fault) (pending : Option Amount)
    (items : List Item) :
    write spacing ending pending (items.filter Item.shown) =
      write spacing ending pending items := by
  apply write_filter
  intro item hidden pending rest
  cases item with
  | text value =>
      have empty : value = "" := by
        simpa [Item.shown, Item.visible, Item.isMark] using hidden
      rw [empty, write, if_pos rfl]
  | push label | pop label => rfl
  | line | blank | datum => exact absurd rfl hidden

end Render

theorem composes_unmarked :
    Composes (fun item => item.isMark = false)
      fun items => ∀ item ∈ items, item.isMark = false where
  nothing := by simp
  append first second := List.forall_mem_append.mpr ⟨first, second⟩
  text unmarked := List.forall_mem_singleton.mpr unmarked
  line := List.forall_mem_singleton.mpr rfl
  labeled marked := by cases marked

/-- Without its labels a document is laid out the same, but for their marks and empty texts, and
its text is the same, as long as no label stands directly around a line break. -/
theorem layout_of_unlabeled {doc : Doc} (built : doc.Built Extra.all)
    (bare : ∀ label, .annotated label .hardLine ∉ doc.within true true) (width : Int) :
    (layout doc width).fault? = none ∧ (layout doc.unlabeled width).fault? = none ∧
      (layout doc width).items.filter Item.shown =
        (layout doc.unlabeled width).items.filter Item.visible ∧
      ∀ room, formatDoc doc width room = formatDoc doc.unlabeled width room := by
  have regular := built.sound.regular
  have otherRegular := Doc.regular_unlabeled regular
  have otherNormal := Doc.regular_normalize otherRegular
  obtain ⟨column, finish⟩ := layout_finishes otherRegular width
  have same : (layout doc width).keeping Item.shown =
      (layout doc.unlabeled width).keeping Item.shown := by
    rw [layout_eq_lay regular, layout_eq_lay otherRegular]
    exact ((Doc.parallel_unlabeled regular bare).alike .broken (.inr rfl)).runs width 0 [] 0
      (by simp)
  have both := Run.keeping_iff.mp same
  have unmarked := composes_unmarked.layout otherNormal (Doc.contents_unlabeled regular) finish
  have faultless := layout_succeeds regular width
  have otherFaultless := layout_succeeds otherRegular width
  refine ⟨faultless, otherFaultless, ?_, ?_⟩
  · rw [both.1]
    apply List.filter_congr
    intro item member
    rw [Item.shown, unmarked item member, Bool.not_false, Bool.and_true]
  · intro room
    rw [formatDoc, formatDoc, Run.write, Run.write, Render.plain, Render.plain, faultless,
      otherFaultless, ← Render.write_shown, both.1, Render.write_shown]

/-- A label around more than a line break hides nothing. -/
theorem labeled_lines_of_unlabeled :
    let lower := Doc.annotated (.token .keyword) (.concat [.hardLine, .text "b"])
    let doc := Doc.group (.concat [.text "a", Doc.line, lower])
    doc.Built Extra.all ∧ (∀ label, .annotated label .hardLine ∉ doc.within true true) ∧
      (layout doc 9).items.filter Item.shown =
        [.text "a", .line (.int 0), .line (.int 0), .text "b"] ∧
      ∀ room, formatDoc doc 9 room = formatDoc doc.unlabeled 9 room := by
  intro lower doc
  have lines : ∀ part ∈ [Doc.hardLine, .text "b"], part.Built Extra.all := by
    simp only [List.forall_mem_cons, List.not_mem_nil, false_implies, implies_true, and_true]
    exact ⟨.hardLine (by decide), .text (by decide)⟩
  have parts : ∀ part ∈ [.text "a", Doc.line, lower], part.Built Extra.all := by
    simp only [List.forall_mem_cons, List.not_mem_nil, false_implies, implies_true, and_true]
    exact ⟨.text (by decide), .line, .annotate (.concat lines rfl) rfl⟩
  have built : doc.Built Extra.all := .group (.concat parts rfl) rfl
  have bare : ∀ label, .annotated label .hardLine ∉ doc.within true true := by
    simp [doc, lower, Doc.within, Doc.withinAll, Doc.line]
  rcases layout_of_unlabeled built bare 9 with ⟨-, -, items, text⟩
  exact ⟨built, bare, items, text⟩

/-- The label hides the line break from the concatenation, and the group stays flat. -/
example :
    let doc := Doc.group (.concat [.text "a", Doc.line, .text "b",
      .annotated (.token .keyword) .hardLine, .text "c"])
    formatDoc doc 79 0 = .ok "a b\nc" ∧ formatDoc doc.unlabeled 79 0 = .ok "a\nb\nc" := by
  decide

end KotlinLayout
