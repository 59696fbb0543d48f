import KotlinLayout.Proofs.Layout.Alike

/-!
What normalization does to layouts: nothing, where lines are broken. A part without a forced break
is laid out flat alike too. A forced break goes up to where it applies to what is around it, and
everything in it is laid out broken, so that it no longer matters how deep it was.
-/

namespace KotlinLayout

open Layout

namespace Layout

theorem same_answers_append (indent : Int) (mode : Mode) (docs others : List Doc)
    (pending : List Entry) :
    SameAnswers (⟨.int indent, mode, .concat (docs ++ others)⟩ :: pending)
      (⟨.int indent, mode, .concat docs⟩ :: ⟨.int indent, mode, .concat others⟩ :: pending) := by
  have whole := (same_reading_parts (.int indent) mode (docs ++ others) pending).same_answers
  have first := (same_reading_parts (.int indent) mode docs
    (others.map (Entry.mk (.int indent) mode) ++ pending)).same_answers
  have second := (same_reading_parts (.int indent) mode others pending).same_answers
  rw [List.map_append, List.append_assoc] at whole
  exact whole.symm.trans (first.trans (second.cons _))

theorem same_answers_cons (indent : Int) (mode : Mode) (doc : Doc) (docs : List Doc)
    (pending : List Entry) :
    SameAnswers (⟨.int indent, mode, .concat (doc :: docs)⟩ :: pending)
      (⟨.int indent, mode, doc⟩ :: ⟨.int indent, mode, .concat docs⟩ :: pending) := by
  have whole := (same_reading_parts (.int indent) mode (doc :: docs) pending).same_answers
  have rest := (same_reading_parts (.int indent) mode docs pending).same_answers
  exact whole.symm.trans (rest.cons _)

theorem lay_all_append (width indent : Int) (mode : Mode) (docs others : List Doc)
    (pending : List Entry) (column : Int) :
    layAll width indent mode (docs ++ others) pending column =
      (layAll width indent mode docs (⟨.int indent, mode, .concat others⟩ :: pending)
        column).andThen (layAll width indent mode others pending) := by
  induction docs generalizing column with
  | nil => rw [layAll, Run.done_and_then, List.nil_append]
  | cons doc rest induction =>
      rw [List.cons_append, layAll, layAll, Run.and_then_assoc,
        lay_congr _ _ _ doc (same_answers_append indent mode rest others pending)]
      congr 1
      funext column
      exact induction column

theorem lay_all_singleton (width indent : Int) (mode : Mode) (doc : Doc) (pending : List Entry)
    (column : Int) :
    layAll width indent mode [doc] pending column = lay width indent mode doc pending column := by
  have nothing : SameAnswers (⟨.int indent, mode, .concat []⟩ :: pending) pending :=
    (same_reading_parts (.int indent) mode [] pending).same_answers.symm
  have ending : (fun column => layAll width indent mode [] pending column) = Run.done := by
    funext column
    rw [layAll]
  rw [layAll, ending, Run.and_then_done, lay_congr _ _ _ doc nothing]

end Layout

namespace Doc

variable {keep : Item → Bool} {mode : Mode} {doc other : Doc} {docs others : List Doc}

theorem regular_concat : (Doc.concat docs).Regular ↔ ∀ doc ∈ docs, doc.Regular := by
  constructor
  · rintro ⟨⟩
    assumption
  · exact Sound.concat

theorem alike_singleton (regular : doc.Regular) : (Doc.concat [doc]).Alike keep mode doc := by
  refine ⟨⟨.concat (List.forall_mem_singleton.mpr regular), regular⟩,
    fun indent pending => (same_reading_parts (.int indent) mode [doc] pending).same_answers.symm,
    fun width indent pending column _ => ?_⟩
  rw [lay, lay_all_singleton]

theorem alike_nothing : (Doc.concat []).Alike keep mode .nil :=
  ⟨⟨.concat (by simp), .nil⟩, fun _ _ _ _ => rfl, fun _ _ _ _ _ => rfl⟩

theorem alike_joined (regular : ∀ doc ∈ docs, doc.Regular) :
    (joined docs).Alike keep mode (.concat docs) := by
  match docs with
  | [] => exact alike_nothing.symm
  | [doc] => exact (alike_singleton (regular doc (by simp))).symm
  | first :: second :: rest => exact .refl (.concat regular)

theorem alike_append (regular : ∀ doc ∈ docs ++ others, doc.Regular) :
    (Doc.concat (docs ++ others)).Alike keep mode (.concat (.concat docs :: others)) := by
  obtain ⟨left, right⟩ := List.forall_mem_append.mp regular
  refine ⟨⟨.concat regular, .concat (List.forall_mem_cons.mpr ⟨.concat left, right⟩)⟩,
    fun indent pending => ?_, fun width indent pending column _ => ?_⟩
  · exact (same_answers_append indent mode docs others pending).trans
      (same_answers_cons indent mode (.concat docs) others pending).symm
  · rw [lay, lay_all_append]
    rfl

theorem Alike.concat_cons (regular : doc.Regular)
    (alike : (Doc.concat docs).Alike keep mode (.concat others)) :
    (Doc.concat (doc :: docs)).Alike keep mode (.concat (doc :: others)) := by
  have rest := alike.regular
  rw [regular_concat, regular_concat] at rest
  refine ⟨⟨.concat (List.forall_mem_cons.mpr ⟨regular, rest.1⟩),
      .concat (List.forall_mem_cons.mpr ⟨regular, rest.2⟩)⟩,
    fun indent pending => ?_, fun width indent pending column sound => ?_⟩
  · exact (same_answers_cons indent mode doc docs pending).trans
      (((alike.answers indent pending).cons _).trans
        (same_answers_cons indent mode doc others pending).symm)
  · rw [lay, lay, layAll, layAll]
    apply Run.keeping_and_then_congr
    · rw [lay_congr _ _ _ _ (alike.answers indent pending)]
    · exact fun column => alike.runs _ _ _ _ sound

theorem alike_flat_map {pieces : Doc → List Doc}
    (regular : ∀ doc ∈ docs, ∀ piece ∈ pieces doc, piece.Regular) :
    (Doc.concat (docs.flatMap pieces)).Alike keep mode
      (.concat (docs.map fun doc => .concat (pieces doc))) := by
  induction docs with
  | nil => exact .refl (.concat (by simp))
  | cons doc rest induction =>
      obtain ⟨first, others⟩ := List.forall_mem_cons.mp regular
      rw [List.flatMap_cons, List.map_cons]
      apply (alike_append _).trans ((induction others).concat_cons (.concat first))
      rw [List.forall_mem_append]
      refine ⟨first, fun piece member => ?_⟩
      obtain ⟨part, isPart, isPiece⟩ := List.mem_flatMap.mp member
      exact others part isPart piece isPiece

theorem alike_always_break (regular : doc.Regular) :
    (Doc.alwaysBreak doc).Alike keep .broken doc :=
  ⟨⟨.alwaysBreak regular, regular⟩, fun _ _ _ _ => rfl, fun _ _ _ _ _ => rfl⟩

theorem alike_broken (regular : doc.Regular) :
    (broken doc).Alike keep mode (.alwaysBreak doc) := by
  cases regular with
  | alwaysBreak regular => exact (alike_always_break regular).symm.alwaysBreak
  | _ =>
      apply Alike.refl
      apply Sound.alwaysBreak
      constructor <;> assumption

/-- A group of a document that is laid out the same however the group is decided. -/
theorem interchangeable_group_of_same (regular : doc.Regular)
    (same : ∀ (width indent : Int) (pending : List Entry) (column : Int),
      (∀ entry ∈ pending, entry.Regular) →
        Run.decided (fits (width - column) [⟨.int indent, .flat, doc⟩] pending)
            (fun mode => lay width indent mode doc pending column) =
          lay width indent .broken doc pending column) :
    (Doc.group doc).Interchangeable keep doc := by
  rintro mode (rfl | rfl)
  · exact ⟨⟨.group regular, regular⟩, fun _ _ _ _ => rfl, fun _ _ _ _ _ => rfl⟩
  · refine ⟨⟨.group regular, regular⟩, fun _ _ _ _ => rfl,
      fun width indent pending column sound => ?_⟩
    rw [lay, if_neg (by decide), same width indent pending column sound]

/-- The fit check has an answer, so a document that does not depend on it is laid out. -/
theorem decided_of_constant {width indent column : Int} (regular : doc.Regular)
    {pending : List Entry} (sound : ∀ entry ∈ pending, entry.Regular) {next : Mode → Run}
    {run : Run} (constant : ∀ mode, next mode = run) :
    Run.decided (fits (width - column) [⟨.int indent, .flat, doc⟩] pending) next = run := by
  rw [decided_fits width column (List.forall_mem_singleton.mpr (entry_sound (.inl rfl) regular))
    sound, constant]

theorem interchangeable_grouped (regular : doc.Regular) (unforced : forces doc = false) :
    (grouped doc).Interchangeable keep (.group doc) := by
  intro mode decides
  cases regular with
  | text breakless =>
      apply (interchangeable_group_of_same (.text breakless) _ mode decides).symm
      intro width indent pending column sound
      exact decided_of_constant (.text breakless) sound fun _ => rfl
  | nil =>
      apply (interchangeable_group_of_same .nil _ mode decides).symm
      intro width indent pending column sound
      exact decided_of_constant .nil sound fun _ => rfl
  | @group body regular =>
      apply (interchangeable_group_of_same (.group regular) _ mode decides).symm
      intro width indent pending column sound
      -- Both groups ask the same question.
      have same : fits (width - column) [⟨.int indent, .flat, .group body⟩] pending =
          fits (width - column) [⟨.int indent, .flat, body⟩] pending := rfl
      rw [same, lay, if_neg (by decide)]
      cases answer : fits (width - column) [⟨.int indent, .flat, body⟩] pending with
      | error fault => rfl
      | ok fitting =>
          cases fitting with
          | true => rfl
          | false => simp only [Run.decided, Mode.ofFits, lay, answer]; rfl
  | hardLine => cases unforced
  | alwaysBreak _ => cases unforced
  | _ =>
      apply Alike.refl
      apply Sound.group
      constructor <;> assumption

/-- Either lines are broken, or no forced break is there to matter. -/
def Untouched (mode : Mode) (doc : Doc) : Prop := mode = .broken ∨ forces doc = false

theorem alike_wrapped {form : Doc → Doc} (untouched : Untouched mode doc) (regular : doc.Regular)
    (congruent : ∀ {doc other : Doc}, doc.Alike keep mode other →
      (form doc).Alike keep mode (form other)) :
    (wrapped form doc).Alike keep mode (form doc) := by
  cases regular with
  | @alwaysBreak body regular =>
      rcases untouched with rfl | unforced
      · have inner : body.Alike keep .broken (.alwaysBreak body) :=
          (alike_always_break regular).symm
        have same := congruent inner
        exact (alike_always_break same.regular.1).trans same
      · cases unforced
  | _ =>
      apply congruent
      apply Alike.refl
      constructor <;> assumption

theorem alike_of_empty (silent : keep (.text "") = false) :
    (Doc.text "").Alike keep mode .nil := by
  refine ⟨⟨.text (by decide), .nil⟩, fun indent pending => ?_,
    fun width indent pending column _ => ?_⟩
  · have text : SameAnswers (⟨.int indent, mode, .text ""⟩ :: pending) pending := by
      apply same_answers_of_silent
      intro columns wide
      have enough : ¬columns - ("".length : Nat) < 0 := by simpa using wide
      rw [Layout.read, Room.afterColumns, if_neg enough]
      simp
    have nothing : SameAnswers (⟨.int indent, mode, .nil⟩ :: pending) pending :=
      same_answers_of_silent fun columns wide => rfl
    exact text.trans nothing.symm
  · rw [lay, lay, Run.keeping_emit, silent]
    simp [Run.keeping, Run.done]

theorem alike_spliced_of_nonempty (nonempty : doc ≠ .text "") (untouched : Untouched mode doc)
    (regular : doc.Regular) : (Doc.concat (spliced doc)).Alike keep mode doc := by
  cases regular with
  | @text value breakless =>
      have shown : value ≠ "" := by
        rintro rfl
        exact nonempty rfl
      rw [spliced, if_neg shown]
      exact alike_singleton (.text breakless)
  | nil => exact alike_nothing
  | concat regular => exact .refl (.concat regular)
  | alwaysBreak regular =>
      rcases untouched with rfl | unforced
      · exact (alike_singleton regular).trans (alike_always_break regular).symm
      · cases unforced
  | _ =>
      apply alike_singleton
      constructor <;> assumption

theorem alike_spliced (silent : keep (.text "") = false) (untouched : Untouched mode doc)
    (regular : doc.Regular) : (Doc.concat (spliced doc)).Alike keep mode doc := by
  by_cases empty : doc = .text ""
  · subst empty
    exact alike_nothing.trans (alike_of_empty silent).symm
  · exact alike_spliced_of_nonempty empty untouched regular

/-- A concatenation of normalized parts is laid out as what they contribute to it, one after
another. -/
theorem alike_pieces (untouched : mode = .broken ∨ docs.any forces = false)
    (regular : ∀ doc ∈ docs, doc.Regular) :
    (assembled docs).Alike keep mode (.concat (docs.flatMap spliced)) := by
  have whole : (joined (docs.flatMap spliced)).Alike keep mode
      (.concat (docs.flatMap spliced)) := by
    apply alike_joined
    intro piece member
    obtain ⟨doc, isPart, isPiece⟩ := List.mem_flatMap.mp member
    exact sound_spliced (regular doc isPart) piece isPiece
  unfold assembled
  split
  · rename_i forced
    rcases untouched with rfl | none
    · exact (alike_always_break whole.regular.1).trans whole
    · rw [none] at forced
      cases forced
  · exact whole

/-- A concatenation of normalized parts is laid out as if they stood one after another. -/
theorem alike_assembled (silent : keep (.text "") = false) (decides : mode.Decides)
    (untouched : mode = .broken ∨ docs.any forces = false)
    (regular : ∀ doc ∈ docs, doc.Regular) :
    (assembled docs).Alike keep mode (.concat docs) := by
  have each : List.Forall₂ (Alike keep mode) (docs.map fun doc => .concat (spliced doc)) docs := by
    rw [List.forall₂_map_left_iff, List.forall₂_same]
    intro doc isPart
    refine alike_spliced silent (untouched.imp_right fun none => ?_) (regular doc isPart)
    exact Bool.eq_false_iff.mpr (List.any_eq_false.mp none doc isPart)
  have pieces : ∀ doc ∈ docs, ∀ piece ∈ spliced doc, piece.Regular :=
    fun doc isPart => sound_spliced (regular doc isPart)
  exact (alike_pieces untouched regular).trans
    ((alike_flat_map pieces).trans (.concat decides each))

theorem alike_normalize_concat (silent : keep (.text "") = false)
    (alike : List.Forall₂ (fun doc other => doc.normalize.Alike keep .broken other) docs others) :
    (Doc.concat docs).normalize.Alike keep .broken (.concat others) := by
  have parts : List.Forall₂ (Alike keep .broken) (docs.map normalize) others :=
    List.forall₂_map_left_iff.mpr alike
  rw [normalize, normalize_all_eq_map]
  exact (alike_assembled silent (.inr rfl) (.inl rfl) (regular_of_alike parts).1).trans
    (.concat (.inr rfl) parts)

theorem alike_normalize_nest (amount : Amount) (alike : doc.normalize.Alike keep .broken other) :
    (Doc.nest amount doc).normalize.Alike keep .broken (.nest amount other) :=
  (alike_wrapped (.inl rfl) alike.regular.1 (.nest amount)).trans (alike.nest amount)

theorem alike_normalize_always_break (alike : doc.normalize.Alike keep .broken other) :
    (Doc.alwaysBreak doc).normalize.Alike keep .broken other :=
  (alike_broken alike.regular.1).trans ((alike_always_break alike.regular.1).trans alike)

end Doc

theorem layout_eq_lay {choices : Doc → Doc → Prop} {fills : Prop} {doc : Doc}
    (sound : doc.Sound choices fills) (width : Int) :
    layout doc width = lay width 0 .broken doc.normalize [] 0 := by
  rw [layout, sound.normalized_eq]
  simp only [layEntries, Run.and_then_done, Amount.to_int_int]

end KotlinLayout
