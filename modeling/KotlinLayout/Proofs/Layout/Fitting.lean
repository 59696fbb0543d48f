import KotlinLayout.Format
import KotlinLayout.Proofs.Document.Built
import KotlinLayout.Proofs.Layout.Level
import KotlinLayout.Proofs.Layout.Normalization
import KotlinLayout.Proofs.Render.Lines

/-!
Groups that fit on a line. Laid out flat, a document without forced breaks is a single line, and a
group of it is laid out flat if that line fits. The sides of its choices that are left out then
matter only to normalization, which drops a flat side whose other side is forced to break.
-/

namespace KotlinLayout

open Layout

namespace Doc

variable {doc : Doc} {docs : List Doc}

mutual

def flatText : Doc → String
  | .text value => value
  | .concat parts => flatTextAll parts
  | .nest _ body | .group body | .alwaysBreak body | .annotated _ body => body.flatText
  | .choice _ whenFlat => whenFlat.flatText
  | .fill items => flatTextAll items
  | _ => ""

def flatTextAll : List Doc → String
  | [] => ""
  | doc :: rest => doc.flatText ++ flatTextAll rest

end

theorem flat_text_all_eq_join (docs : List Doc) :
    flatTextAll docs = String.join (docs.map flatText) := by
  induction docs with
  | nil => rfl
  | cons doc rest induction => rw [flatTextAll, induction, List.map_cons, String.join_cons]

@[simp] theorem flat_text_concat (parts : List Doc) :
    (Doc.concat parts).flatText = String.join (parts.map flatText) := by
  rw [flatText, flat_text_all_eq_join]

@[simp] theorem flat_text_fill (items : List Doc) :
    (Doc.fill items).flatText = String.join (items.map flatText) := by
  rw [flatText, flat_text_all_eq_join]

theorem head_text_flat_map {expansion : Doc → List Item}
    (level : ∀ doc ∈ docs, breaks (expansion doc) = false)
    (same : ∀ doc ∈ docs, headText (expansion doc) = doc.flatText) :
    headText (docs.flatMap expansion) = String.join (docs.map flatText) := by
  induction docs with
  | nil => rfl
  | cons doc rest induction =>
      have more := List.forall_mem_cons.mp level
      have others := List.forall_mem_cons.mp same
      rw [List.flatMap_cons, head_text_append_of_level more.1, others.1,
        induction more.2 others.2, List.map_cons, String.join_cons]

theorem Level.head_text_eq (level : doc.Level) (indent : Int) :
    headText (doc.expand indent .flat) = doc.flatText := by
  induction level generalizing indent with
  | text => exact String.append_empty
  | nil => rfl
  | concat level induction =>
      rw [expand_concat, flat_text_concat]
      exact head_text_flat_map (fun part member => (level part member).stays indent)
        fun part member => induction part member indent
  | fill level induction =>
      rw [expand_fill, flat_text_fill]
      exact head_text_flat_map (fun item member => (level item member).stays indent)
        fun item member => induction item member indent
  | nest _ induction | choice _ induction | group _ induction => exact induction _
  | @annotated label _ level induction =>
      have whole := head_text_append_of_level (level.stays indent) [.pop label]
      rw [induction] at whole
      exact whole.trans String.append_empty

theorem lay_all_flat (width indent : Int)
    (each : ∀ doc ∈ docs, ∀ pending column, ∃ last,
      lay width indent .flat doc pending column = ⟨doc.expand indent .flat, .ok last⟩)
    (pending : List Entry) (column : Int) :
    ∃ last, layAll width indent .flat docs pending column =
      ⟨docs.flatMap (expand indent .flat), .ok last⟩ := by
  induction docs generalizing column with
  | nil => exact ⟨column, by rw [layAll]; rfl⟩
  | cons doc rest induction =>
      have more := List.forall_mem_cons.mp each
      rcases more.1 (⟨.int indent, .flat, .concat rest⟩ :: pending) column with ⟨reached, first⟩
      rcases induction more.2 reached with ⟨last, others⟩
      refine ⟨last, ?_⟩
      rw [layAll, first, Run.andThen]
      simp only [others, List.flatMap_cons]

/-- A flat fill is a flat concatenation. -/
theorem lay_fill_flat (width indent : Int) (items : List Doc) (pending : List Entry)
    (column : Int) :
    layFill width indent .flat items 0 pending column =
      layAll width indent .flat items pending column := by
  induction items generalizing column with
  | nil => rw [layFill, layAll]
  | cons item rest induction =>
      have same : SameAnswers (⟨.int indent, .flat, .fill rest⟩ :: pending)
          (⟨.int indent, .flat, .concat rest⟩ :: pending) := fun _ _ => rfl
      rw [layFill, layAll, if_pos (by decide), lay_congr width indent .flat item same,
        funext induction]

/-- In the flat mode nothing is left to decide. -/
theorem Level.lay_flat (level : doc.Level) (width indent : Int) (pending : List Entry)
    (column : Int) :
    ∃ last, lay width indent .flat doc pending column = ⟨doc.expand indent .flat, .ok last⟩ := by
  induction level generalizing indent pending column with
  | @text value => exact ⟨column + value.length, rfl⟩
  | nil => exact ⟨column, rfl⟩
  | concat _ induction =>
      rw [lay, expand_concat]
      exact lay_all_flat width indent (fun part member => induction part member indent) _ _
  | fill _ induction =>
      rw [lay, lay_fill_flat, expand_fill]
      exact lay_all_flat width indent (fun item member => induction item member indent) _ _
  | nest _ induction | choice _ induction | group _ induction => exact induction _ _ _
  | @annotated label body _ induction =>
      rcases induction indent (⟨.int indent, .flat, .mark (.pop label)⟩ :: pending) column with
        ⟨last, inner⟩
      refine ⟨last, ?_⟩
      rw [lay, Run.emit_and_then, inner]
      rfl

theorem flat_text_joined (docs : List Doc) :
    (joined docs).flatText = String.join (docs.map flatText) := by
  cases docs with
  | nil => rfl
  | cons doc rest =>
      cases rest with
      | nil => simp [joined]
      | cons second others => exact flat_text_concat _

theorem flat_text_spliced (doc : Doc) :
    String.join ((spliced doc).map flatText) = doc.flatText := by
  cases doc with
  | text value => by_cases empty : value = "" <;> simp [spliced, empty, flatText]
  | concat parts => exact (flat_text_concat parts).symm
  | _ => simp [spliced, flatText]

theorem flat_text_pieces (docs : List Doc) :
    String.join ((docs.flatMap spliced).map flatText) = String.join (docs.map flatText) := by
  induction docs with
  | nil => rfl
  | cons doc rest induction =>
      rw [List.flatMap_cons, List.map_append, String.join_append, flat_text_spliced, induction,
        List.map_cons, String.join_cons]

theorem flat_text_assembled (docs : List Doc) :
    (assembled docs).flatText = String.join (docs.map flatText) := by
  rw [← flat_text_pieces]
  unfold assembled
  split
  · exact flat_text_joined _
  · exact flat_text_joined _

theorem flat_text_grouped (doc : Doc) : (grouped doc).flatText = doc.flatText := by
  unfold grouped
  split <;> rfl

/-- A choice that normalization decides, because its broken side is a forced break. -/
def isDecided : Doc → Bool
  | .choice whenBroken _ => whenBroken.normalize.isBreak
  | _ => false

/-- The normal form has no forced breaks either, and flat it is the same text. -/
theorem Level.normalize (level : doc.Level)
    (isOpen : ∀ part ∈ doc.within false true, part.isDecided = false) :
    doc.normalize.Level ∧ doc.normalize.flatText = doc.flatText := by
  induction level with
  | text => exact ⟨.text, rfl⟩
  | nil => exact ⟨.nil, rfl⟩
  | @concat parts _ induction =>
      rw [within_concat, List.forall_mem_cons, List.forall_mem_flatMap] at isOpen
      have each : ∀ part ∈ parts, part.normalize.Level ∧ part.normalize.flatText = part.flatText :=
        fun part member => induction part member (isOpen.2 part member)
      rw [Doc.normalize, normalize_all_eq_map]
      constructor
      · apply level_assembled
        exact List.forall_mem_map.mpr fun part member => (each part member).1
      · rw [flat_text_assembled, flat_text_concat, List.map_map]
        exact congrArg String.join (List.map_congr_left fun part member => (each part member).2)
  | @fill items _ induction =>
      rw [within_fill, List.forall_mem_cons, List.forall_mem_flatMap] at isOpen
      have each : ∀ item ∈ items, item.normalize.Level ∧ item.normalize.flatText = item.flatText :=
        fun item member => induction item member (isOpen.2 item member)
      rw [Doc.normalize, normalize_all_eq_map]
      constructor
      · exact .fill (List.forall_mem_map.mpr fun item member => (each item member).1)
      · rw [flat_text_fill, flat_text_fill, List.map_map]
        exact congrArg String.join (List.map_congr_left fun item member => (each item member).2)
  | nest _ induction =>
      have inner := induction (List.forall_mem_cons.mp isOpen).2
      rw [Doc.normalize, inner.1.wrapped_eq]
      exact ⟨.nest inner.1, inner.2⟩
  | annotated _ induction =>
      have inner := induction (List.forall_mem_cons.mp isOpen).2
      rw [Doc.normalize, inner.1.wrapped_eq]
      exact ⟨.annotated inner.1, inner.2⟩
  | group _ induction =>
      have inner := induction (List.forall_mem_cons.mp isOpen).2
      exact ⟨level_grouped inner.1, (flat_text_grouped _).trans inner.2⟩
  | choice _ induction =>
      rcases List.forall_mem_cons.mp isOpen with ⟨unbroken, inside⟩
      have inner := induction inside
      rw [Doc.normalize, chosen_of_unbroken _ unbroken]
      exact ⟨.choice inner.1, inner.2⟩

/-- What the combinators build without a forced break on a flat side. The broken sides of choices
are any built documents. -/
inductive BuiltLevel : Doc → Prop where
  | text {value : String} : '\n' ∉ value.toList → BuiltLevel (.text value)
  | nil : BuiltLevel .nil
  | line : BuiltLevel Doc.line
  | softLine : BuiltLevel Doc.softLine
  | concat {docs : List Doc} {doc : Doc} :
      (∀ part ∈ docs, BuiltLevel part) → Combinator.concat docs = .ok doc → BuiltLevel doc
  | nest {indent : Datum} {body doc : Doc} :
      BuiltLevel body → Combinator.nest indent body = .ok doc → BuiltLevel doc
  | annotate {label : Label} {body doc : Doc} :
      BuiltLevel body → Combinator.annotate label body = .ok doc → BuiltLevel doc
  | group {body doc : Doc} :
      BuiltLevel body → Combinator.group body = .ok doc → BuiltLevel doc
  | fill {docs : List Doc} {doc : Doc} :
      (∀ part ∈ docs, BuiltLevel part) → Combinator.fill docs = .ok doc → BuiltLevel doc
  | fillSep {docs : List Doc} {doc : Doc} :
      (∀ part ∈ docs, BuiltLevel part) → Combinator.fillSep docs = .ok doc → BuiltLevel doc
  | choice {whenBroken whenFlat doc : Doc} :
      Built Extra.all whenBroken → BuiltLevel whenFlat →
        Combinator.choice whenBroken whenFlat = .ok doc → BuiltLevel doc

theorem BuiltLevel.built (builtLevel : doc.BuiltLevel) : doc.Built Extra.all := by
  induction builtLevel with
  | text breakless => exact .text breakless
  | nil => exact .nil
  | line => exact .line
  | softLine => exact .softLine (by decide)
  | concat _ success induction => exact .concat induction success
  | nest _ success induction => exact .nest induction success
  | annotate _ success induction => exact .annotate induction success
  | group _ success induction => exact .group induction success
  | fill _ success induction => exact .fill (by decide) induction success
  | fillSep _ success induction => exact .fillSep (by decide) induction success
  | choice broken _ success flat => exact .choice (by decide) broken flat success

theorem BuiltLevel.level (builtLevel : doc.BuiltLevel) : doc.Level := by
  induction builtLevel with
  | text => exact .text
  | nil => exact .nil
  | line => exact .choice .text
  | softLine => exact .choice .nil
  | concat _ success induction =>
      rcases map_eq_ok_iff.mp success with ⟨parts, areParts, rfl⟩
      exact level_joined (holds_cast_all .nil induction areParts)
  | nest _ success induction =>
      rcases nest_eq_ok success with ⟨amount, part, isPart, rfl⟩
      exact .nest (holds_cast .nil induction isPart)
  | annotate _ success induction =>
      rcases map_eq_ok_iff.mp success with ⟨body, isBody, rfl⟩
      exact .annotated (holds_cast .nil induction isBody)
  | group _ success induction =>
      rcases map_eq_ok_iff.mp success with ⟨body, isBody, rfl⟩
      exact .group (holds_cast .nil induction isBody)
  | fill _ success induction =>
      rcases map_eq_ok_iff.mp success with ⟨parts, areParts, rfl⟩
      exact .fill (holds_cast_all .nil induction areParts)
  | fillSep _ success induction =>
      rcases map_eq_ok_iff.mp success with ⟨parts, areParts, rfl⟩
      exact .fill (holds_intersperse (.choice .text) (holds_cast_all .nil induction areParts))
  | choice _ _ success flat =>
      rcases choice_eq_ok success with ⟨whenBroken, whenFlat, -, isFlat, rfl⟩
      exact .choice (holds_cast .nil flat isFlat)

theorem Level.layout_group (level : doc.normalize.Level) (regular : doc.Regular) {width : Int}
    (fitting : doc.normalize.flatText.length ≤ width) :
    ∃ last, layout (.group doc) width = ⟨doc.normalize.expand 0 .flat, .ok last⟩ := by
  have normal := regular_normalize regular
  have entry : ∀ entry ∈ [(⟨.int 0, .flat, doc.normalize⟩ : Entry)], entry.Regular :=
    List.forall_mem_singleton.mpr (entry_sound (.inl rfl) normal)
  have firstLine : FirstLineFits width 0 [⟨.int 0, .flat, doc.normalize⟩] := by
    have same := congrArg String.length (level.head_text_eq 0)
    simp only [FirstLineFits, List.flatMap_singleton, Entry.expand, Amount.to_int_int, headWidth]
    omega
  have interchangeable : (grouped doc.normalize).Interchangeable (fun _ => true)
      (.group doc.normalize) := interchangeable_grouped normal level.forces_eq
  have same := (interchangeable .broken (.inr rfl)).runs width 0 [] 0 (by simp)
  simp only [Run.keeping, List.filter_true] at same
  rw [layout_eq_lay (Sound.group regular), Doc.normalize]
  rcases level.lay_flat width 0 [] 0 with ⟨last, flat⟩
  refine ⟨last, same.trans ?_⟩
  rw [lay, if_neg (by decide), decided_fits width 0 entry (by simp), List.append_nil,
    mode_for_fitting firstLine, flat]

end Doc

namespace Render

theorem write_of_level {items : List Item} (level : breaks items = false) (room : Nat) :
    (plain (.standard room) items none).result = .ok (headText items) := by
  have single : linesFrom (begun none) items = [⟨0, headText items⟩] := by
    have none := later_lines_of_level level []
    rw [List.append_nil] at none
    rw [linesFrom, none, begun]
    simp [laterLines]
  have success : (write (.standard room) none none items).fault = none := by
    apply write_succeeds
    rw [single]
    exact List.forall_mem_singleton.mpr (Line.storable_unindented _ _)
  have written := write_text success
  rw [single, List.map_singleton, Line.characters_unindented, List.intercalate_singleton] at written
  rw [plain, Output.result, success, String.ext_iff.mpr written]

end Render

/-- A group whose flat text fits on the page is that text, unless a choice that is flat then was
decided before, because its broken side is a forced break. -/
theorem group_that_fits_is_flat {doc : Doc} (built : doc.BuiltLevel)
    (isOpen : ∀ part ∈ doc.within false true, part.isDecided = false)
    {width : Int} (fitting : doc.flatText.length ≤ width) :
    ∃ grouped, Combinator.group doc = .ok grouped ∧
      ∀ room, formatDoc grouped width room = .ok doc.flatText := by
  have regular := built.built.sound.regular
  -- An empty text becomes the empty document.
  have cast : ∃ part, Combinator.cast doc = .ok part ∧ part.Regular ∧ part.normalize.Level ∧
      part.normalize.flatText = doc.flatText := by
    rcases Doc.cast_succeeds regular with success | ⟨rfl, success⟩
    · exact ⟨doc, success, regular, built.level.normalize isOpen⟩
    · exact ⟨.nil, success, .nil, .nil, rfl⟩
  rcases cast with ⟨part, success, partRegular, level, same⟩
  rw [← same] at fitting ⊢
  rcases level.layout_group partRegular fitting with ⟨last, laidOut⟩
  refine ⟨.group part, ?_, ?_⟩
  · rw [Combinator.group, success]
    rfl
  · intro room
    rw [formatDoc, laidOut, ← level.head_text_eq 0]
    exact Render.write_of_level (level.stays 0) room

theorem choice_in_brackets_is_flat :
    let choice := Doc.choice (.concat [.text "a", Doc.line])
      (.fill [.text "b", Doc.softLine, .text "c"])
    let doc := Doc.concat [.text "[", choice, .text "]"]
    doc.BuiltLevel ∧ (∀ part ∈ doc.within false true, part.isDecided = false) ∧
      (doc.flatText.length : Int) ≤ 4 ∧
      ∃ grouped, Combinator.group doc = .ok grouped ∧
        ∀ room, formatDoc grouped 4 room = .ok "[bc]" := by
  intro choice doc
  have lines : ∀ part ∈ [.text "a", Doc.line], part.Built Extra.all := by
    simp only [List.forall_mem_cons, List.not_mem_nil, false_implies, implies_true, and_true]
    exact ⟨.text (by decide), .line⟩
  have items : ∀ part ∈ [.text "b", Doc.softLine, .text "c"], part.BuiltLevel := by
    simp only [List.forall_mem_cons, List.not_mem_nil, false_implies, implies_true, and_true]
    exact ⟨.text (by decide), .softLine, .text (by decide)⟩
  have parts : ∀ part ∈ [.text "[", choice, .text "]"], part.BuiltLevel := by
    simp only [List.forall_mem_cons, List.not_mem_nil, false_implies, implies_true, and_true]
    exact ⟨.text (by decide), .choice (.concat lines rfl) (.fill items rfl) rfl, .text (by decide)⟩
  have built : doc.BuiltLevel := .concat parts rfl
  have isOpen : ∀ part ∈ doc.within false true, part.isDecided = false := by decide
  have fitting : (doc.flatText.length : Int) ≤ 4 := by decide
  exact ⟨built, isOpen, fitting, group_that_fits_is_flat built isOpen fitting⟩

/-- A line break between the parts of the broken side decides the choice, however wide the page. -/
example :
    formatDoc (.group (.concat [.text "[",
      .choice (.concat [.text "a", .hardLine, .text "b"]) (.text "flat"), .text "]"])) 79 0 =
      .ok "[a\nb]" :=
  rfl

end KotlinLayout
