import KotlinLayout.Proofs.Document.Constructed
import KotlinLayout.Proofs.Document.Forced
import KotlinLayout.Proofs.Layout.Normalization
import KotlinLayout.Proofs.Layout.Reach
import KotlinLayout.Proofs.Render.Lines

/-!
Normalization a second time. A normal form need not be its own normal form: where a forced break
was taken off a part, a concatenation stays inside another one, along with empty parts. Yet the
second pass forces nothing that the first one left unforced, and no layout shows what it changes.
-/

namespace KotlinLayout

open Layout

namespace Doc

open List (Forall₂)

variable {keep : Item → Bool} {doc : Doc} {docs : List Doc}

/-- A second normalization changes nothing that a layout shows: neither where the document stands,
nor where a concatenation takes up its pieces. Under a forced break that holds where lines are
broken. -/
structure Stable (keep : Item → Bool) (doc : Doc) : Prop where
  alike : doc.normalize.Interchangeable keep doc
  forced : forces doc.normalize = forces doc
  pieces : ∀ piece ∈ spliced doc, piece.normalize.Alike keep .broken piece
  unforced : forces doc = false → ∀ piece ∈ spliced doc,
    piece.normalize.Interchangeable keep piece ∧ forces piece.normalize = false

namespace Stable

theorem regular (stable : doc.Stable keep) : doc.Regular :=
  (stable.alike .flat (.inl rfl)).regular.2

theorem of_solid (solid : doc.Solid) (alike : doc.normalize.Interchangeable keep doc)
    (unforced : forces doc.normalize = false) : doc.Stable keep := by
  refine ⟨alike, unforced.trans solid.unforced.symm, fun piece member => ?_,
    fun _ piece member => ?_⟩
  · rw [solid.eq_of_mem_spliced member]
    exact alike .broken (.inr rfl)
  · rw [solid.eq_of_mem_spliced member]
    exact ⟨alike, unforced⟩

theorem always_break (alike : doc.normalize.Alike keep .broken doc) :
    (Doc.alwaysBreak doc).Stable keep := by
  refine ⟨fun mode _ => (alike_broken alike.regular.1).trans alike.alwaysBreak, ?_, ?_,
    fun unforced => by cases unforced⟩
  · rw [normalize]
    cases doc.normalize <;> rfl
  · exact List.forall_mem_singleton.mpr alike

theorem hard_line : Doc.hardLine.Stable keep :=
  ⟨fun _ _ => .refl .hardLine, rfl, List.forall_mem_singleton.mpr (.refl .hardLine),
    fun unforced => by cases unforced⟩

theorem unbroken (stable : doc.Stable keep) (unbroken : doc.isBreak = false) :
    doc.normalize.isBreak = false := by
  have forced := stable.forced
  rw [forces_eq, forces_eq, is_hard_line_normalize stable.regular, unbroken,
    Bool.or_false] at forced
  cases line : doc.isHardLine with
  | true =>
      rw [eq_of_is_hard_line line]
      rfl
  | false => rwa [line, Bool.false_or] at forced

end Stable

theorem stable_wrapped {form : Doc → Doc} (solid : ∀ body : Doc, (form body).Solid)
    (normalizes : ∀ body : Doc, (form body).normalize = wrapped form body.normalize)
    (congruent : ∀ {mode : Mode} {doc other : Doc}, mode.Decides → doc.Alike keep mode other →
      (form doc).Alike keep mode (form other))
    (stable : doc.Stable keep) : (wrapped form doc).Stable keep := by
  -- A forced break comes out of the form and stays around it.
  cases broken : doc.isBreak with
  | true =>
      rcases exists_of_is_break broken with ⟨body, rfl⟩
      apply Stable.always_break
      rw [normalizes]
      have inner := stable.pieces body (List.mem_singleton_self body)
      exact (alike_wrapped (.inl rfl) inner.regular.1 (congruent (.inr rfl))).trans
        (congruent (.inr rfl) inner)
  | false =>
      rw [wrapped_of_unbroken form broken]
      have same : (form doc).normalize = form doc.normalize := by
        rw [normalizes, wrapped_of_unbroken form (stable.unbroken broken)]
      refine .of_solid (solid doc) (fun mode decides => ?_) ?_
      · rw [same]
        exact congruent decides (stable.alike mode decides)
      · rw [same]
        exact (solid _).unforced

theorem stable_grouped (stable : doc.Stable keep) : (grouped doc).Stable keep := by
  -- Only what forces no break stays in a group.
  by_cases unforced : forces doc = false
  · have grouped : (Doc.group doc).Stable keep := by
      have inner : forces doc.normalize = false := stable.forced.trans unforced
      refine .of_solid ⟨rfl, by simp⟩ (fun mode decides => ?_) ?_
      · have regular := (stable.alike mode decides).regular.1
        exact (interchangeable_grouped regular inner mode decides).trans
          (stable.alike.group mode decides)
      · rw [normalize, forces_grouped, inner]
    cases stable.regular with
    | text | nil | group => exact stable
    | hardLine | alwaysBreak => cases unforced
    | _ => exact grouped
  · cases doc with
    | alwaysBreak body => exact stable
    | hardLine => exact .always_break (.refl .hardLine)
    | _ => exact absurd rfl unforced

theorem stable_broken (stable : doc.Stable keep) : (broken doc).Stable keep := by
  cases doc with
  | alwaysBreak body => exact stable
  | _ => exact .always_break (stable.alike .broken (.inr rfl))

theorem stable_chosen {whenFlat whenBroken : Doc} (flat : whenFlat.Stable keep)
    (broken : whenBroken.Stable keep) : (chosen whenFlat whenBroken).Stable keep := by
  cases forced : whenBroken.isBreak with
  | true =>
      rcases exists_of_is_break forced with ⟨body, rfl⟩
      exact broken
  | false =>
      rw [chosen_of_unbroken _ forced]
      have same : (Doc.choice whenBroken whenFlat).normalize =
          .choice whenBroken.normalize whenFlat.normalize := by
        rw [normalize, chosen_of_unbroken _ (broken.unbroken forced)]
      refine .of_solid ⟨rfl, by simp⟩ (fun mode decides => ?_) ?_
      · rw [same]
        exact .choice decides (broken.alike .broken (.inr rfl)) (flat.alike .flat (.inl rfl))
      · rw [same]
        rfl

theorem stable_fill (stable : ∀ doc ∈ docs, doc.Stable keep) : (Doc.fill docs).Stable keep := by
  have each : Forall₂ (Interchangeable keep) (docs.map normalize) docs := by
    rw [List.forall₂_map_left_iff, List.forall₂_same]
    exact fun doc member => (stable doc member).alike
  have same : (Doc.fill docs).normalize = .fill (docs.map normalize) := by
    rw [normalize, normalize_all_eq_map]
  refine .of_solid ⟨rfl, by simp⟩ (fun mode decides => ?_) ?_
  · rw [same]
    exact Interchangeable.fill each mode decides
  · rw [same]
    rfl

/-- Pieces of a forced break are laid out where lines are broken. -/
theorem alike_normalize_joined (silent : keep (.text "") = false)
    (alike : ∀ doc ∈ docs, doc.normalize.Alike keep .broken doc) :
    (joined docs).normalize.Alike keep .broken (joined docs) := by
  match docs with
  | [] => exact .refl .nil
  | [doc] => exact alike doc (by simp)
  | first :: second :: rest =>
      exact alike_normalize_concat silent (List.forall₂_same.mpr alike)

theorem stable_concat (silent : keep (.text "") = false)
    (alike : ∀ doc ∈ docs, doc.normalize.Interchangeable keep doc)
    (unforced : ∀ doc ∈ docs, forces doc.normalize = false) :
    (Doc.concat docs).Stable keep := by
  have regular : ∀ doc ∈ docs, doc.Regular := fun doc member =>
    (alike doc member .flat (.inl rfl)).regular.2
  have same : (Doc.concat docs).normalize = assembled (docs.map normalize) := by
    rw [normalize, normalize_all_eq_map]
  have none : (docs.map normalize).any forces = false := by
    rw [List.any_map, List.any_eq_false]
    exact fun doc member => Bool.eq_false_iff.mp (unforced doc member)
  refine ⟨fun mode decides => ?_, ?_, fun doc member => alike doc member .broken (.inr rfl),
    fun _ doc member => ⟨alike doc member, unforced doc member⟩⟩
  · have each : Forall₂ (Alike keep mode) (docs.map normalize) docs := by
      rw [List.forall₂_map_left_iff, List.forall₂_same]
      exact fun doc member => alike doc member mode decides
    rw [same]
    exact (alike_assembled silent decides (.inr none) (regular_of_alike each).1).trans
      (.concat decides each)
  · rw [same]
    apply forces_assembled _ none
    exact List.forall_mem_map.mpr fun doc member => tidy_normalize (regular doc member)

theorem stable_joined (silent : keep (.text "") = false) (solid : ∀ doc ∈ docs, doc.Solid)
    (alike : ∀ doc ∈ docs, doc.normalize.Interchangeable keep doc)
    (unforced : ∀ doc ∈ docs, forces doc.normalize = false) : (joined docs).Stable keep := by
  match docs with
  | [] => exact .of_solid ⟨rfl, by simp [joined]⟩ (fun _ _ => .refl .nil) rfl
  | [doc] => exact .of_solid (solid doc (by simp)) (alike doc (by simp)) (unforced doc (by simp))
  | first :: second :: rest => exact stable_concat silent alike unforced

theorem stable_assembled (silent : keep (.text "") = false) (tidy : ∀ doc ∈ docs, doc.Tidy)
    (stable : ∀ doc ∈ docs, doc.Stable keep) : (assembled docs).Stable keep := by
  cases forced : docs.any forces with
  | true =>
      -- A piece may come apart once more, but lines are broken where it stands.
      rw [assembled, forced]
      apply Stable.always_break
      apply alike_normalize_joined silent
      intro piece member
      obtain ⟨doc, isDoc, isPiece⟩ := List.mem_flatMap.mp member
      exact (stable doc isDoc).pieces piece isPiece
  | false =>
      rw [assembled_of_unforced forced]
      have pieces : ∀ piece ∈ docs.flatMap spliced,
          piece.normalize.Interchangeable keep piece ∧ forces piece.normalize = false := by
        intro piece member
        obtain ⟨doc, isDoc, isPiece⟩ := List.mem_flatMap.mp member
        have unforced := Bool.eq_false_iff.mpr (List.any_eq_false.mp forced doc isDoc)
        exact (stable doc isDoc).unforced unforced piece isPiece
      exact stable_joined silent (solid_pieces tidy forced)
        (fun piece member => (pieces piece member).1) fun piece member => (pieces piece member).2

theorem stable_normalize (silent : keep (.text "") = false) (regular : doc.Regular) :
    doc.normalize.Stable keep := by
  induction regular with
  | text breakless =>
      exact .of_solid ⟨rfl, by simp [normalize]⟩ (fun _ _ => .refl (.text breakless)) rfl
  | nil => exact .of_solid ⟨rfl, by simp [normalize]⟩ (fun _ _ => .refl .nil) rfl
  | hardLine => exact .hard_line
  | @concat parts regular induction =>
      rw [normalize, normalize_all_eq_map]
      exact stable_assembled silent
        (List.forall_mem_map.mpr fun part member => tidy_normalize (regular part member))
        (List.forall_mem_map.mpr induction)
  | fill _ _ induction =>
      rw [normalize, normalize_all_eq_map]
      exact stable_fill (List.forall_mem_map.mpr induction)
  | @nest amount _ _ induction =>
      exact stable_wrapped (solid_nest amount) (fun _ => rfl) (fun _ alike => alike.nest amount)
        induction
  | @annotated label _ _ induction =>
      exact stable_wrapped (solid_annotated label) (fun _ => rfl)
        (fun decides alike => alike.annotated label decides) induction
  | choice _ _ _ broken flat => exact stable_chosen flat broken
  | group _ induction => exact stable_grouped induction
  | alwaysBreak _ induction => exact stable_broken induction

end Doc

theorem layout_unboxed (doc : Doc) (width : Int) : layout doc.unboxed width = layout doc width := by
  rw [layout, layout, Doc.normalized_unboxed]

namespace Run

variable {run other : Run}

/-- What is written depends on neither empty texts nor the column that was reached. -/
theorem write_congr (same : run.keeping Item.visible = other.keeping Item.visible)
    (spacing : Spacing) : run.write spacing = other.write spacing := by
  have both := keeping_iff.mp same
  rw [write, write, Render.plain, Render.plain, ← Render.write_visible spacing _ _ run.items,
    ← Render.write_visible spacing _ _ other.items, both.1, fault?, fault?, both.2]

theorem write_colored_congr (same : run.keeping Item.visible = other.keeping Item.visible)
    (spacing : Spacing) (coloring : Coloring) :
    run.writeColored spacing coloring = other.writeColored spacing coloring := by
  have both := keeping_iff.mp same
  rw [writeColored, writeColored, Render.colored, Render.colored,
    ← Render.paint_visible spacing coloring _ _ _ run.items,
    ← Render.paint_visible spacing coloring _ _ _ other.items, both.1, fault?, fault?, both.2]

end Run

/-- A document and its normal form are laid out the same, but for empty texts, and are written the
same, in colour or without. -/
theorem layout_of_normalized {doc : Doc} (constructed : doc.Constructed) (width : Int) :
    ∃ normal, doc.normalized = .ok normal ∧
      (layout doc width).fault? = none ∧ (layout normal width).fault? = none ∧
      (layout normal width).items.filter Item.visible =
        (layout doc width).items.filter Item.visible ∧
      ∀ spacing, (layout normal width).write spacing = (layout doc width).write spacing ∧
        ∀ coloring, (layout normal width).writeColored spacing coloring =
          (layout doc width).writeColored spacing coloring := by
  have regular := constructed.unboxed_regular
  have normal := Doc.regular_normalize regular
  have stable := Doc.stable_normalize Item.visible_empty regular
  rcases layout_reaches regular normal width with ⟨items, column, -, laidOut⟩
  have same : (layout doc.normalize width).keeping Item.visible =
      (layout doc width).keeping Item.visible := by
    rw [← Doc.normalize_unboxed, ← layout_unboxed doc, layout_eq_lay normal,
      layout_eq_lay regular]
    exact (stable.alike .broken (.inr rfl)).runs width 0 [] 0 (by simp)
  have both := Run.keeping_iff.mp same
  rw [layout_unboxed] at laidOut
  refine ⟨doc.normalize, ?_, ?_, ?_, both.1, fun spacing => ⟨Run.write_congr same spacing,
    Run.write_colored_congr same spacing⟩⟩
  · rw [← Doc.normalized_unboxed, ← Doc.normalize_unboxed]
    exact regular.normalized_eq
  · rw [laidOut]
    rfl
  · rw [Run.fault?, both.2, laidOut]

/-- The first pass takes the forced break off a concatenation that stands in another one, and only
a second pass makes the two a single one. -/
theorem break_in_concat_of_normalized :
    (Doc.concat [.alwaysBreak (.concat [.text "a", .text "b"]), .boxed "c"]).Constructed ∧
      ∃ normal,
        (Doc.concat [.alwaysBreak (.concat [.text "a", .text "b"]), .boxed "c"]).normalized =
          .ok normal ∧
        (layout normal 0).items.filter Item.visible = [.text "a", .text "b", .text "c"] ∧
        ∀ spacing, (layout normal 0).write spacing =
          (layout (.concat [.alwaysBreak (.concat [.text "a", .text "b"]), .boxed "c"])
            0).write spacing := by
  have parts : ∀ part ∈ [Doc.text "a", .text "b"], part.Constructed := by
    simp only [List.forall_mem_cons, List.not_mem_nil, false_implies, implies_true, and_true]
    exact ⟨.text (by decide), .text (by decide)⟩
  have first : (Doc.alwaysBreak (.concat [.text "a", .text "b"])).Constructed :=
    .ofAlwaysBreak (.ofConcat parts) rfl
  have checked : Doc.ofText (.text "c") = .ok (.boxed "c") := rfl
  have second := Doc.Constructed.ofText checked
  have constructed :
      (Doc.concat [.alwaysBreak (.concat [.text "a", .text "b"]), .boxed "c"]).Constructed := by
    apply Doc.Constructed.ofConcat
    simp only [List.forall_mem_cons, List.not_mem_nil, false_implies, implies_true, and_true]
    exact ⟨first, second⟩
  rcases layout_of_normalized constructed 0 with ⟨normal, isNormal, -, -, items, written⟩
  exact ⟨constructed, normal, isNormal, items, fun spacing => (written spacing).1⟩

end KotlinLayout
