import KotlinLayout.Proofs.Document.Context
import KotlinLayout.Proofs.Layout.Parallel
import KotlinLayout.Proofs.Layout.Renormalization

/-!
Concatenation is associative. A concatenation inside another one comes apart, unless there is a
forced break in it: then it stays, and lines are broken where it does. No layout shows it, whatever
is around.
-/

namespace KotlinLayout

open Layout

namespace Run

theorem keeping_all (run : Run) : run.keeping (fun _ => true) = run := by
  rw [keeping, List.filter_true]

end Run

namespace Doc

open List (Forall₂)

variable {keep : Item → Bool} {mode : Mode} {doc other : Doc} {docs others : List Doc}

/-- A concatenation takes up what an unforced document contributes to it as it is. -/
def Trim (doc : Doc) : Prop := forces doc = false → ∀ piece ∈ spliced doc, spliced piece = [piece]

theorem trim_of_forces (forced : forces doc = true) : doc.Trim := by
  intro unforced
  rw [forced] at unforced
  cases unforced

theorem trim_of_single (single : spliced doc = [doc]) : doc.Trim := by
  intro _ piece member
  rw [single, List.mem_singleton] at member
  rw [member, single]

theorem trim_pieces (trim : ∀ doc ∈ docs, doc.Trim) (unforced : docs.any forces = false) :
    ∀ piece ∈ docs.flatMap spliced, spliced piece = [piece] := by
  intro piece member
  obtain ⟨doc, isDoc, isPiece⟩ := List.mem_flatMap.mp member
  have docUnforced := Bool.eq_false_iff.mpr (List.any_eq_false.mp unforced doc isDoc)
  exact trim doc isDoc docUnforced piece isPiece

theorem spliced_joined (single : ∀ doc ∈ docs, spliced doc = [doc]) :
    spliced (joined docs) = docs := by
  match docs with
  | [] => rfl
  | [doc] => exact single doc (by simp)
  | first :: second :: rest => rfl

theorem spliced_assembled (trim : ∀ doc ∈ docs, doc.Trim) (unforced : docs.any forces = false) :
    spliced (assembled docs) = docs.flatMap spliced := by
  rw [assembled_of_unforced unforced]
  exact spliced_joined (trim_pieces trim unforced)

theorem trim_assembled (trim : ∀ doc ∈ docs, doc.Trim) : (assembled docs).Trim := by
  cases forced : docs.any forces with
  | true =>
      apply trim_of_forces
      rw [assembled, forced]
      rfl
  | false =>
      intro _
      rw [spliced_assembled trim forced]
      exact trim_pieces trim forced

theorem trim_wrapped {form : Doc → Doc} (single : ∀ body : Doc, spliced (form body) = [form body])
    (doc : Doc) : (wrapped form doc).Trim := by
  cases doc with
  | alwaysBreak body => exact trim_of_forces rfl
  | _ => exact trim_of_single (single _)

theorem trim_normalize (regular : doc.Regular) : doc.normalize.Trim := by
  induction regular with
  | @text value _ =>
      intro _ piece member
      by_cases empty : value = ""
      · simp [normalize, spliced, empty] at member
      · simp only [normalize, spliced, if_neg empty, List.mem_singleton] at member
        rw [member, spliced, if_neg empty]
  | nil => exact fun _ piece member => by simp [normalize, spliced] at member
  | hardLine => exact trim_of_forces rfl
  | fill _ _ _ => exact trim_of_single rfl
  | @concat parts _ induction =>
      rw [normalize, normalize_all_eq_map]
      exact trim_assembled (List.forall_mem_map.mpr induction)
  | @nest amount body _ _ => exact trim_wrapped (fun _ => rfl) body.normalize
  | @annotated label body _ _ => exact trim_wrapped (fun _ => rfl) body.normalize
  | @choice whenBroken whenFlat _ _ _ _ _ =>
      rw [normalize]
      cases whenBroken.normalize with
      | alwaysBreak body => exact trim_of_forces rfl
      | _ => exact trim_of_single rfl
  | @group body _ induction =>
      rw [normalize]
      generalize body.normalize = side at induction
      cases side with
      | hardLine | alwaysBreak => exact trim_of_forces rfl
      | text | nil | group => exact induction
      | foreign value => cases value <;> exact trim_of_single rfl
      | _ => exact trim_of_single rfl
  | @alwaysBreak body _ _ =>
      apply trim_of_forces
      rw [normalize]
      cases body.normalize <;> rfl

structure Normal (doc : Doc) : Prop where
  regular : doc.Regular
  tidy : doc.Tidy
  trim : doc.Trim

theorem normal_normalize (regular : doc.Regular) : doc.normalize.Normal :=
  ⟨regular_normalize regular, tidy_normalize regular, trim_normalize regular⟩

theorem Constructed.normal (constructed : doc.Constructed) : doc.normalize.Normal := by
  rw [← normalize_unboxed]
  exact normal_normalize constructed.unboxed_regular

theorem assembled_congr (pieces : docs.flatMap spliced = others.flatMap spliced)
    (same : docs.any forces = others.any forces) : assembled docs = assembled others := by
  rw [assembled, assembled, pieces, same]

theorem spliced_assembled_of_forces (forced : docs.any forces = true) :
    spliced (assembled docs) = [joined (docs.flatMap spliced)] := by
  rw [assembled, forced]
  rfl

theorem assembled_ne_empty (normal : ∀ doc ∈ docs, doc.Normal) : assembled docs ≠ .text "" := by
  intro empty
  cases forced : docs.any forces with
  | true =>
      rw [assembled, forced] at empty
      cases empty
  | false =>
      have nothing := spliced_assembled (fun doc member => (normal doc member).trim) forced
      rw [empty] at nothing
      rw [assembled_of_unforced forced, ← nothing] at empty
      cases empty

theorem wrapped_ne_empty {form : Doc → Doc} (nonempty : ∀ body : Doc, form body ≠ .text "")
    (doc : Doc) : wrapped form doc ≠ .text "" := by
  cases doc with
  | alwaysBreak body => exact Doc.noConfusion
  | _ => exact nonempty _

theorem grouped_eq_empty_iff : grouped doc = .text "" ↔ doc = .text "" := by
  cases doc with
  | foreign value => cases value <;> simp [grouped]
  | _ => simp [grouped]

/-- Parallel documents that give the same items, both of which are empty texts, which a
concatenation drops, or neither. -/
structure Congruent (doc other : Doc) : Prop where
  parallel : doc.Parallel (fun _ => true) other
  empty : doc = .text "" ↔ other = .text ""

namespace Congruent

theorem refl (regular : doc.Regular) : doc.Congruent doc := ⟨.refl regular, Iff.rfl⟩

theorem of_nonempty (parallel : doc.Parallel (fun _ => true) other) (nonempty : doc ≠ .text "")
    (otherNonempty : other ≠ .text "") : doc.Congruent other :=
  ⟨parallel, iff_of_false nonempty otherNonempty⟩

theorem regular (congruent : doc.Congruent other) : doc.Regular ∧ other.Regular :=
  (congruent.parallel.alike .broken (.inr rfl)).regular

theorem nest (amount : Amount) (congruent : doc.Congruent other) :
    (Doc.wrapped (.nest amount) doc).Congruent (Doc.wrapped (.nest amount) other) :=
  of_nonempty (congruent.parallel.nest amount) (wrapped_ne_empty (fun _ => Doc.noConfusion) doc)
    (wrapped_ne_empty (fun _ => Doc.noConfusion) other)

theorem annotated (label : Label) (congruent : doc.Congruent other) :
    (Doc.wrapped (.annotated label) doc).Congruent (Doc.wrapped (.annotated label) other) :=
  of_nonempty (congruent.parallel.annotated label)
    (wrapped_ne_empty (fun _ => Doc.noConfusion) doc)
    (wrapped_ne_empty (fun _ => Doc.noConfusion) other)

theorem grouped (congruent : doc.Congruent other) :
    (Doc.grouped doc).Congruent (Doc.grouped other) := by
  refine ⟨congruent.parallel.grouped, ?_⟩
  rw [grouped_eq_empty_iff, grouped_eq_empty_iff]
  exact congruent.empty

theorem broken (congruent : doc.Congruent other) :
    (Doc.broken doc).Congruent (Doc.broken other) := by
  have nonempty (doc : Doc) : Doc.broken doc ≠ .text "" := by
    cases doc <;> exact Doc.noConfusion
  exact of_nonempty congruent.parallel.broken (nonempty doc) (nonempty other)

theorem chosen {whenFlat otherFlat : Doc} (flat : whenFlat.Congruent otherFlat)
    (congruent : doc.Congruent other) :
    (Doc.chosen whenFlat doc).Congruent (Doc.chosen otherFlat other) := by
  have nonempty (whenFlat doc : Doc) : Doc.chosen whenFlat doc ≠ .text "" := by
    cases doc <;> exact Doc.noConfusion
  exact of_nonempty (flat.parallel.chosen congruent.parallel) (nonempty whenFlat doc)
    (nonempty otherFlat other)

theorem fill (congruent : Forall₂ Congruent docs others) :
    (Doc.fill docs).Congruent (.fill others) :=
  of_nonempty (.fill (congruent.imp fun _ _ same => same.parallel)) Doc.noConfusion
    Doc.noConfusion

/-- What congruent parts contribute to a concatenation is laid out alike, empty texts left out on
both sides. -/
theorem alike_spliced (congruent : doc.Congruent other) (decides : mode.Decides)
    (untouched : Untouched mode doc) :
    (Doc.concat (spliced doc)).Alike (fun _ => true) mode (.concat (spliced other)) := by
  have regular := congruent.regular
  by_cases empty : doc = .text ""
  · rw [empty, congruent.empty.mp empty]
    exact .refl (.concat (by simp [spliced]))
  · have otherUntouched : Untouched mode other := by
      rwa [Untouched, ← congruent.parallel.forces_eq]
    exact (alike_spliced_of_nonempty empty untouched regular.1).trans
      ((congruent.parallel.alike mode decides).trans
        (alike_spliced_of_nonempty (mt congruent.empty.mpr empty) otherUntouched regular.2).symm)

theorem alike_each (congruent : Forall₂ Congruent docs others) (decides : mode.Decides)
    (untouched : mode = .broken ∨ docs.any forces = false) :
    Forall₂ (Alike (fun _ => true) mode) (docs.map fun doc => .concat (spliced doc))
      (others.map fun other => .concat (spliced other)) := by
  induction congruent with
  | nil => exact .nil
  | cons first _ induction =>
      rw [List.any_cons, Bool.or_eq_false_iff] at untouched
      exact .cons (first.alike_spliced decides (untouched.imp_right And.left))
        (induction (untouched.imp_right And.right))

theorem assembled (normal : ∀ doc ∈ docs, doc.Normal) (otherNormal : ∀ other ∈ others, other.Normal)
    (congruent : Forall₂ Congruent docs others) :
    (Doc.assembled docs).Congruent (Doc.assembled others) := by
  have same := Parallel.any_forces_eq (congruent.imp fun _ _ same => same.parallel)
  refine of_nonempty ?_ (assembled_ne_empty normal) (assembled_ne_empty otherNormal)
  apply Parallel.assembled_of_alike (fun doc member => (normal doc member).tidy)
    (fun other member => (otherNormal other member).tidy) same
  intro mode decides untouched
  have otherUntouched : mode = .broken ∨ others.any forces = false := by
    rwa [← same]
  have regular : ∀ doc ∈ docs, doc.Regular := fun doc member => (normal doc member).regular
  have otherRegular : ∀ other ∈ others, other.Regular :=
    fun other member => (otherNormal other member).regular
  have pieces := @alike_flat_map (fun _ => true) mode docs spliced
    fun doc member => sound_spliced (regular doc member)
  have otherPieces := @alike_flat_map (fun _ => true) mode others spliced
    fun other member => sound_spliced (otherRegular other member)
  exact (alike_pieces untouched regular).trans (pieces.trans
    ((Alike.concat decides (alike_each congruent decides untouched)).trans
      (otherPieces.symm.trans (alike_pieces otherUntouched otherRegular).symm)))

end Congruent

theorem alike_concat_append (regular : ∀ doc ∈ docs, doc.Regular) {rest otherRest : List Doc}
    (alike : (Doc.concat rest).Alike keep mode (.concat otherRest)) :
    (Doc.concat (docs ++ rest)).Alike keep mode (.concat (docs ++ otherRest)) := by
  induction docs with
  | nil => exact alike
  | cons doc docs induction =>
      obtain ⟨first, others⟩ := List.forall_mem_cons.mp regular
      exact (induction others).concat_cons first

/-- Parts that are joined may as well stand by themselves. -/
theorem alike_joined_among {before parts after : List Doc} (decides : mode.Decides)
    (regular : ∀ doc ∈ before ++ parts ++ after, doc.Regular) :
    (Doc.concat (before ++ joined parts :: after)).Alike keep mode
      (.concat (before ++ parts ++ after)) := by
  obtain ⟨front, right⟩ := List.forall_mem_append.mp regular
  obtain ⟨left, middle⟩ := List.forall_mem_append.mp front
  rw [List.append_assoc]
  apply alike_concat_append left
  have rest : Forall₂ (Alike keep mode) after after :=
    List.forall₂_same.mpr fun doc member => .refl (right doc member)
  have first : (Doc.concat (joined parts :: after)).Alike keep mode
      (.concat (.concat parts :: after)) := .concat decides (.cons (alike_joined middle) rest)
  exact first.trans (alike_append (List.forall_mem_append.mpr ⟨middle, right⟩)).symm

theorem normal_assembled (normal : ∀ doc ∈ docs, doc.Normal) : (assembled docs).Normal :=
  ⟨sound_assembled fun doc member => (normal doc member).regular,
    tidy_assembled fun doc member => (normal doc member).tidy,
    trim_assembled fun doc member => (normal doc member).trim⟩

section

variable {before parts after : List Doc}

theorem any_forces_nested (tidy : ∀ part ∈ parts, part.Tidy) :
    (before ++ assembled parts :: after).any forces = (before ++ parts ++ after).any forces := by
  simp only [List.any_append, List.any_cons, forces_eq (assembled parts),
    is_break_assembled tidy, is_hard_line_assembled tidy, Bool.false_or, Bool.or_assoc]

/-- Without a forced break the inner concatenation comes apart, and nothing is left of it. -/
theorem assembled_nested_of_unforced (normal : ∀ part ∈ parts, part.Normal)
    (unforced : parts.any forces = false) :
    assembled (before ++ assembled parts :: after) = assembled (before ++ parts ++ after) := by
  apply assembled_congr
  · rw [List.flatMap_append, List.flatMap_cons,
      spliced_assembled (fun part member => (normal part member).trim) unforced,
      List.flatMap_append, List.flatMap_append, List.append_assoc]
  · exact any_forces_nested fun part member => (normal part member).tidy

/-- With a forced break the inner concatenation stays, and the outer one takes the break over. -/
theorem alike_nested_of_forces (normal : ∀ doc ∈ before ++ parts ++ after, doc.Normal)
    (forced : parts.any forces = true) (decides : mode.Decides)
    (untouched : mode = .broken ∨ (before ++ parts ++ after).any forces = false) :
    (assembled (before ++ assembled parts :: after)).Alike keep mode
      (assembled (before ++ parts ++ after)) := by
  obtain ⟨front, right⟩ := List.forall_mem_append.mp normal
  obtain ⟨left, middle⟩ := List.forall_mem_append.mp front
  have regular : ∀ doc ∈ before ++ parts ++ after, doc.Regular :=
    fun doc member => (normal doc member).regular
  have nested : ∀ doc ∈ before ++ assembled parts :: after, doc.Regular := by
    refine List.forall_mem_append.mpr ⟨fun doc member => (left doc member).regular,
      List.forall_mem_cons.mpr ⟨(normal_assembled middle).regular,
        fun doc member => (right doc member).regular⟩⟩
  have nestedUntouched :
      mode = .broken ∨ (before ++ assembled parts :: after).any forces = false := by
    rwa [any_forces_nested fun part member => (middle part member).tidy]
  have pieces : ∀ piece ∈ before.flatMap spliced ++ parts.flatMap spliced ++
      after.flatMap spliced, piece.Regular := by
    rw [← List.flatMap_append, ← List.flatMap_append]
    intro piece member
    obtain ⟨doc, isDoc, isPiece⟩ := List.mem_flatMap.mp member
    exact sound_spliced (regular doc isDoc) piece isPiece
  have outer : (assembled (before ++ assembled parts :: after)).Alike keep mode _ :=
    alike_pieces nestedUntouched nested
  have level : (assembled (before ++ parts ++ after)).Alike keep mode _ :=
    alike_pieces untouched regular
  rw [List.flatMap_append, List.flatMap_cons, spliced_assembled_of_forces forced] at outer
  rw [List.flatMap_append, List.flatMap_append] at level
  exact outer.trans ((alike_joined_among decides pieces).trans level.symm)

theorem congruent_nested (normal : ∀ doc ∈ before ++ parts ++ after, doc.Normal) :
    (assembled (before ++ assembled parts :: after)).Congruent
      (assembled (before ++ parts ++ after)) := by
  obtain ⟨front, right⟩ := List.forall_mem_append.mp normal
  obtain ⟨left, middle⟩ := List.forall_mem_append.mp front
  cases forced : parts.any forces with
  | false =>
      rw [assembled_nested_of_unforced middle forced]
      exact .refl (normal_assembled normal).regular
  | true =>
      have nested : ∀ doc ∈ before ++ assembled parts :: after, doc.Normal :=
        List.forall_mem_append.mpr
          ⟨left, List.forall_mem_cons.mpr ⟨normal_assembled middle, right⟩⟩
      have same : (before ++ assembled parts :: after).any forces =
          (before ++ parts ++ after).any forces :=
        any_forces_nested fun part member => (middle part member).tidy
      refine .of_nonempty ?_ (assembled_ne_empty nested) (assembled_ne_empty normal)
      apply Parallel.assembled_of_alike (fun doc member => (nested doc member).tidy)
        (fun doc member => (normal doc member).tidy) same
      intro mode decides untouched
      exact alike_nested_of_forces normal forced decides (by rwa [← same])

end

theorem congruent_among {before after : List Doc} (left : ∀ part ∈ before, part.Constructed)
    (right : ∀ part ∈ after, part.Constructed)
    (congruent : doc.normalize.Congruent other.normalize) :
    Forall₂ Congruent ((before ++ doc :: after).map normalize)
      ((before ++ other :: after).map normalize) := by
  have beside (parts : List Doc) (constructed : ∀ part ∈ parts, part.Constructed) :
      Forall₂ Congruent (parts.map normalize) (parts.map normalize) := by
    rw [List.forall₂_same, List.forall_mem_map]
    exact fun part member => .refl (constructed part member).normal.regular
  rw [List.map_append, List.map_append, List.map_cons, List.map_cons]
  exact List.rel_append (beside before left) (.cons congruent (beside after right))

/-- Whatever is around, congruent normal forms lead to congruent ones. -/
theorem congruent_plug {context : Context} (constructed : context.Constructed)
    (inside : doc.Constructed) (otherInside : other.Constructed)
    (congruent : doc.normalize.Congruent other.normalize) :
    (context.plug doc).normalize.Congruent (context.plug other).normalize := by
  induction constructed with
  | hole => exact congruent
  | @concat before after inner left middle right induction =>
      have normal {doc : Doc} (inside : doc.Constructed) :
          ∀ part ∈ (before ++ inner.plug doc :: after).map normalize, part.Normal := by
        refine List.forall_mem_map.mpr fun part member => ?_
        rcases List.mem_append.mp member with isBefore | isRest
        · exact (left part isBefore).normal
        · rcases List.mem_cons.mp isRest with rfl | isAfter
          · exact (middle.plug inside).normal
          · exact (right part isAfter).normal
      rw [Context.plug, Context.plug, normalize, normalize, normalize_all_eq_map,
        normalize_all_eq_map]
      exact .assembled (normal inside) (normal otherInside) (congruent_among left right induction)
  | @fill before after inner left middle right induction =>
      rw [Context.plug, Context.plug, normalize, normalize, normalize_all_eq_map,
        normalize_all_eq_map]
      exact .fill (congruent_among left right induction)
  | nest _ induction => exact induction.nest _
  | group _ induction => exact induction.grouped
  | alwaysBreak _ induction => exact induction.broken
  | annotated _ induction => exact induction.annotated _
  | onBroken _ flat induction => exact (Congruent.refl flat.normal.regular).chosen induction
  | onFlat broken _ induction => exact induction.chosen (Congruent.refl broken.normal.regular)

theorem congruent_nested_concat {before parts after : List Doc}
    (constructed : ∀ doc ∈ before ++ parts ++ after, doc.Constructed) :
    (concat (before ++ concat parts :: after)).normalize.Congruent
      (concat (before ++ parts ++ after)).normalize := by
  have normal : ∀ doc ∈ before.map normalize ++ parts.map normalize ++ after.map normalize,
      doc.Normal := by
    rw [← List.map_append, ← List.map_append, List.forall_mem_map]
    exact fun doc member => (constructed doc member).normal
  have congruent := congruent_nested normal
  rw [← List.map_append, ← List.map_append] at congruent
  simp only [normalize, normalize_all_eq_map, List.map_append, List.map_cons]
  simpa only [List.map_append] using congruent

end Doc

/-- Wherever it stands, a concatenation inside another one may as well be replaced by its parts:
the layouts are the same, down to the empty texts in them. -/
theorem layout_of_nested_concat {context : Context} (around : context.Constructed)
    {before parts after : List Doc}
    (constructed : ∀ doc ∈ before ++ parts ++ after, doc.Constructed) (width : Int) :
    let nested := context.plug (.concat (before ++ .concat parts :: after))
    let level := context.plug (.concat (before ++ parts ++ after))
    (layout nested width).fault? = none ∧ layout nested width = layout level width := by
  intro nested level
  obtain ⟨front, right⟩ := List.forall_mem_append.mp constructed
  obtain ⟨left, middle⟩ := List.forall_mem_append.mp front
  have inside : (Doc.concat (before ++ .concat parts :: after)).Constructed :=
    .ofConcat (List.forall_mem_append.mpr
      ⟨left, List.forall_mem_cons.mpr ⟨.ofConcat middle, right⟩⟩)
  have otherInside : (Doc.concat (before ++ parts ++ after)).Constructed := .ofConcat constructed
  have regular := (around.plug inside).unboxed_regular
  have otherRegular := (around.plug otherInside).unboxed_regular
  have congruent := Doc.congruent_plug around inside otherInside
    (Doc.congruent_nested_concat constructed)
  have same := (congruent.parallel.alike .broken (.inr rfl)).runs width 0 [] 0 (by simp)
  obtain ⟨items, column, -, laidOut⟩ :=
    layout_reaches regular (Doc.regular_normalize regular) width
  constructor
  · rw [← layout_unboxed, laidOut]
    rfl
  · rw [← layout_unboxed nested, ← layout_unboxed level, layout_eq_lay regular,
      layout_eq_lay otherRegular, Doc.normalize_unboxed, Doc.normalize_unboxed]
    rwa [Run.keeping_all, Run.keeping_all] at same

/-- The inner concatenation has a forced break, so it stays one part of the outer one; its empty
text goes either way. -/
theorem broken_concat_in_fill_levels :
    let context := Context.group (.fill [.text "a", Doc.line] (.nest (.int 2) .hole) [])
    let nested := context.plug (.concat
      [.text "b", .concat [Doc.line, .text "", .alwaysBreak (.text "c")], Doc.line, .text "d"])
    let level := context.plug (.concat
      [.text "b", Doc.line, .text "", .alwaysBreak (.text "c"), Doc.line, .text "d"])
    context.Constructed ∧
      (layout nested 9).items = [.text "a", .text " ", .text "b", .line (.int 2), .text "c",
        .line (.int 2), .text "d"] ∧
      layout nested 9 = layout level 9 := by
  intro context nested level
  have around : context.Constructed := by
    refine .group (.fill ?_ (.nest .hole) (by simp))
    simp only [List.forall_mem_cons, List.not_mem_nil, false_implies, implies_true, and_true]
    exact ⟨.text (by decide), .line⟩
  have parts : ∀ doc ∈ [.text "b"] ++ [Doc.line, .text "", .alwaysBreak (.text "c")] ++
      [Doc.line, .text "d"], doc.Constructed := by
    simp only [List.cons_append, List.nil_append, List.forall_mem_cons, List.not_mem_nil,
      false_implies, implies_true, and_true]
    exact ⟨.text (by decide), .line, .text (by decide),
      .ofAlwaysBreak (.text (by decide)) rfl, .line, .text (by decide)⟩
  exact ⟨around, rfl, (layout_of_nested_concat around parts 9).2⟩

end KotlinLayout
