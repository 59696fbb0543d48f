import KotlinLayout.Proofs.Document.Constructed
import KotlinLayout.Proofs.Document.Forced

/-!
Concatenations in normal forms. What a concatenation contributes to another one comes apart and
what is empty goes, but the content of a forced break is taken up as it is: it may be a
concatenation again, or empty.
-/

namespace KotlinLayout.Doc

def Throughout (holds : Doc → Prop) (doc : Doc) : Prop := ∀ part ∈ doc.within true true, holds part

section Throughout

variable {holds : Doc → Prop} {doc : Doc} {docs : List Doc}

theorem throughout_of_within {parts : List Doc} (inside : doc.within true true = doc :: parts) :
    doc.Throughout holds ↔ holds doc ∧ ∀ part ∈ parts, holds part := by
  rw [Throughout, inside, List.forall_mem_cons]

theorem throughout_concat :
    (Doc.concat docs).Throughout holds ↔
      holds (.concat docs) ∧ ∀ part ∈ docs, part.Throughout holds := by
  rw [throughout_of_within (within_concat _ _ _), List.forall_mem_flatMap]
  rfl

/-- Checked texts and concatenations apart, every form is what it should be. -/
def Settles (holds : Doc → Prop) : Prop :=
  ∀ doc : Doc, (∀ value, doc ≠ .boxed value) → (∀ parts, doc ≠ .concat parts) → holds doc

variable (settles : Settles holds)

include settles

theorem throughout_text (value : String) : (Doc.text value).Throughout holds :=
  List.forall_mem_singleton.mpr (settles _ (by simp) (by simp))

theorem throughout_nil : Doc.nil.Throughout holds :=
  List.forall_mem_singleton.mpr (settles _ (by simp) (by simp))

theorem throughout_fill :
    (Doc.fill docs).Throughout holds ↔ ∀ item ∈ docs, item.Throughout holds := by
  rw [throughout_of_within (within_fill _ _ _), List.forall_mem_flatMap]
  exact and_iff_right (settles _ (by simp) (by simp))

theorem throughout_nest (indent : Amount) :
    (Doc.nest indent doc).Throughout holds ↔ doc.Throughout holds :=
  (throughout_of_within rfl).trans (and_iff_right (settles _ (by simp) (by simp)))

theorem throughout_annotated (label : Label) :
    (Doc.annotated label doc).Throughout holds ↔ doc.Throughout holds :=
  (throughout_of_within rfl).trans (and_iff_right (settles _ (by simp) (by simp)))

theorem throughout_group : (Doc.group doc).Throughout holds ↔ doc.Throughout holds :=
  (throughout_of_within rfl).trans (and_iff_right (settles _ (by simp) (by simp)))

theorem throughout_always_break : (Doc.alwaysBreak doc).Throughout holds ↔ doc.Throughout holds :=
  (throughout_of_within rfl).trans (and_iff_right (settles _ (by simp) (by simp)))

theorem throughout_choice {whenBroken whenFlat : Doc} :
    (Doc.choice whenBroken whenFlat).Throughout holds ↔
      whenBroken.Throughout holds ∧ whenFlat.Throughout holds :=
  (throughout_of_within rfl).trans
    ((and_iff_right (settles _ (by simp) (by simp))).trans List.forall_mem_append)

theorem throughout_wrapped {form : Doc → Doc}
    (forms : ∀ body : Doc, (form body).Throughout holds ↔ body.Throughout holds) (doc : Doc) :
    (wrapped form doc).Throughout holds ↔ doc.Throughout holds := by
  cases doc with
  | alwaysBreak body =>
      rw [wrapped, throughout_always_break settles, throughout_always_break settles, forms]
  | _ => exact forms _

theorem throughout_grouped (doc : Doc) :
    (grouped doc).Throughout holds ↔ doc.Throughout holds := by
  cases doc with
  | hardLine => exact throughout_always_break settles
  | alwaysBreak | text | group | nil => rfl
  | foreign value => cases value <;> first | rfl | exact throughout_group settles
  | _ => exact throughout_group settles

theorem throughout_broken (doc : Doc) : (broken doc).Throughout holds ↔ doc.Throughout holds := by
  cases doc with
  | alwaysBreak => rfl
  | _ => exact throughout_always_break settles

theorem throughout_chosen (whenBroken whenFlat : Doc) :
    (chosen whenFlat whenBroken).Throughout holds ↔
      whenBroken.Throughout holds ∧ (whenBroken.isBreak = false → whenFlat.Throughout holds) := by
  cases decided : whenBroken.isBreak with
  | true =>
      rcases exists_of_is_break decided with ⟨body, rfl⟩
      simp [chosen]
  | false =>
      rw [chosen_of_unbroken _ decided, throughout_choice settles]
      simp

theorem throughout_assembled :
    (assembled docs).Throughout holds ↔ (joined (docs.flatMap spliced)).Throughout holds := by
  rw [assembled]
  split
  · exact throughout_always_break settles
  · rfl

theorem throughout_joined :
    (joined docs).Throughout holds ↔
      (2 ≤ docs.length → holds (.concat docs)) ∧ ∀ part ∈ docs, part.Throughout holds := by
  match docs with
  | [] => simp [joined, throughout_nil settles]
  | [part] => simp [joined]
  | first :: second :: rest =>
      change (Doc.concat _).Throughout holds ↔ _
      rw [throughout_concat]
      simp

/-- Whatever holds throughout a part holds throughout what it contributes to a concatenation. -/
theorem throughout_spliced (throughout : doc.Throughout holds) :
    ∀ piece ∈ spliced doc, piece.Throughout holds := by
  cases doc with
  | concat parts => exact (throughout_concat.mp throughout).2
  | alwaysBreak body =>
      rw [spliced, List.forall_mem_singleton]
      exact (throughout_always_break settles).mp throughout
  | nil => exact fun _ member => absurd member List.not_mem_nil
  | text value =>
      rw [spliced]
      split
      · exact fun _ member => absurd member List.not_mem_nil
      · exact List.forall_mem_singleton.mpr throughout
  | _ => exact List.forall_mem_singleton.mpr throughout

end Throughout

variable {doc : Doc} {docs : List Doc}

def IsShaped : Doc → Prop
  | .boxed _ => False
  | .concat parts => 2 ≤ parts.length
  | _ => True

theorem settles_is_shaped : Settles IsShaped := by
  intro doc unboxed single
  cases doc with
  | boxed value => exact absurd rfl (unboxed value)
  | concat parts => exact absurd rfl (single parts)
  | _ => trivial

theorem shaped_assembled (shaped : ∀ doc ∈ docs, doc.Throughout IsShaped) :
    (assembled docs).Throughout IsShaped := by
  rw [throughout_assembled settles_is_shaped, throughout_joined settles_is_shaped]
  constructor
  · exact id
  · rw [List.forall_mem_flatMap]
    exact fun doc member => throughout_spliced settles_is_shaped (shaped doc member)

mutual

theorem shaped_normalize (doc : Doc) : doc.normalize.Throughout IsShaped := by
  match doc with
  | .text _ | .boxed _ => exact throughout_text settles_is_shaped _
  | .nil => exact throughout_nil settles_is_shaped
  | .hardLine | .tail .. | .mark _ | .foreign _ =>
      simp [normalize, Throughout, within, IsShaped]
  | .concat parts =>
      rw [normalize, normalize_all_eq_map]
      exact shaped_assembled (List.forall_mem_map.mpr (shaped_normalize_all parts))
  | .fill items =>
      rw [normalize, normalize_all_eq_map, throughout_fill settles_is_shaped]
      exact List.forall_mem_map.mpr (shaped_normalize_all items)
  | .nest indent body =>
      rw [normalize, throughout_wrapped settles_is_shaped fun _ =>
        throughout_nest settles_is_shaped indent]
      exact shaped_normalize body
  | .annotated label body =>
      rw [normalize, throughout_wrapped settles_is_shaped fun _ =>
        throughout_annotated settles_is_shaped label]
      exact shaped_normalize body
  | .group body =>
      rw [normalize, throughout_grouped settles_is_shaped]
      exact shaped_normalize body
  | .alwaysBreak body =>
      rw [normalize, throughout_broken settles_is_shaped]
      exact shaped_normalize body
  | .choice whenBroken whenFlat =>
      rw [normalize, throughout_chosen settles_is_shaped]
      exact ⟨shaped_normalize whenBroken, fun _ => shaped_normalize whenFlat⟩

theorem shaped_normalize_all (docs : List Doc) :
    ∀ doc ∈ docs, doc.normalize.Throughout IsShaped := by
  match docs with
  | [] => exact fun _ member => absurd member List.not_mem_nil
  | doc :: rest =>
      exact List.forall_mem_cons.mpr ⟨shaped_normalize doc, shaped_normalize_all rest⟩

end

/-- Parts that a concatenation could do without. -/
def isLoose : Doc → Bool
  | .concat _ | .nil => true
  | .text value => value == ""
  | _ => false

def IsTight : Doc → Prop
  | .concat parts => ∀ part ∈ parts, part.isLoose = false
  | _ => True

theorem is_tight_of_single (single : ∀ parts, doc ≠ .concat parts) : doc.IsTight := by
  cases doc with
  | concat parts => exact absurd rfl (single parts)
  | _ => trivial

theorem settles_is_tight : Settles IsTight := fun _ _ single => is_tight_of_single single

/-- Only the content of a forced break is loose where a concatenation takes it up, unless it was
loose in a concatenation before. -/
def HoldsTight (doc : Doc) : Prop := ∀ body, doc = .alwaysBreak body → body.isLoose = false

theorem firm_spliced (tight : doc.Throughout IsTight) (holdsTight : doc.HoldsTight) :
    ∀ piece ∈ spliced doc, piece.isLoose = false := by
  cases doc with
  | concat parts => exact (throughout_concat.mp tight).1
  | alwaysBreak body => exact List.forall_mem_singleton.mpr (holdsTight body rfl)
  | nil => exact fun _ member => absurd member List.not_mem_nil
  | text value =>
      rw [spliced]
      split
      · exact fun _ member => absurd member List.not_mem_nil
      · exact List.forall_mem_singleton.mpr (beq_eq_false_iff_ne.mpr ‹_›)
  | _ => exact List.forall_mem_singleton.mpr rfl

theorem tight_of_spliced (tight : ∀ piece ∈ spliced doc, piece.Throughout IsTight)
    (firm : ∀ parts, doc = .concat parts → ∀ part ∈ parts, part.isLoose = false) :
    doc.Throughout IsTight := by
  cases doc with
  | concat parts => exact throughout_concat.mpr ⟨firm parts rfl, tight⟩
  | alwaysBreak body =>
      exact (throughout_always_break settles_is_tight).mpr (List.forall_mem_singleton.mp tight)
  | nil => exact throughout_nil settles_is_tight
  | text value => exact throughout_text settles_is_tight value
  | _ => exact List.forall_mem_singleton.mp tight

/-- Concatenations of two parts or more disappear in a larger one, so what they have among their
parts the larger one has. -/
theorem tight_assembled (shaped : ∀ doc ∈ docs, doc.Throughout IsShaped) :
    (assembled docs).Throughout IsTight ↔
      ((docs.flatMap spliced).length ≤ 1 ∨ ∀ doc ∈ docs, doc.HoldsTight) ∧
        ∀ doc ∈ docs, doc.Throughout IsTight := by
  rw [throughout_assembled settles_is_tight, throughout_joined settles_is_tight]
  constructor
  · rintro ⟨whole, pieces⟩
    have among {doc piece : Doc} (isDoc : doc ∈ docs) (isPiece : piece ∈ spliced doc) :
        piece ∈ docs.flatMap spliced := List.mem_flatMap.mpr ⟨doc, isDoc, isPiece⟩
    constructor
    · by_cases several : 2 ≤ (docs.flatMap spliced).length
      · right
        rintro doc isDoc body rfl
        exact whole several body (among isDoc (List.mem_singleton.mpr rfl))
      · left
        omega
    · intro doc isDoc
      apply tight_of_spliced fun piece isPiece => pieces piece (among isDoc isPiece)
      rintro parts rfl
      have several : 2 ≤ parts.length := (throughout_concat.mp (shaped _ isDoc)).1
      have fewer : (spliced (.concat parts)).length ≤ (docs.flatMap spliced).length :=
        (List.sublist_flatten_of_mem (List.mem_map_of_mem isDoc)).length_le
      change parts.length ≤ _ at fewer
      exact fun part member => whole (by omega) part (among isDoc member)
  · rintro ⟨few | holdsTight, tight⟩
    · constructor
      · intro several
        omega
      · exact List.forall_mem_flatMap.mpr fun doc isDoc =>
          throughout_spliced settles_is_tight (tight doc isDoc)
    · constructor
      · intro _
        exact List.forall_mem_flatMap.mpr fun doc isDoc =>
          firm_spliced (tight doc isDoc) (holdsTight doc isDoc)
      · exact List.forall_mem_flatMap.mpr fun doc isDoc =>
          throughout_spliced settles_is_tight (tight doc isDoc)

mutual

/-- A document and everything inside it that its normal form is made of: if the broken side of a
choice forces a break, the flat side is dropped. -/
def kept : Doc → List Doc
  | .concat parts => .concat parts :: keptAll parts
  | .nest indent body => .nest indent body :: body.kept
  | .choice whenBroken whenFlat =>
      .choice whenBroken whenFlat ::
        (whenBroken.kept ++ if whenBroken.normalize.isBreak then [] else whenFlat.kept)
  | .group body => .group body :: body.kept
  | .alwaysBreak body => .alwaysBreak body :: body.kept
  | .fill items => .fill items :: keptAll items
  | .annotated label body => .annotated label body :: body.kept
  | other => [other]

def keptAll : List Doc → List Doc
  | [] => []
  | doc :: rest => doc.kept ++ keptAll rest

end

/-- At most one part is left of a concatenation, or no part that is left is loose. -/
def Flattens : Doc → Prop
  | .concat parts =>
      ((parts.map normalize).flatMap spliced).length ≤ 1 ∨
        ∀ part ∈ parts, part.normalize.HoldsTight
  | _ => True

theorem flattens_of_single (single : ∀ parts, doc ≠ .concat parts) : doc.Flattens := by
  cases doc with
  | concat parts => exact absurd rfl (single parts)
  | _ => trivial

mutual

theorem tight_normalize (doc : Doc) :
    doc.normalize.Throughout IsTight ↔ ∀ part ∈ doc.kept, part.Flattens := by
  match doc with
  | .text _ | .boxed _ | .nil | .hardLine | .tail .. | .mark _ | .foreign _ =>
      simp [normalize, Throughout, within, IsTight, kept, Flattens]
  | .concat parts =>
      have shaped := List.forall_mem_map.mpr (shaped_normalize_all parts)
      rw [normalize, normalize_all_eq_map, tight_assembled shaped, kept, List.forall_mem_cons,
        List.forall_mem_map, List.forall_mem_map, tight_normalize_all parts]
      rfl
  | .fill items =>
      rw [normalize, normalize_all_eq_map, throughout_fill settles_is_tight, List.forall_mem_map,
        tight_normalize_all items, kept, List.forall_mem_cons]
      exact (and_iff_right trivial).symm
  | .nest indent body =>
      rw [normalize, throughout_wrapped settles_is_tight fun _ =>
        throughout_nest settles_is_tight indent, tight_normalize body, kept, List.forall_mem_cons]
      exact (and_iff_right trivial).symm
  | .annotated label body =>
      rw [normalize, throughout_wrapped settles_is_tight fun _ =>
        throughout_annotated settles_is_tight label, tight_normalize body, kept,
        List.forall_mem_cons]
      exact (and_iff_right trivial).symm
  | .group body =>
      rw [normalize, throughout_grouped settles_is_tight, tight_normalize body, kept,
        List.forall_mem_cons]
      exact (and_iff_right trivial).symm
  | .alwaysBreak body =>
      rw [normalize, throughout_broken settles_is_tight, tight_normalize body, kept,
        List.forall_mem_cons]
      exact (and_iff_right trivial).symm
  | .choice whenBroken whenFlat =>
      rw [normalize, throughout_chosen settles_is_tight, tight_normalize whenBroken,
        tight_normalize whenFlat, kept, List.forall_mem_cons, List.forall_mem_append]
      cases whenBroken.normalize.isBreak <;> simp [Flattens]

theorem tight_normalize_all (docs : List Doc) :
    (∀ doc ∈ docs, doc.normalize.Throughout IsTight) ↔ ∀ part ∈ keptAll docs, part.Flattens := by
  match docs with
  | [] => simp [keptAll]
  | doc :: rest =>
      rw [List.forall_mem_cons, tight_normalize doc, tight_normalize_all rest, keptAll,
        List.forall_mem_append]

end

theorem forall_mem_iff_concat {holds : Doc → Prop}
    (others : ∀ doc : Doc, (∀ parts, doc ≠ .concat parts) → holds doc) (docs : List Doc) :
    (∀ doc ∈ docs, holds doc) ↔ ∀ parts, .concat parts ∈ docs → holds (.concat parts) := by
  constructor
  · exact fun each parts member => each _ member
  · intro concats doc member
    cases doc with
    | concat parts => exact concats parts member
    | _ => exact others _ nofun

/-- A document has a normal form without checked texts, in which every concatenation has two parts
or more. None of these parts is a concatenation or empty, if that goes for the content of every
forced break that is taken up into a concatenation of several parts; otherwise one is. -/
theorem concats_of_normalized (constructed : doc.Constructed) :
    doc.normalized = .ok doc.normalize ∧
      (∀ value, .boxed value ∉ doc.normalize.within true true) ∧
      (∀ parts, .concat parts ∈ doc.normalize.within true true → 2 ≤ parts.length) ∧
      ((∀ parts, .concat parts ∈ doc.normalize.within true true →
          ∀ part ∈ parts, part.isLoose = false) ↔
        ∀ parts, .concat parts ∈ doc.kept →
          ((parts.map normalize).flatMap spliced).length ≤ 1 ∨
            ∀ part ∈ parts, ∀ body, part.normalize = .alwaysBreak body →
              body.isLoose = false) := by
  have shaped := shaped_normalize doc
  have tight := tight_normalize doc
  rw [Throughout, forall_mem_iff_concat fun _ => is_tight_of_single,
    forall_mem_iff_concat fun _ => flattens_of_single] at tight
  refine ⟨?_, fun value member => shaped _ member, fun parts member => shaped _ member, tight⟩
  rw [← normalized_unboxed, ← normalize_unboxed]
  exact constructed.unboxed_regular.normalized_eq

/-- A concatenation that ends in a line break stays in the one around it. -/
theorem forced_concat_in_normalized :
    (Doc.concat [.text "a", .concat [.text "b", .hardLine]]).Constructed ∧
      (Doc.concat [.text "a", .concat [.text "b", .hardLine]]).normalized =
        .ok (.alwaysBreak (.concat [.text "a", .concat [.text "b", .hardLine]])) ∧
      ¬ ∀ parts, .concat parts ∈
          (Doc.concat [.text "a", .concat [.text "b", .hardLine]]).normalize.within true true →
        ∀ part ∈ parts, part.isLoose = false := by
  have inner : (Doc.concat [.text "b", .hardLine]).Constructed := by
    apply @Constructed.concat [.text "b", .hardLine] _ _ rfl
    simp [Constructed.text, Constructed.hardLine]
  have constructed : (Doc.concat [.text "a", .concat [.text "b", .hardLine]]).Constructed := by
    apply @Constructed.concat [.text "a", .concat [.text "b", .hardLine]] _ _ rfl
    simp [Constructed.text, inner]
  rcases concats_of_normalized constructed with ⟨normal, -, -, tight⟩
  refine ⟨constructed, normal, ?_⟩
  rw [tight]
  intro flattens
  rcases flattens _ List.mem_cons_self with few | firm
  · exact absurd few (by decide)
  · exact absurd (firm (.concat [.text "b", .hardLine]) (by simp) _ rfl) (by decide)

end KotlinLayout.Doc
