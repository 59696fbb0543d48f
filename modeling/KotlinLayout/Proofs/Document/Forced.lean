import KotlinLayout.Proofs.Document.Sound

/-!
Where normalization finds forced breaks, and what it makes of them. What an unforced part
contributes to a concatenation is unforced, so a normal form is a forced break if some part inside
has one to pass on.
-/

namespace KotlinLayout.Doc

variable {doc : Doc} {docs : List Doc}

/-- Documents that a concatenation takes up as they are. -/
structure Solid (doc : Doc) : Prop where
  unforced : forces doc = false
  single : ∀ parts, doc ≠ .concat parts

theorem Solid.eq_of_mem_spliced (solid : doc.Solid) {piece : Doc} (member : piece ∈ spliced doc) :
    piece = doc := by
  cases doc with
  | concat parts => exact absurd rfl (solid.single parts)
  | alwaysBreak body => cases solid.unforced
  | text value =>
      by_cases empty : value = ""
      · simp [spliced, empty] at member
      · simpa [spliced, empty] using member
  | nil => simp [spliced] at member
  | _ => simpa [spliced] using member

/-- What an unforced document contributes to a concatenation is unforced as well, and no
concatenation any more. -/
def Tidy (doc : Doc) : Prop := forces doc = false → ∀ piece ∈ spliced doc, piece.Solid

theorem Solid.tidy (solid : doc.Solid) : doc.Tidy := by
  intro _ piece member
  rw [solid.eq_of_mem_spliced member]
  exact solid

theorem tidy_of_forces (forced : forces doc = true) : doc.Tidy := by
  intro unforced
  rw [forced] at unforced
  cases unforced

theorem solid_pieces (tidy : ∀ doc ∈ docs, doc.Tidy) (unforced : docs.any forces = false) :
    ∀ piece ∈ docs.flatMap spliced, piece.Solid := by
  intro piece member
  obtain ⟨doc, isDoc, isPiece⟩ := List.mem_flatMap.mp member
  have docUnforced := Bool.eq_false_iff.mpr (List.any_eq_false.mp unforced doc isDoc)
  exact tidy doc isDoc docUnforced piece isPiece

theorem assembled_of_unforced (unforced : docs.any forces = false) :
    assembled docs = joined (docs.flatMap spliced) := by
  rw [assembled, unforced]
  rfl

theorem forces_joined (solid : ∀ doc ∈ docs, doc.Solid) : forces (joined docs) = false := by
  match docs with
  | [] => rfl
  | [doc] => exact (solid doc (by simp)).unforced
  | first :: second :: rest => rfl

theorem tidy_joined (solid : ∀ doc ∈ docs, doc.Solid) : (joined docs).Tidy := by
  match docs with
  | [] => exact fun _ piece member => by simp [joined, spliced] at member
  | [doc] => exact (solid doc (by simp)).tidy
  | first :: second :: rest => exact fun _ => solid

theorem forces_assembled (tidy : ∀ doc ∈ docs, doc.Tidy) (unforced : docs.any forces = false) :
    forces (assembled docs) = false := by
  rw [assembled_of_unforced unforced]
  exact forces_joined (solid_pieces tidy unforced)

theorem tidy_assembled (tidy : ∀ doc ∈ docs, doc.Tidy) : (assembled docs).Tidy := by
  cases forced : docs.any forces with
  | true =>
      apply tidy_of_forces
      rw [assembled, forced]
      rfl
  | false =>
      rw [assembled_of_unforced forced]
      exact tidy_joined (solid_pieces tidy forced)

theorem tidy_wrapped {form : Doc → Doc} (solid : ∀ body : Doc, (form body).Solid) (doc : Doc) :
    (wrapped form doc).Tidy := by
  cases doc with
  | alwaysBreak body => exact tidy_of_forces rfl
  | _ => exact (solid _).tidy

theorem forces_grouped (doc : Doc) : forces (grouped doc) = forces doc := by
  cases doc with
  | foreign value => cases value <;> rfl
  | _ => rfl

theorem solid_nest (amount : Amount) (body : Doc) : (Doc.nest amount body).Solid :=
  ⟨rfl, by simp⟩

theorem solid_annotated (label : Label) (body : Doc) : (Doc.annotated label body).Solid :=
  ⟨rfl, by simp⟩

theorem tidy_normalize (regular : doc.Regular) : doc.normalize.Tidy := by
  induction regular with
  | text _ => exact Solid.tidy ⟨rfl, by simp [normalize]⟩
  | nil => exact Solid.tidy ⟨rfl, by simp [normalize]⟩
  | hardLine => exact tidy_of_forces rfl
  | fill _ _ _ => exact Solid.tidy ⟨rfl, by simp [normalize]⟩
  | @concat parts _ induction =>
      rw [normalize, normalize_all_eq_map]
      exact tidy_assembled (List.forall_mem_map.mpr induction)
  | @nest amount body _ _ => exact tidy_wrapped (solid_nest amount) body.normalize
  | @annotated label body _ _ => exact tidy_wrapped (solid_annotated label) body.normalize
  | @choice whenBroken whenFlat _ _ _ broken _ =>
      rw [normalize]
      generalize whenBroken.normalize = side at broken
      cases side with
      | alwaysBreak body => exact tidy_of_forces rfl
      | _ => exact Solid.tidy ⟨rfl, by simp [chosen]⟩
  | @group body _ induction =>
      rw [normalize]
      generalize body.normalize = side at induction
      cases side with
      | hardLine | alwaysBreak => exact tidy_of_forces rfl
      | text | nil | group => exact induction
      | foreign value => cases value <;> exact Solid.tidy ⟨rfl, by simp [grouped]⟩
      | _ => exact Solid.tidy ⟨rfl, by simp [grouped]⟩
  | @alwaysBreak body _ _ =>
      apply tidy_of_forces
      rw [normalize]
      cases body.normalize <;> rfl

def isBreak : Doc → Bool
  | .alwaysBreak _ => true
  | _ => false

def isHardLine : Doc → Bool
  | .hardLine => true
  | _ => false

theorem forces_eq (doc : Doc) : forces doc = (doc.isHardLine || doc.isBreak) := by
  cases doc <;> rfl

theorem unforced_iff : forces doc = false ↔ doc.isHardLine = false ∧ doc.isBreak = false := by
  rw [forces_eq, Bool.or_eq_false_iff]

theorem eq_of_is_hard_line (line : doc.isHardLine = true) : doc = .hardLine := by
  cases doc with
  | hardLine => rfl
  | _ => cases line

theorem exists_of_is_break (isBreak : doc.isBreak = true) : ∃ body, doc = .alwaysBreak body := by
  cases doc with
  | alwaysBreak body => exact ⟨body, rfl⟩
  | _ => cases isBreak

theorem is_break_iff : doc.isBreak = true ↔ ∃ body, doc = .alwaysBreak body := by
  constructor
  · exact exists_of_is_break
  · rintro ⟨body, rfl⟩
    rfl

theorem wrapped_of_unbroken (form : Doc → Doc) (unbroken : doc.isBreak = false) :
    wrapped form doc = form doc := by
  cases doc with
  | alwaysBreak body => cases unbroken
  | _ => rfl

theorem chosen_of_unbroken (whenFlat : Doc) (unbroken : doc.isBreak = false) :
    chosen whenFlat doc = .choice doc whenFlat := by
  cases doc with
  | alwaysBreak body => cases unbroken
  | _ => rfl

theorem Solid.is_break_eq (solid : doc.Solid) : doc.isBreak = false :=
  (unforced_iff.mp solid.unforced).2

theorem Solid.is_hard_line_eq (solid : doc.Solid) : doc.isHardLine = false :=
  (unforced_iff.mp solid.unforced).1

section Wrapped

variable {form : Doc → Doc} (solid : ∀ body : Doc, (form body).Solid) (doc : Doc)

include solid

theorem is_break_wrapped : (wrapped form doc).isBreak = doc.isBreak := by
  cases doc with
  | alwaysBreak body => rfl
  | _ => exact (solid _).is_break_eq

theorem is_hard_line_wrapped : (wrapped form doc).isHardLine = false := by
  cases doc with
  | alwaysBreak body => rfl
  | _ => exact (solid _).is_hard_line_eq

end Wrapped

theorem is_break_grouped (doc : Doc) : (grouped doc).isBreak = forces doc := by
  cases doc with
  | foreign value => cases value <;> rfl
  | _ => rfl

theorem is_hard_line_grouped (doc : Doc) : (grouped doc).isHardLine = false := by
  cases doc with
  | foreign value => cases value <;> rfl
  | _ => rfl

theorem is_break_broken (doc : Doc) : (broken doc).isBreak = true := by
  cases doc <;> rfl

theorem is_hard_line_broken (doc : Doc) : (broken doc).isHardLine = false := by
  cases doc <;> rfl

theorem is_break_chosen (whenFlat whenBroken : Doc) :
    (chosen whenFlat whenBroken).isBreak = whenBroken.isBreak := by
  cases whenBroken <;> rfl

theorem is_hard_line_chosen (whenFlat whenBroken : Doc) :
    (chosen whenFlat whenBroken).isHardLine = false := by
  cases whenBroken <;> rfl

section Assembled

variable (tidy : ∀ doc ∈ docs, doc.Tidy)

include tidy

theorem is_break_assembled : (assembled docs).isBreak = docs.any forces := by
  cases forced : docs.any forces with
  | true =>
      rw [assembled, forced]
      rfl
  | false => exact (unforced_iff.mp (forces_assembled tidy forced)).2

theorem is_hard_line_assembled : (assembled docs).isHardLine = false := by
  cases forced : docs.any forces with
  | true =>
      rw [assembled, forced]
      rfl
  | false => exact (unforced_iff.mp (forces_assembled tidy forced)).1

end Assembled

/-- A normal form is a line break only if the document is. Anywhere else a line break becomes a
forced break or stays inside. -/
theorem is_hard_line_normalize (regular : doc.Regular) :
    doc.normalize.isHardLine = doc.isHardLine := by
  cases regular with
  | text | nil | hardLine | fill => rfl
  | concat regular =>
      rw [normalize, normalize_all_eq_map]
      apply is_hard_line_assembled
      exact List.forall_mem_map.mpr fun part member => tidy_normalize (regular part member)
  | nest => exact is_hard_line_wrapped (solid_nest _) _
  | annotated => exact is_hard_line_wrapped (solid_annotated _) _
  | choice => exact is_hard_line_chosen _ _
  | group => exact is_hard_line_grouped _
  | alwaysBreak => exact is_hard_line_broken _

mutual

/-- A document and everything inside it, on the sides of choices that are asked for. -/
def within (broken flat : Bool) : Doc → List Doc
  | .concat parts => .concat parts :: withinAll broken flat parts
  | .nest indent body => .nest indent body :: body.within broken flat
  | .choice whenBroken whenFlat =>
      .choice whenBroken whenFlat ::
        ((if broken then whenBroken.within broken flat else []) ++
          if flat then whenFlat.within broken flat else [])
  | .group body => .group body :: body.within broken flat
  | .alwaysBreak body => .alwaysBreak body :: body.within broken flat
  | .fill items => .fill items :: withinAll broken flat items
  | .annotated label body => .annotated label body :: body.within broken flat
  | other => [other]

def withinAll (broken flat : Bool) : List Doc → List Doc
  | [] => []
  | doc :: rest => doc.within broken flat ++ withinAll broken flat rest

end

theorem within_all_eq_flat_map (broken flat : Bool) (docs : List Doc) :
    withinAll broken flat docs = docs.flatMap (within broken flat) := by
  induction docs with
  | nil => rfl
  | cons doc rest induction => rw [withinAll, induction, List.flatMap_cons]

@[simp] theorem within_concat (broken flat : Bool) (parts : List Doc) :
    (Doc.concat parts).within broken flat =
      .concat parts :: parts.flatMap (within broken flat) := by
  rw [within, within_all_eq_flat_map]

@[simp] theorem within_fill (broken flat : Bool) (items : List Doc) :
    (Doc.fill items).within broken flat = .fill items :: items.flatMap (within broken flat) := by
  rw [within, within_all_eq_flat_map]

theorem mem_within_self (broken flat : Bool) (doc : Doc) : doc ∈ doc.within broken flat := by
  cases doc <;> simp [within]

/-- A line break that neither a concatenation nor a group gets to see. -/
def hidesBreak : Doc → Bool
  | .nest _ body | .annotated _ body => body.isHardLine
  | _ => false

/-- A forced break, or what makes one of a line break inside. -/
def opensBreak : Doc → Bool
  | .alwaysBreak _ => true
  | .group body => body.isHardLine
  | .concat parts => parts.any isHardLine
  | _ => false

end KotlinLayout.Doc
