import KotlinLayout.Proofs.Document.Forced
import KotlinLayout.Proofs.Layout.Normalization

/-!
Normal forms that neither layouts nor normalization tell apart: put into any form and normalized
there, they stay so.
-/

namespace KotlinLayout

open Layout

namespace Doc

open List (Forall₂)

variable {keep : Item → Bool} {doc other : Doc} {docs others : List Doc}

/-- No layout tells the documents apart, and both are forced breaks or neither is. -/
structure Parallel (keep : Item → Bool) (doc other : Doc) : Prop where
  alike : doc.Interchangeable keep other
  isHardLine : doc.isHardLine = other.isHardLine
  isBreak : doc.isBreak = other.isBreak

/-- Inside a forced break lines are broken, so it is enough that the contents are alike there. -/
theorem alike_of_always_break
    (alike : (Doc.alwaysBreak doc).Alike keep .broken (.alwaysBreak other)) :
    doc.Alike keep .broken other := by
  rcases alike.regular with ⟨⟨⟩, ⟨⟩⟩
  rename_i regular otherRegular
  exact (alike_always_break regular).symm.trans (alike.trans (alike_always_break otherRegular))

namespace Parallel

theorem refl (regular : doc.Regular) : doc.Parallel keep doc :=
  ⟨fun _ _ => .refl regular, rfl, rfl⟩

theorem forces_eq (parallel : doc.Parallel keep other) : forces doc = forces other := by
  rw [Doc.forces_eq, Doc.forces_eq, parallel.isHardLine, parallel.isBreak]

theorem cases (parallel : doc.Parallel keep other) :
    (∃ body otherBody, doc = .alwaysBreak body ∧ other = .alwaysBreak otherBody ∧
      body.Alike keep .broken otherBody) ∨ doc.isBreak = false ∧ other.isBreak = false := by
  cases broken : doc.isBreak with
  | true =>
      rcases exists_of_is_break broken with ⟨body, rfl⟩
      rcases exists_of_is_break (parallel.isBreak.symm.trans broken) with ⟨otherBody, rfl⟩
      exact .inl ⟨body, otherBody, rfl, rfl,
        alike_of_always_break (parallel.alike .broken (.inr rfl))⟩
  | false => exact .inr ⟨rfl, parallel.isBreak.symm.trans broken⟩

theorem wrapped (form otherForm : Doc → Doc)
    (congruent : ∀ {mode : Mode} {doc other : Doc}, mode.Decides → doc.Alike keep mode other →
      (form doc).Alike keep mode (otherForm other))
    (parallel : doc.Parallel keep other) :
    (wrapped form doc).Interchangeable keep (wrapped otherForm other) := by
  intro mode decides
  rcases parallel.cases with ⟨body, otherBody, rfl, rfl, alike⟩ | ⟨unbroken, otherUnbroken⟩
  · exact (congruent (.inr rfl) alike).alwaysBreak
  · rw [wrapped_of_unbroken form unbroken, wrapped_of_unbroken otherForm otherUnbroken]
    exact congruent decides (parallel.alike mode decides)

theorem form {form : Doc → Doc} (solid : ∀ body : Doc, (form body).Solid)
    (congruent : ∀ {mode : Mode} {doc other : Doc}, mode.Decides → doc.Alike keep mode other →
      (form doc).Alike keep mode (form other))
    (parallel : doc.Parallel keep other) :
    (Doc.wrapped form doc).Parallel keep (Doc.wrapped form other) := by
  constructor
  · exact parallel.wrapped form form congruent
  · rw [is_hard_line_wrapped solid, is_hard_line_wrapped solid]
  · rw [is_break_wrapped solid, is_break_wrapped solid, parallel.isBreak]

theorem nest (amount : Amount) (parallel : doc.Parallel keep other) :
    (Doc.wrapped (.nest amount) doc).Parallel keep (Doc.wrapped (.nest amount) other) :=
  parallel.form (solid_nest amount) fun _ alike => alike.nest amount

theorem annotated (label : Label) (parallel : doc.Parallel keep other) :
    (Doc.wrapped (.annotated label) doc).Parallel keep (Doc.wrapped (.annotated label) other) :=
  parallel.form (solid_annotated label) fun decides alike => alike.annotated label decides

theorem grouped (parallel : doc.Parallel keep other) :
    (grouped doc).Parallel keep (grouped other) := by
  have regular := (parallel.alike .broken (.inr rfl)).regular
  refine ⟨fun mode decides => ?_, ?_, ?_⟩
  · cases forced : forces doc with
    | true =>
        rw [Doc.forces_eq, Bool.or_eq_true] at forced
        rcases forced with line | broken
        · rw [eq_of_is_hard_line line, eq_of_is_hard_line (parallel.isHardLine.symm.trans line)]
          exact .refl (.alwaysBreak .hardLine)
        · rcases exists_of_is_break broken with ⟨body, rfl⟩
          rcases exists_of_is_break (parallel.isBreak.symm.trans broken) with ⟨otherBody, rfl⟩
          exact parallel.alike mode decides
    | false =>
        have otherUnforced := parallel.forces_eq.symm.trans forced
        exact (interchangeable_grouped regular.1 forced mode decides).trans
          ((parallel.alike.group mode decides).trans
            (interchangeable_grouped regular.2 otherUnforced mode decides).symm)
  · rw [is_hard_line_grouped, is_hard_line_grouped]
  · rw [is_break_grouped, is_break_grouped, parallel.forces_eq]

theorem broken (parallel : doc.Parallel keep other) :
    (broken doc).Parallel keep (broken other) := by
  have alike := parallel.alike .broken (.inr rfl)
  refine ⟨fun mode _ => ?_, ?_, ?_⟩
  · exact (alike_broken alike.regular.1).trans
      (alike.alwaysBreak.trans (alike_broken alike.regular.2).symm)
  · rw [is_hard_line_broken, is_hard_line_broken]
  · rw [is_break_broken, is_break_broken]

theorem chosen {whenFlat otherFlat : Doc} (flat : whenFlat.Parallel keep otherFlat)
    (parallel : doc.Parallel keep other) :
    (chosen whenFlat doc).Parallel keep (chosen otherFlat other) := by
  refine ⟨fun mode decides => ?_, ?_, ?_⟩
  · rcases parallel.cases with ⟨body, otherBody, rfl, rfl, _⟩ | ⟨unbroken, otherUnbroken⟩
    · exact parallel.alike mode decides
    · rw [chosen_of_unbroken _ unbroken, chosen_of_unbroken _ otherUnbroken]
      exact .choice decides (parallel.alike .broken (.inr rfl)) (flat.alike .flat (.inl rfl))
  · rw [is_hard_line_chosen, is_hard_line_chosen]
  · rw [is_break_chosen, is_break_chosen, parallel.isBreak]

theorem fill (parallel : Forall₂ (Parallel keep) docs others) :
    (Doc.fill docs).Parallel keep (.fill others) :=
  ⟨Interchangeable.fill (parallel.imp fun _ _ same => same.alike), rfl, rfl⟩

theorem any_forces_eq (parallel : Forall₂ (Parallel keep) docs others) :
    docs.any forces = others.any forces := by
  induction parallel with
  | nil => rfl
  | cons first _ induction => rw [List.any_cons, List.any_cons, first.forces_eq, induction]

/-- Parts that force a break on both sides or on neither need to be assembled alike only as far as
forced breaks do not matter. -/
theorem assembled_of_alike (tidy : ∀ doc ∈ docs, doc.Tidy)
    (otherTidy : ∀ other ∈ others, other.Tidy)
    (same : docs.any forces = others.any forces)
    (alike : ∀ mode : Mode, mode.Decides → mode = .broken ∨ docs.any forces = false →
      (assembled docs).Alike keep mode (assembled others)) :
    (assembled docs).Parallel keep (assembled others) := by
  refine ⟨fun mode decides => ?_, ?_, ?_⟩
  · cases forced : docs.any forces with
    | true =>
        -- Both are forced breaks, and lines are broken inside them in any mode.
        have inside := alike .broken (.inr rfl) (.inl rfl)
        rw [Doc.assembled, Doc.assembled, ← same, forced] at inside ⊢
        exact (alike_of_always_break inside).alwaysBreak
    | false => exact alike mode decides (.inr forced)
  · rw [is_hard_line_assembled tidy, is_hard_line_assembled otherTidy]
  · rw [is_break_assembled tidy, is_break_assembled otherTidy, same]

theorem assembled (silent : keep (.text "") = false) (tidy : ∀ doc ∈ docs, doc.Tidy)
    (otherTidy : ∀ other ∈ others, other.Tidy) (parallel : Forall₂ (Parallel keep) docs others) :
    (assembled docs).Parallel keep (assembled others) := by
  have same := any_forces_eq parallel
  apply assembled_of_alike tidy otherTidy same
  intro mode decides untouched
  have parts := parallel.imp fun _ _ same => same.alike mode decides
  have regular := regular_of_alike parts
  have otherUntouched : mode = .broken ∨ others.any forces = false := by
    rwa [← same]
  exact (alike_assembled silent decides untouched regular.1).trans
    ((Alike.concat decides parts).trans
      (alike_assembled silent decides otherUntouched regular.2).symm)

end Parallel

end Doc

end KotlinLayout
