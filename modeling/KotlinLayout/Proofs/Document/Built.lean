import KotlinLayout.Proofs.Document.Sound

/-!
The documents that the combinators build from texts, the empty document and line breaks. Which
constants and combinators beyond the plain ones are used is a list, so that statements can be
about the documents that do without some of them.
-/

namespace KotlinLayout

/-- What a document may be built with beyond texts, blanks or line breaks, and plain
combinators. -/
inductive Extra where
  | softLine
  | hardLine
  | choice
  | fill
  deriving DecidableEq

def Extra.all : List Extra := [.softLine, .hardLine, .choice, .fill]

def Extra.choices (extras : List Extra) (whenBroken whenFlat : Doc) : Prop :=
  (whenBroken = .hardLine ∧ whenFlat = .text " ") ∨
    (Extra.softLine ∈ extras ∧ whenBroken = .hardLine ∧ whenFlat = .nil) ∨ Extra.choice ∈ extras

namespace Doc

/-- A text stands for itself; as a part of another document the empty text becomes the empty
document, which is all that the text combinator adds. -/
inductive Built (extras : List Extra) : Doc → Prop where
  | text {value : String} : '\n' ∉ value.toList → Built extras (.text value)
  | nil : Built extras .nil
  | line : Built extras Doc.line
  | softLine : Extra.softLine ∈ extras → Built extras Doc.softLine
  | hardLine : Extra.hardLine ∈ extras → Built extras .hardLine
  | concat {docs : List Doc} {doc : Doc} :
      (∀ part ∈ docs, Built extras part) → Combinator.concat docs = .ok doc → Built extras doc
  | hsep {docs : List Doc} {doc : Doc} :
      (∀ part ∈ docs, Built extras part) → Combinator.hsep docs = .ok doc → Built extras doc
  | vsep {docs : List Doc} {doc : Doc} :
      (∀ part ∈ docs, Built extras part) → Combinator.vsep docs = .ok doc → Built extras doc
  | stack {upper lower doc : Doc} :
      Built extras upper → Built extras lower → Combinator.stack upper lower = .ok doc →
        Built extras doc
  | nest {indent : Datum} {body doc : Doc} :
      Built extras body → Combinator.nest indent body = .ok doc → Built extras doc
  | annotate {label : Label} {body doc : Doc} :
      Built extras body → Combinator.annotate label body = .ok doc → Built extras doc
  | group {body doc : Doc} :
      Built extras body → Combinator.group body = .ok doc → Built extras doc
  | alwaysBreak {body doc : Doc} :
      Built extras body → Combinator.alwaysBreak body = .ok doc → Built extras doc
  | choice {whenBroken whenFlat doc : Doc} :
      Extra.choice ∈ extras → Built extras whenBroken → Built extras whenFlat →
        Combinator.choice whenBroken whenFlat = .ok doc → Built extras doc
  | fill {docs : List Doc} {doc : Doc} :
      Extra.fill ∈ extras → (∀ part ∈ docs, Built extras part) →
        Combinator.fill docs = .ok doc → Built extras doc
  | fillSep {docs : List Doc} {doc : Doc} :
      Extra.fill ∈ extras → (∀ part ∈ docs, Built extras part) →
        Combinator.fillSep docs = .ok doc → Built extras doc

end Doc

theorem bind_eq_ok_iff {Value Result : Type} {value : Except Fault Value}
    {next : Value → Except Fault Result} {result : Result} :
    (value >>= next) = .ok result ↔ ∃ input, value = .ok input ∧ next input = .ok result := by
  cases value <;> simp [bind, Except.bind]

theorem map_eq_ok_iff {Value Result : Type} {value : Except Fault Value}
    {change : Value → Result} {result : Result} :
    change <$> value = .ok result ↔ ∃ input, value = .ok input ∧ change input = result := by
  cases value <;> simp [Functor.map, Except.map]

namespace Doc

theorem check_text_eq {value checked : String} (success : checkText value = .ok checked) :
    checked = value ∧ '\n' ∉ value.toList := by
  unfold checkText at success
  split at success
  · cases success
  · cases success
    exact ⟨rfl, ‹_›⟩

theorem cast_eq_or_nil {doc part : Doc} (success : Combinator.cast doc = .ok part) :
    part = doc ∨ part = .nil := by
  unfold Combinator.cast at success
  split at success
  · split at success
    · cases success
      exact .inr rfl
    · rcases map_eq_ok_iff.mp success with ⟨value, checked, rfl⟩
      rw [(check_text_eq checked).1]
      exact .inl rfl
  · split at success
    · cases success
      exact .inl rfl
    · rcases bind_eq_ok_iff.mp success with ⟨_, _, failed⟩
      cases failed

theorem holds_cast {holds : Doc → Prop} {doc part : Doc} (nothing : holds .nil)
    (whole : holds doc) (success : Combinator.cast doc = .ok part) : holds part := by
  rcases cast_eq_or_nil success with rfl | rfl
  · exact whole
  · exact nothing

theorem holds_cast_all {holds : Doc → Prop} {docs parts : List Doc} (nothing : holds .nil)
    (each : ∀ doc ∈ docs, holds doc) (success : Combinator.castAll docs = .ok parts) :
    ∀ part ∈ parts, holds part := by
  induction docs generalizing parts with
  | nil =>
      cases success
      simp
  | cons doc rest induction =>
      rcases bind_eq_ok_iff.mp success with ⟨first, isFirst, success⟩
      rcases bind_eq_ok_iff.mp success with ⟨others, areOthers, success⟩
      cases success
      have more := List.forall_mem_cons.mp each
      exact List.forall_mem_cons.mpr
        ⟨holds_cast nothing more.1 isFirst, induction more.2 areOthers⟩

theorem nest_eq_ok {indent : Datum} {body doc : Doc}
    (success : Combinator.nest indent body = .ok doc) :
    ∃ amount part, Combinator.cast body = .ok part ∧ doc = .nest amount part := by
  rcases bind_eq_ok_iff.mp success with ⟨part, isPart, success⟩
  rcases bind_eq_ok_iff.mp success with ⟨amount, _, success⟩
  cases success
  exact ⟨amount, part, isPart, rfl⟩

theorem choice_eq_ok {whenBroken whenFlat doc : Doc}
    (success : Combinator.choice whenBroken whenFlat = .ok doc) :
    ∃ broken flat, Combinator.cast whenBroken = .ok broken ∧ Combinator.cast whenFlat = .ok flat ∧
      doc = .choice broken flat := by
  rcases bind_eq_ok_iff.mp success with ⟨broken, isBroken, success⟩
  rcases bind_eq_ok_iff.mp success with ⟨flat, isFlat, success⟩
  cases success
  exact ⟨broken, flat, isBroken, isFlat, rfl⟩

variable {choices : Doc → Doc → Prop} {fills : Prop}

/-- As a part of another document a document stands for itself, and the empty text for the empty
document. -/
theorem cast_succeeds {doc : Doc} (sound : doc.Sound choices fills) :
    Combinator.cast doc = .ok doc ∨ doc = .text "" ∧ Combinator.cast doc = .ok .nil := by
  cases sound with
  | @text value breakless =>
      by_cases empty : value = ""
      · subst empty
        exact .inr ⟨rfl, rfl⟩
      · rw [Combinator.cast, if_neg empty, checkText, if_neg breakless]
        exact .inl rfl
  | _ => exact .inl rfl

theorem sound_concat {docs : List Doc} {doc : Doc} (sound : ∀ part ∈ docs, part.Sound choices fills)
    (success : Combinator.concat docs = .ok doc) : doc.Sound choices fills := by
  obtain ⟨parts, areParts, rfl⟩ := map_eq_ok_iff.mp success
  exact sound_joined (holds_cast_all .nil sound areParts)

theorem mem_intersperse {separator part : Doc} {docs : List Doc}
    (member : part ∈ docs.intersperse separator) : part = separator ∨ part ∈ docs := by
  induction docs with
  | nil => simp at member
  | cons first rest induction =>
      cases rest with
      | nil => simp_all
      | cons second rest =>
          rw [List.intersperse_cons_cons] at member
          simp only [List.mem_cons] at member induction ⊢
          rcases member with member | member | member
          · exact .inr (.inl member)
          · exact .inl member
          · rcases induction member with same | member
            · exact .inl same
            · exact .inr (.inr member)

theorem map_intersperse (change : Doc → Doc) (separator : Doc) (docs : List Doc) :
    (docs.intersperse separator).map change =
      (docs.map change).intersperse (change separator) := by
  induction docs with
  | nil => rfl
  | cons first rest induction =>
      cases rest with
      | nil => rfl
      | cons second rest =>
          rw [List.intersperse_cons_cons, List.map_cons, List.map_cons, induction]
          rfl

theorem holds_intersperse {holds : Doc → Prop} {separator : Doc} {docs : List Doc}
    (separated : holds separator) (each : ∀ part ∈ docs, holds part) :
    ∀ part ∈ docs.intersperse separator, holds part := by
  intro part member
  rcases mem_intersperse member with rfl | member
  · exact separated
  · exact each part member

/-- Built documents are sound: their choices are those of the constants they use, unless choices
are built freely. -/
theorem Built.sound {extras : List Extra} {doc : Doc} (built : doc.Built extras) :
    doc.Sound (Extra.choices extras) (Extra.fill ∈ extras) := by
  have blank : (Doc.text " ").Sound (Extra.choices extras) (Extra.fill ∈ extras) :=
    .text (by decide)
  have line : Doc.line.Sound (Extra.choices extras) (Extra.fill ∈ extras) :=
    .choice (.inl ⟨rfl, rfl⟩) .hardLine blank
  induction built with
  | text breakless => exact .text breakless
  | nil => exact .nil
  | line => exact line
  | softLine used => exact .choice (.inr (.inl ⟨used, rfl, rfl⟩)) .hardLine .nil
  | hardLine _ => exact .hardLine
  | concat _ success induction => exact sound_concat induction success
  | hsep _ success induction => exact sound_concat (holds_intersperse blank induction) success
  | vsep _ success induction => exact sound_concat (holds_intersperse line induction) success
  | stack _ _ success upper lower =>
      apply sound_concat _ success
      intro part member
      simp only [List.mem_cons, List.not_mem_nil, or_false] at member
      rcases member with rfl | rfl | rfl
      · exact upper
      · exact line
      · exact lower
  | nest _ success induction =>
      rcases nest_eq_ok success with ⟨amount, part, isPart, rfl⟩
      exact .nest (holds_cast .nil induction isPart)
  | annotate _ success induction =>
      obtain ⟨body, isBody, rfl⟩ := map_eq_ok_iff.mp success
      exact .annotated (holds_cast .nil induction isBody)
  | group _ success induction =>
      obtain ⟨body, isBody, rfl⟩ := map_eq_ok_iff.mp success
      exact .group (holds_cast .nil induction isBody)
  | alwaysBreak _ success induction =>
      obtain ⟨body, isBody, rfl⟩ := map_eq_ok_iff.mp success
      exact .alwaysBreak (holds_cast .nil induction isBody)
  | choice used _ _ success broken flat =>
      rcases choice_eq_ok success with ⟨whenBroken, whenFlat, isBroken, isFlat, rfl⟩
      exact .choice (.inr (.inr used)) (holds_cast .nil broken isBroken)
        (holds_cast .nil flat isFlat)
  | fill used _ success induction =>
      obtain ⟨parts, areParts, rfl⟩ := map_eq_ok_iff.mp success
      exact .fill used (holds_cast_all .nil induction areParts)
  | fillSep used _ success induction =>
      obtain ⟨parts, areParts, rfl⟩ := map_eq_ok_iff.mp success
      exact .fill used (holds_intersperse line (holds_cast_all .nil induction areParts))

end Doc

end KotlinLayout
