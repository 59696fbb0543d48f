import KotlinLayout.Doc.Combinator
import KotlinLayout.Doc.Normal

/-!
Documents that every layout has a rule for, and the documents that the combinators build. Both
kinds have a normal form, which is sound again.
-/

namespace KotlinLayout

namespace Doc

/-- Documents without line breaks in their texts and without anything foreign, whose choices are
of the given kind and which have fills only if fills are wanted. -/
inductive Sound (choices : Doc → Doc → Prop) (fills : Prop) : Doc → Prop where
  | text {value : String} : '\n' ∉ value.toList → Sound choices fills (.text value)
  | nil : Sound choices fills .nil
  | concat {parts : List Doc} :
      (∀ part ∈ parts, Sound choices fills part) → Sound choices fills (.concat parts)
  | nest {amount : Amount} {body : Doc} :
      Sound choices fills body → Sound choices fills (.nest amount body)
  | choice {whenBroken whenFlat : Doc} :
      choices whenBroken whenFlat → Sound choices fills whenBroken → Sound choices fills whenFlat →
        Sound choices fills (.choice whenBroken whenFlat)
  | hardLine : Sound choices fills .hardLine
  | group {body : Doc} : Sound choices fills body → Sound choices fills (.group body)
  | alwaysBreak {body : Doc} : Sound choices fills body → Sound choices fills (.alwaysBreak body)
  | fill {items : List Doc} :
      fills → (∀ item ∈ items, Sound choices fills item) → Sound choices fills (.fill items)
  | annotated {label : Label} {body : Doc} :
      Sound choices fills body → Sound choices fills (.annotated label body)

variable {choices : Doc → Doc → Prop} {fills : Prop}

theorem Sound.weaken {wider : Doc → Doc → Prop} {more : Prop} {doc : Doc}
    (sound : doc.Sound choices fills)
    (included : ∀ whenBroken whenFlat, choices whenBroken whenFlat → wider whenBroken whenFlat)
    (wanted : fills → more) : doc.Sound wider more := by
  induction sound with
  | text breakless => exact .text breakless
  | nil => exact .nil
  | concat _ induction => exact .concat induction
  | nest _ induction => exact .nest induction
  | choice allowed _ _ broken flat => exact .choice (included _ _ allowed) broken flat
  | hardLine => exact .hardLine
  | group _ induction => exact .group induction
  | alwaysBreak _ induction => exact .alwaysBreak induction
  | fill used _ induction => exact .fill (wanted used) induction
  | annotated _ induction => exact .annotated induction

theorem Sound.defect_eq_none {doc : Doc} (sound : doc.Sound choices fills) :
    doc.defect? = none := by
  induction sound with
  | text | nil | hardLine => rfl
  | concat _ induction => exact (defect_among_eq_none _).mpr induction
  | fill _ _ induction => exact (defect_among_eq_none _).mpr induction
  | choice _ _ _ broken flat => simp [defect?, broken, flat]
  | nest _ induction | group _ induction | alwaysBreak _ induction | annotated _ induction =>
      exact induction

theorem Sound.normalized_eq {doc : Doc} (sound : doc.Sound choices fills) :
    doc.normalized = .ok doc.normalize := by
  simp only [normalized, sound.defect_eq_none]

theorem holds_joined {holds : Doc → Prop} {parts : List Doc} (nothing : holds .nil)
    (each : ∀ part ∈ parts, holds part) (whole : holds (.concat parts)) :
    holds (joined parts) := by
  match parts with
  | [] => exact nothing
  | [part] => exact each part List.mem_cons_self
  | first :: second :: rest => exact whole

theorem sound_joined {parts : List Doc} (sound : ∀ part ∈ parts, part.Sound choices fills) :
    (joined parts).Sound choices fills :=
  holds_joined .nil sound (.concat sound)

theorem sound_spliced {doc : Doc} (sound : doc.Sound choices fills) :
    ∀ part ∈ spliced doc, part.Sound choices fills := by
  cases sound with
  | text breakless =>
      intro part member
      simp only [spliced] at member
      split at member <;> simp_all [Sound.text]
  | nil => simp [spliced]
  | concat parts => exact parts
  | alwaysBreak body => simpa [spliced] using body
  | nest body => simpa [spliced] using Sound.nest body
  | choice allowed broken flat => simpa [spliced] using Sound.choice allowed broken flat
  | hardLine => simpa [spliced] using Sound.hardLine
  | group body => simpa [spliced] using Sound.group body
  | fill wanted items => simpa [spliced] using Sound.fill wanted items
  | annotated body => simpa [spliced] using Sound.annotated body

theorem sound_assembled {parts : List Doc} (sound : ∀ part ∈ parts, part.Sound choices fills) :
    (assembled parts).Sound choices fills := by
  have whole : (joined (parts.flatMap spliced)).Sound choices fills := by
    apply sound_joined
    intro part member
    obtain ⟨doc, isPart, member⟩ := List.mem_flatMap.mp member
    exact sound_spliced (sound doc isPart) part member
  simp only [assembled]
  split
  · exact .alwaysBreak whole
  · exact whole

theorem sound_wrapped {form : Doc → Doc} {doc : Doc}
    (keeps : ∀ body : Doc, body.Sound choices fills → (form body).Sound choices fills)
    (sound : doc.Sound choices fills) : (wrapped form doc).Sound choices fills := by
  cases sound with
  | alwaysBreak body => exact .alwaysBreak (keeps _ body)
  | _ => apply keeps; constructor <;> assumption

theorem sound_grouped {doc : Doc} (sound : doc.Sound choices fills) :
    (grouped doc).Sound choices fills := by
  cases sound with
  | hardLine => exact .alwaysBreak .hardLine
  | text breakless => exact .text breakless
  | nil => exact .nil
  | group body => exact .group body
  | alwaysBreak body => exact .alwaysBreak body
  | _ => apply Sound.group; constructor <;> assumption

theorem sound_broken {doc : Doc} (sound : doc.Sound choices fills) :
    (broken doc).Sound choices fills := by
  cases sound with
  | alwaysBreak body => exact .alwaysBreak body
  | _ => apply Sound.alwaysBreak; constructor <;> assumption

/-- A normal form is sound, and its choices are of a kind that normal forms of choices keep to. -/
theorem Sound.normalize {doc : Doc} (sound : doc.Sound choices fills)
    (closed : ∀ whenBroken whenFlat, choices whenBroken whenFlat →
      choices whenBroken.normalize whenFlat.normalize) :
    doc.normalize.Sound choices fills := by
  induction sound with
  | text breakless => exact .text breakless
  | nil => exact .nil
  | hardLine => exact .hardLine
  | @concat parts _ induction =>
      rw [Doc.normalize, normalize_all_eq_map]
      apply sound_assembled
      intro part member
      obtain ⟨doc, isPart, rfl⟩ := List.mem_map.mp member
      exact induction doc isPart
  | nest _ induction => exact sound_wrapped (fun _ body => .nest body) induction
  | annotated _ induction => exact sound_wrapped (fun _ body => .annotated body) induction
  | @choice whenBroken whenFlat allowed _ _ broken flat =>
      have decided := closed _ _ allowed
      rw [Doc.normalize]
      generalize whenBroken.normalize = side at decided broken
      cases broken with
      | alwaysBreak body => exact .alwaysBreak body
      | _ => apply Sound.choice decided _ flat; constructor <;> assumption
  | group _ induction => exact sound_grouped induction
  | alwaysBreak _ induction => exact sound_broken induction
  | fill wanted _ induction =>
      rw [Doc.normalize, normalize_all_eq_map]
      apply Sound.fill wanted
      intro part member
      obtain ⟨doc, isPart, rfl⟩ := List.mem_map.mp member
      exact induction doc isPart

/-- Documents that every layout has a rule for, whatever their choices are between. -/
def Regular (doc : Doc) : Prop := doc.Sound (fun _ _ => True) True

theorem Sound.regular {doc : Doc} (sound : doc.Sound choices fills) : doc.Regular :=
  sound.weaken (fun _ _ _ => trivial) fun _ => trivial

theorem regular_normalize {doc : Doc} (regular : doc.Regular) : doc.normalize.Regular :=
  Sound.normalize regular fun _ _ _ => trivial

end Doc

end KotlinLayout
