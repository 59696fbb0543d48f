import KotlinLayout.Proofs.Document.Forced
import KotlinLayout.Proofs.Layout.Expansion

/-!
Documents that stay on one line when they are flat, and documents in which everything that may be
laid out flat is such. Normalization moves forced breaks out of groups, so the groups of a normal
form are of the first kind.
-/

namespace KotlinLayout

namespace Doc

open Layout

/-- No forced break stands where the flat layout would meet it. -/
inductive Level : Doc → Prop where
  | text {value : String} : Level (.text value)
  | nil : Level .nil
  | concat {parts : List Doc} : (∀ part ∈ parts, part.Level) → Level (.concat parts)
  | nest {amount : Amount} {body : Doc} : body.Level → Level (.nest amount body)
  | choice {whenBroken whenFlat : Doc} : whenFlat.Level → Level (.choice whenBroken whenFlat)
  | group {body : Doc} : body.Level → Level (.group body)
  | fill {items : List Doc} : (∀ item ∈ items, item.Level) → Level (.fill items)
  | annotated {label : Label} {body : Doc} : body.Level → Level (.annotated label body)

theorem breaks_flat_map {docs : List Doc} {expansion : Doc → List Item}
    (level : ∀ doc ∈ docs, breaks (expansion doc) = false) :
    breaks (docs.flatMap expansion) = false := by
  induction docs with
  | nil => rfl
  | cons doc rest induction =>
      rw [List.flatMap_cons, breaks_append, level doc (by simp), Bool.false_or]
      exact induction fun doc member => level doc (by simp [member])

theorem Level.stays {doc : Doc} (level : doc.Level) (indent : Int) :
    breaks (doc.expand indent .flat) = false := by
  induction level generalizing indent with
  | text | nil => rfl
  | concat _ induction =>
      rw [expand_concat]
      exact breaks_flat_map fun part member => induction part member indent
  | fill _ induction =>
      rw [expand_fill]
      exact breaks_flat_map fun item member => induction item member indent
  | nest _ induction | choice _ induction | group _ induction =>
      rw [expand]
      exact induction _
  | annotated _ induction =>
      simp [expand, breaks, breaks_append, induction]

theorem Level.forces_eq {doc : Doc} (level : doc.Level) : forces doc = false := by
  cases level <;> rfl

theorem Level.wrapped_eq {doc : Doc} (level : doc.Level) (form : Doc → Doc) :
    wrapped form doc = form doc := by
  cases level <;> rfl

inductive Separated : List Doc → Prop where
  | nil : Separated []
  | last {content : Doc} : Separated [content]
  | next {content next : Doc} {others : List Doc} :
      Separated (next :: others) → Separated (content :: Doc.line :: next :: others)

/-- Whatever may be laid out flat stays on one line then: the contents of groups and of fills.
The other side of a choice is a line break, and the contents of fills stand apart by lines. -/
inductive Steady : Doc → Prop where
  | text {value : String} : Steady (.text value)
  | nil : Steady .nil
  | hardLine : Steady .hardLine
  | concat {parts : List Doc} : (∀ part ∈ parts, part.Steady) → Steady (.concat parts)
  | nest {amount : Amount} {body : Doc} : body.Steady → Steady (.nest amount body)
  | choice {whenFlat : Doc} : whenFlat.Steady → Steady (.choice .hardLine whenFlat)
  | group {body : Doc} : body.Level → body.Steady → Steady (.group body)
  | alwaysBreak {body : Doc} : body.Steady → Steady (.alwaysBreak body)
  | fill {items : List Doc} :
      Separated items → (∀ item ∈ items, item.Level) → (∀ item ∈ items, item.Steady) →
        Steady (.fill items)
  | annotated {label : Label} {body : Doc} : body.Steady → Steady (.annotated label body)
  | mark {item : Item} : Steady (.mark item)

theorem head_width_flat_map_mono {docs : List Doc} {narrow wide : Doc → List Item}
    (each : ∀ doc ∈ docs, ∀ later,
      headWidth (narrow doc ++ later) ≤ headWidth (wide doc ++ later)) (later : List Item) :
    headWidth (docs.flatMap narrow ++ later) ≤ headWidth (docs.flatMap wide ++ later) := by
  induction docs with
  | nil => exact Nat.le_refl _
  | cons doc rest induction =>
      have others := induction fun doc member => each doc (by simp [member])
      rw [List.flatMap_cons, List.flatMap_cons, List.append_assoc, List.append_assoc]
      calc headWidth (narrow doc ++ (rest.flatMap narrow ++ later))
          ≤ headWidth (wide doc ++ (rest.flatMap narrow ++ later)) := each doc (by simp) _
        _ ≤ headWidth (wide doc ++ (rest.flatMap wide ++ later)) :=
            head_width_append_mono _ others

/-- Broken, a document takes no more of its first line than flat. -/
theorem Steady.narrower {doc : Doc} (steady : doc.Steady) (indent : Int) (later : List Item) :
    headWidth (doc.expand indent .broken ++ later) ≤
      headWidth (doc.expand indent .flat ++ later) := by
  induction steady generalizing indent later with
  | text | nil | hardLine | alwaysBreak _ _ => exact Nat.le_refl _
  | @mark item => cases item <;> exact Nat.le_refl _
  | concat _ induction =>
      rw [expand_concat, expand_concat]
      exact head_width_flat_map_mono (fun part member => induction part member indent) later
  | fill _ _ _ induction =>
      rw [expand_fill, expand_fill]
      exact head_width_flat_map_mono (fun item member => induction item member indent) later
  | nest _ induction | group _ _ induction =>
      rw [expand, expand]
      exact induction _ later
  | choice _ _ => exact Nat.zero_le _
  | annotated _ induction =>
      rw [expand, expand, List.cons_append, List.cons_append, List.append_assoc,
        List.append_assoc]
      exact induction indent _

theorem steady_joined {parts : List Doc} (steady : ∀ part ∈ parts, part.Steady) :
    (joined parts).Steady :=
  holds_joined .nil steady (.concat steady)

theorem level_joined {parts : List Doc} (level : ∀ part ∈ parts, part.Level) :
    (joined parts).Level :=
  holds_joined .nil level (.concat level)

theorem steady_spliced {doc : Doc} (steady : doc.Steady) : ∀ part ∈ spliced doc, part.Steady := by
  cases steady with
  | text =>
      intro part member
      simp only [spliced] at member
      split at member <;> simp_all [Steady.text]
  | nil => simp [spliced]
  | concat parts => exact parts
  | alwaysBreak body => simpa [spliced] using body
  | _ =>
      simp only [spliced, List.mem_singleton, forall_eq]
      constructor <;> assumption

theorem level_spliced {doc : Doc} (level : doc.Level) : ∀ part ∈ spliced doc, part.Level := by
  cases level with
  | text =>
      intro part member
      simp only [spliced] at member
      split at member <;> simp_all [Level.text]
  | nil => simp [spliced]
  | concat parts => exact parts
  | _ =>
      simp only [spliced, List.mem_singleton, forall_eq]
      constructor
      assumption

theorem steady_assembled {parts : List Doc} (steady : ∀ part ∈ parts, part.Steady) :
    (assembled parts).Steady := by
  have whole : (joined (parts.flatMap spliced)).Steady := by
    apply steady_joined
    intro piece member
    obtain ⟨part, isPart, member⟩ := List.mem_flatMap.mp member
    exact steady_spliced (steady part isPart) piece member
  simp only [assembled]
  split
  · exact .alwaysBreak whole
  · exact whole

theorem assembled_of_level {parts : List Doc} (level : ∀ part ∈ parts, part.Level) :
    assembled parts = joined (parts.flatMap spliced) := by
  apply assembled_of_unforced
  rw [List.any_eq_false]
  intro part isPart forcing
  rw [(level part isPart).forces_eq] at forcing
  cases forcing

theorem level_assembled {parts : List Doc} (level : ∀ part ∈ parts, part.Level) :
    (assembled parts).Level := by
  rw [assembled_of_level level]
  apply level_joined
  intro piece member
  obtain ⟨part, isPart, member⟩ := List.mem_flatMap.mp member
  exact level_spliced (level part isPart) piece member

theorem level_grouped {doc : Doc} (level : doc.Level) : (grouped doc).Level := by
  cases level with
  | text => exact .text
  | nil => exact .nil
  | group level => exact .group level
  | concat level => exact .group (.concat level)
  | nest level => exact .group (.nest level)
  | choice level => exact .group (.choice level)
  | fill level => exact .group (.fill level)
  | annotated level => exact .group (.annotated level)

theorem steady_grouped {doc : Doc} (steady : doc.Steady)
    (level : doc.Level ∨ ∃ body, doc = .alwaysBreak body) : (grouped doc).Steady := by
  rcases level with level | ⟨body, rfl⟩
  · unfold grouped
    split
    · cases level
    · exact steady
    · exact steady
    · exact steady
    · exact steady
    · exact steady
    · exact .group level steady
  · exact steady

/-- What normalization makes of a document: it is level, or it is forced to break as a whole. -/
structure Settled (doc : Doc) : Prop where
  steady : doc.Steady
  level : doc.Level ∨ ∃ body, doc = .alwaysBreak body

theorem settled_assembled {parts : List Doc}
    (settled : ∀ part ∈ parts, part = .hardLine ∨ part.Settled) : (assembled parts).Settled := by
  have steady : ∀ part ∈ parts, part.Steady := by
    intro part isPart
    rcases settled part isPart with rfl | steady
    · exact .hardLine
    · exact steady.steady
  refine ⟨steady_assembled steady, ?_⟩
  cases forced : parts.any forces with
  | true =>
      right
      exact ⟨joined (parts.flatMap spliced), by simp only [assembled, forced, if_true]⟩
  | false =>
      left
      apply level_assembled
      intro part isPart
      have free := List.any_eq_false.mp forced part isPart
      rcases settled part isPart with rfl | ⟨_, level | ⟨body, rfl⟩⟩
      · exact absurd rfl free
      · exact level
      · exact absurd rfl free

theorem settled_wrapped {form : Doc → Doc} {doc : Doc} (settled : doc.Settled)
    (steady : ∀ body : Doc, body.Steady → (form body).Steady)
    (level : ∀ body : Doc, body.Level → (form body).Level) : (wrapped form doc).Settled := by
  obtain ⟨isSteady, isLevel | ⟨body, rfl⟩⟩ := settled
  · rw [isLevel.wrapped_eq]
    exact ⟨steady doc isSteady, .inl (level doc isLevel)⟩
  · cases isSteady with | alwaysBreak inner =>
    exact ⟨.alwaysBreak (steady body inner), .inr ⟨_, rfl⟩⟩

theorem settled_grouped {doc : Doc} (settled : doc.Settled) : (grouped doc).Settled := by
  refine ⟨steady_grouped settled.steady settled.level, ?_⟩
  rcases settled.level with level | ⟨body, rfl⟩
  · exact .inl (level_grouped level)
  · exact .inr ⟨body, rfl⟩

theorem settled_broken {doc : Doc} (settled : doc.Settled) : (broken doc).Settled := by
  unfold broken
  split
  · exact settled
  · exact ⟨.alwaysBreak settled.steady, .inr ⟨_, rfl⟩⟩

mutual

/-- Forced line breaks stand only between the parts of a concatenation. -/
def confined : Doc → Bool
  | .hardLine => false
  | .concat parts => confinedAmong parts
  | .nest _ body => body.confined
  | .group body => body.confined
  | .alwaysBreak body => body.confined
  | .annotated _ body => body.confined
  | .fill items => confinedEach items
  | _ => true

def confinedAmong : List Doc → Bool
  | [] => true
  | .hardLine :: rest => confinedAmong rest
  | part :: rest => part.confined && confinedAmong rest

def confinedEach : List Doc → Bool
  | [] => true
  | item :: rest => item.confined && confinedEach rest

end

theorem confined_among {parts : List Doc} (confined : confinedAmong parts = true) :
    ∀ part ∈ parts, part = .hardLine ∨ part.confined = true := by
  induction parts with
  | nil => simp
  | cons part rest induction =>
      cases part <;> simp_all [confinedAmong]

def BreakOnly (whenBroken whenFlat : Doc) : Prop :=
  whenBroken = .hardLine ∧ (whenFlat = .text " " ∨ whenFlat = .nil)

/-- Without fills every normal form but a line break is settled, as long as no line break is hidden
from the concatenations and groups around it. -/
theorem settled_of_open {doc : Doc} (sound : doc.Sound BreakOnly False)
    (isOpen : ∀ part ∈ doc.within false false, part.hidesBreak = false)
    (inline : doc.isHardLine = false) : doc.normalize.Settled := by
  induction sound with
  | text _ => exact ⟨.text, .inl .text⟩
  | nil => exact ⟨.nil, .inl .nil⟩
  | hardLine => cases inline
  | fill used => exact used.elim
  | concat _ induction =>
      rw [within_concat, List.forall_mem_cons, List.forall_mem_flatMap] at isOpen
      rw [Doc.normalize, normalize_all_eq_map]
      apply settled_assembled
      rw [List.forall_mem_map]
      intro part isPart
      cases line : part.isHardLine with
      | true =>
          rw [eq_of_is_hard_line line]
          exact .inl rfl
      | false => exact .inr (induction part isPart (isOpen.2 part isPart) line)
  | nest _ induction =>
      rcases List.forall_mem_cons.mp isOpen with ⟨visible, inside⟩
      exact settled_wrapped (induction inside visible) (fun _ body => .nest body)
        fun _ body => .nest body
  | annotated _ induction =>
      rcases List.forall_mem_cons.mp isOpen with ⟨visible, inside⟩
      exact settled_wrapped (induction inside visible) (fun _ body => .annotated body)
        fun _ body => .annotated body
  | choice allowed _ _ _ _ =>
      rcases allowed with ⟨rfl, rfl | rfl⟩
      · exact ⟨.choice .text, .inl (.choice .text)⟩
      · exact ⟨.choice .nil, .inl (.choice .nil)⟩
  | @group body _ induction =>
      have inside := (List.forall_mem_cons.mp isOpen).2
      cases line : body.isHardLine with
      | true =>
          rw [eq_of_is_hard_line line]
          exact ⟨.alwaysBreak .hardLine, .inr ⟨_, rfl⟩⟩
      | false => exact settled_grouped (induction inside line)
  | @alwaysBreak body _ induction =>
      have inside := (List.forall_mem_cons.mp isOpen).2
      cases line : body.isHardLine with
      | true =>
          rw [eq_of_is_hard_line line]
          exact ⟨.alwaysBreak .hardLine, .inr ⟨_, rfl⟩⟩
      | false => exact settled_broken (induction inside line)

theorem inline_of_confined {doc : Doc} (isConfined : doc.confined = true) :
    doc.isHardLine = false := by
  cases doc with
  | hardLine => cases isConfined
  | _ => rfl

/-- Between the parts of concatenations no line break is hidden. -/
theorem open_of_confined {doc : Doc} (sound : doc.Sound BreakOnly False)
    (isConfined : doc.confined = true) :
    ∀ part ∈ doc.within false false, part.hidesBreak = false := by
  induction sound with
  | text _ | nil | choice => exact List.forall_mem_singleton.mpr rfl
  | hardLine => cases isConfined
  | fill used => exact used.elim
  | concat _ induction =>
      rw [within_concat, List.forall_mem_cons, List.forall_mem_flatMap]
      refine ⟨rfl, fun part isPart => ?_⟩
      rcases confined_among isConfined part isPart with rfl | inside
      · exact List.forall_mem_singleton.mpr rfl
      · exact induction part isPart inside
  | nest _ induction | annotated _ induction =>
      exact List.forall_mem_cons.mpr ⟨inline_of_confined isConfined, induction isConfined⟩
  | group _ induction | alwaysBreak _ induction =>
      exact List.forall_mem_cons.mpr ⟨rfl, induction isConfined⟩

theorem settled_normalize {doc : Doc} (sound : doc.Sound BreakOnly False)
    (isConfined : doc.confined = true) : doc.normalize.Settled :=
  settled_of_open sound (open_of_confined sound isConfined) (inline_of_confined isConfined)

end Doc

end KotlinLayout
