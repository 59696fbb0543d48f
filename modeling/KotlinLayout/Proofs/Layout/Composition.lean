import KotlinLayout.Proofs.Document.Contents
import KotlinLayout.Proofs.Layout.Reach

/-!
What layouts are composed of: texts of the document and line starts, one after another, and the
items between the two marks of a label. A layout that ends without a fault takes one side of each
choice and leaves out nothing but empty texts, so a property that every such composition has, the
layout has as well.
-/

namespace KotlinLayout

open Layout

/-- Items that a document may be laid out as. -/
inductive Doc.Laid : Doc → List Item → Prop where
  | text {value : String} : Laid (.text value) [.text value]
  | empty : Laid (.text "") []
  | boxed {value : String} {items : List Item} :
      Laid (.text value) items → Laid (.boxed value) items
  | nil : Laid .nil []
  | hardLine {indent : Int} : Laid .hardLine [.line (.int indent)]
  | concatNil : Laid (.concat []) []
  | concatCons {part : Doc} {rest : List Doc} {first others : List Item} :
      Laid part first → Laid (.concat rest) others → Laid (.concat (part :: rest)) (first ++ others)
  | fillNil : Laid (.fill []) []
  | fillCons {item : Doc} {rest : List Doc} {first others : List Item} :
      Laid item first → Laid (.fill rest) others → Laid (.fill (item :: rest)) (first ++ others)
  | nest {amount : Amount} {body : Doc} {items : List Item} :
      Laid body items → Laid (.nest amount body) items
  | group {body : Doc} {items : List Item} : Laid body items → Laid (.group body) items
  | alwaysBreak {body : Doc} {items : List Item} : Laid body items → Laid (.alwaysBreak body) items
  | onBroken {whenBroken whenFlat : Doc} {items : List Item} :
      Laid whenBroken items → Laid (.choice whenBroken whenFlat) items
  | onFlat {whenBroken whenFlat : Doc} {items : List Item} :
      Laid whenFlat items → Laid (.choice whenBroken whenFlat) items
  | annotated {label : Label} {body : Doc} {inner : List Item} :
      Laid body inner → Laid (.annotated label body) (.push label :: (inner ++ [.pop label]))

namespace Run

variable {good front back : List Item → Prop}

def Good (good : List Item → Prop) (run : Run) : Prop :=
  ∀ column, run.finish = .ok column → good run.items

theorem good_and_then {run : Run} {next : Int → Run}
    (append : ∀ {first second}, front first → back second → good (first ++ second))
    (first : run.Good front) (second : ∀ column, (next column).Good back) :
    (run.andThen next).Good good := by
  rcases run with ⟨items, finish⟩
  cases finish with
  | error fault =>
      intro column finished
      cases finished
  | ok reached =>
      intro column finished
      exact append (first reached rfl) (second reached column finished)

theorem good_decided {answer : Except Fault Bool} {next : Mode → Run}
    (good_next : ∀ fits, (next (.ofFits fits)).Good good) : (decided answer next).Good good := by
  cases answer with
  | error fault =>
      intro column finished
      cases finished
  | ok fits => exact good_next fits

end Run

namespace Doc

theorem Laid.fill {item : Doc} {items : List Item} (laid : item.Laid items) :
    (Doc.fill [item]).Laid items := by
  rw [← List.append_nil items]
  exact .fillCons laid .fillNil

theorem laid_all (width indent : Int) (mode : Mode) {docs : List Doc}
    (each : ∀ doc ∈ docs, ∀ pending column,
      (lay width indent mode doc pending column).Good doc.Laid)
    (pending : List Entry) (column : Int) :
    (layAll width indent mode docs pending column).Good (Doc.concat docs).Laid := by
  induction docs generalizing column with
  | nil =>
      rw [layAll]
      exact fun _ _ => .concatNil
  | cons doc rest induction =>
      have more := List.forall_mem_cons.mp each
      rw [layAll]
      exact Run.good_and_then .concatCons (more.1 _ _) (induction more.2)

theorem laid_fill (width indent : Int) (mode : Mode) {items : List Doc}
    (each : ∀ item ∈ items, ∀ mode pending column,
      (lay width indent mode item pending column).Good item.Laid)
    (pending : List Entry) (column : Int) :
    (layFill width indent mode items 0 pending column).Good (Doc.fill items).Laid := by
  match items with
  | [] =>
      rw [layFill]
      exact fun _ _ => .fillNil
  | content :: rest =>
      have more := List.forall_mem_cons.mp each
      rw [layFill]
      split
      · exact Run.good_and_then .fillCons (more.1 _ _ _)
          (laid_fill width indent mode more.2 pending)
      · apply Run.good_decided
        intro contentFits
        match rest with
        | [] => exact fun last finished => (more.1 _ _ _ last finished).fill
        | [separator] =>
            have between := each separator (by simp)
            exact Run.good_and_then .fillCons (more.1 _ _ _) fun column last finished =>
              (between _ _ column last finished).fill
        | separator :: next :: others =>
            have between := each separator (by simp)
            apply Run.good_decided
            intro separatorFits
            exact Run.good_and_then .fillCons (more.1 _ _ _) fun column =>
              Run.good_and_then .fillCons (between _ _ _)
                (laid_fill width indent mode (List.forall_mem_cons.mp more.2).2 pending)

theorem laid_annotated {label : Label} (width indent : Int) (mode : Mode) {body : Doc}
    (inner : ∀ pending column, (lay width indent mode body pending column).Good body.Laid)
    (pending : List Entry) (column : Int) :
    (lay width indent mode (.annotated label body) pending column).Good
      (Doc.annotated label body).Laid := by
  intro last finished
  rw [lay, Run.emit_and_then] at finished ⊢
  have whole := inner (⟨.int indent, mode, .mark (.pop label)⟩ :: pending) column
  cases laidOut : lay width indent mode body
    (⟨.int indent, mode, .mark (.pop label)⟩ :: pending) column with
  | mk items finish =>
      rw [laidOut] at whole finished
      cases finish with
      | error fault => cases finished
      | ok reached => exact .annotated (whole reached rfl)

theorem laid_lay {doc : Doc} (regular : doc.Regular) (width indent : Int) (mode : Mode)
    (pending : List Entry) (column : Int) :
    (lay width indent mode doc pending column).Good doc.Laid := by
  induction regular generalizing indent mode pending column with
  | text => exact fun _ _ => .text
  | nil => exact fun _ _ => .nil
  | hardLine => exact fun _ _ => .hardLine
  | concat _ induction =>
      rw [lay]
      exact laid_all width indent mode (fun part member => induction part member indent mode) _ _
  | fill _ _ induction =>
      rw [lay]
      exact laid_fill width indent mode (fun item member => induction item member indent) _ _
  | nest _ induction => exact fun last finished => .nest (induction _ _ _ _ last finished)
  | alwaysBreak _ induction =>
      exact fun last finished => .alwaysBreak (induction _ _ _ _ last finished)
  | choice _ _ _ broken flat =>
      cases mode with
      | flat => exact fun last finished => .onFlat (flat _ _ _ _ last finished)
      | broken => exact fun last finished => .onBroken (broken _ _ _ _ last finished)
      | wrong =>
          intro last finished
          cases finished
  | group _ induction =>
      rw [lay]
      split
      · exact fun last finished => .group (induction _ _ _ _ last finished)
      · apply Run.good_decided
        exact fun fits last finished => .group (induction _ _ _ _ last finished)
  | annotated _ induction => exact laid_annotated width indent mode (induction indent mode) _ _

namespace Laid

variable {doc : Doc} {docs : List Doc} {items : List Item}

theorem of_singleton (laid : (Doc.concat [doc]).Laid items) : doc.Laid items := by
  cases laid with
  | concatCons first rest =>
      cases rest
      rwa [List.append_nil]

theorem of_joined (laid : (joined docs).Laid items) : (Doc.concat docs).Laid items := by
  match docs with
  | [] =>
      cases laid
      exact .concatNil
  | [doc] =>
      rw [← List.append_nil items]
      exact .concatCons laid .concatNil
  | first :: second :: rest => exact laid

theorem of_append {front back : List Doc} (laid : (Doc.concat (front ++ back)).Laid items) :
    ∃ first others, items = first ++ others ∧ (Doc.concat front).Laid first ∧
      (Doc.concat back).Laid others := by
  induction front generalizing items with
  | nil => exact ⟨[], items, rfl, .concatNil, laid⟩
  | cons part rest induction =>
      cases laid with
      | concatCons head tail =>
          rcases induction tail with ⟨first, others, rfl, inFront, behind⟩
          exact ⟨_, others, (List.append_assoc _ _ _).symm, .concatCons head inFront, behind⟩

theorem of_spliced (laid : (Doc.concat (spliced doc)).Laid items) : doc.Laid items := by
  cases doc with
  | concat parts => exact laid
  | alwaysBreak body => exact .alwaysBreak laid.of_singleton
  | nil =>
      cases laid
      exact .nil
  | text value =>
      by_cases empty : value = ""
      · subst empty
        cases laid
        exact .empty
      · rw [spliced, if_neg empty] at laid
        exact laid.of_singleton
  | _ => exact laid.of_singleton

theorem of_pieces (laid : (Doc.concat (docs.flatMap spliced)).Laid items) :
    (Doc.concat docs).Laid items := by
  induction docs generalizing items with
  | nil => exact laid
  | cons doc rest induction =>
      rw [List.flatMap_cons] at laid
      rcases laid.of_append with ⟨first, others, rfl, inFront, behind⟩
      exact .concatCons inFront.of_spliced (induction behind)

theorem of_assembled (laid : (assembled docs).Laid items) : (Doc.concat docs).Laid items := by
  rw [assembled] at laid
  split at laid
  · cases laid with
    | alwaysBreak whole => exact whole.of_joined.of_pieces
  · exact laid.of_joined.of_pieces

theorem of_nested {amount : Amount} (laid : (wrapped (.nest amount) doc).Laid items) :
    doc.Laid items := by
  cases doc with
  | alwaysBreak body =>
      cases laid with
      | alwaysBreak nested =>
          cases nested with
          | nest inner => exact .alwaysBreak inner
  | _ =>
      cases laid with
      | nest inner => exact inner

theorem of_labeled {label : Label} (laid : (wrapped (.annotated label) doc).Laid items) :
    (Doc.annotated label doc).Laid items := by
  cases doc with
  | alwaysBreak body =>
      cases laid with
      | alwaysBreak labeled =>
          cases labeled with
          | annotated inner => exact .annotated (.alwaysBreak inner)
  | _ => exact laid

theorem of_grouped (laid : (grouped doc).Laid items) : (Doc.group doc).Laid items := by
  cases doc with
  | hardLine =>
      cases laid with
      | alwaysBreak line => exact .group line
  | alwaysBreak | text | group | nil => exact .group laid
  | foreign value => cases value <;> first | exact laid | exact .group laid
  | _ => exact laid

theorem of_broken (laid : (broken doc).Laid items) : (Doc.alwaysBreak doc).Laid items := by
  cases doc with
  | alwaysBreak body => exact .alwaysBreak laid
  | _ => exact laid

theorem of_chosen {whenFlat : Doc} (laid : (chosen whenFlat doc).Laid items) :
    (Doc.choice doc whenFlat).Laid items := by
  cases doc with
  | alwaysBreak body => exact .onBroken laid
  | _ => exact laid

end Laid

mutual

theorem laid_of_normalize (doc : Doc) {items : List Item} (laid : doc.normalize.Laid items) :
    doc.Laid items := by
  match doc with
  | .text _ | .nil | .hardLine | .tail .. | .mark _ | .foreign _ => exact laid
  | .boxed _ => exact .boxed laid
  | .concat parts =>
      rw [normalize, normalize_all_eq_map] at laid
      exact laid_of_normalize_parts parts laid.of_assembled
  | .fill parts =>
      rw [normalize, normalize_all_eq_map] at laid
      exact laid_of_normalize_items parts laid
  | .nest amount body => exact .nest (laid_of_normalize body (Laid.of_nested laid))
  | .annotated label body =>
      cases Laid.of_labeled laid with
      | annotated inner => exact .annotated (laid_of_normalize body inner)
  | .choice whenBroken whenFlat =>
      cases Laid.of_chosen laid with
      | onBroken inner => exact .onBroken (laid_of_normalize whenBroken inner)
      | onFlat inner => exact .onFlat (laid_of_normalize whenFlat inner)
  | .group body =>
      cases Laid.of_grouped laid with
      | group inner => exact .group (laid_of_normalize body inner)
  | .alwaysBreak body =>
      cases Laid.of_broken laid with
      | alwaysBreak inner => exact .alwaysBreak (laid_of_normalize body inner)

theorem laid_of_normalize_parts (parts : List Doc) {items : List Item}
    (laid : (Doc.concat (parts.map normalize)).Laid items) : (Doc.concat parts).Laid items := by
  match parts with
  | [] => exact laid
  | part :: rest =>
      cases laid with
      | concatCons first others =>
          exact .concatCons (laid_of_normalize part first) (laid_of_normalize_parts rest others)

theorem laid_of_normalize_items (docs : List Doc) {items : List Item}
    (laid : (Doc.fill (docs.map normalize)).Laid items) : (Doc.fill docs).Laid items := by
  match docs with
  | [] => exact laid
  | doc :: rest =>
      cases laid with
      | fillCons first others =>
          exact .fillCons (laid_of_normalize doc first) (laid_of_normalize_items rest others)

end

/-- A layout without a fault is one that the document may have. -/
theorem laid_layout {doc : Doc} (normal : doc.normalize.Regular) {width column : Int}
    (finished : (layout doc width).finish = .ok column) : doc.Laid (layout doc width).items := by
  apply laid_of_normalize
  unfold KotlinLayout.layout normalized at finished ⊢
  cases defect : doc.defect? with
  | some fault =>
      rw [defect] at finished
      cases finished
  | none =>
      rw [defect] at finished
      simp only [layEntries, Run.and_then_done] at finished ⊢
      exact laid_lay normal _ _ _ _ _ _ finished

end Doc

/-- A property of items that are composed of some contents and of line starts. -/
structure Composes (contents : Item → Prop) (good : List Item → Prop) : Prop where
  nothing : good []
  append {first second : List Item} : good first → good second → good (first ++ second)
  text {value : String} : contents (.text value) → good [.text value]
  line {indent : Int} : good [.line (.int indent)]
  labeled {label : Label} {inner : List Item} :
    contents (.push label) → good inner → good (.push label :: (inner ++ [.pop label]))

namespace Composes

variable {contents : Item → Prop} {good : List Item → Prop}

theorem of_laid (composes : Composes contents good) {doc : Doc} {items : List Item}
    (laid : doc.Laid items) (allowed : ∀ item ∈ doc.contents, contents item) : good items := by
  induction laid with
  | text => exact composes.text (allowed _ List.mem_cons_self)
  | empty | nil | concatNil | fillNil => exact composes.nothing
  | hardLine => exact composes.line
  | concatCons _ _ first rest | fillCons _ _ first rest =>
      rcases List.forall_mem_append.mp allowed with ⟨here, later⟩
      exact composes.append (first here) (rest later)
  | boxed _ induction | nest _ induction | group _ induction | alwaysBreak _ induction =>
      exact induction allowed
  | onBroken _ induction => exact induction (List.forall_mem_append.mp allowed).1
  | onFlat _ induction => exact induction (List.forall_mem_append.mp allowed).2
  | annotated _ induction =>
      rcases List.forall_mem_cons.mp allowed with ⟨mark, inside⟩
      exact composes.labeled mark (induction inside)

/-- What every composition of the texts and labels of a document has, its layout has. -/
theorem layout (composes : Composes contents good) {doc : Doc} (normal : doc.normalize.Regular)
    (allowed : ∀ item ∈ doc.contents, contents item) {width column : Int}
    (finished : (layout doc width).finish = .ok column) : good (layout doc width).items :=
  composes.of_laid (Doc.laid_layout normal finished) allowed

end Composes

end KotlinLayout
