import KotlinLayout.Proofs.Document.Marks
import KotlinLayout.Proofs.Layout.Normalization
import KotlinLayout.Proofs.Layout.Shift

/-!
Documents below one another. What comes before a line break is laid out as if nothing came after
it, and what comes after it as if it stood alone at the left of a narrower page.
-/

namespace KotlinLayout

theorem Item.visible_shift (offset : Int) (item : Item) :
    (item.shift offset).visible = item.visible := by
  cases item <;> rfl

namespace Layout

variable {width : Int}

/-- Behind a line break nothing matters. -/
theorem same_answers_hard_line (indent : Amount) (mode : Mode) (pending : List Entry) :
    SameAnswers (⟨indent, mode, .hardLine⟩ :: pending) [] := by
  intro columns entries
  by_cases narrow : columns < 0
  · rw [fits, fits, if_pos narrow, if_pos narrow]
  · rw [fits, fits, if_neg narrow, if_neg narrow]
    cases readEntries entries columns with
    | error fault => rfl
    | ok room => cases room <;> rfl

/-- Parts that begin on a new line do not matter to what comes before them. -/
theorem same_answers_new_line (indent : Int) (mode : Mode) (docs : List Doc)
    (pending : List Entry) :
    SameAnswers (⟨.int indent, mode, .concat (.hardLine :: docs)⟩ :: pending) [] :=
  (same_answers_cons indent mode .hardLine docs pending).trans (same_answers_hard_line _ _ _)

theorem same_answers_nest (indent : Int) (mode : Mode) (amount : Amount) (doc : Doc)
    (pending : List Entry) :
    SameAnswers (⟨.int indent, mode, .nest amount doc⟩ :: pending)
      (⟨.int (indent + amount.toInt), mode, doc⟩ :: pending) :=
  fun _ _ => rfl

/-- A document is laid out before one that begins with a line break as if it stood alone. -/
theorem lay_all_before {indent : Int} {docs : List Doc} (doc : Doc)
    (closes : SameAnswers [⟨.int indent, .broken, .concat docs⟩] []) (column : Int) :
    layAll width indent .broken (doc :: docs) [] column =
      (lay width indent .broken doc [] column).andThen
        (lay width indent .broken (.concat docs) []) := by
  rw [layAll, lay_congr width indent .broken doc closes]
  rfl

/-- On a new line a document is laid out as on a page without the indentation. -/
theorem lay_on_new_line {choices : Doc → Doc → Prop} {fills : Prop} {doc : Doc}
    (sound : doc.Sound choices fills) (width indent column : Int) :
    lay width indent .broken (.concat [.hardLine, doc]) [] column =
      ((lay (width - indent) 0 .broken doc [] 0).shift indent).after [.line (.int indent)] := by
  have moved := lay_shift sound (.inr rfl) width 0 0 indent
  rw [Int.zero_add] at moved
  rw [← moved, lay, layAll, lay, Run.emit_and_then, lay_all_singleton]

end Layout

open Layout

namespace Combinator

/-- One document below another, on a line that starts at an indentation. -/
def below (indent : Int) (upper lower : Doc) : Except Fault Doc := do
  let lower ← concat [.hardLine, lower]
  concat [upper, ← nest (.scalar (.int indent)) lower]

theorem cast_alike {doc : Doc} (regular : doc.Regular) :
    ∃ part, cast doc = .ok part ∧ part.Regular ∧
      part.normalize.Alike Item.visible .broken doc.normalize := by
  rcases Doc.cast_succeeds regular with success | ⟨rfl, success⟩
  · exact ⟨doc, success, regular, .refl (Doc.regular_normalize regular)⟩
  · exact ⟨.nil, success, .nil, (Doc.alike_of_empty Item.visible_empty).symm⟩

/-- Where lines are broken a document below another is laid out like the two with nothing but the
line break between them. -/
theorem below_alike {upper lower : Doc} (upperRegular : upper.Regular)
    (lowerRegular : lower.Regular) (indent : Int) :
    ∃ doc, below indent upper lower = .ok doc ∧ doc.Regular ∧
      doc.normalize.Alike Item.visible .broken
        (.concat [upper.normalize,
          .nest (.int indent) (.concat [.hardLine, lower.normalize])]) := by
  obtain ⟨first, isFirst, firstRegular, firstAlike⟩ := cast_alike upperRegular
  obtain ⟨second, isSecond, secondRegular, secondAlike⟩ := cast_alike lowerRegular
  refine ⟨.concat [first, .nest (.int indent) (.concat [.hardLine, second])], ?_, ?_, ?_⟩
  · simp only [below, concat, castAll, isFirst, isSecond]
    rfl
  · apply Doc.Sound.concat
    simp only [List.forall_mem_cons, List.not_mem_nil, false_implies, implies_true, and_true]
    refine ⟨firstRegular, .nest (.concat ?_)⟩
    simpa only [List.forall_mem_cons, List.not_mem_nil, false_implies, implies_true, and_true]
      using ⟨.hardLine, secondRegular⟩
  · have inner : (Doc.concat [.hardLine, second]).normalize.Alike Item.visible .broken
        (.concat [.hardLine, lower.normalize]) :=
      Doc.alike_normalize_concat Item.visible_empty
        (.cons (.refl .hardLine) (.cons secondAlike .nil))
    exact Doc.alike_normalize_concat Item.visible_empty
      (.cons firstAlike (.cons (Doc.alike_normalize_nest _ inner) .nil))

end Combinator

/-- A document and the one below it are laid out independently: the first as if it stood alone, and
the second as if it stood alone on a page without the indentation. -/
theorem layout_below {upper lower : Doc} (upperBuilt : upper.Built Extra.all)
    (lowerBuilt : lower.Built Extra.all) (indent width : Int) :
    ∃ doc, Combinator.below indent upper lower = .ok doc ∧
      (layout upper width).fault? = none ∧ (layout lower (width - indent)).fault? = none ∧
      (layout doc width).fault? = none ∧
      (layout doc width).items.filter Item.visible =
        (layout upper width).items.filter Item.visible ++ .line (.int indent) ::
          ((layout lower (width - indent)).items.filter Item.visible).map (Item.shift indent) := by
  have upperRegular := upperBuilt.sound.regular
  have lowerRegular := lowerBuilt.sound.regular
  obtain ⟨doc, isDoc, regular, alike⟩ := Combinator.below_alike upperRegular lowerRegular indent
  obtain ⟨upperItems, upperColumn, -, upperLayout⟩ :=
    layout_reaches upperRegular (Doc.regular_normalize upperRegular) width
  obtain ⟨lowerItems, lowerColumn, -, lowerLayout⟩ :=
    layout_reaches lowerRegular (Doc.regular_normalize lowerRegular) (width - indent)
  have upperLaid := (layout_eq_lay upperRegular width).symm.trans upperLayout
  have lowerLaid := (layout_eq_lay lowerRegular (width - indent)).symm.trans lowerLayout
  -- A line break is next after the first document, so its checks do not see the second.
  have closes : SameAnswers [⟨.int 0, .broken,
      .concat [.nest (.int indent) (.concat [.hardLine, lower.normalize])]⟩] [] :=
    (same_answers_cons 0 .broken _ [] []).trans
      ((same_answers_nest 0 .broken _ _ _).trans (same_answers_new_line _ .broken _ _))
  have tail : lay width 0 .broken
      (.concat [.nest (.int indent) (.concat [.hardLine, lower.normalize])]) [] upperColumn =
      ⟨.line (.int indent) :: lowerItems.map (Item.shift indent), .ok (lowerColumn + indent)⟩ := by
    rw [lay, lay_all_singleton, lay, Amount.to_int_int, Int.zero_add,
      lay_on_new_line (Doc.regular_normalize lowerRegular), lowerLaid]
    rfl
  have whole := alike.runs width 0 [] 0 (by simp)
  rw [← layout_eq_lay regular, lay, lay_all_before _ closes, upperLaid, Run.andThen] at whole
  simp only [tail, Run.keeping, Run.mk.injEq] at whole
  obtain ⟨items, finish⟩ := whole
  refine ⟨doc, isDoc, ?_, ?_, ?_, ?_⟩
  · rw [upperLayout]; rfl
  · rw [lowerLayout]; rfl
  · rw [Run.fault?, finish]
  · have shifted : (lowerItems.map (Item.shift indent)).filter Item.visible =
        (lowerItems.filter Item.visible).map (Item.shift indent) := by
      simp only [List.filter_map, Function.comp_def, Item.visible_shift]
    rw [items, upperLayout, lowerLayout, List.filter_append, List.filter_cons_of_pos (by rfl),
      shifted]

/-- The upper group stays on its line, and the lower one breaks on what is left of the page. -/
theorem group_below_group :
    (Doc.group (.concat [.text "a", Doc.line, .text "b"])).Built Extra.all ∧
      ∃ doc, Combinator.below 2 (.group (.concat [.text "a", Doc.line, .text "b"]))
          (.group (.concat [.text "a", Doc.line, .text "b"])) = .ok doc ∧
        (layout doc 4).fault? = none ∧
        (layout doc 4).items.filter Item.visible =
          [.text "a", .text " ", .text "b", .line (.int 2), .text "a", .line (.int 2),
            .text "b"] := by
  have parts : ∀ part ∈ [.text "a", Doc.line, .text "b"], part.Built Extra.all := by
    simp only [List.forall_mem_cons, List.not_mem_nil, false_implies, implies_true, and_true]
    exact ⟨.text (by decide), .line, .text (by decide)⟩
  have inner : (Doc.concat [.text "a", Doc.line, .text "b"]).Built Extra.all := .concat parts rfl
  have built : (Doc.group (.concat [.text "a", Doc.line, .text "b"])).Built Extra.all :=
    .group inner rfl
  obtain ⟨doc, isDoc, -, -, succeeds, items⟩ := layout_below built built 2 4
  exact ⟨built, doc, isDoc, succeeds, items⟩

end KotlinLayout
