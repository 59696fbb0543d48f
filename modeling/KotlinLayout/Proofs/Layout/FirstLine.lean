import KotlinLayout.Proofs.Document.Sound
import KotlinLayout.Proofs.Layout.Expansion

/-!
Whether pending entries fit is decided by the width of their first line: the fit check never
fails on entries that can be measured, and it says yes exactly if the characters in front of the
first line start are no more than the columns that are left.
-/

namespace KotlinLayout

/-- What may stand on the stack of a layout: a sound document, the rest of a fill, or the mark at
the end of a label. -/
inductive Doc.Stacked (choices : Doc → Doc → Prop) (fills : Prop) : Doc → Prop where
  | doc {doc : Doc} : doc.Sound choices fills → Stacked choices fills doc
  | tail {items : List Doc} {start : Amount} :
      fills → 0 ≤ start.toInt → (∀ item ∈ items, item.Sound choices fills) →
        Stacked choices fills (.tail items start)
  | pop {label : Label} : Stacked choices fills (.mark (.pop label))

/-- What the fit check has a rule for. Rests of fills and marks may stand anywhere, also among the
parts of a document, and no text is ruled out. -/
inductive Doc.Measurable : Doc → Prop where
  | text {value : String} : Measurable (.text value)
  | nil : Measurable .nil
  | concat {parts : List Doc} : (∀ part ∈ parts, Measurable part) → Measurable (.concat parts)
  | nest {amount : Amount} {body : Doc} : Measurable body → Measurable (.nest amount body)
  | choice {whenBroken whenFlat : Doc} :
      Measurable whenBroken → Measurable whenFlat → Measurable (.choice whenBroken whenFlat)
  | hardLine : Measurable .hardLine
  | group {body : Doc} : Measurable body → Measurable (.group body)
  | alwaysBreak {body : Doc} : Measurable body → Measurable (.alwaysBreak body)
  | fill {items : List Doc} : (∀ item ∈ items, Measurable item) → Measurable (.fill items)
  | annotated {label : Label} {body : Doc} : Measurable body → Measurable (.annotated label body)
  | tail {items : List Doc} {start : Amount} :
      0 ≤ start.toInt → (∀ item ∈ items, Measurable item) → Measurable (.tail items start)
  | mark {item : Item} : Measurable (.mark item)

def Mode.Decides (mode : Mode) : Prop := mode = .flat ∨ mode = .broken

structure Entry.Sound (choices : Doc → Doc → Prop) (fills : Prop) (entry : Entry) : Prop where
  mode : entry.mode.Decides
  doc : entry.doc.Stacked choices fills

structure Entry.Measurable (entry : Entry) : Prop where
  mode : entry.mode.Decides
  doc : entry.doc.Measurable

section Soundness

variable {choices : Doc → Doc → Prop} {fills : Prop}

theorem Doc.Sound.measurable {doc : Doc} (sound : doc.Sound choices fills) : doc.Measurable := by
  induction sound with
  | text _ => exact .text
  | nil => exact .nil
  | concat _ induction => exact .concat induction
  | nest _ induction => exact .nest induction
  | choice _ _ _ broken flat => exact .choice broken flat
  | hardLine => exact .hardLine
  | group _ induction => exact .group induction
  | alwaysBreak _ induction => exact .alwaysBreak induction
  | fill _ _ induction => exact .fill induction
  | annotated _ induction => exact .annotated induction

theorem Entry.Sound.measurable {entry : Entry} (sound : entry.Sound choices fills) :
    entry.Measurable := by
  obtain ⟨indent, mode, doc⟩ := entry
  obtain ⟨decides, stacked⟩ := sound
  refine ⟨decides, ?_⟩
  cases stacked with
  | doc whole => exact whole.measurable
  | tail _ nonneg items => exact .tail nonneg fun item member => (items item member).measurable
  | pop => exact .mark

end Soundness

namespace Layout

open Doc (expand)

/-- The room that is left after some items were read. -/
def roomAfter (columns : Int) (items : List Item) : Room :=
  if columns < headWidth items then .settled false
  else if breaks items then .settled true
  else .left (columns - headWidth items)

theorem room_after_append {columns : Int} {first : List Item} (second : List Item)
    {next : Int → Except Fault Room}
    (reads : ∀ left, 0 ≤ left → next left = .ok (roomAfter left second)) :
    Room.andThen (.ok (roomAfter columns first)) next =
      .ok (roomAfter columns (first ++ second)) := by
  have longer := head_width_append_le first second
  by_cases narrow : columns < headWidth first
  · have narrower : columns < headWidth (first ++ second) := by omega
    simp only [roomAfter, if_pos narrow, if_pos narrower, Room.andThen]
  · cases broken : breaks first with
    | true =>
        have same := head_width_append_of_breaks broken second
        simp only [roomAfter, same, if_neg narrow, breaks_append, broken, Bool.true_or, if_true,
          Room.andThen]
    | false =>
        have sum := head_width_append_of_level broken second
        simp only [roomAfter, if_neg narrow, broken, Bool.false_eq_true, if_false, Room.andThen]
        rw [reads _ (by omega), roomAfter, breaks_append, broken, Bool.false_or, sum]
        by_cases tight : columns - headWidth first < headWidth second
        · have narrower : columns < ↑(headWidth first + headWidth second) := by omega
          rw [if_pos tight, if_pos narrower]
        · have wider : ¬columns < ↑(headWidth first + headWidth second) := by omega
          rw [if_neg tight, if_neg wider]
          congr 3
          omega

theorem room_after_text (columns : Int) (value : String) :
    Room.afterColumns columns value.length = roomAfter columns [.text value] := by
  simp only [Room.afterColumns, roomAfter, head_width_text, head_width_nil, Nat.add_zero, breaks,
    Bool.false_eq_true, if_false]
  by_cases narrow : columns < value.length
  · rw [if_pos (by omega), if_pos narrow]
  · rw [if_neg (by omega), if_neg narrow]

theorem room_after_nothing {columns : Int} (wide : 0 ≤ columns) (items : List Item)
    (width : headWidth items = 0) (level : breaks items = false) :
    Room.left columns = roomAfter columns items := by
  simp [roomAfter, width, level, Int.not_lt.mpr wide]

theorem read_all_eq (indent : Amount) (mode : Mode) (docs : List Doc)
    (reads : ∀ doc ∈ docs, ∀ columns, 0 ≤ columns →
      read indent mode doc columns = .ok (roomAfter columns (doc.expand indent.toInt mode)))
    {columns : Int} (wide : 0 ≤ columns) :
    readAll indent mode docs 0 columns =
      .ok (roomAfter columns (docs.flatMap (expand indent.toInt mode))) := by
  induction docs generalizing columns with
  | nil => simp [readAll, room_after_nothing wide [] rfl rfl]
  | cons doc rest induction =>
      rw [readAll, reads doc (by simp) columns wide, List.flatMap_cons]
      apply room_after_append
      intro left nonneg
      exact induction (fun doc member => reads doc (by simp [member])) nonneg

/-- A rest of a fill is read like a fill of the items that are left. -/
theorem read_tail_eq {start : Amount} (nonneg : 0 ≤ start.toInt) (indent : Amount) (mode : Mode)
    (items : List Doc) (columns : Int) :
    read indent mode (.tail items start) columns =
      read indent mode (.fill (items.drop start.toInt.toNat)) columns := by
  have window : Window.ofStart .list items.length start.toInt =
      .ok ⟨start.toInt.toNat, false⟩ := if_pos nonneg
  simp only [read, window, Bool.false_eq_true, if_false]
  rw [read_all_drop]
  cases readAll indent mode (items.drop start.toInt.toNat) 0 columns with
  | error fault => rfl
  | ok room => cases room <;> rfl

/-- A measurable document is read without a fault, and what it spells is what it takes. -/
theorem read_eq {doc : Doc} (measurable : doc.Measurable) {mode : Mode}
    (decides : mode.Decides) (indent : Amount) {columns : Int} (wide : 0 ≤ columns) :
    read indent mode doc columns = .ok (roomAfter columns (doc.expand indent.toInt mode)) := by
  induction measurable generalizing indent mode columns with
  | text => rw [read, room_after_text, expand]
  | nil => rw [read, expand, room_after_nothing wide [] rfl rfl]
  | hardLine => simp [read, expand, roomAfter, breaks, Int.not_lt.mpr wide]
  | concat _ induction =>
      rw [read, Doc.expand_concat]
      exact read_all_eq indent mode _
        (fun doc member columns nonneg => induction doc member decides indent nonneg) wide
  | fill _ induction =>
      rw [read, Doc.expand_fill]
      exact read_all_eq indent mode _
        (fun doc member columns nonneg => induction doc member decides indent nonneg) wide
  | @nest amount body _ induction =>
      rw [read, expand]
      exact induction decides (.int (indent.toInt + amount.toInt)) wide
  | choice _ _ broken flat =>
      rcases decides with rfl | rfl
      · rw [read, expand]
        exact flat (.inl rfl) indent wide
      · rw [read, expand]
        · exact broken (.inr rfl) indent wide
        · simp
  | group _ induction =>
      rw [read, expand]
      exact induction decides indent wide
  | alwaysBreak _ induction =>
      rw [read, expand]
      exact induction (.inr rfl) indent wide
  | @annotated label body _ induction =>
      rw [read, induction decides indent wide]
      have width : headWidth ((Doc.annotated label body).expand indent.toInt mode) =
          headWidth (body.expand indent.toInt mode) := by
        rw [expand, head_width_push]
        cases broken : breaks (body.expand indent.toInt mode) with
        | true => rw [head_width_append_of_breaks broken]
        | false => rw [head_width_append_of_level broken]; rfl
      have level : breaks ((Doc.annotated label body).expand indent.toInt mode) =
          breaks (body.expand indent.toInt mode) := by
        simp [expand, breaks, breaks_append]
      rw [roomAfter, roomAfter, width, level]
  | @tail items start nonneg _ induction =>
      rw [read_tail_eq nonneg, read, Doc.expand_tail]
      apply read_all_eq indent mode _ _ wide
      intro doc member columns nonneg
      exact induction doc (List.mem_of_mem_drop member) decides indent nonneg
  | @mark item =>
      rw [read]
      cases item with
      | pop label =>
          rw [expand, room_after_nothing wide [.pop label] rfl rfl]
      | _ =>
          rw [expand, room_after_nothing wide [] rfl rfl]
          all_goals simp

theorem read_entries_eq {entries : List Entry} (measurable : ∀ entry ∈ entries, entry.Measurable)
    {columns : Int} (wide : 0 ≤ columns) :
    readEntries entries columns = .ok (roomAfter columns (entries.flatMap Entry.expand)) := by
  induction entries generalizing columns with
  | nil => simp [readEntries, room_after_nothing wide [] rfl rfl]
  | cons entry rest induction =>
      obtain ⟨⟨decides, doc⟩, others⟩ := List.forall_mem_cons.mp measurable
      rw [readEntries, read_eq doc decides entry.indent wide, List.flatMap_cons]
      apply room_after_append
      intro left nonneg
      exact induction others nonneg

/-- The fit check measures the first line of the entries and of what is pending after them. -/
theorem fits_measurable_eq {entries pending : List Entry} (columns : Int)
    (measurable : ∀ entry ∈ entries, entry.Measurable)
    (pendingMeasurable : ∀ entry ∈ pending, entry.Measurable) :
    fits columns entries pending =
      .ok (decide (headWidth ((entries ++ pending).flatMap Entry.expand) ≤ columns)) := by
  by_cases narrow : columns < 0
  · rw [fits, if_pos narrow, decide_eq_false (by omega)]
  · have wide : 0 ≤ columns := by omega
    rw [fits, if_neg narrow, read_entries_eq measurable wide,
      room_after_append _ (fun left nonneg => read_entries_eq pendingMeasurable nonneg),
      List.flatMap_append]
    generalize entries.flatMap Entry.expand ++ pending.flatMap Entry.expand = items
    by_cases tight : columns < headWidth items
    · simp [roomAfter, tight, Int.not_le.mpr tight]
    · cases broken : breaks items <;> simp [roomAfter, tight, broken, Int.not_lt.mp tight]

theorem fits_eq {choices : Doc → Doc → Prop} {fills : Prop} {entries pending : List Entry}
    (columns : Int) (sound : ∀ entry ∈ entries, entry.Sound choices fills)
    (pendingSound : ∀ entry ∈ pending, entry.Sound choices fills) :
    fits columns entries pending =
      .ok (decide (headWidth ((entries ++ pending).flatMap Entry.expand) ≤ columns)) :=
  fits_measurable_eq columns (fun entry member => (sound entry member).measurable)
    fun entry member => (pendingSound entry member).measurable

/-- The check says yes exactly if the characters in front of the first line start, of the entries
and of those pending after them, are no more than the columns. So more columns never turn a yes
into a no, and it is the same to ask for all the entries at once. -/
theorem fits_iff_first_line {entries pending : List Entry}
    (measurable : ∀ entry ∈ entries ++ pending, entry.Measurable) (columns : Int) :
    fits columns entries pending =
        .ok (decide (headWidth ((entries ++ pending).flatMap Entry.expand) ≤ columns)) ∧
      (∀ wider, columns ≤ wider → fits columns entries pending = .ok true →
        fits wider entries pending = .ok true) ∧
      fits columns (entries ++ pending) [] = fits columns entries pending := by
  obtain ⟨front, back⟩ := List.forall_mem_append.mp measurable
  have measured (columns : Int) := fits_measurable_eq columns front back
  refine ⟨measured columns, fun wider more yes => ?_, ?_⟩
  · rw [measured, Except.ok.injEq, decide_eq_true_iff] at yes ⊢
    omega
  · rw [fits_measurable_eq columns measurable (by simp), measured, List.append_nil]

/-- The rest of a fill, a broken choice in a flat group and a line break among what is pending. -/
theorem fits_iff_first_line_of_rest :
    let group := Doc.group (.concat [.text "ab", .line, .alwaysBreak (.choice .nil (.text "cd"))])
    let rest := Doc.tail [.text "e", .text "f", .group (.text "gh")] (.int 1)
    let last := Doc.annotated (.token .operator) (.concat [.text ";", .line, .text "later"])
    let entries : List Entry := [⟨.int 4, .flat, group⟩, ⟨.int 4, .broken, rest⟩]
    let pending : List Entry :=
      [⟨.int 2, .flat, .mark (.pop (.token .keyword))⟩, ⟨.int 2, .broken, last⟩]
    (∀ entry ∈ entries ++ pending, entry.Measurable) ∧ fits 7 entries pending = .ok true ∧
      fits 6 entries pending = .ok false ∧ fits 6 (entries ++ pending) [] = .ok false := by
  intro group rest last entries pending
  have text (value : String) : (Doc.text value).Measurable := .text
  have line : Doc.line.Measurable := .choice .hardLine .text
  have measurable : ∀ entry ∈ entries ++ pending, entry.Measurable := by
    have groupMeasurable : group.Measurable := by
      apply Doc.Measurable.group
      apply Doc.Measurable.concat
      simp only [List.forall_mem_cons, List.not_mem_nil, false_implies, implies_true, and_true]
      exact ⟨text _, line, .alwaysBreak (.choice .nil (text _))⟩
    have restMeasurable : rest.Measurable := by
      apply Doc.Measurable.tail (by decide)
      simp only [List.forall_mem_cons, List.not_mem_nil, false_implies, implies_true, and_true]
      exact ⟨text _, text _, .group (text _)⟩
    have lastMeasurable : last.Measurable := by
      apply Doc.Measurable.annotated
      apply Doc.Measurable.concat
      simp only [List.forall_mem_cons, List.not_mem_nil, false_implies, implies_true, and_true]
      exact ⟨text _, line, text _⟩
    simp only [entries, pending, List.cons_append, List.nil_append, List.forall_mem_cons,
      List.not_mem_nil, false_implies, implies_true, and_true]
    exact ⟨⟨.inl rfl, groupMeasurable⟩, ⟨.inr rfl, restMeasurable⟩, ⟨.inl rfl, .mark⟩,
      ⟨.inr rfl, lastMeasurable⟩⟩
  rcases fits_iff_first_line measurable 7 with ⟨enough, -, -⟩
  rcases fits_iff_first_line measurable 6 with ⟨tight, -, asOne⟩
  have seven : headWidth ((entries ++ pending).flatMap Entry.expand) = 7 := by decide +kernel
  rw [seven] at enough tight
  exact ⟨measurable, enough, tight, asOne.trans tight⟩

end Layout

end KotlinLayout
