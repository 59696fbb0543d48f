import KotlinLayout.Proofs.Code.Phrase
import KotlinLayout.Proofs.Layout.Page
import KotlinLayout.Proofs.Layout.Resolution
import KotlinLayout.Proofs.Layout.Width

/-!
Whether the text of an expression keeps within the page. The last argument of a call is laid out
flat if it fits by itself, whatever comes after it on its line. This is the only way for a line to
get too long where the fully broken layout keeps within the page.
-/

namespace KotlinLayout

namespace Layout

variable {width : Int}

/-- No line of the fully broken layout is longer than the page is wide. -/
def FitsBroken (width : Int) (doc : Doc) : Prop :=
  ∀ line ∈ lines (doc.normalize.expand 0 .broken), (line.characters.length : Int) ≤ width

instance (width : Int) (doc : Doc) : Decidable (FitsBroken width doc) :=
  inferInstanceAs (Decidable (∀ line ∈ lines (doc.normalize.expand 0 .broken), _))

/-- The layout comes to a last content that fits by itself, but not with what comes after it. -/
def HangsOver (width : Int) (doc : Doc) : Prop :=
  ∃ items state, Reaches width (State.start doc.normalize) items state ∧ Overhangs width state

/-- From an overhang on, the current line comes out too long. -/
theorem Overhangs.line_too_long {choices : Doc → Doc → Prop} {fills : Prop} {state : State}
    (overhangs : Overhangs width state) (sound : state.Sound choices fills)
    (steady : state.Steady) :
    ∃ items column, state.run width = ⟨items, .ok column⟩ ∧ 0 < headWidth items ∧
      width < state.column + headWidth items := by
  cases overhangs with
  | @last indent content pending column alone exceeding =>
      have step : Step width ⟨⟨indent, .broken, .fill [content]⟩ :: pending, column⟩ []
          ⟨⟨.int indent.toInt, modeFor width column [⟨.int indent.toInt, .flat, content⟩],
            content⟩ :: pending, column⟩ := .fillLast
      rw [mode_for_fitting alone] at step
      obtain ⟨items, finish, reaches⟩ := (step.sound sound).reaches_end width
      have longer := reaches.head_width_le (step.steady steady) rfl
      have inside := alone.column_le
      have wide : width < column + headWidth items := by
        unfold FirstLineFits at exceeding
        simp only [State.expand] at longer
        omega
      refine ⟨items, finish, ?_, by omega, wide⟩
      rw [step.run_eq sound, reaches.run_to_end (step.sound sound)]
      rfl

end Layout

open Layout

variable {width : Int} {doc : Doc}

theorem phrase_layout (phrase : doc.Phrase Amount.Rightward) (width : Int) :
    ∃ items column, Reaches width (State.start doc.normalize) items ⟨[], column⟩ ∧
      layout doc width = ⟨items, .ok column⟩ ∧ ∀ line ∈ lines items, line.Plain := by
  have sound := phrase.sound
  obtain ⟨items, column, reaches, same⟩ := layout_reaches sound (line_only_normalize sound) width
  refine ⟨items, column, reaches, same, ?_⟩
  apply lines_plain ⟨Int.le_refl 0, by simp⟩
  intro item member
  have resolves := reaches.resolves (State.Sound.start (line_only_normalize sound)) rfl
  obtain ⟨mark, isMark, becomes⟩ := exists_mark resolves member
  have isMark : mark ∈ doc.normalize.marks 0 := by
    simpa [State.marks, State.start, Entry.marks] using isMark
  exact becomes.plain (phrase.plain_marks (Int.le_refl 0) mark
    ((Doc.thins_normalize sound 0).sublist.subset isMark))

theorem Doc.Phrase.regular (phrase : doc.Phrase Amount.Rightward) : doc.Regular :=
  phrase.sound.regular

theorem Doc.Phrase.page_plain (phrase : doc.Phrase Amount.Rightward) (width : Int) :
    ∀ line ∈ doc.page width, line.Plain := by
  rcases phrase_layout phrase width with ⟨items, column, reaches, same, plain⟩
  rw [page, same]
  exact plain

/-- Where nothing hangs over, no line is longer than the page is wide. -/
theorem within_of_not_hangs_over (phrase : doc.Phrase Amount.Rightward)
    (broken : FitsBroken width doc) (clear : ¬HangsOver width doc) :
    ∀ line ∈ doc.page width, (line.characters.length : Int) ≤ width := by
  obtain ⟨items, column, reaches, same, plain⟩ := phrase_layout phrase width
  have steady := State.Steady.start phrase.normalize.1
  have within : ∀ line ∈ lines items,
      0 ≤ line.indent → (line.characters.length : Int) ≤ width := by
    refine reaches.lines_within steady rfl ?_ rfl ?_
    · intro before between part line other _ _ _ narrow nonneg
      have short : line.width ≤ width :=
        narrow.resolve_right fun overhangs => clear ⟨before, between, part, overhangs⟩
      exact Int.le_trans (Line.length_le_width nonneg) short
    · rw [start_expand]
      exact fun line member _ => broken line member
  rw [Doc.page, same]
  exact fun line member => within line member (plain line member).indent

/-- Where something hangs over, there is a line that is longer than the page is wide. -/
theorem exceeds_of_hangs_over (phrase : doc.Phrase Amount.Rightward)
    (hangsOver : HangsOver width doc) :
    ∃ line ∈ doc.page width, width < (line.characters.length : Int) := by
  obtain ⟨items, column, reaches, same, plain⟩ := phrase_layout phrase width
  have start := State.Sound.start (line_only_normalize phrase.sound)
  have steady := State.Steady.start phrase.normalize.1
  obtain ⟨before, state, part, overhangs⟩ := hangsOver
  obtain ⟨later, finish, run, visible, wide⟩ :=
    overhangs.line_too_long (part.sound start) (part.steady steady)
  -- The layout goes on after the overhang as any run from there does.
  have whole : items = before ++ later := by
    have ended := reaches.run_to_end start
    rw [part.run_eq start, run] at ended
    exact (congrArg Run.items ended).symm
  obtain ⟨finished, cut⟩ := lines_from_append ⟨0, ""⟩ before
  have column : (lineAfter ⟨0, ""⟩ before).width = state.column := part.column_eq rfl
  let line : Line := ⟨(lineAfter ⟨0, ""⟩ before).indent,
    (lineAfter ⟨0, ""⟩ before).text ++ headText later⟩
  have member : line ∈ lines items := by
    rw [lines, whole, cut]
    exact List.mem_append_right _ List.mem_cons_self
  rw [Doc.page, same]
  refine ⟨line, member, ?_⟩
  have nonempty : line.text ≠ "" := by
    intro empty
    have length := congrArg String.length empty
    simp only [line, String.length_append, String.length_empty] at length
    unfold headWidth at visible
    omega
  rw [Line.length_eq_width (plain line member).indent nonempty]
  simp only [line, Line.width, String.length_append] at column ⊢
  unfold headWidth at wide
  omega

/-- Text stands only where the indentation is inside the page, hanging over or not. -/
theorem indents_within_width (phrase : doc.Phrase Amount.Rightward)
    (broken : FitsBroken width doc) :
    ∀ line ∈ doc.page width, line.text = "" ∨ line.indent ≤ width := by
  obtain ⟨items, column, reaches, same, plain⟩ := phrase_layout phrase width
  have steady := State.Steady.start phrase.normalize.1
  rw [Doc.page, same]
  refine reaches.lines_within steady rfl ?_ rfl ?_
  · exact fun _ _ _ _ _ _ _ inside _ => .inr inside
  · rw [start_expand]
    intro line member
    by_cases empty : line.text = ""
    · exact .inl empty
    · have length := broken line member
      rw [Line.length_characters empty] at length
      exact .inr (by omega)

theorem format_phrase_succeeds (phrase : doc.Phrase Amount.Rightward)
    (broken : FitsBroken width doc) {room : Nat} (countable : width < Text.countLimit)
    (storable : width ≤ room) : ∃ text, formatDoc doc width room = .ok text := by
  have plain := phrase.page_plain width
  rw [format_succeeds_iff phrase.regular plain]
  intro line member
  rcases indents_within_width phrase broken line member with empty | inside
  · exact .inl empty
  · have nonneg := (plain line member).indent
    have limit : -Text.countLimit ≤ 0 := by decide
    exact .inr ⟨Int.le_trans limit nonneg, Int.lt_of_le_of_lt inside countable,
      Int.le_trans inside storable⟩

/-- Where the fully broken layout of an expression keeps within the page, its text does too unless
a last argument hangs over. -/
theorem expression_within_width_iff {node : Node} (printable : node.Printable) {indent : Amount}
    (nonneg : 0 ≤ indent.toInt) (width : Int) :
    ∃ doc, node.expressionDoc (.columns indent) = .ok doc ∧ (FitsBroken width doc → ∀ room : Nat,
      (width < Text.countLimit → width ≤ room →
        ∃ text, formatExpression node (.columns indent) width room = .ok text) ∧
      ∀ text, formatExpression node (.columns indent) width room = .ok text →
        ((∀ line ∈ Text.lines text, (line.length : Int) ≤ width) ↔ ¬HangsOver width doc)) := by
  have double : Amount.Rightward (.int (2 * indent.toInt)) := Int.mul_nonneg (by decide) nonneg
  obtain ⟨doc, isDoc, phrase⟩ := printable.expression_doc nonneg double
  have format (room : Nat) :
      formatExpression node (.columns indent) width room = formatDoc doc width room := by
    rw [formatExpression, isDoc]
    rfl
  refine ⟨doc, isDoc, fun broken room => ⟨?_, ?_⟩⟩
  · rw [format]
    exact format_phrase_succeeds phrase broken
  · intro text written
    rw [format] at written
    rw [format_lines phrase.regular (phrase.page_plain width) written]
    constructor
    · intro within hangsOver
      obtain ⟨line, member, wide⟩ := exceeds_of_hangs_over phrase hangsOver
      have narrow := within line.characters (List.mem_map_of_mem member)
      omega
    · intro clear characters member
      obtain ⟨line, isLine, rfl⟩ := List.mem_map.mp member
      exact within_of_not_hangs_over phrase broken clear line isLine

/-- The closing parenthesis of this call ends a column after the last one, although there is a
place to break the line. -/
theorem call_hangs_over :
    let node := Node.call (.text "f") [.binary (.text "+")
      (.reference (.text "a") (.scalar .none) (.scalar .none))
      (.reference (.text "b") (.scalar .none) (.scalar .none)) 1]
    ∃ doc, node.expressionDoc (.columns (.int 0)) = .ok doc ∧ FitsBroken 7 doc ∧
      HangsOver 7 doc ∧
        ∀ room, formatExpression node (.columns (.int 0)) 7 room = .ok "f(a + b)" := by
  intro node
  have variable_printable (name : String) (breakless : '\n' ∉ name.toList) :
      (Node.reference (.text name) (.scalar .none) (.scalar .none)).Printable :=
    .reference breakless rfl
  have printable : node.Printable := by
    apply Node.Printable.call (by decide)
    simp only [List.forall_mem_singleton]
    exact .binary (by decide) (variable_printable "a" (by decide))
      (variable_printable "b" (by decide))
  have nonneg : 0 ≤ (Amount.int 0).toInt := by decide
  obtain ⟨doc, isDoc, decided⟩ := expression_within_width_iff printable nonneg 7
  have broken : FitsBroken 7 doc := by
    cases isDoc
    decide
  have written (room : Nat) :
      formatExpression node (.columns (.int 0)) 7 room = .ok "f(a + b)" := rfl
  have tooLong : ¬∀ line ∈ Text.lines "f(a + b)", (line.length : Int) ≤ 7 := by decide
  have hangsOver : HangsOver 7 doc := by
    by_contra clear
    exact tooLong (((decided broken 7).2 _ (written 7)).mpr clear)
  exact ⟨doc, isDoc, broken, hangsOver, written⟩

end KotlinLayout
