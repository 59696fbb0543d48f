import KotlinLayout.Proofs.Layout.Composition
import KotlinLayout.Proofs.Render.Codes
import KotlinLayout.Proofs.Render.Lines

/-!
Coloured output is plain output with terminal codes. The marks of labels come in pairs around what
they label, so when a token ends there is a colour to end, and writing goes on with the colours
and the indentation that it would have without the token.
-/

namespace KotlinLayout

open Text (escapeCharacter uncodedAfter Codes)

/-- Coloured output that goes as far as a plain one and is the same text, apart from codes. -/
structure Recolors (colored plain : Output) : Prop where
  fault : colored.fault = plain.fault
  text : ∀ later, uncodedAfter 0 (colored.text.toList ++ later) =
    plain.text.toList ++ uncodedAfter 0 later

theorem Output.text_after_piece (output : Output) (piece : String) :
    (output.afterPiece piece).text.toList = piece.toList ++ output.text.toList := by
  rw [text, afterPiece, String.join_cons, String.toList_append, text]

theorem Output.text_followed_by {output : Output} (success : output.fault = none)
    (piece : String) :
    (output.followedBy piece).text.toList = output.text.toList ++ piece.toList := by
  simp [followedBy, success, text, String.join_append, String.join_cons]

namespace Recolors

variable {colored plain : Output} {piece : String}

theorem ended (fault : Option Fault) : Recolors ⟨[], fault⟩ ⟨[], fault⟩ :=
  ⟨rfl, fun _ => rfl⟩

theorem after_piece (recolors : Recolors colored plain)
    (unescaped : escapeCharacter ∉ piece.toList) :
    Recolors (colored.afterPiece piece) (plain.afterPiece piece) := by
  refine ⟨recolors.fault, fun later => ?_⟩
  rw [Output.text_after_piece, Output.text_after_piece, List.append_assoc,
    Text.uncoded_unescaped unescaped, recolors.text, List.append_assoc]

theorem after_code (recolors : Recolors colored plain) (codes : Codes piece.toList) :
    Recolors (colored.afterPiece piece) plain := by
  refine ⟨recolors.fault, fun later => ?_⟩
  rw [Output.text_after_piece, List.append_assoc, codes.uncoded_after, recolors.text]

theorem followed_by (recolors : Recolors colored plain)
    (unescaped : escapeCharacter ∉ piece.toList) :
    Recolors (colored.followedBy piece) (plain.followedBy piece) := by
  cases fault : plain.fault with
  | some cause =>
      have same : colored.fault = some cause := recolors.fault.trans fault
      simpa only [Output.followedBy, fault, same] using recolors
  | none =>
      have same : colored.fault = none := recolors.fault.trans fault
      refine ⟨by simp [Output.followedBy, fault, same], fun later => ?_⟩
      rw [Output.text_followed_by fault, Output.text_followed_by same, List.append_assoc,
        recolors.text, Text.uncoded_unescaped unescaped, List.append_assoc]

theorem uncoded_eq (recolors : Recolors colored plain) :
    Text.uncoded colored.text = plain.text := by
  have whole := recolors.text []
  rw [List.append_nil, uncodedAfter, List.append_nil] at whole
  rw [Text.uncoded, whole, String.ofList_toList]

end Recolors

structure Spacing.Unescaped (spacing : Spacing) : Prop where
  newline : escapeCharacter ∉ spacing.newline.toList
  separator : escapeCharacter ∉ spacing.separator.toList

theorem Spacing.standard_unescaped (room : Nat) : (standard room).Unescaped :=
  ⟨(by decide : escapeCharacter ∉ "\n".toList), (by decide : escapeCharacter ∉ " ".toList)⟩

theorem Text.mem_of_repeated {room : Nat} {text result : String} {count : Int}
    (success : repeated room text count = .ok result) :
    ∀ character ∈ result.toList, character ∈ text.toList := by
  rw [(repeated_eq_ok_iff.mp success).2]
  induction count.toNat with
  | zero => simp
  | succ count induction =>
      rw [List.replicate_succ, String.join_cons, String.toList_append, List.forall_mem_append]
      exact ⟨fun _ member => member, induction⟩

theorem Spacing.Unescaped.indentation {spacing : Spacing} (unescaped : spacing.Unescaped)
    {pending : Option Amount} {indentation : String}
    (success : spacing.indentation pending = .ok indentation) :
    escapeCharacter ∉ indentation.toList := by
  cases pending with
  | none =>
      cases success
      simp
  | some indent => exact fun member => unescaped.separator (Text.mem_of_repeated success _ member)

namespace Render

variable {spacing : Spacing} {coloring : Coloring}

/-- Painting some items and then going on as before changes nothing but codes, if going on does not,
whatever colours are active and whatever indentation is still to be written. -/
def Repaints (spacing : Spacing) (coloring : Coloring) (items : List Item) : Prop :=
  ∀ (ending : Option Fault) (active : List String) (pending : Option Amount) (later : List Item),
    (∀ code ∈ active, Codes code.toList) →
      (∀ pending, Recolors (paint spacing coloring ending active pending later)
        (write spacing ending pending later)) →
      Recolors (paint spacing coloring ending active pending (items ++ later))
        (write spacing ending pending (items ++ later))

theorem repaints_text (unescapedSpacing : spacing.Unescaped) {value : String}
    (unescaped : escapeCharacter ∉ value.toList) :
    Repaints spacing coloring [.text value] := by
  intro ending active pending later _ recolors
  rw [List.singleton_append, paint, write]
  split
  · exact recolors pending
  · cases indented : spacing.indentation pending with
    | error fault => exact .ended _
    | ok indentation =>
        exact ((recolors none).after_piece unescaped).after_piece
          (unescapedSpacing.indentation indented)

/-- When the inner items are painted, the colour of a token is active on top of those around it, and
its end brings back the colour that was active before. -/
theorem repaints_labeled (coded : coloring.Coded) (label : Label) {inner : List Item}
    (repaints : Repaints spacing coloring inner) :
    Repaints spacing coloring (.push label :: (inner ++ [.pop label])) := by
  intro ending active pending later activeCodes recolors
  rw [List.cons_append, List.append_assoc, List.singleton_append]
  cases label with
  | datum value =>
      rw [paint, write]
      apply repaints ending active pending _ activeCodes
      exact recolors
      all_goals simp
  | token value =>
      rcases coded.token value with ⟨code, success, codes⟩
      have restoring : Codes (restored coloring.reset active).toList := by
        cases active with
        | nil => exact coded.reset
        | cons outer rest => exact activeCodes outer List.mem_cons_self
      rw [paint, success, write]
      · apply Recolors.after_code _ codes
        apply repaints ending (code :: active) pending _
          (List.forall_mem_cons.mpr ⟨codes, activeCodes⟩)
        intro pending
        rw [paint, write]
        · exact (recolors pending).after_code restoring
        all_goals simp
      all_goals simp

theorem composes_repaints (unescaped : spacing.Unescaped) (coded : coloring.Coded) :
    Composes Item.Unescaped (Repaints spacing coloring) where
  nothing _ _ pending _ _ recolors := recolors pending
  append first second ending active pending later activeCodes recolors := by
    rw [List.append_assoc]
    exact first ending active pending _ activeCodes fun pending =>
      second ending active pending later activeCodes recolors
  text := repaints_text unescaped
  line _ _ _ _ _ recolors := (recolors _).after_piece unescaped.newline
  labeled _ := repaints_labeled coded _

end Render

/-- In colour a document is written like without, apart from terminal codes. -/
theorem layout_recolors {doc : Doc} (normal : doc.normalize.Regular)
    (unescaped : ∀ item ∈ doc.contents, item.Unescaped) {width column : Int}
    (finish : (layout doc width).finish = .ok column) {spacing : Spacing}
    (unescapedSpacing : spacing.Unescaped) {coloring : Coloring} (coded : coloring.Coded) :
    Recolors ((layout doc width).writeColored spacing coloring)
      ((layout doc width).write spacing) := by
  have repaints := (Render.composes_repaints unescapedSpacing coded).layout normal unescaped finish
  have whole := repaints (layout doc width).fault? [] none [] (by simp) fun pending => .ended _
  rwa [List.append_nil] at whole

end KotlinLayout
