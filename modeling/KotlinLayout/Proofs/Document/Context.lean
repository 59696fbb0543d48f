import KotlinLayout.Proofs.Document.Constructed

/-!
Documents with a hole. The forms around the hole take their parts as they are, so whatever is
constructed can be put into it.
-/

namespace KotlinLayout

inductive Context where
  | hole
  | concat (before : List Doc) (inner : Context) (after : List Doc)
  | nest (indent : Amount) (inner : Context)
  | group (inner : Context)
  | alwaysBreak (inner : Context)
  | annotated (label : Label) (inner : Context)
  /-- The hole is on the broken side of a choice. -/
  | onBroken (inner : Context) (whenFlat : Doc)
  | onFlat (whenBroken : Doc) (inner : Context)
  | fill (before : List Doc) (inner : Context) (after : List Doc)

namespace Context

def plug (doc : Doc) : Context → Doc
  | .hole => doc
  | .concat before inner after => .concat (before ++ inner.plug doc :: after)
  | .nest indent inner => .nest indent (inner.plug doc)
  | .group inner => .group (inner.plug doc)
  | .alwaysBreak inner => .alwaysBreak (inner.plug doc)
  | .annotated label inner => .annotated label (inner.plug doc)
  | .onBroken inner whenFlat => .choice (inner.plug doc) whenFlat
  | .onFlat whenBroken inner => .choice whenBroken (inner.plug doc)
  | .fill before inner after => .fill (before ++ inner.plug doc :: after)

inductive Constructed : Context → Prop where
  | hole : Constructed .hole
  | concat {before after : List Doc} {inner : Context} :
      (∀ part ∈ before, part.Constructed) → Constructed inner →
        (∀ part ∈ after, part.Constructed) → Constructed (.concat before inner after)
  | nest {indent : Amount} {inner : Context} : Constructed inner → Constructed (.nest indent inner)
  | group {inner : Context} : Constructed inner → Constructed (.group inner)
  | alwaysBreak {inner : Context} : Constructed inner → Constructed (.alwaysBreak inner)
  | annotated {label : Label} {inner : Context} :
      Constructed inner → Constructed (.annotated label inner)
  | onBroken {inner : Context} {whenFlat : Doc} :
      Constructed inner → whenFlat.Constructed → Constructed (.onBroken inner whenFlat)
  | onFlat {whenBroken : Doc} {inner : Context} :
      whenBroken.Constructed → Constructed inner → Constructed (.onFlat whenBroken inner)
  | fill {before after : List Doc} {inner : Context} :
      (∀ part ∈ before, part.Constructed) → Constructed inner →
        (∀ part ∈ after, part.Constructed) → Constructed (.fill before inner after)

end Context

theorem Amount.exists_datum (amount : Amount) : ∃ datum, Amount.ofDatum? datum = some amount := by
  cases amount with
  | int value => exact ⟨.scalar (.int value), rfl⟩
  | flag value => exact ⟨.scalar (.flag value), rfl⟩

theorem Doc.Constructed.check_doc {doc : Doc} (constructed : doc.Constructed) :
    checkDoc doc = .ok doc := by
  have regular := constructed.unboxed_regular
  have isDoc : doc.isDoc = true := by
    cases doc with
    | tail | mark => cases regular
    | foreign value => cases regular
    | _ => rfl
  rw [checkDoc, if_pos isDoc]

theorem Context.Constructed.plug {context : Context} (constructed : context.Constructed) {doc : Doc}
    (inside : doc.Constructed) : (context.plug doc).Constructed := by
  have among {before after : List Doc} {inner : Doc}
      (left : ∀ part ∈ before, part.Constructed) (middle : inner.Constructed)
      (right : ∀ part ∈ after, part.Constructed) :
      ∀ part ∈ before ++ inner :: after, part.Constructed :=
    List.forall_mem_append.mpr ⟨left, List.forall_mem_cons.mpr ⟨middle, right⟩⟩
  induction constructed with
  | hole => exact inside
  | concat left _ right induction => exact .ofConcat (among left induction right)
  | fill left _ right induction => exact .ofFill (among left induction right) rfl
  | @nest indent _ _ induction =>
      obtain ⟨datum, isAmount⟩ := indent.exists_datum
      apply @Doc.Constructed.ofNest datum _ _ induction
      rw [Doc.ofNest, Doc.checkIndent, isAmount, induction.check_doc]
      rfl
  | group _ induction =>
      apply Doc.Constructed.ofGroup induction
      rw [Doc.ofGroup, induction.check_doc]
      rfl
  | alwaysBreak _ induction =>
      apply Doc.Constructed.ofAlwaysBreak induction
      rw [Doc.ofAlwaysBreak, induction.check_doc]
      rfl
  | annotated _ induction => exact .ofAnnotated induction
  | onBroken _ flat induction => exact .ofChoice induction flat
  | onFlat broken _ induction => exact .ofChoice broken induction

end KotlinLayout
