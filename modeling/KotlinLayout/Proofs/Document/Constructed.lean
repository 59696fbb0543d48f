import KotlinLayout.Proofs.Document.Built

/-!
Documents that are made of forms as well as with combinators. The forms take their parts as they
are, and a checked text stays a form of its own until normalization unwraps it.
-/

namespace KotlinLayout

namespace Doc

/-- Documents from combinators, constants and forms, over parts of the same kind. -/
inductive Constructed : Doc → Prop where
  | text {value : String} : '\n' ∉ value.toList → Constructed (.text value)
  | nil : Constructed .nil
  | line : Constructed Doc.line
  | softLine : Constructed Doc.softLine
  | hardLine : Constructed .hardLine
  | concat {docs : List Doc} {doc : Doc} :
      (∀ part ∈ docs, Constructed part) → Combinator.concat docs = .ok doc → Constructed doc
  | hsep {docs : List Doc} {doc : Doc} :
      (∀ part ∈ docs, Constructed part) → Combinator.hsep docs = .ok doc → Constructed doc
  | vsep {docs : List Doc} {doc : Doc} :
      (∀ part ∈ docs, Constructed part) → Combinator.vsep docs = .ok doc → Constructed doc
  | stack {upper lower doc : Doc} :
      Constructed upper → Constructed lower → Combinator.stack upper lower = .ok doc →
        Constructed doc
  | nest {indent : Datum} {body doc : Doc} :
      Constructed body → Combinator.nest indent body = .ok doc → Constructed doc
  | annotate {label : Label} {body doc : Doc} :
      Constructed body → Combinator.annotate label body = .ok doc → Constructed doc
  | group {body doc : Doc} :
      Constructed body → Combinator.group body = .ok doc → Constructed doc
  | alwaysBreak {body doc : Doc} :
      Constructed body → Combinator.alwaysBreak body = .ok doc → Constructed doc
  | choice {whenBroken whenFlat doc : Doc} :
      Constructed whenBroken → Constructed whenFlat →
        Combinator.choice whenBroken whenFlat = .ok doc → Constructed doc
  | fill {docs : List Doc} {doc : Doc} :
      (∀ part ∈ docs, Constructed part) → Combinator.fill docs = .ok doc → Constructed doc
  | fillSep {docs : List Doc} {doc : Doc} :
      (∀ part ∈ docs, Constructed part) → Combinator.fillSep docs = .ok doc → Constructed doc
  | ofText {value : String} {doc : Doc} : Doc.ofText (.text value) = .ok doc → Constructed doc
  | ofConcat {docs : List Doc} :
      (∀ part ∈ docs, Constructed part) → Constructed (Doc.ofConcat (.list docs))
  | ofFill {docs : List Doc} {doc : Doc} :
      (∀ part ∈ docs, Constructed part) → Doc.ofFill (.list docs) = .ok doc → Constructed doc
  | ofGroup {body doc : Doc} : Constructed body → Doc.ofGroup body = .ok doc → Constructed doc
  | ofAlwaysBreak {body doc : Doc} :
      Constructed body → Doc.ofAlwaysBreak body = .ok doc → Constructed doc
  | ofNest {indent : Datum} {body doc : Doc} :
      Constructed body → Doc.ofNest indent body = .ok doc → Constructed doc
  | ofChoice {whenBroken whenFlat : Doc} :
      Constructed whenBroken → Constructed whenFlat → Constructed (.choice whenBroken whenFlat)
  | ofAnnotated {label : Label} {body : Doc} :
      Constructed body → Constructed (.annotated label body)

mutual

def unboxed : Doc → Doc
  | .boxed value => .text value
  | .concat parts => .concat (unboxedAll parts)
  | .nest indent body => .nest indent body.unboxed
  | .choice whenBroken whenFlat => .choice whenBroken.unboxed whenFlat.unboxed
  | .group body => .group body.unboxed
  | .alwaysBreak body => .alwaysBreak body.unboxed
  | .fill items => .fill (unboxedAll items)
  | .annotated label body => .annotated label body.unboxed
  | other => other

def unboxedAll : List Doc → List Doc
  | [] => []
  | doc :: rest => doc.unboxed :: unboxedAll rest

end

theorem unboxed_all_eq_map (docs : List Doc) : unboxedAll docs = docs.map unboxed := by
  induction docs with
  | nil => rfl
  | cons doc rest induction => rw [unboxedAll, induction, List.map_cons]

mutual

theorem normalize_unboxed (doc : Doc) : doc.unboxed.normalize = doc.normalize := by
  match doc with
  | .text _ | .nil | .boxed _ | .hardLine | .tail .. | .mark _ | .foreign _ => rfl
  | .concat parts => rw [unboxed, normalize, normalize, normalize_all_unboxed parts]
  | .fill items => rw [unboxed, normalize, normalize, normalize_all_unboxed items]
  | .nest _ body | .group body | .alwaysBreak body | .annotated _ body =>
      rw [unboxed, normalize, normalize, normalize_unboxed body]
  | .choice whenBroken whenFlat =>
      rw [unboxed, normalize, normalize, normalize_unboxed whenBroken, normalize_unboxed whenFlat]

theorem normalize_all_unboxed (docs : List Doc) :
    normalizeAll (unboxedAll docs) = normalizeAll docs := by
  match docs with
  | [] => rfl
  | doc :: rest =>
      rw [unboxedAll, normalizeAll, normalizeAll, normalize_unboxed doc,
        normalize_all_unboxed rest]

end

mutual

theorem defect_unboxed (doc : Doc) : doc.unboxed.defect? = doc.defect? := by
  match doc with
  | .text _ | .nil | .boxed _ | .hardLine | .tail .. | .mark _ | .foreign _ => rfl
  | .concat parts => rw [unboxed, defect?, defect?, defect_among_unboxed parts]
  | .fill items => rw [unboxed, defect?, defect?, defect_among_unboxed items]
  | .nest _ body | .group body | .alwaysBreak body | .annotated _ body =>
      rw [unboxed, defect?, defect?, defect_unboxed body]
  | .choice whenBroken whenFlat =>
      rw [unboxed, defect?, defect?, defect_unboxed whenBroken, defect_unboxed whenFlat]

theorem defect_among_unboxed (docs : List Doc) :
    defectAmong? (unboxedAll docs) = defectAmong? docs := by
  match docs with
  | [] => rfl
  | doc :: rest =>
      rw [unboxedAll, defectAmong?, defectAmong?, defect_unboxed doc, defect_among_unboxed rest]

end

theorem normalized_unboxed (doc : Doc) : doc.unboxed.normalized = doc.normalized := by
  rw [normalized, normalized, defect_unboxed, normalize_unboxed]

theorem unboxed_cast {doc part : Doc} (regular : doc.unboxed.Regular)
    (success : Combinator.cast doc = .ok part) : part.unboxed.Regular :=
  @holds_cast (fun doc => doc.unboxed.Regular) doc part .nil regular success

theorem unboxed_concat {docs : List Doc} (regular : ∀ doc ∈ docs, doc.unboxed.Regular) :
    (Doc.concat docs).unboxed.Regular := by
  rw [unboxed, unboxed_all_eq_map]
  exact .concat (List.forall_mem_map.mpr regular)

theorem unboxed_fill {docs : List Doc} (regular : ∀ doc ∈ docs, doc.unboxed.Regular) :
    (Doc.fill docs).unboxed.Regular := by
  rw [unboxed, unboxed_all_eq_map]
  exact .fill trivial (List.forall_mem_map.mpr regular)

theorem unboxed_joined {docs : List Doc} (regular : ∀ doc ∈ docs, doc.unboxed.Regular) :
    (joined docs).unboxed.Regular :=
  @holds_joined (fun doc => doc.unboxed.Regular) docs .nil regular (unboxed_concat regular)

theorem unboxed_concatenated {docs : List Doc} {doc : Doc}
    (regular : ∀ part ∈ docs, part.unboxed.Regular) (success : Combinator.concat docs = .ok doc) :
    doc.unboxed.Regular := by
  rcases map_eq_ok_iff.mp success with ⟨parts, areParts, rfl⟩
  exact unboxed_joined (holds_cast_all .nil regular areParts)

theorem check_doc_eq {doc part : Doc} (success : checkDoc doc = .ok part) : part = doc := by
  unfold checkDoc at success
  split at success
  · cases success
    rfl
  · cases success

theorem Constructed.unboxed_regular {doc : Doc} (constructed : doc.Constructed) :
    doc.unboxed.Regular := by
  have blank : (Doc.text " ").unboxed.Regular := .text (by decide)
  have line : Doc.line.unboxed.Regular := .choice trivial .hardLine blank
  induction constructed with
  | text breakless => exact .text breakless
  | nil => exact .nil
  | line => exact line
  | softLine => exact .choice trivial .hardLine .nil
  | hardLine => exact .hardLine
  | concat _ success induction => exact unboxed_concatenated induction success
  | hsep _ success induction =>
      exact unboxed_concatenated (holds_intersperse blank induction) success
  | vsep _ success induction =>
      exact unboxed_concatenated (holds_intersperse line induction) success
  | stack _ _ success upper lower =>
      apply unboxed_concatenated _ success
      simp only [List.forall_mem_cons, List.not_mem_nil, false_implies, implies_true, and_true]
      exact ⟨upper, line, lower⟩
  | nest _ success induction =>
      rcases nest_eq_ok success with ⟨amount, part, isPart, rfl⟩
      exact .nest (unboxed_cast induction isPart)
  | annotate _ success induction =>
      rcases map_eq_ok_iff.mp success with ⟨body, isBody, rfl⟩
      exact .annotated (unboxed_cast induction isBody)
  | group _ success induction =>
      rcases map_eq_ok_iff.mp success with ⟨body, isBody, rfl⟩
      exact .group (unboxed_cast induction isBody)
  | alwaysBreak _ success induction =>
      rcases map_eq_ok_iff.mp success with ⟨body, isBody, rfl⟩
      exact .alwaysBreak (unboxed_cast induction isBody)
  | choice _ _ success broken flat =>
      rcases choice_eq_ok success with ⟨whenBroken, whenFlat, isBroken, isFlat, rfl⟩
      exact .choice trivial (unboxed_cast broken isBroken) (unboxed_cast flat isFlat)
  | fill _ success induction =>
      rcases map_eq_ok_iff.mp success with ⟨parts, areParts, rfl⟩
      exact unboxed_fill (holds_cast_all .nil induction areParts)
  | fillSep _ success induction =>
      rcases map_eq_ok_iff.mp success with ⟨parts, areParts, rfl⟩
      exact unboxed_fill (holds_intersperse line (holds_cast_all .nil induction areParts))
  | ofText success =>
      rcases map_eq_ok_iff.mp success with ⟨value, checked, rfl⟩
      have same := check_text_eq checked
      rw [same.1]
      exact .text same.2
  | ofConcat _ induction => exact unboxed_concat induction
  | ofFill _ success induction =>
      cases success
      exact unboxed_fill induction
  | ofGroup _ success induction =>
      rcases map_eq_ok_iff.mp success with ⟨body, isBody, rfl⟩
      rw [check_doc_eq isBody]
      exact .group induction
  | ofAlwaysBreak _ success induction =>
      rcases map_eq_ok_iff.mp success with ⟨body, isBody, rfl⟩
      rw [check_doc_eq isBody]
      exact .alwaysBreak induction
  | ofNest _ success induction =>
      rcases bind_eq_ok_iff.mp success with ⟨indent, _, success⟩
      rcases bind_eq_ok_iff.mp success with ⟨body, isBody, success⟩
      cases success
      rw [check_doc_eq isBody]
      exact .nest induction
  | ofChoice _ _ broken flat => exact .choice trivial broken flat
  | ofAnnotated _ induction => exact .annotated induction

end Doc

end KotlinLayout
