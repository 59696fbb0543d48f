import KotlinLayout.Proofs.Code.Printed
import KotlinLayout.Proofs.Layout.Trailing

/-!
Programs are printed without blanks at the ends of lines. What a blank or a line stands in front of
is a text that ends visibly, if every word of the program does. Programs that are not printable have
no lines at all.
-/

namespace KotlinLayout

open Doc (Sealed)
open Text (EndsVisibly)

namespace Node

def VisibleText : Node → Prop
  | .scalar (.text value) => EndsVisibly value
  | _ => False

instance : DecidablePred VisibleText
  | .scalar (.text value) => inferInstanceAs (Decidable (EndsVisibly value))
  | .scalar .none | .scalar (.flag _) | .scalar (.int _) | .scalar (.decimal _) | .list _ |
    .doc _ | .object | .bareExpression | .bareStatement | .constant .. | .binary .. | .unary .. |
    .field _ | .reference .. | .call .. | .instanceCall .. | .new _ | .newArray .. |
    .assignment .. | .returning _ | .throwing _ | .methodDecl .. | .classDecl .. | .derived .. =>
      .isFalse id

theorem VisibleText.is_text {name : Node} (visible : name.VisibleText) : name.IsText := by
  match name with
  | .scalar (.text _) => trivial

def Visible (node : Node) : Prop := ∀ word ∈ node.words, word.VisibleText

instance (node : Node) : Decidable node.Visible :=
  inferInstanceAs (Decidable (∀ word ∈ node.words, word.VisibleText))

theorem Visible.lettered {node : Node} (visible : node.Visible) : node.Lettered :=
  fun word member => (visible word member).is_text

theorem visible_each {nodes : List Node} (visible : ∀ word ∈ wordsAll nodes, word.VisibleText) :
    ∀ node ∈ nodes, node.Visible :=
  forall_words_all.mp visible

end Node

namespace Doc

variable {doc array index function keyword value : Doc} {docs : List Doc} {before after : Bool}

theorem sealed_token (token : Token) {value : String} (visible : EndsVisibly value) :
    (Doc.token token value).Sealed :=
  fun _ => .annotated (.text visible)

theorem sealed_comma : Doc.comma.Sealed := sealed_token .punctuation (by decide)

theorem sealed_dot : Doc.dot.Sealed := sealed_token .punctuation (by decide)

theorem sealed_colon : Doc.colon.Sealed := sealed_token .punctuation (by decide)

theorem sealed_left_paren : Doc.leftParen.Sealed := sealed_token .punctuation (by decide)

theorem sealed_right_paren : Doc.rightParen.Sealed := sealed_token .punctuation (by decide)

theorem sealed_left_brace : Doc.leftBrace.Sealed := sealed_token .punctuation (by decide)

theorem sealed_right_brace : Doc.rightBrace.Sealed := sealed_token .punctuation (by decide)

theorem Sealed.cons (sealed : doc.Sealed) (rest : (Doc.concat docs).Leads false after) :
    (Doc.concat (doc :: docs)).Leads before after :=
  .concatCons (sealed before) rest

theorem Leads.blank (rest : (Doc.concat docs).Leads true after) :
    (Doc.concat (Doc.blank :: docs)).Leads before after :=
  .concatCons .anyText rest

theorem Leads.after_line (rest : (Doc.concat docs).Leads true after) :
    (Doc.concat (Doc.line :: docs)).Leads false after :=
  .concatCons .line rest

theorem Leads.after_break (rest : (Doc.concat docs).Leads false after) :
    (Doc.concat (.hardLine :: docs)).Leads false after :=
  .concatCons .hardLine rest

theorem Sealed.last (sealed : doc.Sealed) : (Doc.concat [doc]).Leads before false :=
  (sealed before).single

theorem Sealed.operand (sealed : doc.Sealed) (withParens : Bool) :
    (doc.operand withParens).Sealed := by
  cases withParens with
  | true => exact fun _ => sealed_left_paren.cons (sealed.cons sealed_right_paren.last)
  | false => exact sealed

theorem sealed_indexed (arraySealed : array.Sealed) (indexSealed : index.Sealed) :
    (Doc.indexed array index).Sealed := by
  have left : Doc.leftBracket.Sealed := sealed_token .punctuation (by decide)
  have right : Doc.rightBracket.Sealed := sealed_token .punctuation (by decide)
  exact fun _ => .group (arraySealed.cons (left.cons (indexSealed.cons right.last)))

theorem yields_leads_cast (text : String) :
    Yields (fun doc => ∀ before, doc.Leads before true) (Combinator.cast (.text text)) := by
  apply (yields_cast_text text).weaken
  rintro _ ⟨-, rfl⟩ before
  split
  · exact .nil fun _ => rfl
  · exact .anyText

theorem yields_sealed_cast {text : String} (visible : EndsVisibly text) :
    Yields Sealed (Combinator.cast (.text text)) := by
  apply (yields_cast_text text).weaken
  rintro _ ⟨-, rfl⟩
  rw [if_neg visible.1]
  exact fun _ => .text visible

end Doc

theorem NestUnit.yields_leads (nestUnit : NestUnit) {doc : Doc} {before after : Bool}
    (leads : doc.Leads before after) :
    Yields (fun nested => nested.Leads before after) (nestUnit.nest doc) :=
  Yields.any.bind fun _ _ => .ok (.nest leads)

theorem Doc.yields_sealed_after_keyword {keyword value : Doc} (keywordSealed : keyword.Sealed)
    (valueSealed : value.Sealed) (nestUnit : NestUnit) :
    Yields Sealed (Doc.afterKeyword keyword value nestUnit) := by
  rw [Doc.afterKeyword]
  apply (nestUnit.yields_leads (.after_line valueSealed.last)).bind
  intro nested leads
  exact .ok fun _ => .group (keywordSealed.cons leads.single)

namespace Node

variable {nestUnit : NestUnit}

theorem VisibleText.yields_sealed {name : Node} (visible : name.VisibleText) :
    Yields Sealed name.toDoc := by
  match name with
  | .scalar (.text _) => exact Doc.yields_sealed_cast visible

theorem VisibleText.yields_sealed_token {name : Node} (visible : name.VisibleText)
    (token : Token) : Yields Sealed (name.toToken token) :=
  visible.yields_sealed.map fun _ sealed before => .annotated (sealed before)

theorem yields_sealed_constant {value isString : Node} {text : String}
    (shown : value.shown.text = .ok text)
    (visible : (Node.constant value isString).Visible) :
    Yields Sealed (constantDoc value isString) := by
  have isText : Yields (fun result => result = text) value.shown.text := by
    rw [shown]
    exact .ok rfl
  unfold constantDoc
  split
  · have quote : EndsVisibly "\"" := by decide
    apply isText.bind
    rintro written rfl
    apply (Doc.yields_leads_cast written).bind
    intro content leads
    exact .ok fun _ => .annotated (.concatCons (.text quote) (.concatCons (leads _)
      (Doc.Leads.single (.text quote))))
  · split
    · exact .ok (Doc.sealed_token _ (by decide))
    · exact .ok (Doc.sealed_token _ (by decide))
    · exact .ok (Doc.sealed_token _ (by decide))
    · have isWord : (Node.text text).VisibleText := by
        apply visible
        rw [words, if_neg ‹_›, shown]
        exact List.mem_singleton.mpr rfl
      apply isText.bind
      rintro _ rfl
      apply (Doc.yields_sealed_cast isWord).bind
      intro content sealed
      exact .ok fun before => .annotated (sealed before)

theorem yields_sealed_call {function : Doc} {arguments : List Doc} (nestUnit : NestUnit)
    (functionSealed : function.Sealed) (sealed : ∀ argument ∈ arguments, argument.Sealed) :
    Yields Sealed (callDoc nestUnit function arguments) := by
  unfold callDoc
  split
  · exact .ok fun _ => functionSealed.cons (Doc.sealed_left_paren.cons Doc.sealed_right_paren.last)
  · apply Yields.any.bind
    intro wideUnit _
    apply (wideUnit.yields_leads (Doc.leads_intersperse sealed .line).filled).bind
    intro nested leads
    exact .ok fun _ => .group (functionSealed.cons (Doc.sealed_left_paren.cons
      (.concatCons leads Doc.sealed_right_paren.last)))

theorem yields_sealed_arguments {arguments : List Node}
    (each : ∀ argument ∈ arguments, Yields Sealed (expressionDoc nestUnit argument)) :
    Yields (fun docs => ∀ doc ∈ docs, doc.Sealed) (argumentDocs nestUnit arguments) := by
  induction arguments with
  | nil => exact .ok (List.forall_mem_nil _)
  | cons argument rest induction =>
      rcases List.forall_mem_cons.mp each with ⟨here, later⟩
      rw [argumentDocs]
      apply here.bind
      intro first sealed
      apply (induction later).bind
      intro others othersSealed
      apply Yields.ok
      apply List.forall_mem_cons.mpr ⟨_, othersSealed⟩
      split
      · exact sealed
      · exact fun _ => sealed.cons Doc.sealed_comma.last

theorem yields_sealed_dimensions {array : Doc} (arraySealed : array.Sealed)
    {dimensions : List Node}
    (each : ∀ dimension ∈ dimensions, Yields Sealed (expressionDoc nestUnit dimension)) :
    Yields Sealed (dimensionDocs nestUnit array dimensions) := by
  induction dimensions generalizing array with
  | nil => exact .ok arraySealed
  | cons dimension rest induction =>
      rcases List.forall_mem_cons.mp each with ⟨here, later⟩
      rw [dimensionDocs]
      apply here.bind
      intro index indexSealed
      exact induction (Doc.sealed_indexed arraySealed indexSealed) later

theorem Printable.yields_sealed {node : Node} (printable : node.Printable)
    (visible : node.Visible) : Yields Sealed (expressionDoc nestUnit node) := by
  unfold Visible at visible
  induction printable with
  | constant shown _ =>
      rw [expressionDoc]
      exact yields_sealed_constant shown visible
  | @binary operation left right priority _ _ _ leftInduction rightInduction =>
      rw [words, List.forall_mem_cons, List.forall_mem_append] at visible
      rw [expressionDoc]
      apply (leftInduction visible.2.1).bind
      intro leftDoc leftSealed
      apply (rightInduction visible.2.2).bind
      intro rightDoc rightSealed
      apply (visible.1.yields_sealed_token .operator).bind
      intro operator sealed
      have rest : (Doc.concat [Doc.line, operator, Doc.blank,
          rightDoc.operand (rightNeedsParens priority right)]).Leads false false :=
        .after_line (sealed.cons (.blank (rightSealed.operand _).last))
      apply (nestUnit.yields_leads rest).bind
      intro nested leads
      exact .ok fun _ => .group ((leftSealed.operand _).cons leads.single)
  | unary _ _ induction =>
      rw [words, List.forall_mem_cons] at visible
      rw [expressionDoc]
      apply (visible.1.yields_sealed_token .operator).bind
      intro operator sealed
      apply (induction visible.2).bind
      intro operand operandSealed
      exact .ok fun _ => sealed.cons (operandSealed.operand _).last
  | field _ =>
      rw [expressionDoc]
      exact (List.forall_mem_singleton.mp visible).yields_sealed_token .nameVariable
  | reference _ absent =>
      rw [words, if_pos absent] at visible
      rw [expressionDoc, if_pos absent]
      exact (List.forall_mem_singleton.mp visible).yields_sealed_token .nameVariable
  | element _ indexPrintable arrayInduction indexInduction =>
      rw [words, indexPrintable.index_is_some, if_neg Bool.false_ne_true,
        List.forall_mem_append] at visible
      rw [expressionDoc, indexPrintable.index_is_some, if_neg Bool.false_ne_true]
      apply (arrayInduction visible.1).bind
      intro array arraySealed
      apply (indexInduction visible.2).bind
      intro index indexSealed
      exact .ok (Doc.sealed_indexed arraySealed indexSealed)
  | call _ _ induction =>
      rw [words, List.forall_mem_cons] at visible
      rw [expressionDoc]
      apply (visible.1.yields_sealed_token .nameFunction).bind
      intro function sealed
      have each := visible_each visible.2
      apply (yields_sealed_arguments fun node member =>
        induction node member (each node member)).bind
      intro docs areSealed
      exact yields_sealed_call nestUnit sealed areSealed
  | instanceCall _ _ _ induction receiverInduction =>
      rw [words, List.forall_mem_cons, List.forall_mem_append] at visible
      rw [expressionDoc]
      apply (visible.1.yields_sealed_token .nameFunction).bind
      intro function sealed
      apply (receiverInduction visible.2.2).bind
      intro receiver receiverSealed
      have each := visible_each visible.2.1
      apply (yields_sealed_arguments fun node member =>
        induction node member (each node member)).bind
      intro docs areSealed
      exact yields_sealed_call nestUnit
        (fun _ => (receiverSealed.operand _).cons (Doc.sealed_dot.cons sealed.last)) areSealed
  | new _ induction =>
      rw [expressionDoc]
      apply (induction visible).bind
      intro value sealed
      exact Doc.yields_sealed_after_keyword (Doc.sealed_token .keyword (by decide)) sealed nestUnit
  | newArray _ _ induction =>
      rw [words, List.forall_mem_cons] at visible
      rw [expressionDoc]
      apply (visible.1.yields_sealed_token .nameClass).bind
      intro type typeSealed
      have keyword : (Doc.token .keyword "new").Sealed := Doc.sealed_token .keyword (by decide)
      apply (Doc.yields_sealed_after_keyword keyword typeSealed nestUnit).bind
      intro array sealed
      have each := visible_each visible.2
      exact yields_sealed_dimensions sealed fun node member =>
        induction node member (each node member)
  | derived printable induction =>
      rw [expressionDoc, if_pos printable.is_expression]
      exact induction visible

theorem PrintableStatement.yields_sealed {node : Node} (printable : node.PrintableStatement)
    (visible : node.Visible) : Yields Sealed (statementDoc nestUnit node) := by
  unfold Visible at visible
  have keyword {name : String} (isWord : EndsVisibly name) : (Doc.token .keyword name).Sealed :=
    Doc.sealed_token .keyword isWord
  induction printable with
  | assignment leftPrintable rightPrintable =>
      rw [words, List.forall_mem_append] at visible
      rw [statementDoc, assignmentDoc]
      apply (leftPrintable.yields_sealed visible.1).bind
      intro left leftSealed
      apply (rightPrintable.yields_sealed visible.2).bind
      intro right rightSealed
      apply (nestUnit.yields_leads (.after_line rightSealed.last)).bind
      intro nested leads
      have equals : (Doc.token .operator "=").Sealed := Doc.sealed_token .operator (by decide)
      exact .ok fun _ => .group (leftSealed.cons (.blank (equals.cons leads.single)))
  | bareReturn absent =>
      rw [statementDoc, if_pos absent]
      exact .ok (keyword (by decide))
  | returning printable =>
      rw [statementDoc, printable.index_is_some, if_neg Bool.false_ne_true]
      apply (printable.yields_sealed visible).bind
      intro value sealed
      exact Doc.yields_sealed_after_keyword (keyword (by decide)) sealed nestUnit
  | throwing printable =>
      rw [statementDoc]
      apply (printable.yields_sealed visible).bind
      intro value sealed
      exact Doc.yields_sealed_after_keyword (keyword (by decide)) sealed nestUnit
  | call printable | instanceCall printable =>
      rw [statementDoc]
      exact printable.yields_sealed visible
  | derived printable induction =>
      rw [statementDoc, if_pos printable.is_statement]
      exact induction visible

theorem yields_leads_block {statements : List Node}
    (printable : ∀ statement ∈ statements, statement.PrintableStatement)
    (visible : ∀ word ∈ wordsAll statements, word.VisibleText) :
    Yields (fun doc => doc.Leads false false) (blockDoc nestUnit statements) := by
  have each := visible_each visible
  have docs : Yields (fun docs => ∀ doc ∈ docs, doc.Sealed) (statementDocs nestUnit statements) :=
    @Yields.each Doc Sealed Node (statementDoc nestUnit) (statementDocs nestUnit) rfl
      (fun _ _ => rfl) statements fun statement member =>
        (printable statement member).yields_sealed (each statement member)
  unfold blockDoc
  split
  · exact .ok (.nil id)
  · apply docs.bind
    intro lines sealed
    exact .ok (.alwaysBreak (Doc.leads_intersperse sealed .line).joined)

/-- A modifier or a keyword, which may end in a blank or be empty. -/
theorem Named.yields_leads {name : Node} (named : name.Named) :
    Yields (fun doc => ∀ before, doc.Leads before true) name.toDoc := by
  cases named with
  | text => exact Doc.yields_leads_cast _

theorem Named.yields_leads_token {name : Node} (named : name.Named) (token : Token) :
    Yields (fun doc => ∀ before, doc.Leads before true) (name.toToken token) :=
  named.yields_leads.map fun _ leads before => .annotated (leads before)

theorem yields_sealed_docs {names : List Node} (visible : ∀ name ∈ names, name.VisibleText) :
    Yields (fun docs => ∀ doc ∈ docs, doc.Sealed) (toDocs names) :=
  @Yields.each Doc Sealed Node toDoc toDocs rfl (fun _ _ => rfl) names fun name member =>
    (visible name member).yields_sealed

theorem yields_sealed_tokens (token : Token) {names : List Node}
    (visible : ∀ name ∈ names, name.VisibleText) :
    Yields (fun docs => ∀ doc ∈ docs, doc.Sealed) (toTokens token names) :=
  @Yields.each Doc Sealed Node (fun name => name.toToken token) (toTokens token) rfl
    (fun _ _ => rfl) names fun name member => (visible name member).yields_sealed_token token

def Bracketed (docs : List Doc) : Prop := docs = [] ∨ ∃ doc, docs = [doc] ∧ doc.Sealed

theorem Bracketed.leads {docs : List Doc} (bracketed : Bracketed docs) :
    (Doc.concat docs).Leads false false := by
  rcases bracketed with rfl | ⟨doc, rfl, sealed⟩
  · exact .concatNil
  · exact sealed.last

/-- Behind the brackets there is a blank, and without them it is the one in front. -/
theorem Bracketed.leads_spaced {docs : List Doc} (bracketed : Bracketed docs) :
    (Doc.concat (if docs.isEmpty then [] else docs ++ [Doc.blank])).Leads true true := by
  rcases bracketed with rfl | ⟨doc, rfl, sealed⟩
  · exact .concatNil
  · exact sealed.cons (.blank .concatNil)

theorem yields_bracketed_generics {generics : List Node}
    (visible : ∀ generic ∈ generics, generic.VisibleText) :
    Yields Bracketed (genericsDocs generics) := by
  have left : Doc.leftAngle.Sealed := Doc.sealed_token .punctuation (by decide)
  have right : Doc.rightAngle.Sealed := Doc.sealed_token .punctuation (by decide)
  have separator : (Doc.concat [Doc.comma, Doc.blank]).Leads false true :=
    Doc.sealed_comma.cons (.blank .concatNil)
  unfold genericsDocs
  split
  · exact .ok (.inl rfl)
  · apply (yields_sealed_docs visible).bind
    intro names sealed
    have list := (Doc.leads_intersperse sealed separator).joined
    exact .ok (.inr ⟨_, rfl, fun _ => left.cons (.concatCons list right.last)⟩)

theorem yields_leads_return_type {returnType : Node}
    (visible : ∀ word ∈ (if returnType.isSet then [returnType] else []), word.VisibleText) :
    Yields (fun docs => (Doc.concat docs).Leads false false) (returnTypeDocs returnType) := by
  unfold returnTypeDocs
  split
  · rw [if_pos ‹_›] at visible
    apply ((List.forall_mem_singleton.mp visible).yields_sealed_token .nameClass).bind
    intro name sealed
    exact .ok (Doc.sealed_colon.cons (.blank sealed.last))
  · exact .ok .concatNil

theorem leads_open_brace : (Doc.concat [Doc.blank, Doc.leftBrace]).Leads false false :=
  .blank Doc.sealed_left_brace.last

theorem leads_closing_brace : (Doc.concat [.hardLine, Doc.rightBrace]).Leads false false :=
  .after_break Doc.sealed_right_brace.last

theorem sealed_method_header {modifier name parameters : Doc} {generics returns : List Doc}
    (modifierLeads : ∀ before, modifier.Leads before true) (bracketed : Bracketed generics)
    (nameSealed : name.Sealed) (parametersLead : parameters.Leads false false)
    (returnsLead : (Doc.concat returns).Leads false false) :
    (Doc.group (.concat
      ([modifier, Doc.token .keywordDeclaration "fun", Doc.blank] ++
        (if generics.isEmpty then [] else generics ++ [Doc.blank]) ++
        [name, Doc.leftParen, parameters, Doc.rightParen] ++ returns ++
        [Doc.blank, Doc.leftBrace]))).Sealed := by
  intro before
  have keyword : (Doc.token .keywordDeclaration "fun").Sealed := Doc.sealed_token _ (by decide)
  have front : (Doc.concat [modifier, Doc.token .keywordDeclaration "fun", Doc.blank]).Leads
      before true :=
    .concatCons (modifierLeads before) (keyword.cons (.blank .concatNil))
  have signature : (Doc.concat [name, Doc.leftParen, parameters, Doc.rightParen]).Leads true
      false :=
    nameSealed.cons (Doc.sealed_left_paren.cons (.concatCons parametersLead
      Doc.sealed_right_paren.last))
  exact .group ((((front.append bracketed.leads_spaced).append signature).append
    returnsLead).append leads_open_brace)

theorem PrintableMethod.yields_sealed {node : Node} (printable : node.PrintableMethod)
    (visible : node.Visible) : Yields Sealed (methodDoc node) := by
  cases printable with
  | @declared name modifier returnType nestSize generics parameters body indent core _ isModifier _
      _ _ printable =>
  rw [Visible, ← words_core, core, words] at visible
  simp only [List.forall_mem_cons, List.forall_mem_append] at visible
  rcases visible with ⟨nameVisible, genericsVisible, parametersVisible, typeVisible, bodyVisible⟩
  simp only [methodDoc, core]
  apply (yields_bracketed_generics genericsVisible).bind
  intro genericDocs bracketed
  apply (nameVisible.yields_sealed_token .nameFunction).bind
  intro nameDoc nameSealed
  apply Yields.any.bind
  intro wideUnit _
  apply (yields_sealed_docs parametersVisible).bind
  intro parameterDocs areSealed
  have separator : (Doc.concat [Doc.comma, Doc.line]).Leads false true :=
    Doc.sealed_comma.cons (.after_line .concatNil)
  apply (wideUnit.yields_leads (Doc.leads_intersperse areSealed separator).joined).bind
  intro list listLeads
  apply (yields_leads_return_type typeVisible).bind
  intro typeDocs typeLeads
  apply (yields_leads_block printable bodyVisible).bind
  intro bodyDoc bodyLeads
  apply isModifier.yields_leads.bind
  intro modifierDoc modifierLeads
  have header := sealed_method_header modifierLeads bracketed nameSealed listLeads typeLeads
  split
  · exact .ok fun _ => header.cons leads_closing_brace
  · apply ((NestUnit.ofNode nestSize).yields_leads (.after_break bodyLeads.single)).bind
    intro block blockLeads
    exact .ok fun _ => header.cons (.concatCons blockLeads leads_closing_brace)

theorem yields_leads_methods {methods : List Node}
    (printable : ∀ method ∈ methods, method.PrintableMethod)
    (visible : ∀ method ∈ methods, method.Visible) (isFirst : Bool) :
    Yields (fun docs => (Doc.concat docs).Leads false false) (methodDocs isFirst methods) := by
  induction methods generalizing isFirst with
  | nil => exact .ok .concatNil
  | cons method rest induction =>
      rcases List.forall_mem_cons.mp printable with ⟨isPrintable, arePrintable⟩
      rcases List.forall_mem_cons.mp visible with ⟨isVisible, areVisible⟩
      rw [methodDocs]
      apply (isPrintable.yields_sealed isVisible).bind
      intro first sealed
      apply (induction arePrintable areVisible false).bind
      intro others leads
      have gap : (Doc.concat (if isFirst then [] else [.hardLine])).Leads false false := by
        cases isFirst with
        | true => exact .concatNil
        | false => exact .after_break .concatNil
      exact .ok ((gap.append (.after_break sealed.last)).append leads)

theorem yields_leads_other_supertypes {supertypes : List Node}
    (visible : ∀ supertype ∈ supertypes, supertype.VisibleText) :
    Yields (fun docs => (Doc.concat docs).Leads false false)
      (otherSupertypeDocs nestUnit supertypes) := by
  induction supertypes with
  | nil => exact .ok .concatNil
  | cons supertype rest induction =>
      rcases List.forall_mem_cons.mp visible with ⟨isVisible, areVisible⟩
      rw [otherSupertypeDocs]
      apply Yields.any.bind
      intro wideUnit _
      apply (isVisible.yields_sealed_token .nameClass).bind
      intro name sealed
      apply (wideUnit.yields_leads (.after_line sealed.last)).bind
      intro first firstLeads
      apply (induction areVisible).bind
      intro others leads
      exact .ok (Doc.sealed_comma.cons (.concatCons firstLeads leads))

theorem yields_leads_supertypes {supertypes : List Node}
    (visible : ∀ supertype ∈ supertypes, supertype.VisibleText) :
    Yields (fun docs => (Doc.concat docs).Leads false false)
      (supertypeDocs nestUnit supertypes) := by
  cases supertypes with
  | nil => exact .ok .concatNil
  | cons supertype rest =>
      rcases List.forall_mem_cons.mp visible with ⟨isVisible, areVisible⟩
      rw [supertypeDocs, firstSupertypeDoc, bind_assoc]
      apply (isVisible.yields_sealed_token .nameClass).bind
      intro name sealed
      have inner : (Doc.concat [Doc.line, Doc.colon, Doc.blank, name]).Leads false false :=
        .after_line (Doc.sealed_colon.cons (.blank sealed.last))
      apply (nestUnit.yields_leads inner).bind
      intro first firstLeads
      apply (yields_leads_other_supertypes areVisible).bind
      intro others leads
      exact .ok (.concatCons firstLeads leads)

theorem sealed_keyword_line {keyword : String} (isWord : EndsVisibly keyword) {name : Doc}
    (sealed : name.Sealed) :
    (Doc.concat [Doc.token .keywordNamespace keyword, Doc.blank, name]).Sealed :=
  fun _ => (Doc.sealed_token _ isWord).cons (.blank sealed.last)

theorem yields_sealed_package {package : Node}
    (visible : ∀ word ∈ (if package.isSet then [package] else []), word.VisibleText) :
    Yields (fun docs => ∀ doc ∈ docs, doc.Sealed) (packageDocs package) := by
  unfold packageDocs
  split
  · rw [if_pos ‹_›] at visible
    apply ((List.forall_mem_singleton.mp visible).yields_sealed_token .nameNamespace).bind
    intro name sealed
    exact .ok (List.forall_mem_singleton.mpr (sealed_keyword_line (by decide) sealed))
  · exact .ok (List.forall_mem_nil _)

theorem yields_sealed_imports {imports : List Node}
    (visible : ∀ name ∈ imports, name.VisibleText) :
    Yields (fun docs => ∀ doc ∈ docs, doc.Sealed) (importDocs imports) := by
  unfold importDocs
  apply (yields_sealed_tokens .nameNamespace visible).bind
  intro names sealed
  exact .ok (List.forall_mem_map.mpr fun name member =>
    sealed_keyword_line (by decide) (sealed name member))

theorem leads_fields (fields : List Node) :
    (Doc.concat (fields.map fun _ => .hardLine)).Leads false false := by
  induction fields with
  | nil => exact .concatNil
  | cons field rest induction => exact .after_break induction

theorem sealed_class_header {modifier keyword name : Doc} {generics supertypes : List Doc}
    (modifierLeads : ∀ before, modifier.Leads before true)
    (keywordLeads : ∀ before, keyword.Leads before true) (nameSealed : name.Sealed)
    (bracketed : Bracketed generics) (supertypesLead : (Doc.concat supertypes).Leads false false) :
    (Doc.group (.concat ([modifier, keyword, name] ++ generics ++ supertypes ++
      [Doc.blank, Doc.leftBrace]))).Sealed := by
  intro before
  have front : (Doc.concat [modifier, keyword, name]).Leads before false :=
    .concatCons (modifierLeads before) (.concatCons (keywordLeads true) nameSealed.last)
  exact .group (((front.append bracketed.leads).append supertypesLead).append leads_open_brace)

theorem PrintableClass.yields_leads {node : Node} (printable : node.PrintableClass)
    (visible : node.Visible) : Yields (fun doc => doc.Leads false false) (classDoc node) := by
  cases printable with
  | @declared name package modifier keyword superClass nestSize imports generics interfaces fields
      methods indent core _ _ _ isModifier isKeyword _ _ _ printable =>
  rw [Visible, ← words_core, core, words] at visible
  simp only [List.forall_mem_cons, List.forall_mem_append] at visible
  rcases visible with ⟨nameVisible, packageVisible, importsVisible, genericsVisible,
    supertypesVisible, methodsVisible⟩
  simp only [classDoc, core]
  apply (yields_sealed_package packageVisible).bind
  intro packageDocs packageSealed
  apply (yields_sealed_imports importsVisible).bind
  intro importDocs importsSealed
  apply (isKeyword.yields_leads_token .keywordDeclaration).bind
  intro keywordDoc keywordLeads
  apply (nameVisible.yields_sealed_token .nameClass).bind
  intro nameDoc nameSealed
  apply (yields_bracketed_generics genericsVisible).bind
  intro genericDocs bracketed
  apply (yields_leads_supertypes supertypesVisible).bind
  intro typeDocs typeLeads
  apply (yields_leads_methods printable (visible_each methodsVisible) _).bind
  intro methodDocs methodLeads
  apply isModifier.yields_leads.bind
  intro modifierDoc modifierLeads
  have header := sealed_class_header modifierLeads keywordLeads nameSealed bracketed typeLeads
  have members := ((leads_fields fields).append methodLeads).joined
  apply ((NestUnit.ofNode nestSize).yields_leads members).bind
  intro memberDoc memberLeads
  have declaration : (Doc.concat [_, memberDoc, .hardLine, Doc.rightBrace]).Sealed := fun _ =>
    header.cons (.concatCons memberLeads leads_closing_brace)
  have parts := List.forall_mem_append.mpr ⟨List.forall_mem_append.mpr
    ⟨packageSealed, importsSealed⟩, List.forall_mem_singleton.mpr declaration⟩
  exact .ok (Doc.leads_intersperse parts .hardLine).joined

theorem PrintableClass.visible_lines {node : Node} (printable : node.PrintableClass)
    (visible : node.Visible) (width : Int) (room : Nat) :
    ∃ doc, node.classDoc = .ok doc ∧
      ((∃ text, formatClass node width room = .ok text) ↔
        ∀ line ∈ doc.page width, line.Storable room) ∧
      ∀ text, formatClass node width room = .ok text →
        ∀ line ∈ Text.lines text, line.getLast? ≠ some ' ' := by
  rcases printable.renders width room with ⟨doc, isDoc, regular, renders⟩
  have leads := (printable.yields_leads visible).good_of_ok doc isDoc
  rw [format_class_eq isDoc]
  refine ⟨doc, isDoc, format_succeeds_iff regular renders.plain room, fun text written => ?_⟩
  rw [format_lines regular renders.plain written, List.forall_mem_map]
  exact fun line member => Line.last_character_ne (leads.page regular width line member)

end Node

/-- No text of a class whose words end visibly has a line with a blank at its end. There is a text
if the class is printable and its lines can be indented. -/
theorem class_lines_end_visibly {node : Node} (typeset : node.TypesetClass)
    (visible : node.Visible) (width : Int) (room : Nat) :
    ((∃ text, formatClass node width room = .ok text) ↔ node.PrintableClass ∧
        ∃ doc, node.classDoc = .ok doc ∧ ∀ line ∈ doc.page width, line.Storable room) ∧
      ∀ text, formatClass node width room = .ok text →
        ∀ line ∈ Text.lines text, line.getLast? ≠ some ' ' := by
  have printed {text : String} (written : formatClass node width room = .ok text) :
      node.PrintableClass := by
    rcases bind_eq_ok_iff.mp written with ⟨doc, isDoc, -⟩
    exact (Node.class_printed_iff typeset visible.lettered).mp ⟨doc, isDoc⟩
  constructor
  · constructor
    · rintro ⟨text, written⟩
      rcases (printed written).visible_lines visible width room with ⟨doc, isDoc, storable, -⟩
      exact ⟨printed written, doc, isDoc, storable.mp ⟨text, written⟩⟩
    · rintro ⟨printable, doc, isDoc, storable⟩
      rcases printable.visible_lines visible width room with ⟨same, isSame, written, -⟩
      cases isDoc.symm.trans isSame
      exact written.mpr storable
  · intro text written
    rcases (printed written).visible_lines visible width room with ⟨_, -, -, lines⟩
    exact lines text written

def shelfMethod : Node :=
  .methodDecl (.text "put") (.text "private ") [] [.text "item: T", .text "slot: Int"]
    (.text "Boolean")
    [.returning (.call (.text "store") [.field (.text "item"),
      .binary (.text "+") (.field (.text "slot")) (.constant (.int 1) (.scalar (.flag false))) 9])]
    (.int 2)

def shelfClass : Node :=
  .classDecl (.text "Shelf") (.text "shop") [.text "shop.Item"] (.text "open ") (.text "class ")
    [.text "T"] (.text "Rack") [.text "Storage"] [] [shelfMethod] (.int 2)

def shelfText : String :=
  "package shop\nimport shop.Item\nopen class Shelf<T>\n  : Rack,\n    Storage \x7b\n" ++
    "  private fun put(item: T,\n      slot: Int): Boolean \x7b\n    return\n" ++
    "      store(item,\n          slot + 1)\n  \x7d\n\x7d"

theorem shelf_class_lines_end_visibly :
    shelfClass.TypesetClass ∧ shelfClass.Visible ∧ shelfClass.PrintableClass ∧
      formatClass shelfClass 18 10 = .ok shelfText ∧
      ∀ line ∈ Text.lines shelfText, line.getLast? ≠ some ' ' := by
  have nonneg : (NestUnit.ofNode (.int 2)).Rightward := Int.le.intro 2 rfl
  have typeset : shelfClass.TypesetClass :=
    ⟨trivial, trivial, nonneg, List.forall_mem_singleton.mpr ⟨trivial, nonneg⟩⟩
  have visible : shelfClass.Visible := by decide
  have written : formatClass shelfClass 18 10 = .ok shelfText := by decide +kernel
  rcases class_lines_end_visibly typeset visible 18 10 with ⟨printed, lines⟩
  exact ⟨typeset, visible, (printed.mp ⟨_, written⟩).1, written, lines shelfText written⟩

end KotlinLayout
