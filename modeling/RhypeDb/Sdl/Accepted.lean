import RhypeDb.Basic.Fallible
import RhypeDb.Sdl.Tokens

/-! What a schema that the parser accepts is made of: its names are identifiers, a singular
relation has no name that is a type of the language's own, and texts hold no quotes. Every run of
the parser comes to an end, since each turn of its loops reads at least an identifier or a
mark. -/

namespace RhypeDb.Sdl

open Engine (EdgeFieldDef FieldType OnDeletePolicy RelationType ScalarType)
open List Scan

variable {chars : CharTable} {schema : Schema} {input : String} {given : FulltextParams}
  {key : String}

def Directive.WellFormed (chars : CharTable) : Directive → Prop
  | .inverse inv => IsIdent chars inv.typeName ∧ IsIdent chars inv.fieldName
  | .vectorize v => '"' ∉ v.sourceField.toList ∧ '"' ∉ v.model.toList
  | .fulltext f => f.analyzer ∈ FulltextDef.knownAnalyzers
  | _ => True

structure WellFormedRelation (chars : CharTable) (rel : RelationType) : Prop where
  target : IsIdent chars rel.targetType
  single : rel.isMany = false →
    rel.targetType ≠ "Vector" ∧ parseScalarType rel.targetType = none
  edgeFields : ∀ ef ∈ rel.edgeFields, IsIdent chars ef.name

def WellFormedFieldType (chars : CharTable) : FieldType → Prop
  | .scalar _ => True
  | .vector dimensions => dimensions < 2 ^ 32
  | .relation rel => WellFormedRelation chars rel

structure FieldDef.WellFormed (chars : CharTable) (field : FieldDef) : Prop where
  name : IsIdent chars field.name
  fieldType : WellFormedFieldType chars field.fieldType
  directives : ∀ directive ∈ field.directives, directive.WellFormed chars

structure TypeDef.WellFormed (chars : CharTable) (typeDef : TypeDef) : Prop where
  name : IsIdent chars typeDef.name
  fields : ∀ field ∈ typeDef.fields, field.WellFormed chars

def WellFormedTypes (chars : CharTable) (types : SortedMap String TypeDef) : Prop :=
  ∀ entry ∈ types.entries, entry.1 = entry.2.name ∧ entry.2.WellFormed chars

theorem forall_mem_concat {α : Type} {P : α → Prop} {l : List α} {a : α} (hl : ∀ x ∈ l, P x)
    (ha : P a) : ∀ x ∈ l ++ [a], P x := by
  intro x hx
  rcases mem_append.mp hx with hx | hx
  · exact hl x hx
  · rw [mem_singleton.mp hx]
    exact ha

theorem yields_parseOnDelete : Yields (parseOnDelete chars) fun d _ => d.WellFormed chars := by
  refine yields_expect.bind fun _ _ _ => yields_parseIdent.bind fun policyName _ _ =>
    yields_expect.bind fun _ _ _ => ?_
  split
  · exact .pure trivial
  · exact .throw

theorem yields_parseInverse : Yields (parseInverse chars) fun d _ => d.WellFormed chars := by
  refine yields_expect.bind fun _ _ _ => yields_parseIdent.bind fun typeName _ htype =>
    yields_expect.bind fun _ _ _ => yields_parseIdent.bind fun fieldName _ hfield =>
    yields_expect.bind fun _ _ _ => ?_
  exact .pure ⟨htype.2, hfield.2⟩

theorem yields_parseIndexValue {idx : IndexDef} :
    Yields (parseIndexValue chars idx key) fun _ _ => True := by
  unfold parseIndexValue
  split
  · refine yields_parseIdent.bind fun val _ _ => ?_
    split
    · exact .pure trivial
    · exact yields_error
  · refine yields_parseIdent.bind fun val _ _ => ?_
    split
    · exact .pure trivial
    · exact yields_error
  · exact yields_parseU32.bind fun _ _ _ => .pure trivial
  · exact yields_parseU32.bind fun _ _ _ => .pure trivial
  · exact yields_error

theorem yields_parseIndexParam (idx : IndexDef) : Yields (parseIndexParam chars idx)
    fun turn n => turn.Meets (fun _ => 0 < n ∧ True) fun _ => True := by
  refine yields_skipWhitespace.bind fun _ _ _ => Yields.accept.bind fun ends _ _ => ?_
  cases ends with
  | true => exact .pure trivial
  | false =>
    refine yields_expect.bind fun _ _ hcomma => yields_parseIdent.bind fun key _ _ =>
      yields_expect.bind fun _ _ _ => yields_parseIndexValue.bind fun _ _ _ => ?_
    exact .pure ⟨by omega, trivial⟩

theorem yields_parseIndex : Yields (parseIndex chars) fun d _ => d.WellFormed chars := by
  refine yields_expect.bind fun _ _ _ => yields_parseIdent.bind fun name _ _ => ?_
  split_ifs
  · refine (Yields.loop (I := fun _ => True) (Q := fun _ => True)
      (fun idx _ => yields_parseIndexParam idx) trivial).bind fun idx _ _ => ?_
    exact .pure trivial
  · exact yields_error

def Unquoted (given : Option String × Option String) : Prop :=
  (∀ s ∈ given.1, '"' ∉ s.toList) ∧ ∀ s ∈ given.2, '"' ∉ s.toList

theorem yields_parseVectorizeParam {given : Option String × Option String}
    (h : Unquoted given) : Yields (parseVectorizeParam chars given)
      fun turn n => turn.Meets (fun given' => 0 < n ∧ Unquoted given') Unquoted := by
  refine yields_skipWhitespace.bind fun _ _ _ => Yields.accept.bind fun ends _ _ => ?_
  cases ends with
  | true => exact .pure h
  | false =>
    refine yields_expectIf.bind fun _ _ _ => yields_parseIdent.bind fun key _ hkey =>
      yields_expect.bind fun _ _ _ => ?_
    split
    · refine yields_skipWhitespace.bind fun _ _ _ => yields_parseStringValue.bind fun s _ hs => ?_
      refine .pure ⟨by omega, ?_, h.2⟩
      rintro _ ⟨⟩
      exact hs
    · refine yields_skipWhitespace.bind fun _ _ _ => yields_parseStringValue.bind fun s _ hs => ?_
      refine .pure ⟨by omega, h.1, ?_⟩
      rintro _ ⟨⟩
      exact hs
    · exact yields_error

theorem yields_parseVectorize : Yields (parseVectorize chars) fun d _ => d.WellFormed chars := by
  refine yields_expect.bind fun _ _ _ => (Yields.loop (fun given hgiven =>
    yields_parseVectorizeParam hgiven) ⟨by rintro _ ⟨⟩, by rintro _ ⟨⟩⟩).bind fun given _ hgiven => ?_
  split
  · exact yields_error
  · exact yields_error
  · exact .pure ⟨hgiven.1 _ rfl, hgiven.2 _ rfl⟩

theorem yields_parseFulltextValue (h : given.fulltext.analyzer ∈ FulltextDef.knownAnalyzers) :
    Yields (parseFulltextValue chars given key)
      fun given' _ => given'.fulltext.analyzer ∈ FulltextDef.knownAnalyzers := by
  unfold parseFulltextValue
  split
  · split_ifs
    · exact yields_error
    · refine yields_parseStringValue.bind fun name _ _ => ?_
      split_ifs with hknown
      · exact .pure hknown
      · exact yields_error
  · split_ifs
    · exact yields_error
    · exact yields_parseBoolValue.bind fun positions _ _ => .pure h
  · exact yields_error

theorem yields_parseFulltextParam (h : given.fulltext.analyzer ∈ FulltextDef.knownAnalyzers) :
    Yields (parseFulltextParam chars given) fun turn n => turn.Meets
      (fun given' => 0 < n ∧ given'.fulltext.analyzer ∈ FulltextDef.knownAnalyzers)
      fun f => f.analyzer ∈ FulltextDef.knownAnalyzers := by
  refine yields_skipWhitespace.bind fun _ _ _ => Yields.accept.bind fun ends _ _ => ?_
  cases ends with
  | true => exact .pure h
  | false =>
    refine yields_expectIf.bind fun _ _ _ => yields_parseIdent.bind fun key _ hkey =>
      yields_expect.bind fun _ _ _ => (yields_parseFulltextValue h).bind fun given' _ hgiven' => ?_
    exact .pure ⟨by omega, hgiven'⟩

theorem yields_parseFulltext : Yields (parseFulltext chars) fun d _ => d.WellFormed chars := by
  refine yields_skipWhitespace.bind fun _ _ _ => Yields.accept.bind fun opens _ _ => ?_
  have hdefault : FulltextDef.default.analyzer ∈ FulltextDef.knownAnalyzers := mem_cons_self
  cases opens with
  | true =>
    refine (Yields.loop (I := fun given : FulltextParams =>
      given.fulltext.analyzer ∈ FulltextDef.knownAnalyzers)
      (fun given hgiven => yields_parseFulltextParam hgiven) hdefault).bind fun f _ hf => ?_
    exact .pure hf
  | false => exact .pure hdefault

theorem yields_parseDirective :
    Yields (parseDirective chars) fun d n => 0 < n ∧ d.WellFormed chars := by
  refine yields_parseIdent.bind fun name m hname => ?_
  have hwith : ∀ {p : Parse Directive}, (Yields p fun d _ => d.WellFormed chars) →
      Yields p fun d n => 0 < m + n ∧ d.WellFormed chars :=
    fun hp => hp.mono fun d n hd => ⟨by omega, hd⟩
  split
  · exact hwith (.pure trivial)
  · exact hwith (.pure trivial)
  · exact hwith yields_parseOnDelete
  · exact hwith yields_parseInverse
  · exact hwith yields_parseIndex
  · exact hwith yields_parseVectorize
  · exact hwith yields_parseFulltext
  · exact yields_error

theorem yields_parseFieldType :
    Yields (parseFieldType chars) fun fieldType _ => WellFormedFieldType chars fieldType := by
  refine yields_skipWhitespace.bind fun _ _ _ => Yields.accept.bind fun many _ _ => ?_
  cases many with
  | true =>
    refine yields_parseIdent.bind fun inner _ hinner => yields_expect.bind fun _ _ _ => ?_
    exact .pure ⟨hinner.2, nofun, nofun⟩
  | false =>
    refine yields_parseIdent.bind fun typeName _ hname => ?_
    split_ifs with hvector
    · refine yields_expect.bind fun _ _ _ => yields_parseU32.bind fun dims _ _ =>
        yields_expect.bind fun _ _ _ => ?_
      exact .pure dims.toNat_lt
    · split
      · exact .pure trivial
      · next hscalar => exact .pure ⟨hname.2, fun _ => ⟨hvector, hscalar⟩, nofun⟩

theorem yields_parseEdgeField {fields : List EdgeFieldDef}
    (h : ∀ ef ∈ fields, IsIdent chars ef.name) : Yields (parseEdgeField chars fields)
      fun turn n => turn.Meets
        (fun fields' => 0 < n ∧ ∀ ef ∈ fields', IsIdent chars ef.name)
        fun fields' => ∀ ef ∈ fields', IsIdent chars ef.name := by
  refine yields_skipWhitespace.bind fun _ _ _ => Yields.accept.bind fun ends _ _ => ?_
  cases ends with
  | true => exact .pure h
  | false =>
    refine yields_parseIdent.bind fun name _ hname => yields_expect.bind fun _ _ _ =>
      yields_parseIdent.bind fun typeName _ _ => ?_
    split
    · exact yields_error
    · refine yields_skipWhitespace.bind fun _ _ _ => Yields.accept.bind fun _ _ _ => ?_
      exact .pure ⟨by omega, forall_mem_concat h hname.2⟩

theorem yields_parseEdgeFields :
    Yields (parseEdgeFields chars) fun fields _ => ∀ ef ∈ fields, IsIdent chars ef.name :=
  yields_expect.bind fun _ _ _ =>
    Yields.loop (fun _ hfields => yields_parseEdgeField hfields) (forall_mem_nil _)

theorem yields_parseEdgeBlock {fieldType : FieldType} (h : WellFormedFieldType chars fieldType) :
    Yields (parseEdgeBlock chars fieldType)
      fun fieldType' _ => WellFormedFieldType chars fieldType' := by
  cases fieldType with
  | scalar s => exact .pure h
  | vector dimensions => exact .pure h
  | relation rel =>
    refine yields_skipWhitespace.bind fun _ _ _ => Yields.lookingAt.bind fun block _ _ => ?_
    cases block with
    | true =>
      refine yields_parseEdgeFields.bind fun fields _ hfields => ?_
      exact .pure ⟨h.target, h.single, hfields⟩
    | false => exact .pure h

theorem yields_parseNextDirective {directives : List Directive}
    (h : ∀ d ∈ directives, d.WellFormed chars) : Yields (parseNextDirective chars directives)
      fun turn n => turn.Meets (fun ds => 0 < n ∧ ∀ d ∈ ds, d.WellFormed chars)
        fun ds => ∀ d ∈ ds, d.WellFormed chars := by
  refine yields_skipWhitespace.bind fun _ _ _ => Yields.accept.bind fun goes _ _ => ?_
  cases goes with
  | true =>
    refine yields_parseDirective.bind fun d _ hd => ?_
    exact .pure ⟨by omega, forall_mem_concat h hd.2⟩
  | false => exact .pure h

theorem yields_parseFieldDef :
    Yields (parseFieldDef chars) fun field n => 0 < n ∧ field.WellFormed chars := by
  refine yields_parseIdent.bind fun name _ hname => yields_expect.bind fun _ _ _ =>
    yields_parseFieldType.bind fun _ _ htype => (yields_parseEdgeBlock htype).bind fun _ _ hblock =>
    (Yields.loop (fun _ hds => yields_parseNextDirective hds)
      (forall_mem_nil _)).bind fun _ _ hds => ?_
  exact .pure ⟨by omega, hname.2, hblock, hds⟩

theorem yields_parseNextField {fields : List FieldDef}
    (h : ∀ field ∈ fields, field.WellFormed chars) : Yields (parseNextField chars fields)
      fun turn n => turn.Meets (fun fs => 0 < n ∧ ∀ field ∈ fs, field.WellFormed chars)
        fun fs => ∀ field ∈ fs, field.WellFormed chars := by
  refine yields_skipWhitespace.bind fun _ _ _ => Yields.accept.bind fun ends _ _ => ?_
  cases ends with
  | true => exact .pure h
  | false =>
    refine yields_parseFieldDef.bind fun field _ hfield => ?_
    exact .pure ⟨by omega, forall_mem_concat h hfield.2⟩

theorem yields_parseTypeDef :
    Yields (parseTypeDef chars) fun typeDef n => 0 < n ∧ typeDef.WellFormed chars := by
  refine yields_skipWhitespace.bind fun _ _ _ => yields_parseIdent.bind fun keyword _ hkeyword => ?_
  split_ifs
  · refine yields_parseIdent.bind fun name _ hname => yields_expect.bind fun _ _ _ =>
      (Yields.loop (fun _ hfields => yields_parseNextField hfields) (forall_mem_nil _)).bind
        fun fields _ hfields => ?_
    exact .pure ⟨by omega, hname.2, hfields⟩
  · exact yields_error

theorem yields_parseNextType {types : SortedMap String TypeDef} (h : WellFormedTypes chars types) :
    Yields (parseNextType chars types) fun turn n => turn.Meets
      (fun types' => 0 < n ∧ WellFormedTypes chars types') (WellFormedTypes chars) := by
  have heof : Yields isEof fun _ _ => True := Yields.peek.bind fun _ _ _ => .pure trivial
  refine heof.bind fun ends _ _ => ?_
  cases ends with
  | true => exact .pure h
  | false =>
    refine yields_parseTypeDef.bind fun typeDef _ htype => ?_
    split_ifs
    · exact .throw
    · refine yields_skipWhitespace.bind fun _ _ _ => ?_
      refine .pure ⟨by omega, fun entry hentry => ?_⟩
      rcases SortedMap.mem_insert.mp hentry with rfl | ⟨hold, -⟩
      · exact ⟨rfl, htype.2⟩
      · exact h entry hold

theorem yields_parseTypes : Yields (parseTypes chars) fun types _ => WellFormedTypes chars types :=
  yields_skipWhitespace.bind fun _ _ _ =>
    Yields.loop (fun _ htypes => yields_parseNextType htypes) (forall_mem_nil _)

theorem parseSchema_eq_ok :
    parseSchema chars input = some (.ok schema) ↔
      (∃ p, parseTypes chars (.new input) = some (.ok (schema.types, p))) ∧
        validateSchema schema = .ok () := by
  change Option.map _ (parseTypes chars (.new input) : Option (Except SchemaError _)) = _ ↔ _
  cases h : (parseTypes chars (.new input) : Option (Except SchemaError _)) with
  | none => simp
  | some result =>
    cases result with
    | error e => exact ⟨nofun, fun ⟨⟨_, hp⟩, _⟩ => nomatch hp⟩
    | ok result =>
      obtain ⟨types, p⟩ := result
      simp only [Option.map_some, Option.some.injEq]
      constructor
      · intro hok
        change (validateSchema ⟨types⟩ >>= fun _ => pure (⟨types⟩ : Schema)) = .ok schema at hok
        obtain ⟨_, hvalid, hschema⟩ := Fallible.bind_eq_ok.mp hok
        cases hschema
        exact ⟨⟨p, rfl⟩, hvalid⟩
      · rintro ⟨⟨p', hp⟩, hvalid⟩
        cases hp
        change (validateSchema schema >>= fun _ => pure schema) = .ok schema
        rw [hvalid]
        rfl

theorem parseSchema_wellFormed
    (h : parseSchema chars input = some (.ok schema)) : WellFormedTypes chars schema.types := by
  obtain ⟨⟨p, hp⟩, -⟩ := parseSchema_eq_ok.mp h
  obtain ⟨n, -, hwf⟩ := (yields_parseTypes (.new input)).of_ok hp
  exact hwf

end RhypeDb.Sdl
