import RhypeDb.Sdl.Directives

/-! The parser reads an emitted schema back. Fields and types are lists of texts with whitespace
between them; a scanner that has read one of them stands in front of the next, or behind the
whitespace there, so that what a text is the start of is said up to what `skipWhitespace`
passes. -/

namespace RhypeDb.Sdl

open Engine (EdgeFieldDef FieldType OnDeletePolicy RelationType ScalarType)
open List Scan
open String hiding append_assoc

variable {chars : CharTable} {i r : List Char} {fieldType : FieldType} {tail k : List Char}
  {rel : RelationType}

section

variable {ef : EdgeFieldDef} {fields : List EdgeFieldDef} {acc : List EdgeFieldDef}

theorem emitEdgeFields_cons (h : fields ≠ []) :
    (emitEdgeFields (ef :: fields)).toList =
      (emitEdgeField ef).toList ++ ',' :: ' ' :: (emitEdgeFields fields).toList := by
  obtain ⟨next, rest, rfl⟩ := exists_cons_of_ne_nil h
  change (emitEdgeField ef ++ ", " ++ emitEdgeFields (next :: rest)).toList = _
  rw [toList_append, toList_append, append_assoc]
  rfl

theorem emitEdgeField_toList : (emitEdgeField ef).toList =
    ef.name.toList ++ ':' :: ' ' :: (scalarName ef.scalarType).toList := by
  unfold emitEdgeField
  rw [toList_append, toList_append, append_assoc]
  rfl

def edgeText (r : List Char) : List EdgeFieldDef → List Char
  | [] => '}' :: r
  | fields => (emitEdgeFields fields).toList ++ ' ' :: '}' :: r

theorem edgeText_cons :
    edgeText r (ef :: fields) = ef.name.toList ++ ':' :: ' ' :: ((scalarName ef.scalarType).toList ++
      if fields = [] then ' ' :: '}' :: r else ',' :: ' ' :: edgeText r fields) := by
  cases fields with
  | nil =>
    change (emitEdgeField ef).toList ++ _ = _
    rw [emitEdgeField_toList, if_pos rfl, append_assoc]
    rfl
  | cons next rest =>
    change (emitEdgeFields (ef :: next :: rest)).toList ++ _ = _
    rw [emitEdgeFields_cons (cons_ne_nil _ _), emitEdgeField_toList,
      if_neg (cons_ne_nil _ _)]
    simp only [append_assoc, cons_append]
    rfl

theorem parseScalarType_scalarName (s : ScalarType) : parseScalarType (scalarName s) = some s := by
  cases s <;> rfl

theorem reads_edgeFieldBefore {tail m m' : List Char} {comma : Bool} (hname : IsIdent chars ef.name)
    (hi : Skips i (ef.name.toList ++ ':' :: ' ' :: ((scalarName ef.scalarType).toList ++ tail)))
    (htail : Broken chars tail) (hskip : Skips tail m)
    (haccept : Reads (accept [','] : Parse Bool) m comma m') :
    Reads (parseEdgeField chars acc) i (.again (acc ++ [ef])) m' := by
  have hscalar := isWord_scalarName ef.scalarType
  refine hi.bind ((reads_accept_not (hname.head_ne (by decide) (by decide) (by decide))).bind
    ((hname.reads_before hname.skips (by decide)).bind ((reads_mark (by decide)).bind
    ((hscalar.isIdent.reads hscalar.skips.blank htail).bind ?_))))
  rw [parseScalarType_scalarName]
  exact hskip.bind (haccept.bind .pure)

theorem reads_parseEdgeField {fields : List EdgeFieldDef} (hname : IsIdent chars ef.name)
    (hnames : ∀ ef ∈ fields, IsIdent chars ef.name) (hi : Skips i (edgeText r (ef :: fields))) :
    ∃ m, Skips m (edgeText r fields) ∧
      Reads (parseEdgeField chars acc) i (.again (acc ++ [ef])) m := by
  have hclose : IsMark '}' := by decide
  have hcomma : IsMark ',' := by decide
  rw [edgeText_cons] at hi
  by_cases hlast : fields = []
  · subst hlast
    refine ⟨'}' :: r, hclose.skips, ?_⟩
    exact reads_edgeFieldBefore hname hi (broken_cons (by decide) (by decide)) hclose.skips.blank
      (reads_accept_not (by rintro _ ⟨⟩; decide))
  · rw [if_neg hlast] at hi
    refine ⟨' ' :: edgeText r fields, ?_, ?_⟩
    · obtain ⟨next, rest, rfl⟩ := exists_cons_of_ne_nil hlast
      rw [edgeText_cons]
      exact (hnames next mem_cons_self).skips.blank
    · exact reads_edgeFieldBefore hname hi (broken_cons (by decide) (by decide)) hcomma.skips
        reads_accept

theorem reads_parseEdgeFields (hnames : ∀ ef ∈ fields, IsIdent chars ef.name) :
    Reads (parseEdgeFields chars) ('{' :: ' ' :: edgeText r fields) fields r := by
  have hclose : IsMark '}' := by decide
  have hprogress : Progress (fun fields => ∀ ef ∈ fields, IsIdent chars ef.name)
      (parseEdgeField chars) := .of_yields fun _ hfields => yields_parseEdgeField hfields
  have hstart : Skips (' ' :: edgeText r fields) (edgeText r fields) := by
    cases fields with
    | nil => exact hclose.skips.blank
    | cons ef fields =>
      rw [edgeText_cons]
      exact (hnames ef mem_cons_self).skips.blank
  refine (reads_mark (by decide)).bind ?_
  apply Reads.loop_list (fun i fields => Skips i (edgeText r fields)) hprogress
  · intro acc ef fields i hnames hi
    rw [forall_mem_cons] at hnames
    exact reads_parseEdgeField hnames.1 hnames.2 hi
  · exact fun acc i hi => hi.bind (reads_accept.bind .pure)
  · exact hnames
  · exact forall_mem_nil _
  · exact hstart

end

/-- What the text of a field type leaves: the continuation `k` that `skipWhitespace` comes to
behind it is no block of edge fields, and no directive. -/
structure Follows (tail k : List Char) : Prop where
  skips : Skips tail k
  skips_self : Skips k k
  not_block : ∀ c ∈ k.head?, c ≠ '{'

theorem emitFieldType_relation : (emitFieldType (.relation rel)).toList =
    (if rel.isMany then '[' :: (rel.targetType.toList ++ [']']) else rel.targetType.toList) ++
      if rel.edgeFields = [] then [] else
        ' ' :: '{' :: ' ' :: ((emitEdgeFields rel.edgeFields).toList ++ [' ', '}']) := by
  change ((if rel.isMany then "[" ++ rel.targetType ++ "]" else rel.targetType) ++
    if rel.edgeFields = [] then "" else " \x7b " ++ emitEdgeFields rel.edgeFields ++ " \x7d").toList = _
  rw [toList_append]
  congr 1
  · split_ifs
    · rw [toList_append, toList_append, append_assoc]
      rfl
    · rfl
  · split_ifs
    · rfl
    · rw [toList_append, toList_append, append_assoc]
      rfl

theorem reads_parseEdgeBlock (hwf : WellFormedRelation chars rel) (hk : Follows tail k) :
    ∃ m, Skips m k ∧
      Reads (parseEdgeBlock chars (.relation { rel with edgeFields := [] }))
        ((if rel.edgeFields = [] then [] else
          ' ' :: '{' :: ' ' :: ((emitEdgeFields rel.edgeFields).toList ++ [' ', '}'])) ++ tail)
        (.relation rel) m := by
  have hopen : IsMark '{' := by decide
  obtain ⟨targetType, isMany, edgeFields⟩ := rel
  cases edgeFields with
  | nil =>
    refine ⟨k, hk.skips_self, hk.skips.bind (Reads.lookingAt.bind ?_)⟩
    have hnot : (['{'].isPrefixOf k) = false := by
      rw [Bool.eq_false_iff]
      intro hprefix
      obtain ⟨t, ht⟩ := isPrefixOf_iff_prefix.mp hprefix
      exact hk.not_block '{' (by rw [← ht]; rfl) rfl
    rw [hnot]
    exact .pure
  | cons ef fields =>
    refine ⟨tail, hk.skips, ?_⟩
    refine hopen.skips.blank.bind (Reads.lookingAt.bind ?_)
    have hfields := reads_parseEdgeFields (r := tail) hwf.edgeFields
    have htext : edgeText tail (ef :: fields) =
        ((emitEdgeFields (ef :: fields)).toList ++ [' ', '}']).append tail := by
      rw [append_eq, append_assoc]
      rfl
    rw [htext] at hfields
    exact hfields.bind .pure

theorem reads_parseFieldType (hwf : WellFormedFieldType chars fieldType)
    (hi : Skips i ((emitFieldType fieldType).toList ++ tail))
    (htail : Broken chars tail) (hk : Follows tail k) :
    ∃ bare m m', Reads (parseFieldType chars) i bare m ∧
      Reads (parseEdgeBlock chars bare) m fieldType m' ∧ Skips m' k := by
  cases fieldType with
  | scalar s =>
    have hword := isWord_scalarName s
    refine ⟨.scalar s, tail, tail, ?_, .pure, hk.skips⟩
    refine hi.bind ((reads_accept_not ((hword.isIdent : IsIdent chars _).head_ne (by decide)
      (by decide) (by decide))).bind ((hword.isIdent.reads hword.skips htail).bind ?_))
    rw [if_neg (by cases s <;> decide), parseScalarType_scalarName]
    exact .pure
  | vector dimensions =>
    have hword : IsWord "Vector" := isWord_ofList rfl
    have hlt : dimensions < 2 ^ 32 := hwf
    have hnat : (UInt32.ofNat dimensions).toNat = dimensions := UInt32.toNat_ofNat_of_lt' hlt
    have htext : (emitFieldType (.vector dimensions)).toList ++ tail =
        "Vector".toList ++ '<' :: ((toString (UInt32.ofNat dimensions).toNat).toList ++
          '>' :: tail) := by
      have hopen : "Vector<".toList = "Vector".toList ++ ['<'] := rfl
      change ("Vector<" ++ toString dimensions ++ ">").toList ++ tail = _
      rw [hnat]
      simp only [toList_append, hopen, append_assoc]
      rfl
    rw [htext] at hi
    refine ⟨.vector dimensions, tail, tail, ?_, .pure, hk.skips⟩
    refine hi.bind ((reads_accept_not ((hword.isIdent : IsIdent chars _).head_ne (by decide)
      (by decide) (by decide))).bind ((hword.reads hword.skips (by decide)).bind ?_))
    refine (reads_mark (by decide)).bind ((reads_parseU32 _ (isWord_toString _).skips
      (by decide)).bind ((reads_mark (by decide)).bind ?_))
    rw [hnat]
    exact .pure
  | relation rel =>
    have hrel : WellFormedRelation chars rel := hwf
    obtain ⟨m', hm', hblock⟩ := reads_parseEdgeBlock hrel hk
    refine ⟨.relation { rel with edgeFields := [] }, _, m', ?_, hblock, hm'⟩
    rw [emitFieldType_relation, append_assoc] at hi
    have hbroken : Broken chars ((if rel.edgeFields = [] then [] else
        ' ' :: '{' :: ' ' :: ((emitEdgeFields rel.edgeFields).toList ++ [' ', '}'])) ++ tail) := by
      split_ifs
      · exact htail
      · exact broken_cons (by decide) (by decide)
    cases hmany : rel.isMany with
    | true =>
      rw [hmany, if_pos rfl, cons_append, append_assoc] at hi
      refine hi.bind (reads_accept.bind ((hrel.target.reads_before hrel.target.skips
        (by decide)).bind ((reads_mark (by decide)).bind ?_)))
      exact .pure
    | false =>
      obtain ⟨hvector, hscalar⟩ := hrel.single hmany
      rw [hmany, if_neg Bool.false_ne_true] at hi
      refine hi.bind ((reads_accept_not (hrel.target.head_ne (by decide) (by decide)
        (by decide))).bind ((hrel.target.reads hrel.target.skips hbroken).bind ?_))
      rw [if_neg hvector, hscalar]
      exact .pure

theorem skips_emitFieldType (hwf : WellFormedFieldType chars fieldType) :
    Skips ((emitFieldType fieldType).toList ++ tail)
      ((emitFieldType fieldType).toList ++ tail) := by
  cases fieldType with
  | scalar s => exact (isWord_scalarName s).skips
  | vector dimensions =>
    have hword : IsWord "Vector" := isWord_ofList rfl
    have hopen : "Vector<".toList = "Vector".toList ++ ['<'] := rfl
    change Skips (("Vector<" ++ toString dimensions ++ ">").toList ++ tail)
      (("Vector<" ++ toString dimensions ++ ">").toList ++ tail)
    simp only [toList_append, hopen, append_assoc]
    exact hword.skips
  | relation rel =>
    have hrel : WellFormedRelation chars rel := hwf
    have hopen : IsMark '[' := by decide
    rw [emitFieldType_relation]
    split_ifs
    · exact hopen.skips
    · exact hopen.skips
    · rw [append_assoc]
      exact hrel.target.skips
    · rw [append_assoc]
      exact hrel.target.skips

section

def directivesText (tail k : List Char) : List Directive → List Char
  | [] => k
  | d :: ds => (emitDirective d).toList ++ ((emitDirectives ds).toList ++ tail)

variable {ds : List Directive}

theorem emitDirectives_cons {d : Directive} :
    (emitDirectives (d :: ds)).toList = ' ' ::
    ((emitDirective d).toList ++ (emitDirectives ds).toList) := by
  change (" " ++ emitDirective d ++ emitDirectives ds).toList = _
  rw [toList_append, toList_append, append_assoc]
  rfl

variable {field : FieldDef}

theorem skips_emitDirectives (hds : ∀ d ∈ ds, d.WellFormed chars) (hk : Follows tail k) :
    Skips ((emitDirectives ds).toList ++ tail) (directivesText tail k ds) := by
  cases ds with
  | nil => exact hk.skips
  | cons d ds =>
    have hat : IsMark '@' := by decide
    obtain ⟨text, htext, -⟩ := reads_parseDirective (hds d mem_cons_self)
    rw [emitDirectives_cons, directivesText, cons_append, append_assoc, htext]
    exact hat.skips.blank

theorem skips_directivesText (hds : ∀ d ∈ ds, d.WellFormed chars) (hk : Follows tail k) :
    Skips (directivesText tail k ds) (directivesText tail k ds) := by
  cases ds with
  | nil => exact hk.skips_self
  | cons d ds =>
    have hat : IsMark '@' := by decide
    obtain ⟨text, htext, -⟩ := reads_parseDirective (hds d mem_cons_self)
    rw [directivesText, htext]
    exact hat.skips

theorem broken_emitDirectives {tail : List Char} (htail : Broken chars tail) :
    Broken chars ((emitDirectives ds).toList ++ tail) := by
  cases ds with
  | nil => exact htail
  | cons d ds =>
    rw [emitDirectives_cons]
    exact broken_cons (by decide) (by decide)

theorem reads_directives (hds : ∀ d ∈ ds, d.WellFormed chars) (htail : Broken chars tail)
    (hk : Follows tail k) (hnot : ∀ c ∈ k.head?, c ≠ '@') (hi : Skips i (directivesText tail k ds)) :
    Reads (loop (parseNextDirective chars) []) i ds k := by
  have hprogress : Progress (fun ds => ∀ d ∈ ds, d.WellFormed chars) (parseNextDirective chars) :=
    .of_yields fun _ hds => yields_parseNextDirective hds
  apply Reads.loop_list (fun i ds => Skips i (directivesText tail k ds)) hprogress
  · intro acc d ds i hds hi
    rw [forall_mem_cons] at hds
    obtain ⟨text, htext, hread⟩ := reads_parseDirective hds.1
    refine ⟨(emitDirectives ds).toList ++ tail, skips_emitDirectives hds.2 hk, ?_⟩
    rw [directivesText, htext] at hi
    exact hi.bind (reads_accept.bind ((hread _ (broken_emitDirectives htail)).bind .pure))
  · exact fun acc i hi => hi.bind ((reads_accept_not hnot).bind .pure)
  · exact hds
  · exact forall_mem_nil _
  · exact hi

theorem reads_parseFieldDef (hwf : field.WellFormed chars)
    (hi : Skips i ((emitField field).toList ++ tail)) (htail : Broken chars tail)
    (hk : Follows tail k) (hnot : ∀ c ∈ k.head?, c ≠ '@') :
    Reads (parseFieldDef chars) i field k := by
  have htext : (emitField field).toList ++ tail = field.name.toList ++ ':' :: ' ' ::
      ((emitFieldType field.fieldType).toList ++
        ((emitDirectives field.directives).toList ++ tail)) := by
    unfold emitField
    simp only [toList_append, append_assoc]
    rfl
  rw [htext] at hi
  have hfollows : Follows ((emitDirectives field.directives).toList ++ tail)
      (directivesText tail k field.directives) := by
    refine ⟨skips_emitDirectives hwf.directives hk, ?_, ?_⟩
    · exact skips_directivesText hwf.directives hk
    · cases hds : field.directives with
      | nil => exact hk.not_block
      | cons d ds =>
        obtain ⟨text, hd, -⟩ := reads_parseDirective (hwf.directives d (by rw [hds]; exact mem_cons_self))
        rw [directivesText, hd]
        rintro _ ⟨⟩
        decide
  obtain ⟨bare, m, m', hread, hblock, hm'⟩ := reads_parseFieldType hwf.fieldType
    (skips_emitFieldType hwf.fieldType).blank (broken_emitDirectives htail) hfollows
  refine (hwf.name.reads_before hi (by decide)).bind ((reads_mark (by decide)).bind
    (hread.bind (hblock.bind ((reads_directives hwf.directives htail hk hnot hm').bind .pure))))

def fieldsText (r : List Char) : List FieldDef → List Char
  | [] => '}' :: r
  | field :: fields =>
    (emitField field).toList ++ '\n' :: ((emitFields fields).toList ++ '}' :: r)

theorem emitField_skips (hwf : field.WellFormed chars) :
    Skips ((emitField field).toList ++ r) ((emitField field).toList ++ r) := by
  unfold emitField
  simp only [toList_append, append_assoc]
  exact hwf.name.skips

variable {fields : List FieldDef}

theorem skips_fieldsText (hwf : ∀ f ∈ fields, f.WellFormed chars) :
    Skips (fieldsText r fields) (fieldsText r fields) := by
  have hclose : IsMark '}' := by decide
  cases fields with
  | nil => exact hclose.skips
  | cons field fields => exact emitField_skips (hwf field mem_cons_self)

theorem skips_emitFields (hwf : ∀ f ∈ fields, f.WellFormed chars) :
    Skips ((emitFields fields).toList ++ '}' :: r) (fieldsText r fields) := by
  cases fields with
  | nil => exact skips_fieldsText hwf
  | cons field fields =>
    have htext : (emitFields (field :: fields)).toList ++ '}' :: r =
        ' ' :: ' ' :: ' ' :: ' ' :: fieldsText r (field :: fields) := by
      change ("    " ++ emitField field ++ "\n" ++ emitFields fields).toList ++ '}' :: r = _
      simp only [toList_append, append_assoc]
      rfl
    rw [htext]
    exact (skips_fieldsText hwf).blank.blank.blank.blank

theorem head_fieldsText {fields : List FieldDef} (hwf : ∀ f ∈ fields, f.WellFormed chars)
    {c : Char} (hc : c.toNat < 128) (hnot : c.isAlphanum = false) (hunderscore : c ≠ '_')
    (hclose : c ≠ '}') : ∀ d ∈ (fieldsText r fields).head?, d ≠ c := by
  cases fields with
  | nil =>
    rintro _ ⟨⟩
    exact hclose.symm
  | cons field fields =>
    have hname := (hwf field mem_cons_self).name
    unfold fieldsText emitField
    simp only [toList_append, append_assoc]
    exact hname.head_ne hc hnot hunderscore

theorem follows_fieldsText (hwf : ∀ f ∈ fields, f.WellFormed chars) :
    Follows ('\n' :: ((emitFields fields).toList ++ '}' :: r)) (fieldsText r fields) where
  skips := .space (by decide) (skips_emitFields hwf)
  skips_self := skips_fieldsText hwf
  not_block := head_fieldsText hwf (by decide) (by decide) (by decide) (by decide)

theorem reads_fields (hwf : ∀ f ∈ fields, f.WellFormed chars) (hi : Skips i (fieldsText r fields)) :
    Reads (loop (parseNextField chars) []) i fields r := by
  have hprogress : Progress (fun fields => ∀ f ∈ fields, f.WellFormed chars)
      (parseNextField chars) := .of_yields fun _ hfields => yields_parseNextField hfields
  apply Reads.loop_list (fun i fields => Skips i (fieldsText r fields)) hprogress
  · intro acc field fields i hwf hi
    rw [forall_mem_cons] at hwf
    refine ⟨fieldsText r fields, skips_fieldsText hwf.2, ?_⟩
    have hend : ∀ d ∈ (fieldsText r (field :: fields)).head?, d ≠ '}' := by
      unfold fieldsText emitField
      simp only [toList_append, append_assoc]
      exact hwf.1.name.head_ne (by decide) (by decide) (by decide)
    refine hi.bind ((reads_accept_not hend).bind (Reads.bind ?_ .pure))
    exact reads_parseFieldDef hwf.1 (emitField_skips hwf.1) (broken_cons (by decide) (by decide))
      (follows_fieldsText hwf.2)
      (head_fieldsText hwf.2 (by decide) (by decide) (by decide) (by decide))
  · exact fun acc i hi => hi.bind (reads_accept.bind .pure)
  · exact hwf
  · exact forall_mem_nil _
  · exact hi

variable {typeDef : TypeDef}

theorem emitType_toList : (emitType typeDef).toList =
    "type".toList ++ ' ' :: (typeDef.name.toList ++ ' ' :: '{' :: '\n' ::
      ((emitFields typeDef.fields).toList ++ ['}', '\n'])) := by
  have htype : "type ".toList = "type".toList ++ [' '] := rfl
  unfold emitType
  simp only [toList_append, htype, append_assoc]
  rfl

theorem reads_parseTypeDef (hwf : typeDef.WellFormed chars) :
    Reads (parseTypeDef chars) ((emitType typeDef).toList ++ r) typeDef ('\n' :: r) := by
  have hword : IsWord "type" := isWord_ofList rfl
  have hopen : IsMark '{' := by decide
  rw [emitType_toList]
  simp only [append_assoc, cons_append, nil_append]
  refine hword.skips.bind ((hword.isIdent.reads hword.skips (broken_cons (by decide)
    (by decide))).bind ?_)
  refine (hwf.name.reads hwf.name.skips.blank (broken_cons (by decide) (by decide))).bind
    ((reads_expect hopen.skips.blank).bind ((reads_fields hwf.fields ?_).bind .pure))
  exact .space (by decide) (skips_emitFields hwf.fields)

variable {entry : String × TypeDef}

theorem insert_last {types : SortedMap String TypeDef} (h : ∀ e ∈ types.entries, e.1 < entry.1) :
    (types.insert entry.1 entry.2).entries = types.entries ++ [entry] := by
  apply SortedMap.entries_eq_of_mem_iff (types.insert entry.1 entry.2).sorted
  · exact pairwise_append.mpr ⟨types.sorted, pairwise_singleton _ _,
      fun e he x hx => by rw [mem_singleton.mp hx]; exact h e he⟩
  · intro x
    rw [SortedMap.mem_insert, mem_append, mem_singleton, or_comm]
    exact or_congr_left (and_iff_left_of_imp fun hx => (h x hx).ne)

variable {entries : List (String × TypeDef)}

theorem emitTypes_cons :
    (emitTypes (entry :: entries)).toList = (emitType entry.2).toList ++
      if entries = [] then [] else '\n' :: (emitTypes entries).toList := by
  cases entries with
  | nil =>
    rw [if_pos rfl, append_nil]
    rfl
  | cons next rest =>
    change (emitType entry.2 ++ "\n" ++ emitTypes (next :: rest)).toList = _
    rw [toList_append, toList_append, append_assoc]
    rfl

theorem skips_emitTypes (entries : List (String × TypeDef)) :
    Skips (emitTypes entries).toList (emitTypes entries).toList := by
  have hword : IsWord "type" := isWord_ofList rfl
  cases entries with
  | nil => exact skips_self (by rintro _ ⟨⟩)
  | cons entry entries =>
    rw [emitTypes_cons, emitType_toList]
    exact hword.skips

theorem reads_emitTypes (types : SortedMap String TypeDef)
    (hwf : ∀ e ∈ entries, e.1 = e.2.name ∧ e.2.WellFormed chars)
    (htypes : WellFormedTypes chars types)
    (hsorted : (types.entries ++ entries).Pairwise fun a b => a.1 < b.1) :
    Reads (loop (parseNextType chars) types) (emitTypes entries).toList
      ⟨types.entries ++ entries, hsorted⟩ [] := by
  have hprogress : Progress (WellFormedTypes chars) (parseNextType chars) :=
    .of_yields fun _ htypes => yields_parseNextType htypes
  induction entries generalizing types with
  | nil =>
    have hsame : (⟨types.entries ++ [], hsorted⟩ : SortedMap String TypeDef) = types :=
      SortedMap.ext (append_nil _)
    rw [hsame]
    have heof : Reads isEof [] true [] := Reads.peek.bind .pure
    exact .loop_done (heof.bind .pure)
  | cons entry entries ih =>
    obtain ⟨hentry, hrest⟩ := forall_mem_cons.mp hwf
    have hbelow : ∀ e ∈ types.entries, e.1 < entry.1 := fun e he =>
      (pairwise_append.mp hsorted).2.2 e he entry mem_cons_self
    have hinsert := insert_last hbelow
    have hsorted' : ((types.insert entry.1 entry.2).entries ++ entries).Pairwise
        fun a b => a.1 < b.1 := by
      rw [hinsert, append_assoc]
      exact hsorted
    have htypes' : WellFormedTypes chars (types.insert entry.1 entry.2) := by
      unfold WellFormedTypes
      rw [hinsert]
      exact forall_mem_concat htypes hentry
    have hsame : (⟨types.entries ++ entry :: entries, hsorted⟩ : SortedMap String TypeDef) =
        ⟨(types.insert entry.1 entry.2).entries ++ entries, hsorted'⟩ :=
      SortedMap.ext ((congrArg (· ++ entries) hinsert).trans (append_assoc _ _ _)).symm
    rw [hsame, emitTypes_cons]
    refine .loop_again hprogress htypes ?_ (ih _ hrest htypes' hsorted')
    have hlookup : types.lookup entry.2.name = none := by
      rw [← hentry.1, Option.eq_none_iff_forall_ne_some]
      intro typeDef hlookup
      exact lt_irrefl entry.1 (hbelow (entry.1, typeDef) (SortedMap.lookup_eq_some.mp hlookup))
    have heof : ∀ m, Reads isEof ((emitType entry.2).toList ++ m) false
        ((emitType entry.2).toList ++ m) := by
      intro m
      rw [emitType_toList]
      exact Reads.peek.bind .pure
    have hskip : Skips ('\n' :: if entries = [] then [] else '\n' :: (emitTypes entries).toList)
        (emitTypes entries).toList := by
      refine .space (by decide) ?_
      split_ifs with hlast
      · subst hlast
        exact skips_emitTypes []
      · exact .space (by decide) (skips_emitTypes entries)
    refine (heof _).bind ((reads_parseTypeDef hentry.2).bind ?_)
    rw [hlookup, ← hentry.1]
    exact hskip.bind .pure

end

theorem parse_emitted {schema : Schema} (hwf : WellFormedTypes chars schema.types)
    (hvalid : validateSchema schema = .ok ()) :
    parseSchema chars (emitSchema schema) = some (.ok schema) := by
  have hread : Reads (parseTypes chars) (emitTypes schema.types.entries).toList schema.types [] :=
    (skips_emitTypes _).bind
      (reads_emitTypes .empty hwf (forall_mem_nil _) schema.types.sorted)
  obtain ⟨p, hp, -⟩ := hread.exists_ok (s := Parser.new (emitSchema schema)) rfl
  exact parseSchema_eq_ok.mpr ⟨⟨p, hp⟩, hvalid⟩

/-- What `parse_schema` accepts, it accepts again from the text that `emit_schema` makes of it. -/
theorem parse_emit (chars : CharTable) (input : String) (schema : Schema)
    (h : parseSchema chars input = some (.ok schema)) :
    parseSchema chars (emitSchema schema) = some (.ok schema) :=
  parse_emitted (parseSchema_wellFormed h) (parseSchema_eq_ok.mp h).2

instance : DecidableEq Schema := fun a b =>
  decidable_of_iff (a.types.entries = b.types.entries)
    ⟨fun h => congrArg Schema.mk (SortedMap.ext h), fun h => h ▸ rfl⟩

def friends : Schema where
  types :=
    { entries := [("T", ⟨"T", [⟨"a", .scalar .string, [.fulltext .default]⟩,
        ⟨"b", .relation ⟨"T", true, [⟨"c", .u32⟩]⟩, [.inverse ⟨"T", "b"⟩]⟩]⟩)]
      sorted := List.pairwise_singleton _ _ }

theorem parse_emit_friends : parseSchema .ascii (emitSchema friends) = some (.ok friends) := by
  refine parse_emit .ascii "type T { a: String @fulltext b: [T] {c: u32} @inverse(T.b) }" friends ?_
  decide +kernel

end RhypeDb.Sdl
