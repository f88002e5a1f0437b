import RhypeDb.Engine.IntegrityRun

/-! The links of an object as `get_links` reads them: by the edges of the field's relation, or,
for an `@inverse` field, by the reverse edges of the relation that it names. A link through an
`@inverse` field is written under the field's own relation, which nothing reads. -/

namespace RhypeDb.Engine

open Fallible List Schema Storage

/-- `rel_ids`, by type and field; an `@inverse` relation has an id too. -/
def Schema.relId (schema : Schema) (typeName fieldName : String) : Option Id :=
  (schema.getType typeName).bind fun t => (t.getField fieldName).bind fun f =>
    f.relation?.map fun _ => f.relId

section

variable (schema : Schema) (view : View)

def resolveLinks (sourceType fieldName : String) : Except EngineError (Id × Bool) := do
  let t ← require (.typeNotFound sourceType) (schema.getType sourceType)
  let f ← require (.fieldNotFound sourceType fieldName) (t.getField fieldName)
  match f.inverse with
  | some inv =>
    let relId ← require (.fieldNotFound inv.1 inv.2) (schema.relId inv.1 inv.2)
    return (relId, true)
  | none =>
    let relId ← require (.fieldNotFound sourceType fieldName) (schema.relId sourceType fieldName)
    return (relId, false)

def linkRows (sourceId : Id) (side : Id × Bool) : List (Id × Payload) :=
  if side.2 then view.scanReverseEdges sourceId side.1 else view.scanEdges sourceId side.1

def getLinks (sourceType : String) (sourceId : Id) (fieldName : String) :
    Except EngineError (List (Id × FieldMap)) := do
  let side ← resolveLinks schema sourceType fieldName
  return (linkRows view sourceId side).map fun row => (row.1, row.2.deserializeFields)

def getLinksMany (sourceType : String) (sourceIds : List Id) (fieldName : String) :
    Except EngineError (List (List (Id × Payload))) :=
  if sourceIds.isEmpty then .ok []
  else do
    let side ← resolveLinks schema sourceType fieldName
    return sourceIds.map fun sourceId => linkRows view sourceId side

end

section

variable {schema : Schema} {t : TypeDef} {f : FieldDef}

theorem relId_eq (ht : t ∈ schema.types) (hf : f ∈ t.fields) :
    schema.relId t.name f.name = f.relation?.map fun _ => f.relId := by
  rw [Schema.relId, getType_name ht, Option.bind_some, getField_name ht hf,
    Option.bind_some]

theorem resolveLinks_forward (ht : t ∈ schema.types) (hf : f ∈ t.fields) (hinv : f.inverse = none) :
    resolveLinks schema t.name f.name =
      if f.relation?.isSome then .ok (f.relId, false) else .error (.fieldNotFound t.name f.name) := by
  simp only [resolveLinks, getType_name ht, getField_name ht hf, hinv,
    relId_eq ht hf, require, bind, Except.bind]
  cases f.relation? with
  | none => rfl
  | some rel => rfl

/-- `i` of `T` is declared `@inverse(S.f)`, and the field it names exists. -/
structure InverseOf (schema : Schema) (T : TypeDef) (i : FieldDef) (S : TypeDef) (f : FieldDef) :
    Prop where
  type : T ∈ schema.types
  field : i ∈ T.fields
  sourceType : S ∈ schema.types
  sourceField : f ∈ S.fields
  inverse : i.inverse = some (S.name, f.name)

theorem InverseOf.resolveLinks {T S : TypeDef} {i : FieldDef} (h : InverseOf schema T i S f) :
    resolveLinks schema T.name i.name =
      if f.relation?.isSome then .ok (f.relId, true) else .error (.fieldNotFound S.name f.name) := by
  simp only [Engine.resolveLinks, getType_name h.type, getField_name h.type h.field,
    h.inverse, relId_eq h.sourceType h.sourceField, require, bind, Except.bind]
  cases f.relation? with
  | none => rfl
  | some rel => rfl

end

section

def Answers (schema : Schema) (store : Store) (typeName : String) (id : Id) (fieldName : String) :
    Prop :=
  (getLinks schema store.view typeName id fieldName).isOk

def Reports (schema : Schema) (store : Store) (typeName : String) (id : Id) (fieldName : String)
    (linked : Id) : Prop :=
  ∃ rows ∈ (getLinks schema store.view typeName id fieldName).toOption, linked ∈ rows.map Prod.fst

instance (schema : Schema) (store : Store) (typeName : String) (id : Id) (fieldName : String)
    (linked : Id) : Decidable (Reports schema store typeName id fieldName linked) :=
  Option.decidableExistsMem (p := fun rows : List (Id × FieldMap) => linked ∈ rows.map Prod.fst) _

variable {schema : Schema} {store : Store}

variable {typeName fieldName : String} {e : EngineError} {linked : Id} {id relId : Id}
  {relation : Bool}

theorem answers_of_resolve {far : Bool}
    (h : resolveLinks schema typeName fieldName = if relation then .ok (relId, far) else .error e) :
    Answers schema store typeName id fieldName ↔ relation := by
  rw [Answers, getLinks, h]
  cases relation with
  | true => exact ⟨fun _ => rfl, fun _ => rfl⟩
  | false => exact Iff.rfl

theorem reports_of_ok {side : Id × Bool} (h : resolveLinks schema typeName fieldName = .ok side) :
    Reports schema store typeName id fieldName linked ↔
      linked ∈ (linkRows store.view id side).map Prod.fst := by
  rw [Reports, getLinks, h]
  constructor
  · rintro ⟨rows, hrows, hmem⟩
    cases hrows
    rw [map_map] at hmem
    exact hmem
  · intro hmem
    refine ⟨_, rfl, ?_⟩
    rw [map_map]
    exact hmem

theorem not_reports_of_error (h : resolveLinks schema typeName fieldName = .error e) :
    ¬ Reports schema store typeName id fieldName linked := by
  rw [Reports, getLinks, h]
  rintro ⟨rows, hrows, -⟩
  cases hrows

theorem reports_of_resolve {far : Bool}
    (h : resolveLinks schema typeName fieldName = if relation then .ok (relId, far) else .error e) :
    Reports schema store typeName id fieldName linked ↔
      relation ∧ linked ∈ (linkRows store.view id (relId, far)).map Prod.fst := by
  cases relation with
  | true => simpa using reports_of_ok h
  | false => simpa using not_reports_of_error h

theorem mem_linkRows_near :
    linked ∈ (linkRows store.view id (relId, false)).map Prod.fst ↔
      store.Has (.edge id relId linked) := by
  rw [linkRows, if_neg Bool.false_ne_true, mem_map]
  constructor
  · rintro ⟨row, hrow, rfl⟩
    exact Store.has_of_mem_scanEdges hrow
  · intro h
    obtain ⟨value, hvalue⟩ := Store.exists_mem_scanEdges h
    exact ⟨_, hvalue, rfl⟩

theorem mem_linkRows_far :
    linked ∈ (linkRows store.view id (relId, true)).map Prod.fst ↔
      store.Has (.reverseEdge id relId linked) := by
  rw [linkRows, if_pos rfl, mem_map]
  constructor
  · rintro ⟨⟨s, value⟩, hrow, rfl⟩
    rw [Store.Has, Store.mem_scanReverseEdges.mp hrow]
    rfl
  · intro h
    obtain ⟨value, hvalue⟩ := Store.exists_mem_scanReverseEdges h
    exact ⟨_, hvalue, rfl⟩

theorem reports_congr {store' : Store} (h : Mirrored store) (h' : Mirrored store')
    (hedges : ∀ s r t, store.Has (.edge s r t) ↔ store'.Has (.edge s r t)) :
    Reports schema store typeName id fieldName linked ↔
      Reports schema store' typeName id fieldName linked := by
  cases hside : resolveLinks schema typeName fieldName with
  | error e => exact iff_of_false (not_reports_of_error hside) (not_reports_of_error hside)
  | ok side =>
    rw [reports_of_ok hside, reports_of_ok hside]
    obtain ⟨relId, far⟩ := side
    cases far with
    | false => rw [mem_linkRows_near, mem_linkRows_near, hedges]
    | true =>
      rw [mem_linkRows_far, mem_linkRows_far, ← h linked relId id, ← h' linked relId id, hedges]

end

section

variable {schema : Schema} {i f : FieldDef} {T S : TypeDef}

theorem Mirrored.step {db : Database} (h : Mirrored db.store) (schema : Schema)
    (call : Database.Call) :
    Mirrored (db.step schema call).store := by
  rcases Database.step_cases schema db call with ⟨-, -, -, heq⟩ | ⟨writes, c, hstage, heq⟩
  · rw [heq]
    exact h
  · rw [heq]
    rcases Database.stage_cases hstage with hadds | ⟨_, _, rfl, hdel⟩ | ⟨_, _, _, _, rfl, hunlink⟩
    · exact h.add hadds
    · obtain ⟨typeId, -, walk, hwalk, rfl⟩ := delete_eq_ok hdel
      exact h.remove (deleteInner_paired hwalk)
    · obtain ⟨t, f, -, -, rfl⟩ := unlink_eq_ok hunlink
      exact h.remove (.edgeTombstones _ _ _)

theorem Mirrored.exec (schema : Schema) (calls : List Database.Call) :
    Mirrored (Run.exec (Database.step schema) Database.new calls).store :=
  Run.exec_invariant (C := fun _ _ => True) (I := fun db : Database => Mirrored db.store)
    (fun _ call h _ => h.step schema call) (fun _ _ _ => ⟨nofun, nofun⟩)
    (Run.along_of_forall fun _ _ => trivial)

/-- Both sides of an inverse answer for every two objects, and each has the other's id when the
other has its own. -/
def SidesAgree (schema : Schema) (store : Store) (T : TypeDef) (i : FieldDef) (S : TypeDef)
    (f : FieldDef) : Prop :=
  ∀ s t, Answers schema store S.name s f.name ∧ Answers schema store T.name t i.name ∧
    (Reports schema store S.name s f.name t ↔ Reports schema store T.name t i.name s)

/-- Both sides report the link from `s` to `t`. -/
def SidesReport (schema : Schema) (store : Store) (T : TypeDef) (i : FieldDef) (S : TypeDef)
    (f : FieldDef) (s t : Id) : Prop :=
  Reports schema store S.name s f.name t ∧ Reports schema store T.name t i.name s

theorem InverseOf.relId_ne (h : InverseOf schema T i S f)
    (hfar : f.inverse = none) (hi : i.relation?.isSome) (hf : f.relation?.isSome) :
    i.relId ≠ f.relId := by
  intro heq
  obtain ⟨-, rfl⟩ := eq_of_relId h.type h.sourceType h.field h.sourceField hi hf heq
  cases hfar.symm.trans h.inverse

/-- In every run the two sides of an inverse agree exactly if the field it names is a relation,
provided that field is no `@inverse` itself; a link through the inverse field is reported by the
sides exactly if the relation held it before. -/
theorem inverse_relations_mirror (schema : Schema) (calls : List Database.Call)
    (h : InverseOf schema T i S f) (hfar : f.inverse = none) :
    let db := Run.exec (Database.step schema) Database.new calls
    (SidesAgree schema db.store T i S f ↔ f.relation?.isSome) ∧
      ∀ s t edgeFields,
        SidesReport schema (db.step schema (.link T.name t i.name s edgeFields)).store T i S f s t ↔
          f.relation?.isSome ∧ db.store.Has (.edge s f.relId t) := by
  intro db
  have hnear := resolveLinks_forward h.sourceType h.sourceField hfar
  have hreports : ∀ {store : Store}, Mirrored store → ∀ s t,
      (Reports schema store S.name s f.name t ↔
        f.relation?.isSome ∧ store.Has (.edge s f.relId t)) ∧
      (Reports schema store T.name t i.name s ↔
        f.relation?.isSome ∧ store.Has (.edge s f.relId t)) := by
    intro store hmirror s t
    rw [reports_of_resolve hnear, reports_of_resolve h.resolveLinks, mem_linkRows_near,
      mem_linkRows_far, hmirror s f.relId t]
    exact ⟨Iff.rfl, Iff.rfl⟩
  have hmirror : Mirrored db.store := .exec schema calls
  constructor
  · constructor
    · intro hagree
      exact (answers_of_resolve hnear).mp (hagree 0 0).1
    · intro hrel s t
      refine ⟨(answers_of_resolve hnear).mpr hrel, (answers_of_resolve h.resolveLinks).mpr hrel, ?_⟩
      rw [(hreports hmirror s t).1, (hreports hmirror s t).2]
  · intro s t edgeFields
    have hafter := hreports (hmirror.step schema (.link T.name t i.name s edgeFields)) s t
    rw [SidesReport, hafter.1, hafter.2, and_self]
    apply and_congr_right
    intro hrel
    rw [Database.step, Database.stage]
    cases hlink : link schema db.store.view db.counters.versions T.name t i.name s edgeFields with
    | error e => rfl
    | ok writes =>
      obtain ⟨t', i', rel, target, source, data, ht', hi', hirel, -, -, -, rfl⟩ := link_eq_ok hlink
      obtain rfl := Option.some.inj ((getType_name h.type).symm.trans ht')
      obtain rfl := Option.some.inj ((getField_name h.type h.field).symm.trans hi')
      have hne := h.relId_ne hfar (by rw [hirel]; rfl) hrel
      -- the link is stored under the other relation
      have hother : ∀ w ∈ [(Key.edge t i.relId s, some ((edgeFields.map serializeFields).getD .empty)),
          (.reverseEdge s i.relId t, some (buildCoveringRevValue schema db.store.view
            db.counters.versions T t (some source) i.name s))], w.1 ≠ .edge s f.relId t := by
        simp only [forall_mem_cons, ne_eq, Key.edge.injEq, reduceCtorEq, not_false_eq_true,
          not_mem_nil, false_implies, implies_true, and_true]
        exact fun heq => hne heq.2.1
      rw [Store.Has, Store.Has, Store.lookup_apply, lastWrite_eq_none.mpr hother, Option.getD_none]

def authorField : FieldDef where
  name := "author"
  fieldType := .relation ⟨"User", false, []⟩
  directives := []
  fieldId := 1
  relId := 1

def postsField : FieldDef where
  name := "posts"
  fieldType := .relation ⟨"Post", true, []⟩
  directives := [.inverse "Post" "author"]
  fieldId := 2
  relId := 2

def postType : TypeDef := { name := "Post", typeId := 1, fields := [authorField] }

def userType : TypeDef := { name := "User", typeId := 2, fields := [postsField] }

def blogSchema : Schema where
  types := [userType, postType]

theorem inverseOf_posts : InverseOf blogSchema userType postsField postType authorField where
  type := by decide
  field := by decide
  sourceType := by decide
  sourceField := by decide
  inverse := by decide

def posted : List Database.Call :=
  [.create "User" ∅, .create "Post" (AList.singleton "author" (.u64 1)), .create "Post" ∅]

theorem inverse_relations_mirror_posted :
    SidesAgree blogSchema (Run.exec (Database.step blogSchema) Database.new posted).store
        userType postsField postType authorField ∧
      SidesReport blogSchema ((Run.exec (Database.step blogSchema) Database.new posted).step
        blogSchema (.link "User" 1 "posts" 2 none)).store userType postsField postType authorField
        2 1 := by
  obtain ⟨hagree, hlink⟩ :=
    inverse_relations_mirror blogSchema posted inverseOf_posts (by decide)
  exact ⟨hagree.mpr rfl, (hlink 2 1 none).mpr (by decide +kernel)⟩

/-- A post added to its author from the author's side is reported by neither side. -/
theorem link_through_inverse_unreported : ¬ ∀ (schema : Schema) (calls : List Database.Call)
    (T S : TypeDef) (i f : FieldDef), InverseOf schema T i S f →
    let db := Run.exec (Database.step schema) Database.new calls
    SidesAgree schema db.store T i S f ∧ ∀ s t edgeFields,
      (link schema db.store.view db.counters.versions T.name t i.name s edgeFields).isOk →
      SidesReport schema (db.step schema (.link T.name t i.name s edgeFields)).store T i S f s t := by
  intro hall
  have hreport := (hall blogSchema posted userType postType postsField authorField
    inverseOf_posts).2 3 1 none (by decide +kernel)
  have hnear : ¬ Reports blogSchema ((Run.exec (Database.step blogSchema) Database.new posted).step
      blogSchema (.link "User" 1 "posts" 3 none)).store "Post" 3 "author" 1 := by decide +kernel
  exact hnear hreport.1

end

end RhypeDb.Engine
