import RhypeDb.Basic.Outcome
import RhypeDb.Engine.ObjectWrites
import RhypeDb.Query.Executor
import RhypeDb.Query.PlanExact

/-! The write gate over whole runs of a query: what each stage writes, the rules allowed on the
state that the stage found, or it was removed by the cascade of a delete that they allowed there. -/

namespace RhypeDb.Query

open Authz Engine List Outcome Storage

section

variable {F : Type} {ctx : ExecContext F} {s : ExecState}

variable {α : Type} {m : Exec α} {Q : α → Prop}

theorem after_reading {f : Database → Metered α} {ok : α → ExecState → Prop}
    {fail : ExecState → Prop}
    (h : After (f s.db) s.meter (fun a meter => ok a { s with meter }) fun meter => fail { s with
      meter }) : After (reading f) s ok fail := by
  have hrun : (reading f).run.run s =
      (((f s.db).run.run s.meter).1, { s with meter := ((f s.db).run.run s.meter).2 }) := rfl
  unfold After at h ⊢
  rw [hrun]
  generalize (f s.db).run.run s.meter = out at h ⊢
  obtain ⟨r, meter⟩ := out
  cases r with
  | error e => exact h
  | ok a => exact h

theorem reading_fact {f : Database → Metered α}
    (h : After (f s.db) s.meter (fun a _ => Q a) fun _ => True) :
    After (reading f) s (fun a s' => s'.db = s.db ∧ Q a) fun s' => s'.db = s.db :=
  after_reading (h.mono (fun _ _ hq => ⟨rfl, hq⟩) fun _ _ => rfl)

theorem reading_keeps (f : Database → Metered α) :
    After (reading f) s (fun _ s' => s'.db = s.db) fun s' => s'.db = s.db :=
  after_reading ((after_state (f s.db) s.meter).mono (fun _ _ _ => rfl) fun _ _ => rfl)

theorem after_write {call : Database.Call} :
    After (write ctx call) s
      (fun _ s' => ∃ writes, Database.stage ctx.schema s.db.store.view s.db.counters call =
        (.ok writes, s'.db.counters) ∧ s'.db.store = s.db.store.apply writes)
      fun s' => s'.db.store = s.db.store := by
  have hrun : (write ctx call).run.run s =
      s.commit (Database.stage ctx.schema s.db.store.view s.db.counters call) := rfl
  unfold After
  rw [hrun]
  rcases hstage : Database.stage ctx.schema s.db.store.view s.db.counters call with ⟨r, c⟩
  cases r with
  | error e => rfl
  | ok writes => exact ⟨writes, rfl, rfl⟩

def OnlyReads {α : Type} (m : Exec α) : Prop :=
  ∀ s, After m s (fun _ s' => s'.db = s.db) fun s' => s'.db = s.db

theorem OnlyReads.reading (f : Database → Metered α) : OnlyReads (reading f) :=
  fun _ => reading_keeps f

theorem OnlyReads.pure (a : α) : OnlyReads (Pure.pure a : Exec α) :=
  fun _ => After.pure rfl

theorem OnlyReads.bind {β : Type} {k : α → Exec β} (h : OnlyReads m)
    (hk : ∀ a, OnlyReads (k a)) : OnlyReads (m >>= k) := by
  intro s
  refine (h s).seq ?_ fun _ hs => hs
  intro a s' hs'
  exact (hk a s').mono (fun _ _ h => h.trans hs') fun _ h => h.trans hs'

theorem OnlyReads.mapM {β : Type} {f : α → Exec β} (h : ∀ a, OnlyReads (f a)) (l : List α) :
    OnlyReads (l.mapM f) := by
  intro s
  refine After.mapM (P := fun s' : ExecState => s'.db = s.db) ?_ rfl
  intro a _ s' hs'
  exact (h a s').mono (fun _ _ h => h.trans hs') fun _ h => h.trans hs'

/-- Every object whose stored value the run changes is one of `G`, which may look at the store
that the run leaves. -/
def ChangesOnly {α : Type} (m : Exec α) (s : ExecState) (G : Store → Id × Id → Prop) : Prop :=
  After m s (fun _ s' => ∀ n, Differs s.db.store s'.db.store n → G s'.db.store n)
    fun s' => ∀ n, Differs s.db.store s'.db.store n → G s'.db.store n

variable {G : Store → Id × Id → Prop}

theorem forall_differs_of_eq {s' : ExecState} (hs' : s'.db = s.db) :
    ∀ n, Differs s.db.store s'.db.store n → G s'.db.store n := by
  intro n hdiff
  rw [hs'] at hdiff
  exact absurd hdiff not_differs_self

theorem OnlyReads.changesOnly (h : OnlyReads m) : ChangesOnly m s G :=
  (h s).mono (fun _ _ => forall_differs_of_eq) fun _ => forall_differs_of_eq

theorem ChangesOnly.read_bind {β : Type} {f : Database → Metered α} {k : α → Exec β}
    (hf : After (f s.db) s.meter (fun a _ => Q a) fun _ => True)
    (hk : ∀ a s', s'.db = s.db → Q a → ChangesOnly (k a) s' G) :
    ChangesOnly (Query.reading f >>= k) s G := by
  refine (reading_fact hf).seq ?_ fun _ => forall_differs_of_eq
  rintro a s' ⟨hs', hq⟩
  have hrest := hk a s' hs' hq
  unfold ChangesOnly at hrest
  rwa [hs'] at hrest

theorem ChangesOnly.bind_reads {β : Type} {k : α → Exec β}
    (h : ChangesOnly m s G) (hk : ∀ a, OnlyReads (k a)) : ChangesOnly (m >>= k) s G := by
  refine h.seq ?_ fun _ h => h
  intro a s' hs'
  refine (hk a s').mono ?_ ?_
  · intro _ s'' hs'' n hdiff
    rw [hs''] at hdiff ⊢
    exact hs' n hdiff
  · intro s'' hs'' n hdiff
    rw [hs''] at hdiff ⊢
    exact hs' n hdiff

end

section

variable {F : Type} [JsonNumber F] (ctx : ExecContext F) (rules : RulesProgram F) (store : Store)

/-- `RulesProgram::evaluate` on a state, with every relation looked up in full. -/
def Allowed (op : Op) (typeName : String) (object : Option Object) (request : Option FieldMap) :
    Prop :=
  rules.evaluate op typeName ctx.principal (resourceOf ctx store typeName object request) = .allow

instance (op : Op) (typeName : String) (object : Option Object) (request : Option FieldMap) :
    Decidable (Allowed ctx rules store op typeName object request) :=
  inferInstanceAs (Decidable (_ = _))

variable {ctx rules store}

variable {typeName : String} {request : Option FieldMap} {op : Op}

theorem after_decideOp {object : Option Object} (meter : Meter) :
    After (decideOp ctx rules op typeName (engineResource ctx store typeName object request)) meter
      (fun _ _ => Allowed ctx rules store op typeName object request) fun _ => True := by
  refine .bind (.lift ?_)
  cases hdecision : (StateT.run (rules.evaluateM ctx.principal
      (engineResource ctx store typeName object request) op typeName) meter).1 with
  | allow => exact .pure (RulesProgram.evaluate_of_evaluateM engineResource_under hdecision)
  | deny => exact .throw trivial

theorem after_gateCreate (hrules : ctx.rules = some rules) {fields : FieldMap} (meter : Meter) :
    After (gateCreate ctx store typeName fields) meter
      (fun _ _ => Allowed ctx rules store .create typeName none (some fields)) fun _ => True := by
  unfold gateCreate
  rw [hrules]
  exact after_decideOp meter

def GatePassed (ctx : ExecContext F) (rules : RulesProgram F) (store : Store) (op : Op)
    (typeName : String) (request : Option FieldMap) (id : Id) : Prop :=
  ∀ obj, Engine.get ctx.schema store typeName id = .ok obj →
    Allowed ctx rules store op typeName (some obj.ensureFieldsDeserialized) request

theorem after_gateObject (id : Id) (meter : Meter) :
    After (gateObject ctx store rules op typeName request id) meter
      (fun _ _ => GatePassed ctx rules store op typeName request id) fun _ => True := by
  unfold gateObject GatePassed
  cases hget : Engine.get ctx.schema store typeName id with
  | error e => exact .pure (by intro obj hobj; cases hobj)
  | ok obj =>
    refine (after_decideOp meter).mono ?_ fun _ h => h
    intro _ _ hallowed obj' hobj'
    cases hobj'
    exact hallowed

theorem after_gateWrite (hrules : ctx.rules = some rules) {ids : List Id} (meter : Meter) :
    After (gateWrite ctx store op typeName ids request) meter
      (fun _ _ => ∀ id ∈ ids, GatePassed ctx rules store op typeName request id)
      fun _ => True := by
  unfold gateWrite
  rw [hrules]
  exact .forM_all after_gateObject meter

end

section

variable {F : Type} [JsonNumber F] {ctx : ExecContext F} {rules : RulesProgram F} {db : Database}

theorem after_last {α β : Type} {m : Metered α} {k : α → Metered β} {Q : β → Prop} {meter : Meter}
    (hk : ∀ a meter, After (k a) meter (fun b _ => Q b) fun _ => True) :
    After (m >>= k) meter (fun b _ => Q b) fun _ => True :=
  .bind ((after_state m meter).mono (fun a meter' _ => hk a meter') fun _ _ => trivial)

theorem after_ofExcept {α : Type} {r : Except QueryError α} (meter : Meter) :
    After (MonadExcept.ofExcept r : Metered α) meter (fun a _ => r = .ok a) fun _ => True :=
  .ofExcept (fun _ h => h) trivial

variable {typeName : String} {ids : List Id} {fields : LiteralMap}

theorem after_prepareCreate (hrules : ctx.rules = some rules) (meter : Meter) :
    After (prepareCreate ctx db typeName fields) meter
      (fun request _ => literalMapToFieldMap ctx.codecs ctx.schema typeName fields = .ok request ∧
        Allowed ctx rules db.store .create typeName none (some request)) fun _ => True := by
  refine .seq (after_ofExcept meter) ?_ fun _ _ => trivial
  intro request meter hcoerced
  refine after_last fun _ meter => ?_
  refine .seq (after_gateCreate hrules meter) ?_ fun _ _ => trivial
  exact fun _ _ hallowed => .pure ⟨hcoerced, hallowed⟩

theorem after_prepareBatch (hrules : ctx.rules = some rules) {rows : List LiteralMap}
    (meter : Meter) :
    After (prepareBatch ctx db typeName rows) meter
      (fun requests _ =>
        rows.mapM (literalMapToFieldMap ctx.codecs ctx.schema typeName) = .ok requests ∧
        ∀ request ∈ requests, Allowed ctx rules db.store .create typeName none (some request))
      fun _ => True := by
  refine after_last fun _ meter => ?_
  refine .seq (after_ofExcept meter) ?_ fun _ _ => trivial
  intro requests meter hcoerced
  refine after_last fun _ meter => ?_
  refine .seq (.forM_all (fun request => after_gateCreate hrules) meter) ?_ fun _ _ => trivial
  exact fun _ _ hallowed => .pure ⟨hcoerced, hallowed⟩

theorem after_prepareUpdate (hrules : ctx.rules = some rules) (meter : Meter) :
    After (prepareUpdate ctx db typeName ids fields) meter
      (fun request _ => literalMapToFieldMap ctx.codecs ctx.schema typeName fields = .ok request ∧
        ∀ id ∈ ids, GatePassed ctx rules db.store .update typeName (some request) id)
      fun _ => True := by
  refine after_last fun _ meter => ?_
  refine .seq (after_ofExcept meter) ?_ fun _ _ => trivial
  intro request meter hcoerced
  refine after_last fun _ meter => after_last fun _ meter => ?_
  refine .seq (after_gateWrite hrules meter) ?_ fun _ _ => trivial
  exact fun _ _ hpassed => .pure ⟨hcoerced, hpassed⟩

theorem after_prepareDelete (hrules : ctx.rules = some rules) (meter : Meter) :
    After (prepareDelete ctx db typeName ids) meter
      (fun _ _ => ∀ id ∈ ids, GatePassed ctx rules db.store .delete typeName none id)
      fun _ => True := by
  refine after_last fun _ meter => after_last fun _ meter => ?_
  exact after_gateWrite hrules meter

end

section

variable {F : Type} {ctx : ExecContext F} {schema : Schema} {typeName : String}
  {ids : List Id} {base : Store} {s : ExecState}

variable {id : Id} {writes : Writes Key Payload} {updates : FieldMap} {store : Store}
  {c' c : Counters}

theorem get_of_has {t : TypeDef} (ht : schema.getType typeName = some t)
    (hhas : base.Has (.object t.typeId id)) :
    ∃ obj, Engine.get schema base typeName id = .ok obj := by
  obtain ⟨data, hdata⟩ := Option.isSome_iff_exists.mp hhas
  refine ⟨.ofRow typeName (id, data), ?_⟩
  simp only [Engine.get, ht, hdata, require, bind, Except.bind]
  rfl

structure Updated (schema : Schema) (typeName : String) (ids : List Id) (base store : Store) :
    Prop where
  changed : ∀ n, Differs base store n → ∃ t, schema.getType typeName = some t ∧ n.1 = t.typeId ∧
    n.2 ∈ ids ∧ base.Has (.object n.1 n.2)
  present : ∀ a id, store.Has (.object a id) → base.Has (.object a id)

theorem Updated.refl : Updated schema typeName ids base base where
  changed _ h := absurd h not_differs_self
  present _ _ h := h

theorem Updated.update (h : Updated schema typeName ids base store) (hid : id ∈ ids)
    (hok : Engine.update schema store.view c typeName id updates = (.ok writes, c')) :
    Updated schema typeName ids base (store.apply writes) := by
  obtain ⟨t, ht, hhas, hwrites⟩ := update_objects hok
  constructor
  · intro n hdiff
    rcases hdiff.split with hold | hnew
    · exact h.changed n hold
    · obtain ⟨w, hw, heq⟩ := hnew.exists_write
      obtain ⟨hn, -⟩ := hwrites w hw n.1 n.2 heq
      obtain ⟨htype, hobject⟩ := Prod.mk.inj hn
      rw [htype, hobject]
      exact ⟨t, ht, rfl, hid, h.present _ _ hhas⟩
  · intro a id' hafter
    rw [Store.has_apply] at hafter
    rcases hafter with ⟨value, hvalue⟩ | ⟨-, hbefore⟩
    · obtain ⟨heq, -⟩ := hwrites _ (lastWrite_mem hvalue) a id' rfl
      cases heq
      exact h.present _ _ hhas
    · exact h.present a id' hbefore

theorem Updated.updateObject (hid : id ∈ ids)
    (h : Updated ctx.schema typeName ids base s.db.store) :
    After (updateObject ctx typeName updates id) s
      (fun _ s' => Updated ctx.schema typeName ids base s'.db.store)
      fun s' => Updated ctx.schema typeName ids base s'.db.store := by
  refine .seq (reading_keeps _) ?_ fun s' hs' => hs'.symm ▸ h
  intro _ s' hs'
  refine .seq after_write ?_ fun s'' hs'' => by rw [hs'', hs']; exact h
  rintro - s'' ⟨writes, hstage, hstore⟩
  rw [hs'] at hstage hstore
  have hupdated := h.update hid hstage
  refine (reading_keeps _).mono ?_ ?_
  · intro _ s₃ hs₃
    rw [hs₃, hstore]
    exact hupdated
  · intro s₃ hs₃
    rw [hs₃, hstore]
    exact hupdated

structure Deleted (schema : Schema) (typeName : String) (ids : List Id) (base store : Store) :
    Prop where
  changed : ∀ n, Differs base store n → ∃ t, schema.getType typeName = some t ∧ ∃ root ∈ ids,
    base.Has (.object t.typeId root) ∧ ¬ store.Has (.object t.typeId root) ∧
      CascadesTo schema base (t.typeId, root) n
  present : ∀ a id, store.Has (.object a id) → base.Has (.object a id)
  cascades : ∀ root n, CascadesTo schema store root n → CascadesTo schema base root n

theorem Deleted.refl : Deleted schema typeName ids base base where
  changed _ h := absurd h not_differs_self
  present _ _ h := h
  cascades _ _ h := h

theorem Deleted.delete (h : Deleted schema typeName ids base store) (hid : id ∈ ids)
    (hok : Engine.delete schema store.view c typeName id = (.ok writes, c')) :
    Deleted schema typeName ids base (store.apply writes) := by
  obtain ⟨t, ht, hhas, hnone, hroot, hcascade⟩ := delete_objects hok
  constructor
  · intro n hdiff
    rcases hdiff.split with hold | hnew
    · obtain ⟨u, hu, root, hmem, hbase, hgone, hreach⟩ := h.changed n hold
      exact ⟨u, hu, root, hmem, hbase, fun hafter => hgone (has_of_removal hnone hafter).2, hreach⟩
    · obtain ⟨w, hw, heq⟩ := hnew.exists_write
      refine ⟨t, ht, id, hid, h.present _ _ hhas, ?_, h.cascades _ _ (hcascade w hw n.1 n.2 heq)⟩
      exact fun hafter => (has_of_removal hnone hafter).1 (mem_map_of_mem hroot)
  · exact fun a id' hafter => h.present a id' (has_of_removal hnone hafter).2
  · exact fun root n hreach => h.cascades root n (hreach.of_removal hnone)

theorem Deleted.deleteObject (hid : id ∈ ids) (h : Deleted ctx.schema typeName ids base s.db.store) :
    After (deleteObject ctx typeName id) s
      (fun _ s' => Deleted ctx.schema typeName ids base s'.db.store)
      fun s' => Deleted ctx.schema typeName ids base s'.db.store := by
  refine .seq (reading_keeps _) ?_ fun s' hs' => hs'.symm ▸ h
  intro _ s' hs'
  refine after_write.mono ?_ fun s'' hs'' => by rw [hs'', hs']; exact h
  rintro - s'' ⟨writes, hstage, hstore⟩
  rw [hs'] at hstage hstore
  rw [hstore]
  exact h.delete hid hstage

theorem after_linkCall {call : Database.Call} (hcall : (∃ a b c d e, call = .link a b c d e) ∨
      ∃ a b c d, call = .unlink a b c d) (h : ∀ n, ¬ Differs base s.db.store n) :
    After (write ctx call) s (fun _ s' => ∀ n, ¬ Differs base s'.db.store n)
      fun s' => ∀ n, ¬ Differs base s'.db.store n := by
  refine after_write.mono ?_ fun s' hs' => by rw [hs']; exact h
  rintro - s' ⟨writes, hstage, hstore⟩
  rw [hstore]
  intro n hdiff
  refine hdiff.split.elim (h n) (not_differs_of_not_record ?_)
  rcases hcall with ⟨a, b, c, d, e, rfl⟩ | ⟨a, b, c, d, rfl⟩
  · exact isRecord_link (Prod.mk.inj hstage).1
  · exact isRecord_unlink (Prod.mk.inj hstage).1

end

section

variable {F : Type} [JsonNumber F] (ctx : ExecContext F) (rules : RulesProgram F)

inductive SourceGated (db : Database) : Source → Id × Id → Prop
  | create {typeName : String} {fields : LiteralMap} {t : TypeDef} {request : FieldMap}
      (type : ctx.schema.getType typeName = some t)
      (coerced : literalMapToFieldMap ctx.codecs ctx.schema typeName fields = .ok request)
      (allowed : Allowed ctx rules db.store .create typeName none (some request)) :
      SourceGated db (.create typeName fields) (t.typeId, db.counters.nextObjectId)
  | createBatch {typeName : String} {rows : List LiteralMap} {t : TypeDef}
      {requests : List FieldMap} {id : Id} {request : FieldMap}
      (type : ctx.schema.getType typeName = some t)
      (coerced : rows.mapM (literalMapToFieldMap ctx.codecs ctx.schema typeName) = .ok requests)
      (drawn : (id, request) ∈ (drawnIds db.counters.nextObjectId requests.length).zip requests)
      (allowed : Allowed ctx rules db.store .create typeName none (some request)) :
      SourceGated db (.createBatch typeName rows) (t.typeId, id)

/-- The update was allowed for the object as the step found it; or the object was removed by the
cascade of one that the step removed, and whose delete was allowed as the step found it. -/
inductive StepGated (found left : Store) : Step → Id × Id → Prop
  | update {fields : LiteralMap} {typeName : String} {t : TypeDef} {request : FieldMap} {id : Id}
      {obj : Object} (type : ctx.schema.getType typeName = some t)
      (coerced : literalMapToFieldMap ctx.codecs ctx.schema typeName fields = .ok request)
      (stored : Engine.get ctx.schema found typeName id = .ok obj)
      (allowed : Allowed ctx rules found .update typeName (some obj.ensureFieldsDeserialized)
        (some request)) : StepGated found left (.update fields) (t.typeId, id)
  | delete {typeName : String} {t : TypeDef} {root : Id} {obj : Object} {n : Id × Id}
      (type : ctx.schema.getType typeName = some t)
      (stored : Engine.get ctx.schema found typeName root = .ok obj)
      (allowed : Allowed ctx rules found .delete typeName (some obj.ensureFieldsDeserialized) none)
      (removed : ¬ left.Has (.object t.typeId root))
      (cascades : CascadesTo ctx.schema found (t.typeId, root) n) : StepGated found left .delete n

variable {ctx rules} {s : ExecState}

omit [JsonNumber F] in
theorem onlyReads_readObject (typeName : String) (id : Id) :
    OnlyReads (readObject ctx typeName id) := .reading _

theorem executeSource_gated (hrules : ctx.rules = some rules) (query : Query) :
    ChangesOnly (executeSource ctx query) s
      fun _ n => SourceGated ctx rules s.db query.source n := by
  unfold executeSource
  cases hsource : query.source with
  | get typeName id =>
    exact ((onlyReads_readObject typeName id).bind fun _ => .pure _).changesOnly
  | filter typeName predicate => exact (OnlyReads.reading _).changesOnly
  | create typeName fields =>
    refine .read_bind (after_prepareCreate hrules s.meter) ?_
    rintro request s₁ hs₁ ⟨hcoerced, hallowed⟩
    refine .read_bind (after_true _ s₁.meter) ?_
    intro id s₂ hs₂ _
    refine .bind_reads ?_ fun _ => (onlyReads_readObject typeName id).bind fun _ => .pure _
    refine after_write.mono ?_ ?_
    · rintro - s' ⟨writes, hstage, hstore⟩ n hdiff
      rw [hstore] at hdiff
      obtain ⟨t, ht, rfl⟩ := create_differs hstage hdiff
      rw [hs₂, hs₁]
      exact .create ht hcoerced hallowed
    · intro s' hs' n hdiff
      rw [hs'] at hdiff
      exact absurd hdiff not_differs_self
  | createBatch typeName rows =>
    refine .read_bind (after_prepareBatch hrules s.meter) ?_
    rintro requests s₁ hs₁ ⟨hcoerced, hallowed⟩
    refine .read_bind (after_true _ s₁.meter) ?_
    intro id s₂ hs₂ _
    refine .bind_reads ?_ fun _ => (OnlyReads.mapM (onlyReads_readObject typeName) _).bind fun _ =>
      .pure _
    refine after_write.mono ?_ ?_
    · rintro - s' ⟨writes, hstage, hstore⟩ n hdiff
      rw [hstore] at hdiff
      obtain ⟨t, ht, htype, hdrawn⟩ := createBatch_differs hstage hdiff
      rw [hs₂, hs₁] at hdrawn
      have hlength : (drawnIds s.db.counters.nextObjectId requests.length).length ≤
          requests.length := by
        unfold drawnIds
        rw [length_map, length_range]
      rw [← map_fst_zip hlength] at hdrawn
      obtain ⟨⟨id', request⟩, hzip, hid⟩ := mem_map.mp hdrawn
      obtain ⟨typeId, objectId⟩ := n
      cases htype
      cases hid
      exact .createBatch ht hcoerced hzip (hallowed request (of_mem_zip hzip).2)
    · intro s' hs' n hdiff
      rw [hs'] at hdiff
      exact absurd hdiff not_differs_self
  | all typeName => exact ((OnlyReads.reading _).bind fun _ => .pure _).changesOnly

theorem writeStep_gated (hrules : ctx.rules = some rules) (typeName : String) (ids : List Id)
    (step : Step) :
    ChangesOnly (writeStep ctx typeName ids step) s
      fun left n => StepGated ctx rules s.db.store left step n := by
  cases step with
  | update fields =>
    refine .read_bind (after_prepareUpdate hrules s.meter) ?_
    rintro request s₁ hs₁ ⟨hcoerced, hpassed⟩
    have hloop := After.mapM (f := updateObject ctx typeName request) (l := ids)
      (P := fun s' : ExecState => Updated ctx.schema typeName ids s₁.db.store s'.db.store)
      (fun id hid _ h => h.updateObject hid) .refl
    have hgated : ∀ s' : ExecState, Updated ctx.schema typeName ids s₁.db.store s'.db.store →
        ∀ n, Differs s₁.db.store s'.db.store n →
          StepGated ctx rules s.db.store s'.db.store (.update fields) n := by
      rintro s' hs' ⟨typeId, id⟩ hdiff
      obtain ⟨t, ht, htype, hid, hhas⟩ := hs'.changed _ hdiff
      cases htype
      rw [hs₁] at hhas
      obtain ⟨obj, hobj⟩ := get_of_has ht hhas
      exact .update ht hcoerced hobj (hpassed id hid obj hobj)
    refine .bind_reads (hloop.mono (fun _ => hgated) hgated) ?_
    intro updated
    split
    · exact .pure _
    · exact .pure _
  | delete =>
    refine .read_bind (after_prepareDelete hrules s.meter) ?_
    intro _ s₁ hs₁ hpassed
    have hloop := After.forM (g := deleteObject ctx typeName) (l := ids)
      (P := fun s' : ExecState => Deleted ctx.schema typeName ids s₁.db.store s'.db.store)
      (fun id hid _ h => h.deleteObject hid) .refl
    have hgated : ∀ s' : ExecState, Deleted ctx.schema typeName ids s₁.db.store s'.db.store →
        ∀ n, Differs s₁.db.store s'.db.store n →
          StepGated ctx rules s.db.store s'.db.store .delete n := by
      intro s' hs' n hdiff
      obtain ⟨t, ht, root, hroot, hhas, hgone, hreach⟩ := hs'.changed n hdiff
      rw [hs₁] at hhas hreach
      obtain ⟨obj, hobj⟩ := get_of_has ht hhas
      exact .delete ht hobj (hpassed root hroot obj hobj) hgone hreach
    exact .bind_reads (hloop.mono (fun _ => hgated) hgated) fun _ => .pure _
  | link targetType targetId edgeFields =>
    refine .read_bind (after_true _ s.meter) ?_
    intro target s₁ _ _
    have hloop := After.forM
      (g := fun id => write ctx (.link typeName id target.1 targetId target.2)) (l := ids)
      (P := fun s' : ExecState => ∀ n, ¬ Differs s₁.db.store s'.db.store n)
      (fun id _ _ h => after_linkCall (.inl ⟨_, _, _, _, _, rfl⟩) h) fun _ => not_differs_self
    exact .bind_reads (hloop.mono (fun _ _ hno n hdiff => absurd hdiff (hno n))
      fun _ hno n hdiff => absurd hdiff (hno n)) fun _ => .pure _
  | unlink targetType targetId =>
    refine .read_bind (after_true _ s.meter) ?_
    intro fieldName s₁ _ _
    have hloop := After.forM
      (g := fun id => write ctx (.unlink typeName id fieldName targetId)) (l := ids)
      (P := fun s' : ExecState => ∀ n, ¬ Differs s₁.db.store s'.db.store n)
      (fun id _ _ h => after_linkCall (.inr ⟨_, _, _, _, rfl⟩) h) fun _ => not_differs_self
    exact .bind_reads (hloop.mono (fun _ _ hno n hdiff => absurd hdiff (hno n))
      fun _ hno n hdiff => absurd hdiff (hno n)) fun _ => .pure _
  | _ => exact (OnlyReads.pure _).changesOnly

theorem runStage_gated (hrules : ctx.rules = some rules) (query : Query) (step : Step × Nat)
    (p : Pipeline) :
    ChangesOnly (runStage ctx query step p) s
      fun left n => StepGated ctx rules s.db.store left step.1 n := by
  refine .read_bind (after_true _ s.meter) ?_
  intro p s₁ hs₁ _
  refine .bind_reads ?_ fun _ => .pure _
  unfold executeStep
  rw [← hs₁]
  by_cases hwrite : step.1.isWrite = true
  · rw [if_pos hwrite]
    exact writeStep_gated hrules _ _ _
  · rw [if_neg hwrite]
    exact (OnlyReads.reading _).changesOnly

end

section

variable {F : Type} [JsonNumber F] (ctx : ExecContext F) (query : Query) (s : ExecState)

/-- The database behind the source and the first steps. -/
def databaseAfter (n : Nat) : Database := ((stages ctx query n).run.run s).2.db

def databaseAtEnd : Database := ((execute ctx query).run.run s).2.db

variable {ctx query}

variable {s} {rules : RulesProgram F}

theorem start_gated (hrules : ctx.rules = some rules) :
    ChangesOnly (start ctx query) s fun _ n => SourceGated ctx rules s.db query.source n := by
  unfold start
  split
  · exact ((OnlyReads.reading _).bind fun _ => .pure _).changesOnly
  · exact .bind_reads (executeSource_gated hrules query) fun _ => .pure _

theorem differs_stage {n : Id × Id} (m : Nat)
    (h : Differs s.db.store (databaseAfter ctx query s m).store n) :
    Differs s.db.store (databaseAfter ctx query s 0).store n ∨
      ∃ i < m, Differs (databaseAfter ctx query s i).store (databaseAfter ctx query s (i + 1)).store
        n := by
  induction m with
  | zero => exact .inl h
  | succ m ih =>
    rcases h.split with hbefore | hlast
    · rcases ih hbefore with hsource | ⟨i, hi, hstage⟩
      · exact .inl hsource
      · exact .inr ⟨i, Nat.lt_succ_of_lt hi, hstage⟩
    · exact .inr ⟨m, Nat.lt_succ_self m, hlast⟩

theorem databaseAtEnd_eq :
    databaseAtEnd ctx query s = databaseAfter ctx query s (stepsLeft ctx query).length := by
  unfold databaseAtEnd databaseAfter
  rw [execute_eq_stages]
  exact state_bind (R := fun s s' : ExecState => s'.db = s.db) (fun _ => rfl)
    fun _ s => reading_keeps _

/-- Every write of a run passes the gate of its stage. What the source writes is a create that the
rules allowed on the state before the query; what a step writes, they allowed on the state that the
step found, or the delete of an object from which it cascades. -/
theorem execute_gated (hrules : ctx.rules = some rules) :
    (∀ n, Differs s.db.store (databaseAfter ctx query s 0).store n →
      SourceGated ctx rules s.db query.source n) ∧
    (∀ i, ∀ step ∈ (stepsLeft ctx query)[i]?, ∀ n,
      Differs (databaseAfter ctx query s i).store (databaseAfter ctx query s (i + 1)).store n →
        StepGated ctx rules (databaseAfter ctx query s i).store
          (databaseAfter ctx query s (i + 1)).store step.1 n) ∧
    ∀ n, Differs s.db.store (databaseAtEnd ctx query s).store n →
      Differs s.db.store (databaseAfter ctx query s 0).store n ∨
        ∃ i < (stepsLeft ctx query).length,
          Differs (databaseAfter ctx query s i).store (databaseAfter ctx query s (i + 1)).store
            n := by
  refine ⟨?_, ?_, ?_⟩
  · unfold databaseAfter
    rw [stages_zero]
    exact (start_gated hrules).state
  · intro i step hstep
    unfold databaseAfter
    rw [stages_succ hstep]
    apply state_bind (R := fun found left : ExecState => ∀ n, Differs found.db.store left.db.store n →
      StepGated ctx rules found.db.store left.db.store step.1 n)
    · exact fun _ _ hdiff => absurd hdiff not_differs_self
    · exact fun p s => runStage_gated hrules query step p
  · intro n hdiff
    rw [databaseAtEnd_eq] at hdiff
    exact differs_stage _ hdiff

end

def notesSchema : Schema where
  types :=
    [{ name := "Doc"
       typeId := 1
       fields :=
        [{ name := "open", fieldType := .scalar .bool, directives := [], fieldId := 1,
           relId := 0 }] },
     { name := "Note"
       typeId := 2
       fields :=
        [{ name := "doc", fieldType := .relation ⟨"Doc", false, []⟩,
           directives := [.onDelete .cascade], fieldId := 2, relId := 1 }] }]

/-- `match Doc { allow read, update: if true; allow delete: if resource.open == true; }`. -/
def openDocs : RulesProgram Int where
  types := AList.singleton "Doc" (AList.insert Op.read [.lit (.bool true)]
    (AList.insert Op.update [.lit (.bool true)] (AList.singleton Op.delete
      [.cmp (.operand (.resourceScalar "open")) .eq (.lit (.bool true))])))

def openContext : ExecContext Int where
  schema := notesSchema
  codecs := noCodecs
  json :=
    { number := fun bits => some bits.toNat
      text := fun _ => ""
      base64 := fun _ => ""
      rfc3339 := fun _ => ""
      parse := fun _ => .null }
  vectorizer := none
  fulltext :=
    { candidates := fun _ _ _ _ _ => .error .scanBudgetExceeded
      indexWords := fun _ _ => 0
      storedWords := fun _ _ _ _ => .ok 0 }
  defaultEf := none
  defaultRerank := none
  governor := .disabled fun _ => 0
  principal := .anonymous
  rules := some openDocs
  pruned := wholeReads

def docAndNote (isOpen : Bool) : ExecState where
  db := Run.exec (Database.step notesSchema) .new
    [.create "Doc" (AList.singleton "open" (.bool isOpen)),
      .create "Note" (AList.singleton "doc" (.u64 1))]
  meter := .start

/-- `Doc.get(1).delete()`. -/
def deleteDoc : Query := { source := .get "Doc" 1, steps := [.delete] }

/-- `Doc.get(1).update({ open: true }).delete()`. -/
def openAndDelete : Query where
  source := .get "Doc" 1
  steps := [.update (AList.singleton "open" (.bool true)), .delete]

theorem execute_gated_openAndDelete :
    StepGated openContext openDocs
      (databaseAfter openContext openAndDelete (docAndNote false) 1).store
      (databaseAfter openContext openAndDelete (docAndNote false) 2).store .delete (2, 2) :=
  (execute_gated rfl).2.1 1 (.delete, 1) rfl (2, 2) (by decide +kernel)

def RemovalsAllowed {F : Type} [JsonNumber F] (ctx : ExecContext F) (rules : RulesProgram F)
    (query : Query) (s : ExecState) : Prop :=
  ∀ t ∈ ctx.schema.types, ∀ id obj, Engine.get ctx.schema s.db.store t.name id = .ok obj →
    ¬ (databaseAtEnd ctx query s).store.Has (.object t.typeId id) →
      Allowed ctx rules s.db.store .delete t.name (some obj) none

/-- Nobody may delete a note, which goes with its document; and a document that is not open may be
opened first. -/
theorem removals_not_allowed :
    ¬ RemovalsAllowed openContext openDocs deleteDoc (docAndNote true) ∧
      ¬ RemovalsAllowed openContext openDocs openAndDelete (docAndNote false) := by
  constructor
  · intro h
    have hallowed := h _ (mem_cons_of_mem _ (mem_singleton_self _)) 2 _ rfl
      (by decide +kernel)
    exact absurd hallowed (by decide +kernel)
  · intro h
    have hallowed := h _ mem_cons_self 1 _ rfl (by decide +kernel)
    exact absurd hallowed (by decide +kernel)

end RhypeDb.Query
