import RhypeDb.Engine.ToOne

/-! `create_batch` and `restore_objects` to the end of their commit. The rows are staged one by
one against one snapshot, and each bumps the generation of its id in memory. No row sees the
objects of the others: a restore that names an id twice keeps the later row only. -/

namespace RhypeDb.Engine

open Fallible List Option Storage

section

variable {typeId objectId : Id} {objectIds : List Id} {before : Versions} {c : Counters}

def Bumped (typeId : Id) (objectIds : List Id) (before after : Versions) : Prop :=
  ∀ t o, after t o = before t o + if t = typeId then objectIds.count o else 0

theorem Bumped.nil : Bumped typeId [] before before := by
  intro t o
  simp

theorem Bumped.bump (h : Bumped typeId objectIds before c.versions) :
    Bumped typeId (objectIds ++ [objectId]) before (c.bumpVersion typeId objectId).versions := by
  intro t o
  have hbefore := h t o
  show (if t = typeId ∧ o = objectId then c.versions typeId objectId + 1 else c.versions t o) = _
  rw [count_append, count_singleton]
  by_cases ht : t = typeId
  · subst ht
    rw [if_pos rfl] at hbefore ⊢
    by_cases ho : o = objectId
    · subst ho
      rw [if_pos ⟨rfl, rfl⟩, if_pos (beq_self_eq_true o), hbefore]
      rfl
    · rw [if_neg fun h => ho h.2, if_neg (by simpa using Ne.symm ho), hbefore]
      rfl
  · rw [if_neg ht] at hbefore ⊢
    rw [if_neg fun h => ht h.1, hbefore]

theorem Bumped.rollback (h : Bumped typeId objectIds before c.versions) :
    (objectIds.foldl (fun c id => c.rollbackVersion typeId id) c).versions = before := by
  induction objectIds generalizing c with
  | nil =>
    funext t o
    simpa using h t o
  | cons objectId objectIds ih =>
    apply ih
    intro t o
    have hbefore := h t o
    rw [count_cons] at hbefore
    show (if t = typeId ∧ o = objectId then c.versions typeId objectId - 1
      else c.versions t o) = _
    by_cases ht : t = typeId
    · subst ht
      rw [if_pos rfl] at hbefore ⊢
      by_cases ho : o = objectId
      · subst ho
        rw [if_pos (beq_self_eq_true o)] at hbefore
        rw [if_pos ⟨rfl, rfl⟩, hbefore]
        omega
      · rw [if_neg (by simpa using Ne.symm ho)] at hbefore
        rw [if_neg fun h => ho h.2, hbefore]
        rfl
    · rw [if_neg ht] at hbefore ⊢
      rw [if_neg fun h => ht h.1, hbefore]

theorem Bumped.eq_iff (h : Bumped typeId objectIds before c.versions) :
    c.versions = before ↔ objectIds = [] := by
  constructor
  · rintro rfl
    rw [eq_nil_iff_forall_not_mem]
    intro objectId hmem
    have hsame := h typeId objectId
    rw [if_pos rfl] at hsame
    have hpos := count_pos_iff.mpr hmem
    omega
  · rintro rfl
    funext t o
    simpa using h t o

end

/-- How the commit of a batch ends: it lands; it is refused with nothing logged; its sync fails
behind the append to the log; or it lands and the flush behind it fails. -/
inductive CommitEnd
  | landed
  | refused (e : EngineError)
  | unsynced
  | flushFailed
  deriving DecidableEq

/-- A database with what its log and files hold, which the next `open` reads. -/
structure Instance where
  db : Database
  disk : Store

inductive BatchCall
  | createBatch (typeName : String) (rows : List FieldMap)
  | restoreObjects (typeName : String) (rows : List (Id × FieldMap)) (rejectExisting : Bool)

namespace BatchCall

def typeName : BatchCall → String
  | createBatch typeName _ => typeName
  | restoreObjects typeName _ _ => typeName

def rows (next : Id) : BatchCall → List (Id × FieldMap)
  | createBatch _ rows => (drawnIds next rows.length).zip rows
  | restoreObjects _ rows _ => rows

def stage (schema : Schema) (view : View) (t : TypeDef) (c : Counters) : BatchCall → Staged
  | createBatch _ rows =>
    stageRows schema view t rows { objectIds := [], staged := [], puts := [] } c
  | restoreObjects _ rows rejectExisting =>
    restoreRows schema view t rejectExisting rows { objectIds := [], staged := [], puts := [] } c

/-- The counters once the commit has landed: a restore moves the next id past its own,
`max_id + 1` wrapping around. -/
def landed (c : Counters) : BatchCall → Counters
  | createBatch _ _ => c
  | restoreObjects _ rows _ =>
    { c with nextObjectId := max c.nextObjectId ((rows.map Prod.fst).foldl max 0 + 1) }

/-- `put_batch` and `commit`, and on an error `rollback_all`. -/
def commit (s : Instance) (fin : CommitEnd) (typeId : Id) (objectIds : List Id)
    (writes : Writes Key Payload) (c : Counters) (call : BatchCall) :
    Except EngineError Unit × Instance :=
  let undone := objectIds.foldl (fun c id => c.rollbackVersion typeId id) c
  match fin with
  | .landed =>
    (.ok (), { db := ⟨s.db.store.apply writes, call.landed c⟩, disk := s.disk.apply writes })
  | .refused e => (.error e, { s with db := ⟨s.db.store, undone⟩ })
  | .unsynced =>
    (.error .storage, { db := ⟨s.db.store, undone⟩, disk := s.disk.apply writes })
  | .flushFailed =>
    (.error .storage, { db := ⟨s.db.store.apply writes, undone⟩, disk := s.disk.apply writes })

/-- `create_batch` and `restore_objects`, with the reads of their transaction and the end of
their commit. -/
def run (schema : Schema) (view : View) (fin : CommitEnd) (s : Instance) (call : BatchCall) :
    Except EngineError Unit × Instance :=
  let rows := call.rows s.db.counters.nextObjectId
  if rows.isEmpty then (.ok (), s)
  else
    match schema.getType call.typeName with
    | none => (.error (.typeNotFound call.typeName), s)
    | some t =>
      match call.stage schema view t s.db.counters with
      | (.error e, c) => (.error e, { s with db := { s.db with counters := c } })
      | (.ok writes, c) => call.commit s fin t.typeId (rows.map Prod.fst) writes c

end BatchCall

section

variable {schema : Schema} {view : View} {t : TypeDef} {before : Versions} {c c' : Counters}
  {writes : Writes Key Payload} {e : EngineError} {rejectExisting : Bool}
  {rows : List (Id × FieldMap)}

theorem stageRows_versions {rows : List FieldMap} {batch : Batch}
    (hbumped : Bumped t.typeId batch.objectIds before c.versions) :
    match stageRows schema view t rows batch c with
    | (.error _, c') => c'.versions = before
    | (.ok _, c') => Bumped t.typeId (batch.objectIds ++ drawnIds c.nextObjectId rows.length)
        before c'.versions := by
  induction rows generalizing batch c with
  | nil =>
    rw [stageRows]
    simpa [drawnIds] using hbumped
  | cons fields rows ih =>
    rw [stageRows]
    cases stageCreateWrites schema view c.versions t c.nextObjectId fields batch.staged with
    | error e => exact @Bumped.rollback _ _ _ { c with nextObjectId := c.nextObjectId + 1 } hbumped
    | ok row =>
      have hrow := @Bumped.bump _ c.nextObjectId _ _
        { c with nextObjectId := c.nextObjectId + 1 } hbumped
      have hrest := @ih _ ⟨_, row.1, batch.puts ++ row.2⟩ hrow
      rw [append_assoc] at hrest
      rw [length_cons, drawnIds_succ]
      exact hrest

/-- An existence probe fails behind rows that were staged. Their bumps stay. -/
def LateProbe (schema : Schema) (view : View) (t : TypeDef) (rejectExisting : Bool)
    (rows : List (Id × FieldMap)) (batch : Batch) (c : Counters) : Prop :=
  ∃ done row rest, rows = done ++ row :: rest ∧ batch.objectIds ++ done.map Prod.fst ≠ [] ∧
    rejectExisting = true ∧ (∃ e, view.get (.object t.typeId row.1) = .error e) ∧
    ∃ writes c', restoreRows schema view t rejectExisting done batch c = (.ok writes, c')

theorem lateProbe_cons {row : Id × FieldMap} {batch : Batch} :
    LateProbe schema view t rejectExisting (row :: rows) batch c ↔
      (batch.objectIds ≠ [] ∧ rejectExisting = true ∧
        ∃ e, view.get (.object t.typeId row.1) = .error e) ∨
      ∃ done next rest, rows = done ++ next :: rest ∧ rejectExisting = true ∧
        (∃ e, view.get (.object t.typeId next.1) = .error e) ∧
        ∃ writes c', restoreRows schema view t rejectExisting (row :: done) batch c =
          (.ok writes, c') := by
  constructor
  · rintro ⟨_ | ⟨first, done⟩, next, rest, heq, hids, hreject, hfails, hdone⟩
    · obtain ⟨rfl, -⟩ := List.cons.inj heq
      exact .inl ⟨by simpa using hids, hreject, hfails⟩
    · obtain ⟨rfl, htail⟩ := List.cons.inj heq
      exact .inr ⟨done, next, rest, htail, hreject, hfails, hdone⟩
  · rintro (⟨hids, hreject, hfails⟩ | ⟨done, next, rest, heq, hreject, hfails, hdone⟩)
    · exact ⟨[], row, rows, rfl, by simpa using hids, hreject, hfails, _, _, rfl⟩
    · exact ⟨row :: done, next, rest, by rw [heq]; rfl, by simp, hreject, hfails, hdone⟩

theorem restoreRows_versions {batch : Batch}
    (hbumped : Bumped t.typeId batch.objectIds before c.versions) :
    match restoreRows schema view t rejectExisting rows batch c with
    | (.error _, c') => c'.versions = before ↔
        ¬ LateProbe schema view t rejectExisting rows batch c
    | (.ok _, c') => Bumped t.typeId (batch.objectIds ++ rows.map Prod.fst) before c'.versions := by
  induction rows generalizing batch c with
  | nil =>
    rw [restoreRows]
    simpa using hbumped
  | cons row rows ih =>
    obtain ⟨objectId, fields⟩ := row
    have hundone := hbumped.rollback
    rw [lateProbe_cons]
    simp only [restoreRows]
    cases hprobe : (if rejectExisting then view.get (.object t.typeId objectId) else .ok none) with
    | error e =>
      have hreject : rejectExisting = true := by
        by_contra h
        rw [if_neg h] at hprobe
        cases hprobe
      rw [if_pos hreject] at hprobe
      show c.versions = before ↔ _
      rw [hbumped.eq_iff]
      constructor
      · rintro hids (⟨hne, -⟩ | ⟨_, _, _, _, _, _, _, _, hdone⟩)
        · exact hne hids
        · cases (Prod.mk.inj hdone).1
      · intro h
        by_contra hne
        exact h (.inl ⟨hne, hreject, e, hprobe⟩)
    | ok found =>
      have hlate : ¬ (batch.objectIds ≠ [] ∧ rejectExisting = true ∧
          ∃ e, view.get (.object t.typeId objectId) = .error e) := by
        rintro ⟨-, hreject, e, hfails⟩
        rw [if_pos hreject, hfails] at hprobe
        cases hprobe
      rw [or_iff_right hlate]
      cases found with
      | some data =>
        refine iff_of_true hundone ?_
        rintro ⟨_, _, _, _, _, _, _, _, hdone⟩
        cases (Prod.mk.inj hdone).1
      | none =>
        cases stageCreateWrites schema view c.versions t objectId fields batch.staged with
        | error e =>
          refine iff_of_true hundone ?_
          rintro ⟨_, _, _, _, _, _, _, _, hdone⟩
          cases (Prod.mk.inj hdone).1
        | ok staged =>
          have hrow := @Bumped.bump _ objectId _ _ _ hbumped
          have hrest := @ih _ ⟨_, staged.1, batch.puts ++ staged.2⟩ hrow
          simpa [LateProbe] using hrest

end

section

variable {schema : Schema} {view : View} {versions : Versions} {t : TypeDef} {c c' : Counters}
  {writes : Writes Key Payload} {store : Store}

variable {acc acc' : FieldMap × List Link} {batch : Batch} {rows : List (Id × FieldMap)}
  {done : List (Id × FieldMap)} {row : Id × FieldMap} {staged : List (Key × Id)}
  {puts : Writes Key Payload} {objectId : Id} {l : List (Sigma fun _ : String => Value)}

theorem splitFields_scalars (hnodup : l.NodupKeys)
    (h : l.foldlM (splitField schema view versions t) acc = .ok acc') (name : String) :
    acc'.1.lookup name =
      ((l.dlookup name).filter fun _ => (t.getField name).any FieldDef.isScalar).or
        (acc.1.lookup name) := by
  induction l generalizing acc with
  | nil =>
    cases h
    rfl
  | cons field l ih =>
    rw [foldlM_cons, bind_eq_ok] at h
    obtain ⟨mid, hstep, h⟩ := h
    obtain ⟨hnot, hnodup⟩ := nodupKeys_cons.mp hnodup
    rw [ih hnodup h]
    obtain ⟨f, hf, -, hcase⟩ := splitField_cases hstep
    obtain ⟨key, value⟩ := field
    by_cases hkey : name = key
    · subst hkey
      rw [dlookup_cons_eq, dlookup_eq_none.mpr hnot]
      rcases hcase with ⟨n, -, -, -, -, hscalar, rfl⟩ | ⟨hscalar, rfl⟩ | ⟨hscalar, rfl⟩
      · simp [hf, hscalar]
      · simp [hf, hscalar]
      · simp [hf, hscalar, Option.filter]
    · rw [dlookup_cons_ne _ _ hkey]
      rcases hcase with ⟨n, -, -, -, -, -, rfl⟩ | ⟨-, rfl⟩ | ⟨-, rfl⟩
      · rfl
      · rfl
      · rw [AList.lookup_insert_ne hkey]

theorem splitField_link {field : Sigma fun _ : String => Value} {f : FieldDef}
    (h : splitField schema view versions t acc field = .ok acc') (hf : t.getField field.1 = some f)
    (hscalar : f.isScalar = false) (hnull : field.2 ≠ .null) :
    ∃ l, acc'.2 = acc.2 ++ [l] ∧ l.relId = f.relId ∧ field.2.targetId = some l.targetId := by
  rw [splitField] at h
  simp only [bind_eq_ok, require_eq_ok, hf, Option.some.injEq, exists_eq_left'] at h
  obtain ⟨-, -, h⟩ := h
  cases htype : f.fieldType with
  | scalar scalar =>
    rw [FieldDef.isScalar, htype] at hscalar
    cases hscalar
  | vector dimensions =>
    rw [htype] at h
    cases h
  | relation rel =>
    rw [htype] at h
    split_ifs at h
    simp only [bind_eq_ok, require_eq_ok] at h
    obtain ⟨targetId, htarget, _, -, _, -, _, -, h⟩ := h
    cases h
    exact ⟨_, rfl, rfl, htarget⟩

theorem splitFields_link {field : Sigma fun _ : String => Value} {f : FieldDef}
    (h : l.foldlM (splitField schema view versions t) acc = .ok acc') (hmem : field ∈ l)
    (hf : t.getField field.1 = some f) (hscalar : f.isScalar = false) (hnull : field.2 ≠ .null) :
    ∃ n ∈ acc'.2, n.relId = f.relId ∧ field.2.targetId = some n.targetId := by
  induction l generalizing acc with
  | nil => cases hmem
  | cons first l ih =>
    rw [foldlM_cons, bind_eq_ok] at h
    obtain ⟨mid, hstep, h⟩ := h
    rcases mem_cons.mp hmem with rfl | hmem
    · obtain ⟨n, hn, hrel, htarget⟩ := splitField_link hstep hf hscalar hnull
      obtain ⟨new, hnew, -⟩ := splitFields_links h
      refine ⟨n, ?_, hrel, htarget⟩
      rw [hnew, hn]
      simp
    · exact ih h hmem

structure RowStored (t : TypeDef) (store : Store) (row : Id × FieldMap) : Prop where
  object : ∃ blob, store.lookup (.object t.typeId row.1) = some blob ∧
    ∀ name, blob.deserializeFields.lookup name =
      (row.2.lookup name).filter fun _ => (t.getField name).any FieldDef.isScalar
  edge : ∀ name value f, row.2.lookup name = some value → t.getField name = some f →
    f.isScalar = false → value ≠ .null →
    ∃ targetId, value.targetId = some targetId ∧ store.Has (.edge row.1 f.relId targetId)

def RowPuts (schema : Schema) (view : View) (t : TypeDef) (row : Id × FieldMap)
    (puts : Writes Key Payload) : Prop :=
  ∃ versions split,
    row.2.entries.foldlM (splitField schema view versions t) (∅, []) = .ok split ∧
      puts = createPuts schema view versions t row.1 split.1 split.2

theorem stageCreateWrites_rowPuts {fields : FieldMap} {staged' : List (Key × Id)}
    (h : stageCreateWrites schema view versions t objectId fields staged = .ok (staged', puts)) :
    RowPuts schema view t (objectId, fields) puts := by
  obtain ⟨split, hsplit, -, rfl⟩ := stageCreateWrites_eq_ok h
  exact ⟨versions, split, hsplit, rfl⟩

structure RowsPut (schema : Schema) (view : View) (t : TypeDef) (rows : List (Id × FieldMap))
    (writes : Writes Key Payload) : Prop where
  all : ∀ row ∈ rows, ∃ puts, RowPuts schema view t row puts ∧ puts ⊆ writes
  only : ∀ w ∈ writes, w.1.isUniqueIndex = false →
    ∃ row ∈ rows, ∃ puts, RowPuts schema view t row puts ∧ w ∈ puts

theorem RowsPut.nil : RowsPut schema view t [] [] where
  all := nofun
  only := nofun

theorem RowsPut.concat (h : RowsPut schema view t done writes)
    (hrow : RowPuts schema view t row puts) :
    RowsPut schema view t (done ++ [row]) (writes ++ puts) where
  all := by
    refine forall_mem_append.mpr ⟨fun r hr => ?_, forall_mem_singleton.mpr ?_⟩
    · obtain ⟨p, hp, hsub⟩ := h.all r hr
      exact ⟨p, hp, fun w hw => mem_append_left _ (hsub hw)⟩
    · exact ⟨puts, hrow, subset_append_right _ _⟩
  only := by
    intro w hw hkey
    rcases mem_append.mp hw with hw | hw
    · obtain ⟨r, hr, hputs⟩ := h.only w hw hkey
      exact ⟨r, mem_append_left _ hr, hputs⟩
    · exact ⟨row, mem_append_right _ (mem_singleton_self _), puts, hrow, hw⟩

theorem RowsPut.uniquePuts
    (h : RowsPut schema view t rows writes) (hstaged : ∀ s ∈ staged, s.1.isUniqueIndex) :
    RowsPut schema view t rows (uniquePuts staged ++ writes) where
  all := by
    intro row hrow
    obtain ⟨puts, hputs, hsub⟩ := h.all row hrow
    exact ⟨puts, hputs, fun w hw => mem_append_right _ (hsub hw)⟩
  only := by
    intro w hw hkey
    rcases mem_append.mp hw with hw | hw
    · have hunique := isUniqueIndex_uniquePuts hstaged w hw
      rw [hkey] at hunique
      cases hunique
    · exact h.only w hw hkey

theorem stageRows_puts {rows : List FieldMap} (hbatch : RowsPut schema view t done batch.puts)
    (hstaged : ∀ s ∈ batch.staged, s.1.isUniqueIndex)
    (h : stageRows schema view t rows batch c = (.ok writes, c')) :
    RowsPut schema view t (done ++ (drawnIds c.nextObjectId rows.length).zip rows) writes := by
  induction rows generalizing batch c done with
  | nil =>
    cases (Prod.mk.inj h).1
    rw [zip_nil_right, append_nil]
    exact hbatch.uniquePuts hstaged
  | cons fields rows ih =>
    obtain ⟨staged, puts, hstage, h⟩ := stageRows_cons_eq_ok h
    have hrest := ih (hbatch.concat (stageCreateWrites_rowPuts hstage))
      (stageCreateWrites_keys hstage hstaged) h
    rw [append_assoc] at hrest
    rw [length_cons, drawnIds_succ]
    exact hrest

theorem restoreRows_puts {rejectExisting : Bool} (hbatch : RowsPut schema view t done batch.puts)
    (hstaged : ∀ s ∈ batch.staged, s.1.isUniqueIndex)
    (h : restoreRows schema view t rejectExisting rows batch c = (.ok writes, c')) :
    RowsPut schema view t (done ++ rows) writes := by
  induction rows generalizing batch c done with
  | nil =>
    cases (Prod.mk.inj h).1
    rw [append_nil]
    exact hbatch.uniquePuts hstaged
  | cons row rows ih =>
    obtain ⟨-, staged, puts, hstage, h⟩ := restoreRows_cons_eq_ok h
    have hrest := ih (hbatch.concat (stageCreateWrites_rowPuts hstage))
      (stageCreateWrites_keys hstage hstaged) h
    rwa [append_assoc] at hrest

theorem isSome_of_mem_createPuts {scalars : FieldMap} {links : List Link} {w : Key × Option Payload}
    (hw : w ∈ createPuts schema view versions t objectId scalars links) : w.2.isSome := by
  rw [createPuts, mem_append, mem_cons] at hw
  rcases hw with hw | rfl | hw
  · obtain ⟨ifd, -, hput⟩ := mem_filterMap.mp hw
    obtain ⟨key, -, rfl⟩ := map_eq_some_iff.mp hput
    rfl
  · rfl
  · obtain ⟨l, -, hw⟩ := mem_flatMap.mp hw
    rcases mem_pair.mp hw with rfl | rfl
    · rfl
    · rfl

theorem RowsPut.rowStored (h : RowsPut schema view t rows writes)
    (hnodup : (rows.map Prod.fst).Nodup) (hrow : row ∈ rows) :
    RowStored t (store.apply writes) row := by
  obtain ⟨_, ⟨versions, split, hsplit, rfl⟩, hsub⟩ := h.all row hrow
  constructor
  · have hput : Key.object t.typeId row.1 ∈ writes.map Prod.fst :=
      mem_map_of_mem (hsub (mem_append_right _ mem_cons_self))
    obtain ⟨last, hlast⟩ := isSome_iff_exists.mp (isSome_lastWrite.mpr hput)
    -- the last write of the key is of some row with the id, which is the row
    obtain ⟨other, hother, _, ⟨versions', split', hsplit', rfl⟩, hw⟩ :=
      h.only _ (lastWrite_mem hlast) rfl
    obtain ⟨-, scalars, hmem, hvalue⟩ := createPuts_inserts.object _ hw _ _ rfl
    obtain ⟨hid, rfl⟩ := Prod.mk.inj (mem_singleton.mp hmem)
    obtain rfl : other = row := inj_on_of_nodup_map hnodup hother hrow hid.symm
    have hvalue : last = some (serializeFields split'.1) := hvalue
    refine ⟨serializeFields split'.1, ?_, fun name => ?_⟩
    · rw [Store.lookup_apply, hlast, hvalue]
      rfl
    · exact (splitFields_scalars other.2.nodupKeys hsplit' name).trans or_none
  · intro name value f hvalue hf hscalar hnull
    obtain ⟨n, hn, hrel, htarget⟩ := @splitFields_link _ _ _ _ _ _ _ ⟨name, value⟩ f hsplit
      (AList.mem_lookup_iff.mp hvalue) hf hscalar hnull
    refine ⟨n.targetId, htarget, ?_⟩
    rw [Store.has_apply_puts]
    · left
      obtain ⟨i, hi⟩ := mem_iff_getElem?.mp hn
      rw [← hrel]
      refine mem_map.mpr ⟨(.edge row.1 n.relId n.targetId, some .empty), hsub ?_, rfl⟩
      apply mem_append_right
      apply mem_cons_of_mem
      exact mem_flatMap.mpr ⟨_, mk_mem_zipIdx_iff_getElem?.mpr hi, mem_cons_self⟩
    · intro w hw hkey
      obtain ⟨other, -, _, ⟨versions', split', -, rfl⟩, hw⟩ :=
        h.only w hw (by rw [hkey]; rfl)
      exact isSome_of_mem_createPuts hw

end

namespace BatchCall

/-- A probe of a restore fails behind rows that were staged. -/
def ProbesLate (schema : Schema) (view : View) (t : TypeDef) (c : Counters) : BatchCall → Prop
  | createBatch _ _ => False
  | restoreObjects _ rows rejectExisting =>
    LateProbe schema view t rejectExisting rows { objectIds := [], staged := [], puts := [] } c

def Fits (t : TypeDef) (c : Counters) (call : BatchCall) : Prop :=
  (match call with
    | createBatch _ rows => c.nextObjectId.toNat + rows.length < 2 ^ 64
    | restoreObjects _ rows _ => ∀ row ∈ rows, row.1.toNat + 1 < 2 ^ 64) ∧
  ∀ row ∈ call.rows c.nextObjectId, c.versions t.typeId row.1 + 1 < 2 ^ 64

/-- An error leaves what is stored and the generations as they were, so every read. Success
stores every row under an id of its own with no overflow. -/
structure AllOrNothing (schema : Schema) (view : View) (fin : CommitEnd) (s : Instance)
    (call : BatchCall) : Prop where
  nothing : ∀ e s', call.run schema view fin s = (.error e, s') →
    s'.db.store = s.db.store ∧ s'.disk = s.disk ∧
      s'.db.counters.versions = s.db.counters.versions
  all : ∀ s', call.run schema view fin s = (.ok (), s') →
    let rows := call.rows s.db.counters.nextObjectId
    rows ≠ [] → ∃ t, schema.getType call.typeName = some t ∧ (rows.map Prod.fst).Nodup ∧
      (∀ row ∈ rows, RowStored t s'.db.store row ∧ RowStored t s'.disk row) ∧
      call.Fits t s.db.counters

/-- What the call depends on. If every row is valid: the ids are distinct and nothing overflows
where the commit lands, and what a commit that fails behind the log append left was there already.
If not: no probe fails behind staged rows. -/
structure Clean (schema : Schema) (view : View) (fin : CommitEnd) (s : Instance) (t : TypeDef)
    (call : BatchCall) : Prop where
  landed : ∀ writes c, call.stage schema view t s.db.counters = (.ok writes, c) →
    fin = .landed → ((call.rows s.db.counters.nextObjectId).map Prod.fst).Nodup ∧
      call.Fits t s.db.counters
  left : ∀ writes c, call.stage schema view t s.db.counters = (.ok writes, c) →
    (fin = .unsynced ∨ fin = .flushFailed → s.disk.apply writes = s.disk) ∧
    (fin = .flushFailed → s.db.store.apply writes = s.db.store)
  refused : ∀ e c, call.stage schema view t s.db.counters = (.error e, c) →
    ¬ call.ProbesLate schema view t s.db.counters

section

variable {schema : Schema} {view : View} {t : TypeDef} {fin : CommitEnd} {s : Instance}
  {call : BatchCall} {c c' : Counters} {writes : Writes Key Payload}

theorem map_fst_rows_createBatch {typeName : String} {rows : List FieldMap} {next : Id} :
    ((createBatch typeName rows).rows next).map Prod.fst = drawnIds next rows.length :=
  map_fst_zip (by simp [drawnIds])

theorem stage_versions :
    match call.stage schema view t c with
    | (.error _, c') => c'.versions = c.versions ↔ ¬ call.ProbesLate schema view t c
    | (.ok _, c') =>
      Bumped t.typeId ((call.rows c.nextObjectId).map Prod.fst) c.versions c'.versions := by
  cases call with
  | createBatch typeName rows =>
    have h := @stageRows_versions schema view t c.versions c rows
      { objectIds := [], staged := [], puts := [] } Bumped.nil
    rw [map_fst_rows_createBatch]
    simpa [stage, ProbesLate] using h
  | restoreObjects typeName rows rejectExisting =>
    exact @restoreRows_versions schema view t c.versions c rejectExisting rows
      { objectIds := [], staged := [], puts := [] } Bumped.nil

theorem stage_rowStored (h : call.stage schema view t c = (.ok writes, c'))
    (hnodup : ((call.rows c.nextObjectId).map Prod.fst).Nodup) (store : Store) :
    ∀ row ∈ call.rows c.nextObjectId, RowStored t (store.apply writes) row := by
  intro row hrow
  cases call with
  | createBatch typeName rows =>
    exact (stageRows_puts RowsPut.nil (forall_mem_nil _) h).rowStored hnodup hrow
  | restoreObjects typeName rows rejectExisting =>
    exact (restoreRows_puts RowsPut.nil (forall_mem_nil _) h).rowStored hnodup hrow

theorem allOrNothing_refused {e : EngineError} (hrows : call.rows s.db.counters.nextObjectId ≠ [])
    (ht : schema.getType call.typeName = some t)
    (hstage : call.stage schema view t s.db.counters = (.error e, c)) :
    call.AllOrNothing schema view fin s ↔ call.Clean schema view fin s t := by
  have hversions := @stage_versions schema view t call s.db.counters
  rw [hstage] at hversions
  have hrun : call.run schema view fin s =
      (.error e, { s with db := { s.db with counters := c } }) := by
    simp [run, hrows, ht, hstage]
  constructor
  · intro h
    refine ⟨?_, ?_, fun e' c' _ => hversions.mp (h.nothing _ _ hrun).2.2⟩
    · intro writes c' hok
      rw [hstage] at hok
      cases (Prod.mk.inj hok).1
    · intro writes c' hok
      rw [hstage] at hok
      cases (Prod.mk.inj hok).1
  · intro h
    constructor
    · intro e' s' h'
      rw [hrun] at h'
      cases h'
      exact ⟨rfl, rfl, hversions.mpr (h.refused _ _ hstage)⟩
    · intro s' h'
      rw [hrun] at h'
      cases h'

theorem allOrNothing_staged (hrows : call.rows s.db.counters.nextObjectId ≠ [])
    (ht : schema.getType call.typeName = some t)
    (hstage : call.stage schema view t s.db.counters = (.ok writes, c)) :
    call.AllOrNothing schema view fin s ↔ call.Clean schema view fin s t := by
  have hversions := @stage_versions schema view t call s.db.counters
  rw [hstage] at hversions
  have hundone := Bumped.rollback hversions
  have hrun : call.run schema view fin s = call.commit s fin t.typeId
      ((call.rows s.db.counters.nextObjectId).map Prod.fst) writes c := by
    simp [run, hrows, ht, hstage]
  have hrefused : ∀ e c', call.stage schema view t s.db.counters = (.error e, c') →
      ¬ call.ProbesLate schema view t s.db.counters := by
    intro e c' herror
    rw [hstage] at herror
    cases (Prod.mk.inj herror).1
  cases fin with
  | landed =>
    constructor
    · intro h
      obtain ⟨t', ht', hnodup, -, hfits⟩ := h.all _ hrun hrows
      obtain rfl := Option.some.inj (ht.symm.trans ht')
      exact ⟨fun _ _ _ _ => ⟨hnodup, hfits⟩, fun _ _ _ => ⟨by simp, nofun⟩, hrefused⟩
    · intro h
      obtain ⟨hnodup, hfits⟩ := h.landed _ _ hstage rfl
      constructor
      · intro e s' h'
        cases hrun.symm.trans h'
      · intro s' h' _ _
        cases hrun.symm.trans h'
        exact ⟨t, ht, hnodup, fun row hrow => ⟨stage_rowStored hstage hnodup _ row hrow,
          stage_rowStored hstage hnodup _ row hrow⟩, hfits⟩
  | refused e =>
    refine iff_of_true ⟨?_, ?_⟩
      ⟨fun _ _ _ => nofun, fun _ _ _ => ⟨by simp, nofun⟩, hrefused⟩
    · intro e' s' h'
      cases hrun.symm.trans h'
      exact ⟨rfl, rfl, hundone⟩
    · intro s' h'
      cases hrun.symm.trans h'
  | unsynced =>
    constructor
    · intro h
      have hdisk := (h.nothing _ _ hrun).2.1
      refine ⟨fun _ _ _ => nofun, fun writes' c' hok => ⟨fun _ => ?_, nofun⟩, hrefused⟩
      cases hstage.symm.trans hok
      exact hdisk
    · intro h
      constructor
      · intro e' s' h'
        cases hrun.symm.trans h'
        exact ⟨rfl, (h.left _ _ hstage).1 (.inl rfl), hundone⟩
      · intro s' h'
        cases hrun.symm.trans h'
  | flushFailed =>
    constructor
    · intro h
      obtain ⟨hstore, hdisk, -⟩ := h.nothing _ _ hrun
      refine ⟨fun _ _ _ => nofun, fun writes' c' hok => ?_, hrefused⟩
      cases hstage.symm.trans hok
      exact ⟨fun _ => hdisk, fun _ => hstore⟩
    · intro h
      obtain ⟨hdisk, hstore⟩ := h.left _ _ hstage
      constructor
      · intro e' s' h'
        cases hrun.symm.trans h'
        exact ⟨hstore rfl, hdisk (.inr rfl), hundone⟩
      · intro s' h'
        cases hrun.symm.trans h'

end

end BatchCall

/-- A call is all or nothing if and only if it has no rows, or names no type, or meets the
condition. -/
theorem batch_allOrNothing (schema : Schema) (view : View) (fin : CommitEnd) (s : Instance)
    (call : BatchCall) :
    call.AllOrNothing schema view fin s ↔ call.rows s.db.counters.nextObjectId = [] ∨
      ∀ t, schema.getType call.typeName = some t → call.Clean schema view fin s t := by
  by_cases hrows : call.rows s.db.counters.nextObjectId = []
  · refine iff_of_true ⟨?_, ?_⟩ (.inl hrows)
    · intro e s' h
      rw [BatchCall.run, if_pos (List.isEmpty_iff.mpr hrows)] at h
      cases h
    · exact fun _ _ hne => absurd hrows hne
  · rw [or_iff_right hrows]
    cases ht : schema.getType call.typeName with
    | none =>
      have hrun : call.run schema view fin s = (.error (.typeNotFound call.typeName), s) := by
        simp [BatchCall.run, hrows, ht]
      refine iff_of_true ⟨?_, ?_⟩ nofun
      · intro e s' h
        rw [hrun] at h
        cases h
        exact ⟨rfl, rfl, rfl⟩
      · intro s' h
        rw [hrun] at h
        cases h
    | some t =>
      have hclean : call.AllOrNothing schema view fin s ↔ call.Clean schema view fin s t := by
        cases hstage : call.stage schema view t s.db.counters with
        | mk result c =>
          cases result with
          | error e => exact BatchCall.allOrNothing_refused hrows ht hstage
          | ok writes => exact BatchCall.allOrNothing_staged hrows ht hstage
      rw [hclean]
      constructor
      · intro h t' heq
        cases heq
        exact h
      · exact fun h => h t rfl

def sharedId : BatchCall := .restoreObjects "User" [(1, scored 1), (1, scored 2)] true

theorem shared_id_loses_row : ¬ ∀ (schema : Schema) (s : Instance) (call : BatchCall),
    call.AllOrNothing schema s.db.store.view .landed s := by
  intro h
  let s : Instance := { db := .new, disk := .empty }
  have hok : (sharedId.run scoresSchema s.db.store.view .landed s).1 = .ok () := by decide +kernel
  have hlater : ((sharedId.run scoresSchema s.db.store.view .landed s).2.db.store.lookup
      (.object 1 1)).map (fun blob => blob.deserializeFields.lookup "score") =
        some (some (.f64 2)) := by decide +kernel
  obtain ⟨t, ht, -, hstored, -⟩ := (h scoresSchema s sharedId).all _ (Prod.ext hok rfl) nofun
  have htype : t = scoresSchema.types.head (by decide) := (Option.some.inj ht).symm
  subst htype
  obtain ⟨blob, hblob, hfields⟩ := (hstored (1, scored 1) mem_cons_self).1.object
  have hscore := hlater.symm.trans (congrArg (Option.map _) hblob)
  rw [map_some, hfields] at hscore
  revert hscore
  decide +kernel

end RhypeDb.Engine
