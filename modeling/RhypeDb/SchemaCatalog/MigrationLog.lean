import RhypeDb.SchemaCatalog.Fits

/-! The migration log. A list of named migrations is run from the first that is not in the log; each
verb of a migration and each entry of the log is a commit of its own. -/

namespace RhypeDb.SchemaCatalog

open Engine Fallible Lineage List Option Run

inductive MigrationVerb
  | rename (verb : RenameVerb)
  | changeFieldType (verb : FieldTypeChangeVerb)

def MigrationVerb.step (schema : Schema) : MigrationVerb → Step
  | rename verb => .rename verb
  | changeFieldType verb => .changeFieldType schema verb

/-- The rows of a field that `rebuild_with_arc_storage` and `plan_fulltext_open` index by name. -/
def FieldDef.lookups (typeName : String) (f : FieldDef) : List Path :=
  let qual := qualified typeName f.name
  let relations :=
    match f.fieldType with
    | .relation rel => if f.inverse then [] else [.relation qual, .type rel.targetType]
    | _ => []
  if f.indexed || f.fulltext.isSome then .field qual :: relations else relations

def Schema.lookups (schema : Schema) : List Path :=
  schema.types.entries.flatMap fun e => .type e.1 :: e.2.flatMap (FieldDef.lookups e.1)

inductive Opening
  | opened (cat : Catalog)
  | refused (e : CatalogError)
  | panics

/-- `Database::open`, and what it leaves stored: a name with no row panics after the catalog has been
committed. -/
def openDatabase (st : Stored) (schema : Schema) (allowSchemaShrink : Bool) : Opening × Stored :=
  match loadOrInitialize st schema allowSchemaShrink with
  | .error e => (.refused e, st)
  | .ok (cat, st') =>
    (if ∀ p ∈ schema.lookups, (cat.row p).isSome then .opened cat else .panics, st')

theorem openDatabase_eq_opened {st st' : Stored} {schema : Schema} {shrink : Bool} {cat : Catalog} :
    openDatabase st schema shrink = (.opened cat, st') ↔
      loadOrInitialize st schema shrink = .ok (cat, st') ∧
        ∀ p ∈ schema.lookups, (cat.row p).isSome := by
  unfold openDatabase
  constructor
  · intro h
    split at h
    · cases h
    · rename_i hload
      split_ifs at h with hlookups
      · cases h
        exact ⟨hload, hlookups⟩
      · cases h
  · rintro ⟨hload, hlookups⟩
    rw [hload]
    dsimp only
    rw [if_pos hlookups]

structure Migration where
  name : String
  up : List MigrationVerb

structure AppliedMigration where
  ordinal : Nat
  name : String
  deriving DecidableEq, Repr

structure MigrationLogReport where
  applied : List AppliedMigration
  versionBefore : Nat
  versionAfter : Nat
  deriving DecidableEq, Repr

section

variable (schema : Schema)

/-- The first verb that fails ends its migration; what the verbs before it committed stays. -/
def runUp : Stored → List MigrationVerb → Stored × Except CatalogError Unit
  | st, [] => (st, .ok ())
  | st, verb :: verbs =>
    match attempt st (verb.step schema) with
    | .ok st' => runUp st' verbs
    | .error e => (st, .error e)

def applyPending : Stored → Nat → List Migration →
    Stored × Except CatalogError (List AppliedMigration)
  | st, _, [] => (st, .ok [])
  | st, ordinal, mig :: migs =>
    match runUp schema st mig.up with
    | (st', .ok ()) =>
      let rest := applyPending (logMigration st' ordinal mig.name) (ordinal + 1) migs
      (rest.1, rest.2.map fun applied => ⟨ordinal, mig.name⟩ :: applied)
    | (st', .error e) => (st', .error (.migrationVerbFailed ordinal mig.name e))

def Stored.version (st : Stored) : Nat := st.migrationVersion.getD 0

def readMigrationLogEntry (st : Stored) (ordinal : Nat) : Except CatalogError String :=
  match st.migrationLog.lookup ordinal with
  | some name => .ok name
  | none => .error (.missingRequiredKey ("c:G:" ++ toString ordinal))

def checkApplied (st : Stored) : Nat → List Migration → Except CatalogError Unit
  | _, [] => .ok ()
  | ordinal, mig :: migs =>
    if st.version ≤ ordinal then .ok ()
    else do
      let applied ← readMigrationLogEntry st ordinal
      require (applied = mig.name) (.migrationNameMismatch ordinal mig.name applied)
      checkApplied st (ordinal + 1) migs

def runMigrations (st : Stored) (migrations : List Migration) :
    Stored × Except CatalogError MigrationLogReport :=
  if migrations.length < st.version then
    (st, .error (.migrationListShorterThanApplied migrations.length st.version))
  else
    match checkApplied st 0 migrations with
    | .error e => (st, .error e)
    | .ok () =>
      let run := applyPending schema st st.version (migrations.drop st.version)
      (run.1, run.2.map fun applied =>
        { applied := applied
          versionBefore := st.version
          versionAfter := st.version + applied.length })

end

section

inductive Commit
  | verb (v : MigrationVerb)
  | log (ordinal : Nat) (name : String)

def Commit.step (schema : Schema) : Commit → Step
  | .verb v => v.step schema
  | .log ordinal name => .logApplied ordinal name

def Commit.verb? : Commit → Option MigrationVerb
  | .verb v => some v
  | .log _ _ => none

def commits : Nat → List Migration → List Commit
  | _, [] => []
  | ordinal, mig :: migs =>
    mig.up.map .verb ++ .log ordinal mig.name :: commits (ordinal + 1) migs

/-- The commits that are left to a run: all of the first migration that is not in the log, and
those after it. -/
def pending (st : Stored) (migrations : List Migration) : List Commit :=
  commits st.version (migrations.drop st.version)

def commitAll (schema : Schema) (st : Stored) (cs : List Commit) : Except CatalogError Stored :=
  cs.foldlM (fun st c => attempt st (c.step schema)) st

variable {schema : Schema} {st st' : Stored} {cs : List Commit}

theorem commitAll_append {ds : List Commit} :
    commitAll schema st (cs ++ ds) = .ok st' ↔
      ∃ mid, commitAll schema st cs = .ok mid ∧ commitAll schema mid ds = .ok st' := by
  unfold commitAll
  rw [foldlM_append, bind_eq_ok]

theorem commitAll_cons {c : Commit} :
    commitAll schema st (c :: cs) = .ok st' ↔
      ∃ mid, attempt st (c.step schema) = .ok mid ∧ commitAll schema mid cs = .ok st' := by
  unfold commitAll
  rw [foldlM_cons, bind_eq_ok]

theorem exec_of_commitAll (h : commitAll schema st cs = .ok st') :
    exec step st (cs.map (Commit.step schema)) = st' := by
  induction cs generalizing st with
  | nil =>
    cases h
    rfl
  | cons c cs ih =>
    obtain ⟨mid, hmid, h⟩ := commitAll_cons.mp h
    rw [map_cons, exec_cons, step_of_attempt hmid]
    exact ih h

end

section

variable {schema : Schema} {st mid st' : Stored} {cs ds : List Commit} {ok : Bool}
  {migs : List Migration} {ordinal : Nat}

/-- A run over these commits makes them all, or those before the first that fails. -/
def StopsAt (schema : Schema) (st : Stored) (cs : List Commit) (st' : Stored) (ok : Bool) : Prop :=
  ∃ done rest, cs = done ++ rest ∧ commitAll schema st done = .ok st' ∧
    if ok then rest = []
    else ∃ c rest' e, rest = c :: rest' ∧ attempt st' (c.step schema) = .error e

theorem StopsAt.refl : StopsAt schema st [] st true := ⟨[], [], rfl, rfl, rfl⟩

theorem StopsAt.cons {c : Commit} (hc : attempt st (c.step schema) = .ok mid)
    (h : StopsAt schema mid cs st' ok) : StopsAt schema st (c :: cs) st' ok := by
  obtain ⟨done, rest, rfl, hdone, hrest⟩ := h
  exact ⟨c :: done, rest, rfl, commitAll_cons.mpr ⟨mid, hc, hdone⟩, hrest⟩

theorem stopsAt_fails {c : Commit} {e : CatalogError} (hc : attempt st (c.step schema) = .error e) :
    StopsAt schema st (c :: cs) st false :=
  ⟨[], c :: cs, rfl, rfl, c, cs, e, rfl, hc⟩

theorem stopsAt_true : StopsAt schema st cs st' true ↔ commitAll schema st cs = .ok st' := by
  constructor
  · rintro ⟨done, rest, rfl, hdone, hrest⟩
    have hnil : rest = [] := hrest
    rw [hnil, append_nil]
    exact hdone
  · intro h
    exact ⟨cs, [], (append_nil cs).symm, h, rfl⟩

theorem StopsAt.append (h : StopsAt schema st cs mid true) (h' : StopsAt schema mid ds st' ok) :
    StopsAt schema st (cs ++ ds) st' ok := by
  obtain ⟨done, rest, rfl, hdone, hrest⟩ := h'
  refine ⟨cs ++ done, rest, (append_assoc cs done rest).symm, ?_, hrest⟩
  exact commitAll_append.mpr ⟨mid, stopsAt_true.mp h, hdone⟩

theorem StopsAt.append_fails (h : StopsAt schema st cs st' false) :
    StopsAt schema st (cs ++ ds) st' false := by
  obtain ⟨done, rest, rfl, hdone, c, rest', e, rfl, hc⟩ := h
  exact ⟨done, c :: rest' ++ ds, append_assoc done _ ds, hdone, c, rest' ++ ds, e, rfl, hc⟩

theorem StopsAt.done (h : StopsAt schema st cs mid ok) (hall : commitAll schema st cs = .ok st') :
    mid = st' ∧ ok = true := by
  obtain ⟨done, rest, rfl, hdone, hrest⟩ := h
  obtain ⟨mid', hdone', hall⟩ := commitAll_append.mp hall
  rw [hdone] at hdone'
  cases hdone'
  cases ok with
  | true =>
    have hnil : rest = [] := hrest
    rw [hnil] at hall
    cases hall
    exact ⟨rfl, rfl⟩
  | false =>
    obtain ⟨c, rest', e, rfl, hc⟩ := hrest
    obtain ⟨_, hok, -⟩ := commitAll_cons.mp hall
    rw [hc] at hok
    cases hok

theorem runUp_stopsAt (schema : Schema) (st : Stored) (verbs : List MigrationVerb) :
    StopsAt schema st (verbs.map .verb) (runUp schema st verbs).1 (runUp schema st verbs).2.isOk := by
  induction verbs generalizing st with
  | nil => exact .refl
  | cons verb verbs ih =>
    unfold runUp
    cases hok : attempt st (verb.step schema) with
    | error e => exact stopsAt_fails (c := .verb verb) hok
    | ok mid => exact StopsAt.cons (c := .verb verb) hok (ih mid)

theorem applyPending_stopsAt (schema : Schema) (st : Stored) (ordinal : Nat)
    (migs : List Migration) :
    StopsAt schema st (commits ordinal migs) (applyPending schema st ordinal migs).1
      (applyPending schema st ordinal migs).2.isOk := by
  induction migs generalizing st ordinal with
  | nil => exact .refl
  | cons mig migs ih =>
    have hup := runUp_stopsAt schema st mig.up
    unfold applyPending commits
    cases hrun : runUp schema st mig.up with
    | mk mid result =>
      rw [hrun] at hup
      cases result with
      | error e => exact hup.append_fails
      | ok =>
        have hlog : attempt mid ((Commit.log ordinal mig.name).step schema) =
            .ok (logMigration mid ordinal mig.name) := rfl
        have hrest := (ih (logMigration mid ordinal mig.name) (ordinal + 1)).cons hlog
        rw [map_isOk]
        exact hup.append hrest

structure Logged (st : Stored) (migs : List Migration) : Prop where
  le : st.version ≤ migs.length
  names : ∀ i mig, migs[i]? = some mig → i < st.version → st.migrationLog.lookup i = some mig.name

theorem readMigrationLogEntry_eq_ok {name : String} :
    readMigrationLogEntry st ordinal = .ok name ↔ st.migrationLog.lookup ordinal = some name := by
  unfold readMigrationLogEntry
  cases st.migrationLog.lookup ordinal with
  | none => exact ⟨nofun, nofun⟩
  | some applied =>
    constructor
    · intro h
      cases h
      rfl
    · intro h
      cases h
      rfl

theorem checkApplied_eq_ok :
    checkApplied st ordinal migs = .ok () ↔ ∀ i mig, migs[i]? = some mig →
      ordinal + i < st.version → st.migrationLog.lookup (ordinal + i) = some mig.name := by
  induction migs generalizing ordinal with
  | nil => exact ⟨fun _ => nofun, fun _ => rfl⟩
  | cons mig migs ih =>
    unfold checkApplied
    split_ifs with hle
    · refine ⟨fun _ i _ _ hlt => ?_, fun _ => rfl⟩
      omega
    · rw [bind_eq_ok]
      constructor
      · rintro ⟨applied, hread, h⟩ i mig' hi hlt
        obtain ⟨_, hname, h⟩ := bind_eq_ok.mp h
        rw [Fallible.require_eq_ok] at hname
        cases i with
        | zero =>
          cases hi
          rw [← hname]
          exact readMigrationLogEntry_eq_ok.mp hread
        | succ i =>
          rw [← Nat.succ_add_eq_add_succ]
          exact ih.mp h i mig' hi (by omega)
      · intro h
        have hread := h 0 mig rfl (by omega)
        refine ⟨mig.name, readMigrationLogEntry_eq_ok.mpr hread, ?_⟩
        refine bind_eq_ok.mpr ⟨(), Fallible.require_eq_ok.mpr rfl, ih.mpr fun i mig' hi hlt => ?_⟩
        rw [Nat.succ_add_eq_add_succ]
        exact h (i + 1) mig' hi (by omega)

theorem runMigrations_eq_ok :
    (∃ report, runMigrations schema st migs = (st', .ok report)) ↔
      Logged st migs ∧ commitAll schema st (pending st migs) = .ok st' := by
  have hstops := applyPending_stopsAt schema st st.version (migs.drop st.version)
  have hnames : checkApplied st 0 migs = .ok () ↔ ∀ i mig, migs[i]? = some mig → i < st.version →
      st.migrationLog.lookup i = some mig.name := by
    rw [checkApplied_eq_ok]
    simp only [Nat.zero_add]
  unfold runMigrations
  constructor
  · rintro ⟨report, h⟩
    split_ifs at h with hshort
    · cases h
    · cases hcheck : checkApplied st 0 migs with
      | error e =>
        rw [hcheck] at h
        cases h
      | ok =>
        rw [hcheck] at h
        obtain ⟨hst, hres⟩ := Prod.mk.inj h
        obtain ⟨applied, happlied, -⟩ := map_eq_ok.mp hres
        rw [hst, happlied] at hstops
        exact ⟨⟨not_lt.mp hshort, hnames.mp hcheck⟩, stopsAt_true.mp hstops⟩
  · rintro ⟨hlogged, hall⟩
    rw [if_neg (not_lt.mpr hlogged.le), hnames.mpr hlogged.names]
    obtain ⟨hst, hok⟩ := hstops.done hall
    cases happly : (applyPending schema st st.version (migs.drop st.version)).2 with
    | error e =>
      rw [happly] at hok
      cases hok
    | ok applied =>
      dsimp only
      rw [hst, happly]
      exact ⟨_, rfl⟩

variable {v : MigrationVerb}

def unlogged (cs : List Commit) : List MigrationVerb :=
  cs.foldl (fun verbs c =>
    match c with
    | .verb v => verbs ++ [v]
    | .log _ _ => []) []

theorem unlogged_verb (cs : List Commit) (v : MigrationVerb) :
    unlogged (cs ++ [.verb v]) = unlogged cs ++ [v] := by
  unfold unlogged
  rw [foldl_append]
  rfl

theorem unlogged_log (cs : List Commit) (ordinal : Nat) (name : String) :
    unlogged (cs ++ [.log ordinal name]) = [] := by
  unfold unlogged
  rw [foldl_append]
  rfl

/-- Within a run: the log is of the list, and what a new run would do is what is left to this one,
after the verbs that this one has not logged. -/
structure Progress (migs : List Migration) (verbs : List MigrationVerb) (rest : List Commit)
    (st : Stored) : Prop where
  logged : Logged st migs
  pending : pending st migs = verbs.map .verb ++ rest

theorem append_log_inj {us vs : List MigrationVerb} {o o' : Nat} {n n' : String}
    {xs ys : List Commit}
    (h : us.map Commit.verb ++ .log o n :: xs = vs.map Commit.verb ++ .log o' n' :: ys) :
    us = vs ∧ o = o' ∧ n = n' ∧ xs = ys := by
  induction us generalizing vs with
  | nil =>
    cases vs with
    | nil =>
      obtain ⟨hlog, hrest⟩ := List.cons.inj h
      cases hlog
      exact ⟨rfl, rfl, rfl, hrest⟩
    | cons v vs => cases h
  | cons u us ih =>
    cases vs with
    | nil => cases h
    | cons v vs =>
      obtain ⟨hverb, hrest⟩ := List.cons.inj h
      cases hverb
      obtain ⟨rfl, hlog⟩ := ih hrest
      exact ⟨rfl, hlog⟩

theorem MigrationVerb.log_frame (h : attempt st (v.step schema) = .ok st') :
    st'.version = st.version ∧ st'.migrationLog = st.migrationLog := by
  cases v with
  | rename verb =>
    have hok : applyMigration st verb = .ok st' := h
    obtain ⟨_, -, hok⟩ := bind_eq_ok.mp hok
    obtain ⟨_, -, hok⟩ := bind_eq_ok.mp hok
    obtain ⟨_, -, hok⟩ := bind_eq_ok.mp hok
    obtain ⟨_, -, hok⟩ := bind_eq_ok.mp hok
    cases pure_eq_ok.mp hok
    exact ⟨rfl, rfl⟩
  | changeFieldType verb =>
    have hok : applyFieldTypeChange st schema verb = .ok st' := h
    obtain ⟨_, -, hok⟩ := bind_eq_ok.mp hok
    obtain ⟨_, -, hok⟩ := bind_eq_ok.mp hok
    obtain ⟨_, -, hok⟩ := bind_eq_ok.mp hok
    obtain ⟨r, -, hok⟩ := bind_eq_ok.mp hok
    obtain ⟨converted, hconv, hok⟩ := bind_eq_ok.mp hok
    cases pure_eq_ok.mp hok
    rw [convertRows_frame hconv]
    exact ⟨rfl, rfl⟩

variable {verbs : List MigrationVerb} {rest : List Commit}

theorem Progress.step_verb
    (h : Progress migs verbs (.verb v :: rest) st) (hok : attempt st (v.step schema) = .ok st') :
    Progress migs (verbs ++ [v]) rest st' := by
  obtain ⟨hversion, hlog⟩ := MigrationVerb.log_frame hok
  refine ⟨⟨?_, ?_⟩, ?_⟩
  · rw [hversion]
    exact h.logged.le
  · rw [hversion, hlog]
    exact h.logged.names
  · unfold SchemaCatalog.pending
    rw [hversion, map_append, append_assoc]
    exact h.pending

theorem Progress.step_log {ordinal : Nat} {name : String}
    (h : Progress migs verbs (.log ordinal name :: rest) st) :
    Progress migs [] rest (logMigration st ordinal name) := by
  have hpending := h.pending
  unfold SchemaCatalog.pending at hpending
  cases hdrop : migs.drop st.version with
  | nil =>
    rw [hdrop] at hpending
    have hlen := congrArg List.length hpending
    simp only [commits, length_nil, length_append, length_cons] at hlen
    omega
  | cons mig later =>
    rw [hdrop] at hpending
    obtain ⟨-, rfl, rfl, rfl⟩ := append_log_inj hpending
    have hmig : migs[st.version]? = some mig := by
      rw [← head?_drop, hdrop]
      rfl
    have hlater : migs.drop (st.version + 1) = later := by
      rw [← tail_drop, hdrop]
      rfl
    have hversion : (logMigration st st.version mig.name).version = st.version + 1 := rfl
    refine ⟨⟨?_, ?_⟩, ?_⟩
    · obtain ⟨hlt, -⟩ := List.getElem?_eq_some_iff.mp hmig
      omega
    · intro i mig' hi hlt
      unfold logMigration
      rw [SortedMap.lookup_insert]
      split_ifs with hlast
      · rw [hlast, hmig] at hi
        cases hi
        rfl
      · exact h.logged.names i mig' hi (by omega)
    · unfold SchemaCatalog.pending
      rw [hversion, hlater]
      rfl

theorem run_progress {done : List Commit} (hlogged : Logged st migs)
    (hsplit : pending st migs = done ++ rest) (h : commitAll schema st done = .ok st') :
    Progress migs (unlogged done) rest st' := by
  induction done using List.reverseRecOn generalizing st' rest with
  | nil =>
    cases h
    exact ⟨hlogged, hsplit⟩
  | append_singleton done c ih =>
    obtain ⟨mid, hdone, hlast⟩ := commitAll_append.mp h
    obtain ⟨_, hc, hend⟩ := commitAll_cons.mp hlast
    cases hend
    have hsplit' : pending st migs = done ++ c :: rest := by
      rw [hsplit, append_assoc]
      rfl
    have hmid := ih hsplit' hdone
    cases c with
    | verb v =>
      rw [unlogged_verb]
      exact hmid.step_verb hc
    | log ordinal name =>
      rw [unlogged_log]
      have hlog : logMigration mid ordinal name = st' := Except.ok.inj hc
      rw [← hlog]
      exact hmid.step_log

end

section

variable {schema schema' : Schema} {st st' : Stored}

def Stored.withDigest (st : Stored) (digest : Option Digest) : Stored := { st with digest := digest }

theorem convertRow_digest (verb : FieldTypeChangeVerb) (st : Stored) (digest : Option Digest)
    (e : ObjectKey × FieldMap) :
    convertRow verb (st.withDigest digest) e =
      (convertRow verb st e).map fun st' => st'.withDigest digest := by
  unfold convertRow
  cases convertObject verb e.1.objectId e.2 with
  | error err => rfl
  | ok fields =>
    cases fields with
    | none => rfl
    | some fields => rfl

theorem convertRows_digest (verb : FieldTypeChangeVerb) (st : Stored) (digest : Option Digest)
    (rows : List (ObjectKey × FieldMap)) :
    rows.foldlM (convertRow verb) (st.withDigest digest) =
      (rows.foldlM (convertRow verb) st).map fun st' => st'.withDigest digest := by
  induction rows generalizing st with
  | nil => rfl
  | cons e rows ih =>
    rw [foldlM_cons, foldlM_cons, convertRow_digest]
    cases convertRow verb st e with
    | error err => rfl
    | ok mid => exact ih mid

variable {v : MigrationVerb} {cs : List Commit}

theorem attempt_withDigest (digest : Option Digest) (h : attempt st (v.step schema) = .ok st') :
    attempt (st.withDigest digest) (v.step schema) = .ok (st'.withDigest digest) := by
  cases v with
  | rename verb =>
    have hok : applyMigration st verb = .ok st' := h
    obtain ⟨_, hformat, hok⟩ := bind_eq_ok.mp hok
    obtain ⟨cat, hload, hok⟩ := bind_eq_ok.mp hok
    obtain ⟨_, hplans, hok⟩ := bind_eq_ok.mp hok
    obtain ⟨r, hverb, hok⟩ := bind_eq_ok.mp hok
    cases pure_eq_ok.mp hok
    refine bind_eq_ok.mpr ⟨_, hformat, bind_eq_ok.mpr ⟨cat, hload, bind_eq_ok.mpr ⟨_, hplans, ?_⟩⟩⟩
    exact bind_eq_ok.mpr ⟨r, hverb, rfl⟩
  | changeFieldType verb =>
    have hok : applyFieldTypeChange st schema verb = .ok st' := h
    obtain ⟨_, hformat, hok⟩ := bind_eq_ok.mp hok
    obtain ⟨cat, hload, hok⟩ := bind_eq_ok.mp hok
    obtain ⟨_, hplans, hok⟩ := bind_eq_ok.mp hok
    obtain ⟨r, hvalid, hok⟩ := bind_eq_ok.mp hok
    obtain ⟨converted, hconv, hok⟩ := bind_eq_ok.mp hok
    cases pure_eq_ok.mp hok
    refine bind_eq_ok.mpr ⟨_, hformat, bind_eq_ok.mpr ⟨cat, hload, bind_eq_ok.mpr ⟨_, hplans, ?_⟩⟩⟩
    refine bind_eq_ok.mpr ⟨r, hvalid, bind_eq_ok.mpr ⟨converted.withDigest digest, ?_, rfl⟩⟩
    exact (convertRows_digest verb st digest _).trans
      (congrArg (Except.map fun st' => st'.withDigest digest) hconv)

def Accepts (schema : Schema) : MigrationVerb → Prop
  | .rename _ => True
  | .changeFieldType verb =>
    checkDirectives schema (qualified verb.typeName verb.fieldName) = .ok ()

theorem validateFieldTypeChange_schema {cat : Catalog} {typeName fieldName : String} {kind : Kind}
    (h : checkDirectives schema (qualified typeName fieldName) =
      checkDirectives schema' (qualified typeName fieldName)) :
    validateFieldTypeChange cat schema typeName fieldName kind =
      validateFieldTypeChange cat schema' typeName fieldName kind := by
  unfold validateFieldTypeChange
  dsimp only
  rw [h]

theorem accepts_of_attempt (h : attempt st (v.step schema) = .ok st') : Accepts schema v := by
  cases v with
  | rename verb => trivial
  | changeFieldType verb =>
    have hok : applyFieldTypeChange st schema verb = .ok st' := h
    obtain ⟨_, -, hok⟩ := bind_eq_ok.mp hok
    obtain ⟨cat, -, hok⟩ := bind_eq_ok.mp hok
    obtain ⟨_, -, hok⟩ := bind_eq_ok.mp hok
    obtain ⟨⟨entry, typeId⟩, hvalid, -⟩ := bind_eq_ok.mp hok
    obtain ⟨-, -, -, hdir, -⟩ := validateFieldTypeChange_ok hvalid
    exact hdir

theorem attempt_schema (h : Accepts schema v) (h' : Accepts schema' v) :
    attempt st (v.step schema) = attempt st (v.step schema') := by
  cases v with
  | rename verb => rfl
  | changeFieldType verb =>
    change applyFieldTypeChange st schema verb = applyFieldTypeChange st schema' verb
    have hsame : checkDirectives schema (qualified verb.typeName verb.fieldName) =
        checkDirectives schema' (qualified verb.typeName verb.fieldName) := h.trans h'.symm
    unfold applyFieldTypeChange
    simp only [validateFieldTypeChange_schema hsame]

theorem commitAll_accepts (h : commitAll schema st cs = .ok st')
    (hv : .verb v ∈ cs) : Accepts schema v := by
  induction cs generalizing st with
  | nil => cases hv
  | cons c cs ih =>
    obtain ⟨mid, hc, hcs⟩ := commitAll_cons.mp h
    rcases mem_cons.mp hv with rfl | hv
    · exact accepts_of_attempt hc
    · exact ih hcs hv

theorem commitAll_schema (digest : Option Digest)
    (haccepts : ∀ v, .verb v ∈ cs → Accepts schema' v) (h : commitAll schema st cs = .ok st') :
    commitAll schema' (st.withDigest digest) cs = .ok (st'.withDigest digest) := by
  induction cs generalizing st with
  | nil =>
    cases h
    rfl
  | cons c cs ih =>
    obtain ⟨mid, hc, hcs⟩ := commitAll_cons.mp h
    have hrest := ih (fun v hv => haccepts v (mem_cons_of_mem c hv)) hcs
    refine commitAll_cons.mpr ⟨mid.withDigest digest, ?_, hrest⟩
    cases c with
    | verb v =>
      have hnew := haccepts v mem_cons_self
      have hold : Accepts schema v := accepts_of_attempt hc
      have hc' : attempt st (v.step schema') = .ok mid := (attempt_schema hold hnew).symm.trans hc
      exact attempt_withDigest digest hc'
    | log ordinal name =>
      cases hc
      rfl

end

section

variable {schema : Schema} {cat cat' : Catalog} {plans : SortedMap Nat PlanRow} {shrink : Bool}

def NamesLive (schema : Schema) (row : Path → Option IdEntry) : Prop :=
  ∀ p, schema.Names p ↔ IsLive row p

theorem addMissing_fixed (h : ∀ p, schema.Names p → (cat.row p).isSome) :
    addMissing schema cat = .ok cat := by
  have hfield : ∀ {e f}, e ∈ schema.types.entries → f ∈ e.2 → addField e.1 cat f = .ok cat := by
    intro e f he hf
    have hdecl := Schema.field?_of_mem he hf
    have hrow : (cat.fieldEntries.lookup (qualified e.1 f.name)).isSome :=
      h (.field (qualified e.1 f.name)) (isSome_of_eq_some hdecl)
    unfold addField ensureField
    dsimp only
    rw [if_pos hrow, ok_bind]
    split_ifs with hrel
    · have hrow' : (cat.relEntries.lookup (qualified e.1 f.name)).isSome := by
        apply h (.relation (qualified e.1 f.name))
        exact (Option.any_eq_true _ _).mpr ⟨f, hdecl, hrel⟩
      unfold ensureRel
      rw [if_pos hrow']
    · rfl
  have htypes : schema.types.entries.foldlM addType cat = .ok cat := by
    refine foldlM_fixed fun e he => ?_
    have hrow : (cat.typeEntries.lookup e.1).isSome :=
      h (.type e.1) (isSome_of_eq_some (SortedMap.lookup_eq_some.mpr he))
    unfold addType
    rw [if_pos hrow]
  unfold addMissing
  rw [htypes, ok_bind]
  exact foldlM_fixed fun e he => foldlM_fixed fun f hf => hfield he hf

theorem reconcile_fixed (hparents : Parents cat.row) (hlive : NamesLive schema cat.row)
    (h : reconcile schema cat plans shrink = .ok cat') : cat' = cat := by
  have hretires : ∀ p, ¬ Retires schema cat p := by
    rintro p ⟨e, hrow, hst, hnot⟩
    exact hnot ((hlive p).mpr ⟨e, hrow, hst⟩)
  have htypes : droppedTypes schema cat = [] :=
    eq_nil_iff_forall_not_mem.mpr fun t ht => hretires _ (mem_droppedTypes.mp ht)
  have hfields : droppedFields schema cat = [] := eq_nil_iff_forall_not_mem.mpr fun q hq =>
    hretires _ ((mem_droppedFields hparents).mp (.inl hq))
  have hcascaded : cascaded schema cat cat.fieldEntries = [] :=
    eq_nil_iff_forall_not_mem.mpr fun q hq =>
      hretires _ ((mem_droppedFields hparents).mp (.inr hq))
  have hrels : droppedRels schema cat = [] := eq_nil_iff_forall_not_mem.mpr fun q hq =>
    hretires _ ((mem_droppedRels hparents).mp (.inl hq))
  have hcascaded' : cascaded schema cat cat.relEntries = [] :=
    eq_nil_iff_forall_not_mem.mpr fun q hq =>
      hretires _ ((mem_droppedRels hparents).mp (.inr hq))
  have hadd : addMissing schema cat = .ok cat := by
    apply addMissing_fixed
    intro p hp
    obtain ⟨e, he, -⟩ := (hlive p).mp hp
    exact isSome_of_eq_some he
  obtain ⟨_, -, h⟩ := bind_eq_ok.mp h
  obtain ⟨_, -, h⟩ := bind_eq_ok.mp h
  obtain ⟨_, -, h⟩ := bind_eq_ok.mp h
  rw [hadd, htypes, hfields, hcascaded, hrels, hcascaded'] at h
  cases pure_eq_ok.mp h
  rfl

def Primed (st : Stored) : Prop := st.format.isSome → ∀ k, 0 < st.counter k

variable {st : Stored}

theorem step_primed (hst : Sound st) (h : Primed st) (a : Step) : Primed (step st a) := by
  obtain ⟨hcarries, hsound⟩ := step_carries hst a
  intro hformat k
  cases hold : st.format with
  | some format => exact (h (isSome_of_eq_some hold) k).trans_le (hcarries.mono k)
  | none =>
    have hmarks := hst.marks
    rw [hold] at hmarks
    have hunmarked : (step st a).initialized ≠ st.initialized := by
      rw [hsound.marks, hformat, hmarks]
      exact nofun
    rcases step_cases st a with hok | hsame
    · have hverb : (∀ schema shrink, a ≠ .open schema shrink) → False := fun hne =>
        hunmarked (attempt_verb hne hst hok).2
      cases a with
      | «open» schema shrink =>
        obtain ⟨⟨cat, st'⟩, hload, hst'⟩ := map_eq_ok.mp hok
        rw [← hst']
        rcases loadOrInitialize_cases hst hload with ⟨-, hback, rfl⟩ | ⟨_, hsome, -⟩ | ⟨_, _, hsome, -⟩
        · obtain ⟨hgrown, -⟩ := backfill_ok hback
          have hmono := hgrown.carries.mono k
          cases k <;> exact hmono
        · rw [hold] at hsome
          cases hsome
        · rw [hold] at hsome
          cases hsome
      | _ => exact (hverb nofun).elim
    · rw [hsame] at hunmarked
      exact absurd rfl hunmarked

theorem run_primed (hst : Sound st) (h : Primed st) (steps : List Step) :
    Primed (exec step st steps) := by
  induction steps generalizing st with
  | nil => exact h
  | cons a steps ih => exact ih (step_carries hst a).2 (step_primed hst h a)

theorem selfHealCounter_sound {κ : Type} [LinearOrder κ] {rows : SortedMap κ IdEntry} {n : Nat}
    (hn : 0 < n) (hbelow : ∀ {k e}, rows.lookup k = some e → e.id < n) :
    selfHealCounter n (maxAssigned rows) = n := by
  unfold maxAssigned
  cases hmax : (rows.entries.map fun e => e.2.id).max? with
  | none => exact max_eq_left hn
  | some m =>
    obtain ⟨⟨k, e⟩, hmem, rfl⟩ := mem_map.mp (max?_mem hmax)
    have hlt : e.id < n := hbelow (SortedMap.lookup_eq_some.mpr hmem)
    exact max_eq_left ((min_le_left _ _).trans hlt)

theorem putEntries_loadExisting {format : Nat} {digest : Digest} (hst : Sound st)
    (hprimed : Primed st) (hformat : st.format = some format) (h : loadExisting st format = .ok cat) :
    (st.putEntries cat).putCounters cat digest = st.withDigest (some digest) := by
  have hpos := hprimed (isSome_of_eq_some hformat)
  obtain ⟨_, -, h⟩ := bind_eq_ok.mp h
  obtain ⟨_, -, h⟩ := bind_eq_ok.mp h
  obtain ⟨_, -, h⟩ := bind_eq_ok.mp h
  obtain ⟨nextType, htype, h⟩ := bind_eq_ok.mp h
  obtain ⟨nextField, hfield, h⟩ := bind_eq_ok.mp h
  obtain ⟨nextRel, hrel, h⟩ := bind_eq_ok.mp h
  cases pure_eq_ok.mp h
  have htype' := readCounter_ok htype
  have hfield' := readCounter_ok hfield
  have hrel' := readCounter_ok hrel
  have hcounter : st.counter .type = nextType ∧ st.counter .field = nextField ∧
      st.counter .relation = nextRel := by
    refine ⟨?_, ?_, ?_⟩
    · exact congrArg (Option.getD · 0) htype'
    · exact congrArg (Option.getD · 0) hfield'
    · exact congrArg (Option.getD · 0) hrel'
  obtain ⟨hcType, hcField, hcRel⟩ := hcounter
  have hhealType : selfHealCounter nextType (maxAssigned st.typeRows) = nextType := by
    rw [← hcType]
    exact selfHealCounter_sound (hpos _) fun {k e} hk => hst.identified.below (p := .type k) hk
  have hhealField : selfHealCounter nextField (maxAssigned st.fieldRows) = nextField := by
    rw [← hcField]
    exact selfHealCounter_sound (hpos _) fun {k e} hk => hst.identified.below (p := .field k) hk
  have hhealRel : selfHealCounter nextRel (maxAssigned st.relRows) = nextRel := by
    rw [← hcRel]
    exact selfHealCounter_sound (hpos _) fun {k e} hk => hst.identified.below (p := .relation k) hk
  unfold Stored.putEntries Stored.putCounters Stored.withDigest
  rw [hhealType, hhealField, hhealRel, ← htype', ← hfield', ← hrel', ← hformat]

theorem loadOrInitialize_fixed {st st' : Stored} (hst : Sound st) (hprimed : Primed st)
    (hformat : st.format.isSome) (hfits : st.digest = some schema.digest ∨ NamesLive schema st.row)
    (h : loadOrInitialize st schema shrink = .ok (cat, st')) :
    st' = st.withDigest (some schema.digest) ∧ cat.row = st.row := by
  rcases loadOrInitialize_cases hst h with ⟨hnone, -⟩ | ⟨_, -, hload, hsame, rfl⟩ |
    ⟨format, loaded, hsome, hload, hne, hrec, rfl⟩
  · rw [hnone] at hformat
    cases hformat
  · rw [← hsame]
    exact ⟨rfl, (loadExisting_ok hload).1⟩
  · have hlive := hfits.resolve_left hne
    obtain ⟨hrow, -, -⟩ := loadExisting_ok hload
    have hparents := hst.parents
    rw [← hrow] at hparents hlive
    cases reconcile_fixed hparents hlive hrec
    exact ⟨putEntries_loadExisting hst hprimed hsome hload, hrow⟩

end

variable {schema schema' : Schema} {st st' stopped reopened final : Stored} {migs : List Migration}
  {cat : Catalog} {shrink : Bool} {done rest : List Commit}

theorem commitAll_relabels {cs : List Commit} (hst : Sound st)
    (h : commitAll schema st cs = .ok st') :
    (∃ follow, Relabels reading follow st.row st'.row) ∧ st'.counter = st.counter ∧ Sound st' := by
  induction cs generalizing st with
  | nil =>
    cases h
    exact ⟨⟨id, .refl⟩, rfl, hst⟩
  | cons c cs ih =>
    obtain ⟨mid, hc, hcs⟩ := commitAll_cons.mp h
    have hstep : (∃ follow, Relabels reading follow st.row mid.row) ∧ mid.counter = st.counter := by
      cases c with
      | verb v =>
        cases v with
        | rename verb =>
          have hrewrites := applyMigration_rewrites hst.parents hc
          exact ⟨⟨_, hrewrites.rows⟩, hrewrites.counter⟩
        | changeFieldType verb =>
          have hrewrites := applyFieldTypeChange_rewrites hc
          exact ⟨⟨_, hrewrites.rows⟩, hrewrites.counter⟩
      | log ordinal name =>
        cases hc
        exact ⟨⟨id, .refl⟩, rfl⟩
    have hsound : Sound mid := by
      obtain ⟨-, hsound⟩ := step_carries hst (c.step schema)
      rw [step_of_attempt hc] at hsound
      exact hsound
    obtain ⟨⟨follow, hrows⟩, hcounter⟩ := hstep
    obtain ⟨⟨follow', hrows'⟩, hcounter', hfinal⟩ := ih hsound hcs
    exact ⟨⟨follow' ∘ follow, hrows.trans hrows'⟩, hcounter'.trans hcounter, hfinal⟩

/-- The next run of the list makes each verb that is left once, in their order, and ends where the
first would have: only the digest may be another. -/
def Reruns (schema : Schema) (migs : List Migration) (rest : List Commit)
    (reopened final : Stored) : Prop :=
  ∃ st' report, runMigrations schema reopened migs = (st', .ok report) ∧
    (pending reopened migs).filterMap Commit.verb? = rest.filterMap Commit.verb? ∧
    st'.withDigest none = final.withDigest none

/-- The database opens again, and the run is resumed. -/
def Resumes (schema : Schema) (shrink : Bool) (migs : List Migration) (rest : List Commit)
    (stopped final : Stored) : Prop :=
  ∃ cat reopened, openDatabase stopped schema shrink = (.opened cat, reopened) ∧
    Reruns schema migs rest reopened final

theorem filterMap_verb (verbs : List MigrationVerb) :
    (verbs.map Commit.verb).filterMap Commit.verb? = verbs := by
  rw [filterMap_map]
  exact filterMap_some

theorem unlogged_of_reruns (hprogress : Progress migs (unlogged done) rest reopened)
    (h : Reruns schema' migs rest reopened final) : unlogged done = [] := by
  obtain ⟨_, _, -, hverbs, -⟩ := h
  rw [hprogress.pending, filterMap_append, filterMap_verb] at hverbs
  have hlen := congrArg List.length hverbs
  rw [length_append] at hlen
  exact eq_nil_of_length_eq_zero (by omega)

theorem namesLive_of_reruns (hstopped : Sound stopped)
    (hreopen : loadOrInitialize stopped schema' shrink = .ok (cat, reopened))
    (hformat : stopped.format.isSome) (hrest : commitAll schema stopped rest = .ok final)
    (h : Reruns schema' migs rest reopened final) :
    stopped.digest = some schema'.digest ∨ NamesLive schema' stopped.row := by
  obtain ⟨st', report, hrun, -, hsame⟩ := h
  obtain ⟨-, hrerun⟩ := runMigrations_eq_ok.mp ⟨report, hrun⟩
  obtain ⟨-, hreopened⟩ := loadOrInitialize_carries hstopped hreopen
  obtain ⟨⟨follow, hrows⟩, hcounter, hfinal⟩ := commitAll_relabels hstopped hrest
  obtain ⟨⟨follow', hrows'⟩, -, -⟩ := commitAll_relabels hreopened hrerun
  have hundigested := congrArg Stored.row hsame
  have hrow : st'.row = final.row := hundigested
  rw [hrow] at hrows'
  rcases loadOrInitialize_cases hstopped hreopen with ⟨hnone, -⟩ | ⟨_, -, -, hdigest, -⟩ |
    ⟨format, loaded, -, hload, -, hrec, rfl⟩
  · rw [hnone] at hformat
    cases hformat
  · exact .inl hdigest
  · right
    obtain ⟨hloaded, hnext, -⟩ := loadExisting_ok hload
    have hparents := hstopped.parents
    rw [← hloaded] at hparents
    obtain ⟨grown, hrec⟩ := reconcile_ok (hstopped.identified_next hload) hparents hrec
    have hreopenedRow : ((stopped.putEntries cat).putCounters cat schema'.digest).row = cat.row := by
      rw [Stored.row_putCounters, Stored.row_putEntries]
    rw [← hloaded]
    intro p
    constructor
    · intro hnamed
      obtain ⟨e, he⟩ := isSome_iff_exists.mp (hrec.covers.row hnamed)
      rcases hrec.grows.new he with hold | ⟨hnew, -, -⟩
      · exact ⟨e, hold, hrec.live hnamed hold⟩
      · have hcat : cat.row p = some e := by
          rw [← he]
          refine hrec.same fun hret => ?_
          obtain ⟨-, -, -, hunnamed⟩ := hret
          exact hunnamed hnamed
        have hfresh : stopped.counter p.space ≤ e.id := by
          rcases hrec.grows.carries.born he with ⟨q, f, hq, rfl⟩ | hfresh
          · have hq' : loaded.row (id q) = some f := hq
            rw [hnew] at hq'
            cases hq'
          · exact (hnext _).trans hfresh
        obtain ⟨e', he', hid, -⟩ := hrows'.kept hcat
        have hbelow : e'.id < final.counter (follow' p).space := hfinal.identified.below he'
        have hid' : e'.id = e.id := hid
        have hspace : (follow' p).space = p.space := hrows'.space p
        rw [hcounter, hspace, hid'] at hbelow
        omega
    · rintro ⟨e, he, hlive⟩
      by_contra hunnamed
      obtain ⟨reason, hret⟩ := hrec.retired ⟨e, he, hlive, hunnamed⟩
      rw [hrec.grows.old he] at hret
      rw [hloaded] at he
      obtain ⟨f, hf, hidf, hlivef⟩ := hrows.kept he
      obtain ⟨f', hf', hidf', hdead⟩ := hrows'.kept hret
      have hpath : follow p = follow' p := by
        refine hfinal.identified.distinct hf hf' ?_ (hidf.trans hidf'.symm)
        exact (hrows.space p).trans (hrows'.space p).symm
      rw [← hpath, hf] at hf'
      cases hf'
      have hlive' := hlivef.mp (hdead.mpr rfl)
      have hdead' : e.status = .tombstoned := hlive'
      rw [hlive] at hdead'
      cases hdead'

theorem step_marks (hst : Sound st) (hmark : st.initialized) (a : Step) :
    (step st a).initialized := by
  rcases step_cases st a with hok | hsame
  · have hverb : (∀ schema shrink, a ≠ .open schema shrink) → (step st a).initialized := fun hne =>
      (attempt_verb hne hst hok).2.trans hmark
    cases a with
    | «open» schema shrink =>
      obtain ⟨⟨cat, st'⟩, hload, hst'⟩ := map_eq_ok.mp hok
      rw [← hst']
      exact loadOrInitialize_marks hst hload
    | _ => exact hverb nofun
  · rw [hsame]
    exact hmark

theorem run_marks (hst : Sound st) (hmark : st.initialized) (steps : List Step) :
    (exec step st steps).initialized := by
  induction steps generalizing st with
  | nil => exact hmark
  | cons a steps ih => exact ih (step_carries hst a).2 (step_marks hst hmark a)

theorem opened_marks {history : List Step} (after : List Step)
    (hopen : (loadOrInitialize (exec step .empty history) schema shrink).isOk) :
    (exec step .empty (history ++ .open schema shrink :: after)).initialized := by
  obtain ⟨⟨cat, opened⟩, hopen⟩ := isOk_iff.mp hopen
  obtain ⟨-, hhistory⟩ := run_carries sound_empty history
  have hstep : step (exec step .empty history) (.open schema shrink) = opened :=
    step_of_attempt (congrArg (Except.map Prod.snd) hopen)
  rw [exec_append, exec_cons, hstep]
  exact run_marks (loadOrInitialize_carries hhistory hopen).2 (loadOrInitialize_marks hhistory hopen)
    after

theorem loadOrInitialize_progress {verbs : List MigrationVerb} (hst : Sound st)
    (h : loadOrInitialize st schema shrink = .ok (cat, st'))
    (hprogress : Progress migs verbs rest st) :
    Progress migs verbs rest st' := by
  have hlog : st'.version = st.version ∧ st'.migrationLog = st.migrationLog := by
    rcases loadOrInitialize_cases hst h with ⟨-, -, rfl⟩ | ⟨_, -, -, -, rfl⟩ | ⟨_, _, -, -, -, -, rfl⟩
    · exact ⟨rfl, rfl⟩
    · exact ⟨rfl, rfl⟩
    · exact ⟨rfl, rfl⟩
  obtain ⟨hversion, hlog⟩ := hlog
  refine ⟨⟨?_, ?_⟩, ?_⟩
  · rw [hversion]
    exact hprogress.logged.le
  · rw [hversion, hlog]
    exact hprogress.logged.names
  · unfold pending
    rw [hversion]
    exact hprogress.pending

/-- A run of migrations is stopped after some commits, and the database opened again. A second run
of the list does what is left, and ends where the first would have, exactly where the stop was not
inside a migration, the reopening's schema accepts the verbs that are left, it names the live rows,
or has the stored digest, and each name that an opening looks up has a row. -/
theorem resumes_iff (history after : List Step) {schema schema' : Schema} {shrink shrink' : Bool}
    {migs : List Migration} {done rest : List Commit}
    (hopen : (loadOrInitialize (exec step .empty history) schema shrink).isOk) :
    let st := exec step .empty (history ++ .open schema shrink :: after)
    let stopped := exec step st (done.map (Commit.step schema))
    (runMigrations schema st migs).2.isOk → pending st migs = done ++ rest →
    (loadOrInitialize stopped schema' shrink').isOk →
      (Resumes schema' shrink' migs rest stopped (runMigrations schema st migs).1 ↔
        unlogged done = [] ∧ (∀ v, Commit.verb v ∈ rest → Accepts schema' v) ∧
          (stopped.digest = some schema'.digest ∨ NamesLive schema' stopped.row) ∧
          ∀ p ∈ schema'.lookups, (stopped.row p).isSome) := by
  intro st stopped hok hsplit hreopen
  have hmarks := run_marks (run_carries sound_empty _).2 (opened_marks after hopen)
    (done.map (Commit.step schema))
  obtain ⟨report, hreport⟩ := isOk_iff.mp hok
  obtain ⟨⟨cat, reopened⟩, hreopen⟩ := isOk_iff.mp hreopen
  have hrun : runMigrations schema st migs = ((runMigrations schema st migs).1, .ok report) :=
    Prod.ext rfl hreport
  obtain ⟨-, hst⟩ := run_carries sound_empty (history ++ .open schema shrink :: after)
  obtain ⟨-, hsound⟩ := run_carries hst (done.map (Commit.step schema))
  have hprimed : Primed stopped := run_primed hst (run_primed sound_empty nofun _) _
  have hformat : stopped.format.isSome := by
    rw [← hsound.marks]
    exact hmarks
  obtain ⟨hlogged, hcommits⟩ := runMigrations_eq_ok.mp ⟨report, hrun⟩
  rw [hsplit] at hcommits
  obtain ⟨mid, hdone, hrest⟩ := commitAll_append.mp hcommits
  have hmid : stopped = mid := exec_of_commitAll hdone
  have hprogress : Progress migs (unlogged done) rest mid := run_progress hlogged hsplit hdone
  rw [← hmid] at hrest hprogress
  have hprogress' := loadOrInitialize_progress hsound hreopen hprogress
  constructor
  · rintro ⟨cat', reopened', hopened, h⟩
    obtain ⟨hload, hlookups⟩ := openDatabase_eq_opened.mp hopened
    rw [hreopen] at hload
    cases hload
    have hunlogged := unlogged_of_reruns hprogress' h
    have hfits := namesLive_of_reruns hsound hreopen hformat hrest h
    obtain ⟨-, hrow⟩ := loadOrInitialize_fixed hsound hprimed hformat hfits hreopen
    rw [hrow] at hlookups
    refine ⟨hunlogged, ?_, hfits, hlookups⟩
    obtain ⟨st', report', hrerun, -, -⟩ := h
    obtain ⟨-, hall⟩ := runMigrations_eq_ok.mp ⟨report', hrerun⟩
    have hpending := hprogress'.pending
    rw [hunlogged] at hpending
    rw [hpending] at hall
    exact fun v hv => commitAll_accepts hall hv
  · rintro ⟨hunlogged, haccepts, hfits, hlookups⟩
    obtain ⟨hreopened, hrow⟩ := loadOrInitialize_fixed hsound hprimed hformat hfits hreopen
    rw [← hrow] at hlookups
    refine ⟨cat, reopened, openDatabase_eq_opened.mpr ⟨hreopen, hlookups⟩, ?_⟩
    have hpending : pending reopened migs = rest := by
      have h := hprogress'.pending
      rw [hunlogged] at h
      exact h
    have hall := commitAll_schema (some schema'.digest) haccepts hrest
    rw [← hreopened] at hall
    rw [← hpending] at hall
    obtain ⟨report', hrerun⟩ := runMigrations_eq_ok.mpr ⟨hprogress'.logged, hall⟩
    exact ⟨_, report', hrerun, by rw [hpending], rfl⟩

theorem namesLive_bareSchema {name : String} {e : IdEntry}
    (htypes : st.typeRows.entries = [(name, e)])
    (hlive : e.status = .live) (hfields : st.fieldRows.entries = [])
    (hrels : st.relRows.entries = []) : NamesLive (bareSchema name) st.row := by
  have hlookup : ∀ t, (bareSchema name).types.lookup t = if t = name then some [] else none := fun t =>
    SortedMap.lookup_insert _ _ _ _
  have hfield : ∀ qual, (bareSchema name).field? qual = none := by
    intro qual
    unfold Schema.field?
    rw [hlookup]
    split_ifs <;> rfl
  have hnone : ∀ {entries : SortedMap Qualified IdEntry} {qual v}, entries.entries = [] →
      entries.lookup qual ≠ some v := by
    intro entries qual v hnil hsome
    rw [SortedMap.lookup_eq_some, hnil] at hsome
    cases hsome
  rintro (t | qual | qual)
  · change ((bareSchema name).types.lookup t).isSome ↔ _
    rw [hlookup]
    constructor
    · intro h
      split_ifs at h with ht
      · exact ⟨e, SortedMap.lookup_eq_some.mpr (by rw [htypes, ht]; exact mem_singleton_self _), hlive⟩
      · cases h
    · rintro ⟨e', he', -⟩
      have hmem := SortedMap.lookup_eq_some.mp he'
      rw [htypes] at hmem
      cases mem_singleton.mp hmem
      rw [if_pos rfl]
      rfl
  · refine iff_of_false (fun h => ?_) fun ⟨_, he, _⟩ => hnone hfields he
    have hsome : ((bareSchema name).field? qual).isSome := h
    rw [hfield] at hsome
    cases hsome
  · refine iff_of_false (fun h => ?_) fun ⟨_, he, _⟩ => hnone hrels he
    have hany : ((bareSchema name).field? qual).any FieldDef.isRelation := h
    rw [hfield] at hany
    cases hany

/-- A type is renamed in two migrations, and the process stops between them. -/
theorem resumes_second : let migs : List Migration :=
      [⟨"to Account", [.rename (.type "User" "Account")]⟩,
        ⟨"to Person", [.rename (.type "Account" "Person")]⟩]
    let st := exec step .empty [.open (bareSchema "User") false]
    let stopped := exec step st [.rename (.type "User" "Account"), .logApplied 0 "to Account"]
    Resumes (bareSchema "Account") false migs
      [.verb (.rename (.type "Account" "Person")), .log 1 "to Person"] stopped
      (runMigrations (bareSchema "User") st migs).1 := by
  intro migs st stopped
  have hnames : NamesLive (bareSchema "Account") stopped.row :=
    namesLive_bareSchema (e := (IdEntry.new .backfill 1 .unset).renamed "User" "Account")
      (by decide +kernel) rfl (by decide +kernel) (by decide +kernel)
  have haccepts : ∀ v, Commit.verb v ∈ [Commit.verb (.rename (.type "Account" "Person")),
      .log 1 "to Person"] → Accepts (bareSchema "Account") v := by
    intro v hv
    rcases mem_cons.mp hv with hv | hv
    · cases hv
      trivial
    · cases mem_singleton.mp hv
  let logged : List Commit := [.verb (.rename (.type "User" "Account")), .log 0 "to Account"]
  exact (@resumes_iff [] [] _ _ _ _ _ logged _ (by decide +kernel) (by decide +kernel) rfl
    (by decide +kernel)).mpr ⟨rfl, haccepts, .inr hnames, by decide +kernel⟩

/-- After the first of a migration's two verbs the list cannot be run to its end. -/
theorem stopped_within_migration : ¬ ∀ (history after : List Step) (schema schema' : Schema)
    (shrink shrink' : Bool) (migs : List Migration) (done rest : List Commit),
    (loadOrInitialize (exec step .empty history) schema shrink).isOk →
    let st := exec step .empty (history ++ .open schema shrink :: after)
    let stopped := exec step st (done.map (Commit.step schema))
    (runMigrations schema st migs).2.isOk → pending st migs = done ++ rest →
    (∃ cat, (openDatabase stopped schema' shrink').1 = .opened cat) →
      Resumes schema' shrink' migs rest stopped (runMigrations schema st migs).1 := by
  intro hclaim
  let migs : List Migration :=
    [⟨"to Person", [.rename (.type "User" "Account"), .rename (.type "Account" "Person")]⟩]
  let stopped := exec step .empty
    [.open (bareSchema "User") false, .rename (.type "User" "Account")]
  have hlookups : (loadOrInitialize stopped (bareSchema "Account") false).map
      (fun r => decide (∀ p ∈ (bareSchema "Account").lookups, (r.1.row p).isSome)) = .ok true := by
    decide +kernel
  obtain ⟨⟨cat, reopened⟩, hload, hlookups⟩ := map_eq_ok.mp hlookups
  have hopened := openDatabase_eq_opened.mpr ⟨hload, of_decide_eq_true hlookups⟩
  obtain ⟨cat', reopened', hopened', st', report, hrun, -⟩ := hclaim [] [] (bareSchema "User")
    (bareSchema "Account") false false migs [.verb (.rename (.type "User" "Account"))]
    [.verb (.rename (.type "Account" "Person")), .log 0 "to Person"] (by decide +kernel)
    (by decide +kernel) rfl ⟨cat, congrArg Prod.fst hopened⟩
  have hreopened : reopened' = (openDatabase stopped (bareSchema "Account") false).2 :=
    (congrArg Prod.snd hopened').symm
  have hfails : (runMigrations (bareSchema "Account")
      (openDatabase stopped (bareSchema "Account") false).2 migs).2.isOk = false := by decide +kernel
  rw [hreopened] at hrun
  have hsucceeds := congrArg (fun r => r.2.isOk) hrun
  exact absurd (hfails.symm.trans hsucceeds) nofun

end RhypeDb.SchemaCatalog
