import RhypeDb.Engine.IntegrityRun

/-! Concurrent updates of one object. Each takes its generation by a plain increment of the
counter in memory and gives it back by a plain decrement when its commit fails; neither is under
the commit lock. The counter is ahead of the persisted generation by the updates between bump and
end, so a generation taken while another update is there skips over it. -/

namespace RhypeDb.Engine

open Function List Storage

/-- What the storage layer does to a commit that meets no conflict: it lands, it fails before it
is applied, or it lands and the flush behind it fails. -/
inductive CommitFault
  | none
  | rejected
  | flushFailed
  deriving DecidableEq

namespace Generations

/-- Where an update stands. `others` is how many updates were between bump and end when it
bumped. -/
inductive Phase
  | idle
  | begun (txn : Transaction Key Payload)
  | bumped (txn : Transaction Key Payload) (generation others : Nat)
  | failed (txn : Transaction Key Payload)
  | finished (ok : Bool)

def Phase.isOpen : Phase → Bool
  | bumped _ _ _ => true
  | failed _ => true
  | _ => false

variable {ι : Type} [DecidableEq ι]

/-- The transaction manager, the store before the run and the commits of it, the counters, the
updates, and, as a record of the run, the open updates and the generations acknowledged. -/
structure Sys (ι : Type) where
  tm : TransactionManager Key
  base : Store
  history : List (Nat × Writes Key Payload)
  counters : Counters
  phase : ι → Phase
  outstanding : List ι
  committed : List Nat

structure Target (ι : Type) where
  schema : Schema
  typeName : String
  objectId : Id
  updates : ι → FieldMap

namespace Sys

variable (s : Sys ι)

def store : Store := s.base.apply (s.history.flatMap Prod.snd)

def storeAt (snapshot : Nat) : Store :=
  s.base.apply ((s.history.filter fun c => decide (c.1 ≤ snapshot)).flatMap Prod.snd)

def setPhase (i : ι) (p : Phase) : Sys ι := { s with phase := Function.update s.phase i p }

/-- `begin_txn`. -/
def begin (i : ι) : Sys ι :=
  let (tm, txn) := TransactionManager.begin s.tm
  { s with tm }.setPhase i (.begun txn)

def stage (t : Target ι) (i : ι) (txn : Transaction Key Payload) : Sys ι :=
  match stageUpdate t.schema (s.storeAt txn.snapshot).view s.counters.versions t.typeName t.objectId
    (t.updates i) with
  | .error _ => { s with tm := (s.tm.release txn).1 }.setPhase i (.finished false)
  | .ok (typeId, writes) =>
    { s with
      counters := s.counters.bumpVersion typeId t.objectId
      outstanding := i :: s.outstanding }.setPhase i
        (.bumped (txn.recordAll writes) (s.counters.versions typeId t.objectId + 1)
          s.outstanding.length)

/-- The closure `commit` runs at the reserved version. -/
def applyWrites (fault : CommitFault) (version : Nat) (writes : Writes Key Payload)
    (history : List (Nat × Writes Key Payload)) :
    Except Error Unit × List (Nat × Writes Key Payload) :=
  if fault = .rejected then (.error .io, history) else (.ok (), history ++ [(version, writes)])

def commit (fault : CommitFault) (i : ι) (txn : Transaction Key Payload) (generation : Nat) :
    Sys ι :=
  let (result, tm, txn', history) := s.tm.commit txn (applyWrites fault) s.history
  match result with
  | .error _ => { s with tm, history }.setPhase i (.failed txn')
  | .ok _ =>
    if fault = .flushFailed then { s with tm, history }.setPhase i (.failed txn')
    else
      { s with
        tm
        history
        outstanding := s.outstanding.erase i
        committed := s.committed ++ [generation] }.setPhase i (.finished true)

/-- `rollback_version`, and the handle is dropped. -/
def rollback (t : Target ι) (i : ι) (txn : Transaction Key Payload) : Sys ι :=
  { s with
    tm := (s.tm.release txn).1
    counters := ((t.schema.typeId t.typeName).map fun typeId =>
      s.counters.rollbackVersion typeId t.objectId).getD s.counters
    outstanding := s.outstanding.erase i }.setPhase i (.finished false)

def step (t : Target ι) (s : Sys ι) (a : ι × CommitFault) : Sys ι :=
  match s.phase a.1 with
  | .idle => s.begin a.1
  | .begun txn => s.stage t a.1 txn
  | .bumped txn generation _ => s.commit a.2 a.1 txn generation
  | .failed txn => s.rollback t a.1 txn
  | .finished _ => s

end Sys

/-- The persisted generation; an object without one was never updated and is born at 1. -/
def persisted (store : Store) (typeId objectId : Id) : Nat :=
  match store.lookup (.objectVersion typeId objectId) with
  | some (.generation version) => version
  | _ => 1

/-- A commit that lands is acknowledged, and its update bumped while no other was between bump
and end. -/
def Sound (s : Sys ι) (a : ι × CommitFault) : Prop :=
  match s.phase a.1 with
  | .bumped txn _ others =>
    s.tm.conflicts txn = false → a.2 ≠ .rejected → a.2 ≠ .flushFailed ∧ others = 0
  | _ => True

instance (s : Sys ι) (a : ι × CommitFault) : Decidable (Sound s a) :=
  match h : s.phase a.1 with
  | .idle => .isTrue (by rw [Sound, h]; trivial)
  | .begun _ => .isTrue (by rw [Sound, h]; trivial)
  | .bumped txn _ others =>
    decidable_of_iff (s.tm.conflicts txn = false → a.2 ≠ .rejected → a.2 ≠ .flushFailed ∧ others = 0)
      (by rw [Sound, h])
  | .failed _ => .isTrue (by rw [Sound, h]; trivial)
  | .finished _ => .isTrue (by rw [Sound, h]; trivial)

/-- The counter is ahead of the persisted generation by the open updates; an update that bumped
alone has the next generation, and there is only one such at a time. -/
structure Inv (t : Target ι) (typeId : Id) (s : Sys ι) : Prop where
  counter : s.counters.versions typeId t.objectId =
    persisted s.store typeId t.objectId + s.outstanding.length
  nodup : s.outstanding.Nodup
  mem : ∀ i, i ∈ s.outstanding ↔ (s.phase i).isOpen = true
  writes : ∀ i txn g others, s.phase i = .bumped txn g others →
    lastWrite txn.writes (.objectVersion typeId t.objectId) = some (some (.generation g))
  next : ∀ i txn g, s.phase i = .bumped txn g 0 → g = persisted s.store typeId t.objectId + 1
  alone : ∀ i j txn txn' g g', s.phase i = .bumped txn g 0 → s.phase j = .bumped txn' g' 0 → i = j
  distinct : s.committed.Nodup
  below : ∀ g ∈ s.committed, g ≤ persisted s.store typeId t.objectId

section

variable {t : Target ι} {typeId : Id} {s : Sys ι} {i : ι}

variable {txn : Transaction Key Payload} {writes : Writes Key Payload} {objectId : Id}
  {g others : Nat}

theorem bumped_of_update {phase : ι → Phase} {p : Phase}
    (hp : ∀ txn g others, p ≠ .bumped txn g others) {j : ι}
    (hj : Function.update phase i p j = .bumped txn g others) :
    j ≠ i ∧ phase j = .bumped txn g others := by
  by_cases hji : j = i
  · subst hji
    rw [update_self] at hj
    exact absurd hj (hp txn g others)
  · rw [update_of_ne hji] at hj
    exact ⟨hji, hj⟩

theorem Inv.length_erase (h : Inv t typeId s) (hi : (s.phase i).isOpen = true) :
    (s.outstanding.erase i).length + 1 = s.outstanding.length := by
  have hmem := (h.mem i).mpr hi
  have hpos := length_pos_of_mem hmem
  rw [length_erase_of_mem hmem]
  omega

theorem Inv.mem_erase (h : Inv t typeId s) (ok : Bool) (j : ι) :
    j ∈ s.outstanding.erase i ↔ (Function.update s.phase i (.finished ok) j).isOpen = true := by
  rw [h.nodup.mem_erase_iff]
  by_cases hji : j = i
  · subst hji
    simp [Phase.isOpen]
  · rw [update_of_ne hji, ← h.mem j]
    exact and_iff_right hji

theorem Inv.move (h : Inv t typeId s) {p : Phase} (hopen : p.isOpen = (s.phase i).isOpen)
    (hp : ∀ txn g others, p ≠ .bumped txn g others) (tm : TransactionManager Key) :
    Inv t typeId ({ s with tm }.setPhase i p) := by
  refine ⟨h.counter, h.nodup, fun j => ?_, ?_, ?_, ?_, h.distinct, h.below⟩
  · show j ∈ s.outstanding ↔ (Function.update s.phase i p j).isOpen = true
    by_cases hji : j = i
    · subst hji
      rw [update_self, hopen]
      exact h.mem j
    · rw [update_of_ne hji]
      exact h.mem j
  · exact fun j txn g others hj => h.writes j txn g others (bumped_of_update hp hj).2
  · exact fun j txn g hj => h.next j txn g (bumped_of_update hp hj).2
  · exact fun j k txn txn' g g' hj hk =>
      h.alone j k txn txn' g g' (bumped_of_update hp hj).2 (bumped_of_update hp hk).2

theorem Inv.begin (h : Inv t typeId s) (hi : s.phase i = .idle) : Inv t typeId (s.begin i) := by
  apply h.move
  · rw [hi]
    rfl
  · nofun

theorem lastWrite_stageUpdate {schema : Schema} {view : View} {versions : Versions}
    {typeName : String} {updates : FieldMap} {id : Id}
    (hok : stageUpdate schema view versions typeName objectId updates = .ok (id, writes)) :
    schema.typeId typeName = some id ∧ lastWrite writes (.objectVersion id objectId) =
      some (some (.generation (versions id objectId + 1))) := by
  rw [stageUpdate] at hok
  simp only [Fallible.bind_eq_ok, require_eq_ok] at hok
  obtain ⟨t, ht, -, -, -, -, existing, -, unique, -, hok⟩ := hok
  obtain ⟨rfl, rfl⟩ := Prod.mk.inj (Except.ok.inj hok)
  refine ⟨by rw [Schema.typeId, ht]; rfl, ?_⟩
  -- the object's own key is written behind the generation
  rw [updateWrites, ← append_assoc, append_cons _ _ [_], lastWrite_concat, if_neg Key.noConfusion,
    lastWrite_concat, if_pos rfl]

theorem Inv.stage (h : Inv t typeId s) (htype : t.schema.typeId t.typeName = some typeId)
    (hi : s.phase i = .begun txn) : Inv t typeId (s.stage t i txn) := by
  rw [Sys.stage]
  split
  · apply h.move
    · rw [hi]
      rfl
    · nofun
  · rename_i id writes hok
    obtain ⟨hid, hlast⟩ := lastWrite_stageUpdate hok
    obtain rfl : typeId = id := Option.some.inj (htype.symm.trans hid)
    have hclosed : i ∉ s.outstanding := by
      rw [h.mem, hi]
      exact Bool.false_ne_true
    have hgen : s.counters.versions typeId t.objectId + 1 =
        persisted s.store typeId t.objectId + s.outstanding.length + 1 := by rw [h.counter]
    -- an update that bumped alone leaves no room for a second one
    have hempty : ∀ j txn g, s.phase j = .bumped txn g 0 → s.outstanding.length ≠ 0 := by
      intro j txn g hj hlen
      have hmem := (h.mem j).mpr (by rw [hj]; rfl)
      rw [length_eq_zero_iff.mp hlen] at hmem
      exact absurd hmem not_mem_nil
    refine ⟨?_, nodup_cons.mpr ⟨hclosed, h.nodup⟩, fun j => ?_, ?_, ?_, ?_, h.distinct, h.below⟩
    · show (if typeId = typeId ∧ t.objectId = t.objectId then _ else _) = _ + (s.outstanding.length + 1)
      rw [if_pos ⟨rfl, rfl⟩, hgen]
      rfl
    · show j ∈ i :: s.outstanding ↔ _
      by_cases hji : j = i
      · subst hji
        simp [Sys.setPhase, Phase.isOpen]
      · simp only [Sys.setPhase, update_of_ne hji, mem_cons, hji, false_or]
        exact h.mem j
    · intro j txn' g others hj
      by_cases hji : j = i
      · subst hji
        simp only [Sys.setPhase, update_self, Phase.bumped.injEq] at hj
        obtain ⟨rfl, rfl, -⟩ := hj
        rw [Transaction.lastWrite_recordAll, hlast]
        rfl
      · simp only [Sys.setPhase, update_of_ne hji] at hj
        exact h.writes j txn' g others hj
    · intro j txn' g hj
      by_cases hji : j = i
      · subst hji
        simp only [Sys.setPhase, update_self, Phase.bumped.injEq] at hj
        obtain ⟨-, rfl, hlen⟩ := hj
        rw [hgen, hlen]
        rfl
      · simp only [Sys.setPhase, update_of_ne hji] at hj
        exact h.next j txn' g hj
    · intro j k txn' txn'' g g' hj hk
      by_cases hji : j = i
      · by_cases hki : k = i
        · rw [hji, hki]
        · subst hji
          simp only [Sys.setPhase, update_self, Phase.bumped.injEq] at hj
          simp only [Sys.setPhase, update_of_ne hki] at hk
          exact absurd hj.2.2 (hempty k _ _ hk)
      · simp only [Sys.setPhase, update_of_ne hji] at hj
        by_cases hki : k = i
        · subst hki
          simp only [Sys.setPhase, update_self, Phase.bumped.injEq] at hk
          exact absurd hk.2.2 (hempty j _ _ hj)
        · simp only [Sys.setPhase, update_of_ne hki] at hk
          exact h.alone j k _ _ _ _ hj hk

theorem persisted_apply {store : Store}
    (h : lastWrite writes (.objectVersion typeId objectId) = some (some (.generation g))) :
    persisted (store.apply writes) typeId objectId = g := by
  rw [persisted, Store.lookup_apply, h]
  rfl

theorem Inv.land (h : Inv t typeId s) (hi : s.phase i = .bumped txn g 0)
    (tm : TransactionManager Key) (version : Nat) :
    Inv t typeId ({ s with
      tm
      history := s.history ++ [(version, txn.writes)]
      outstanding := s.outstanding.erase i
      committed := s.committed ++ [g] }.setPhase i (.finished true)) := by
  have hpersisted : persisted (s.base.apply ((s.history ++ [(version, txn.writes)]).flatMap Prod.snd))
      typeId t.objectId = g := by
    have hstore : s.base.apply ((s.history ++ [(version, txn.writes)]).flatMap Prod.snd) =
        s.store.apply txn.writes := by
      rw [flatMap_append, flatMap_singleton]
      exact foldl_append
    rw [hstore]
    exact persisted_apply (h.writes i txn g 0 hi)
  have hnext := h.next i txn g hi
  have hlen := h.length_erase (i := i) (by rw [hi]; rfl)
  refine ⟨?_, h.nodup.erase i, h.mem_erase true, ?_, ?_, ?_, ?_, ?_⟩
  · refine Eq.trans ?_ (congrArg (· + (s.outstanding.erase i).length) hpersisted.symm)
    show s.counters.versions typeId t.objectId = g + (s.outstanding.erase i).length
    rw [h.counter]
    omega
  · exact fun j txn' g' others hj => h.writes j txn' g' others (bumped_of_update (by nofun) hj).2
  · intro j txn' g' hj
    obtain ⟨hji, hj⟩ := bumped_of_update (by nofun) hj
    exact absurd (h.alone j i _ _ _ _ hj hi) hji
  · exact fun j k txn' txn'' g' g'' hj hk =>
      h.alone j k _ _ _ _ (bumped_of_update (by nofun) hj).2 (bumped_of_update (by nofun) hk).2
  · show (s.committed ++ [g]).Nodup
    rw [nodup_append']
    refine ⟨h.distinct, nodup_singleton g, fun g' hg' hnew => ?_⟩
    have hle := h.below g' hg'
    rw [mem_singleton] at hnew
    omega
  · intro g' hg'
    refine le_of_le_of_eq ?_ hpersisted.symm
    rcases mem_append.mp hg' with hold | hnew
    · have hle := h.below g' hold
      omega
    · exact (mem_singleton.mp hnew).le

theorem Inv.commit (h : Inv t typeId s) (hi : s.phase i = .bumped txn g others)
    {fault : CommitFault} (hsound : Sound s (i, fault)) :
    Inv t typeId (s.commit fault i txn g) := by
  have hne : txn.writes.isEmpty = false := by
    have hlast := h.writes i txn g others hi
    cases hw : txn.writes with
    | nil =>
      rw [hw] at hlast
      cases hlast
    | cons w ws => rfl
  have hfail : ∀ tm, Inv t typeId ({ s with tm }.setPhase i (.failed txn)) := by
    intro tm
    apply h.move
    · rw [hi]
      rfl
    · nofun
  simp only [Sound, hi] at hsound
  rw [Sys.commit, TransactionManager.commit, hne]
  cases hconf : s.tm.conflicts txn with
  | true => exact hfail s.tm
  | false =>
    cases fault with
    | rejected => exact hfail _
    | flushFailed => exact absurd rfl (hsound hconf nofun).1
    | none =>
      obtain rfl := (hsound hconf nofun).2
      exact h.land hi _ _

theorem Inv.rollback (h : Inv t typeId s) (htype : t.schema.typeId t.typeName = some typeId)
    (hi : s.phase i = .failed txn) : Inv t typeId (s.rollback t i txn) := by
  have hlen := h.length_erase (i := i) (by rw [hi]; rfl)
  rw [Sys.rollback, htype]
  refine ⟨?_, h.nodup.erase i, h.mem_erase false, ?_, ?_, ?_, h.distinct, h.below⟩
  · show (if typeId = typeId ∧ t.objectId = t.objectId then _ else _) =
      persisted s.store typeId t.objectId + (s.outstanding.erase i).length
    rw [if_pos ⟨rfl, rfl⟩, h.counter]
    omega
  · exact fun j txn' g' others hj => h.writes j txn' g' others (bumped_of_update (by nofun) hj).2
  · exact fun j txn' g' hj => h.next j txn' g' (bumped_of_update (by nofun) hj).2
  · exact fun j k txn' txn'' g' g'' hj hk =>
      h.alone j k _ _ _ _ (bumped_of_update (by nofun) hj).2 (bumped_of_update (by nofun) hk).2

theorem Inv.step (h : Inv t typeId s) (htype : t.schema.typeId t.typeName = some typeId)
    {a : ι × CommitFault} (hsound : Sound s a) : Inv t typeId (s.step t a) := by
  obtain ⟨i, fault⟩ := a
  rw [Sys.step]
  cases hi : s.phase i with
  | idle => exact h.begin hi
  | begun txn => exact h.stage htype hi
  | bumped txn g others => exact h.commit hi hsound
  | failed txn => exact h.rollback htype hi
  | finished ok => exact h

end

def start (tm : TransactionManager Key) (base : Store) (counters : Counters) : Sys ι :=
  { tm, base, history := [], counters, phase := fun _ => .idle, outstanding := [], committed := [] }

omit [DecidableEq ι] in
theorem Inv.start (t : Target ι) (tm : TransactionManager Key) {typeId : Id}
    {base : Store} {counters : Counters} (h : counters.versions typeId t.objectId =
      persisted base typeId t.objectId) : Inv t typeId (start tm base counters) :=
  ⟨h, nodup_nil, fun _ => ⟨nofun, nofun⟩, nofun, nofun, nofun, nodup_nil, nofun⟩

/-- In every interleaving that meets the condition, no generation is acknowledged twice, and
whenever no update is between bump and end the counter is the persisted generation. -/
theorem generation_identifies (t : Target ι) {typeId : Id}
    (htype : t.schema.typeId t.typeName = some typeId) (tm : TransactionManager Key) {base : Store}
    {counters : Counters}
    (hstart : counters.versions typeId t.objectId = persisted base typeId t.objectId)
    {schedule : List (ι × CommitFault)}
    (hsound : Run.Along (Sys.step t) Sound (start tm base counters) schedule) :
    (Run.exec (Sys.step t) (start tm base counters) schedule).committed.Nodup ∧
      ((∀ i, ((Run.exec (Sys.step t) (start tm base counters) schedule).phase i).isOpen = false) →
        objectVersion t.schema
            (Run.exec (Sys.step t) (start tm base counters) schedule).counters.versions
            t.typeName t.objectId =
          persisted (Run.exec (Sys.step t) (start tm base counters) schedule).store
            typeId t.objectId) := by
  have hinv := Run.exec_invariant (I := Inv t typeId) (fun _ _ h hstep => h.step htype hstep)
    (Inv.start t tm hstart) hsound
  refine ⟨hinv.distinct, fun hclosed => ?_⟩
  generalize Run.exec (Sys.step t) (Generations.start tm base counters) schedule = s at hinv hclosed
  have hnone : s.outstanding = [] := by
    apply eq_nil_iff_forall_not_mem.mpr
    intro i hi
    rw [hinv.mem, hclosed i] at hi
    cases hi
  simp only [objectVersion, htype]
  rw [hinv.counter, hnone]
  rfl

def noteTarget : Target (Fin 3) where
  schema :=
    { types :=
        [{ name := "Note"
           typeId := 1
           fields := [{ name := "text", fieldType := .scalar .string, directives := [],
                        fieldId := 1, relId := 1 }] }]
      targets := by decide }
  typeName := "Note"
  objectId := 1
  updates := fun i => AList.singleton "text" (.string [Fin.ofNat 256 i.val])

/-- One note, never updated. -/
def noteStore : Store := Store.empty.apply [(.object 1 1, some (serializeFields ∅))]

def noteStart : Sys (Fin 3) := start .new noteStore (openCounters noteTarget.schema noteStore)

/-- The first update bumps and lands, the second bumped behind it and loses; the third comes when
both have ended. -/
def orderly : List (Fin 3 × CommitFault) :=
  [(0, .none), (1, .none), (0, .none), (1, .none), (0, .none), (1, .none), (1, .none), (2, .none),
    (2, .none), (2, .none)]

theorem generation_identifies_orderly :
    (Run.exec (Sys.step noteTarget) noteStart orderly).committed = [2, 3] ∧
      (Run.exec (Sys.step noteTarget) noteStart orderly).committed.Nodup :=
  ⟨by decide +kernel, (@generation_identifies _ _ noteTarget 1 (by decide) .new noteStore
    (openCounters noteTarget.schema noteStore) (by decide +kernel) orderly (by decide +kernel)).1⟩

def overtaken : List (Fin 3 × CommitFault) :=
  [(0, .none), (1, .none), (0, .none), (1, .none), (1, .none), (0, .none), (0, .none)]

/-- All have ended and the counter is behind; the third update takes the persisted generation. -/
theorem generation_reused :
    (∀ i, ((Run.exec (Sys.step noteTarget) noteStart overtaken).phase i).isOpen = false) ∧
      objectVersion noteTarget.schema
          (Run.exec (Sys.step noteTarget) noteStart overtaken).counters.versions "Note" 1 ≠
        persisted (Run.exec (Sys.step noteTarget) noteStart overtaken).store 1 1 ∧
      ¬ (Run.exec (Sys.step noteTarget) noteStart
        (overtaken ++ [(2, .none), (2, .none), (2, .none)])).committed.Nodup := by
  decide +kernel

end Generations

end RhypeDb.Engine
