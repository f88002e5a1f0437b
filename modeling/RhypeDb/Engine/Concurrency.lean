import RhypeDb.Engine.Settled
import RhypeDb.Storage.MvccRun

/-! Two engine transactions at once: one links to an object, or creates one that does, and the
other deletes it. Each begins, reads at its snapshot and buffers its writes, and commits; the
commit detects writes that overlap, and a new edge overlaps with nothing the delete has seen. -/

namespace RhypeDb.Engine

open DepthFirst Fallible List Schema Storage
open Option hiding map_map

namespace LinkDelete

inductive Party
  | linker
  | deleter
  deriving DecidableEq

inductive Phase
  | idle
  | begun (txn : Transaction Key Payload)
  | staged (txn : Transaction Key Payload)
  | finished (ok : Bool)

structure Commit where
  party : Party
  snapshot : Nat
  version : Nat
  writes : Writes Key Payload

/-- The transaction manager, the store before the run and the commits of it, the counters, and
where the parties stand. -/
structure Sys where
  tm : TransactionManager Key
  base : Store
  history : List Commit
  counters : Counters
  phase : Party → Phase

structure Pair where
  schema : Schema
  linking : Database.Call
  typeName : String
  targetId : Id

def Pair.call (pair : Pair) : Party → Database.Call
  | .linker => pair.linking
  | .deleter => .delete pair.typeName pair.targetId

namespace Sys

variable (s : Sys)

def store : Store := s.base.apply (s.history.flatMap Commit.writes)

def storeAt (snapshot : Nat) : Store :=
  s.base.apply ((s.history.filter fun c => decide (c.version ≤ snapshot)).flatMap Commit.writes)

def setPhase (p : Party) (phase : Phase) : Sys :=
  { s with phase := Function.update s.phase p phase }

def begin (p : Party) : Sys :=
  let (tm, txn) := TransactionManager.begin s.tm
  { s with tm }.setPhase p (.begun txn)

/-- Reads at the snapshot and buffered writes; an error drops the handle. The delete forgets its
generations here, in the source after its commit: no key depends on them. -/
def stage (pair : Pair) (p : Party) (txn : Transaction Key Payload) : Sys :=
  match Database.stage pair.schema (s.storeAt txn.snapshot).view s.counters (pair.call p) with
  | (.error _, counters) =>
    { s with tm := (s.tm.release txn).1, counters }.setPhase p (.finished false)
  | (.ok writes, counters) => { s with counters }.setPhase p (.staged (txn.recordAll writes))

def applyWrites (p : Party) (snapshot version : Nat) (writes : Writes Key Payload)
    (history : List Commit) : Except Error Unit × List Commit :=
  (.ok (), history ++ [⟨p, snapshot, version, writes⟩])

def commit (p : Party) (txn : Transaction Key Payload) : Sys :=
  let (result, tm, txn', history) := s.tm.commit txn (applyWrites p txn.snapshot) s.history
  match result with
  | .ok _ => { s with tm, history }.setPhase p (.finished true)
  | .error _ => { s with tm := (tm.release txn').1, history }.setPhase p (.finished false)

end Sys

def step (pair : Pair) (s : Sys) (p : Party) : Sys :=
  match s.phase p with
  | .idle => s.begin p
  | .begun txn => s.stage pair p txn
  | .staged txn => s.commit p txn
  | .finished _ => s

def start (tm : TransactionManager Key) (base : Store) (counters : Counters) : Sys :=
  { tm, base, history := [], counters, phase := fun _ => .idle }

def startAfter (pair : Pair) (tm : TransactionManager Key) (calls : List Database.Call) : Sys :=
  let db := Run.exec (Database.step pair.schema) .new calls
  start tm db.store db.counters

/-- Both calls returned `Ok`. -/
def BothOk (s : Sys) : Prop := ∀ p, s.phase p = .finished true

def Phase.isOk : Phase → Bool
  | finished ok => ok
  | _ => false

instance (s : Sys) : Decidable (BothOk s) :=
  decidable_of_iff ((s.phase .linker).isOk ∧ (s.phase .deleter).isOk) <| by
    have hok : ∀ phase : Phase, phase.isOk = true ↔ phase = .finished true := by
      intro phase
      cases phase with
      | finished ok => cases ok <;> simp [Phase.isOk]
      | _ => simp [Phase.isOk]
    rw [hok, hok]
    constructor
    · rintro ⟨hl, hd⟩ (_ | _)
      · exact hl
      · exact hd
    · exact fun h => ⟨h .linker, h .deleter⟩

def Phase.txn? : Phase → Option (Transaction Key Payload)
  | begun txn => some txn
  | staged txn => some txn
  | _ => none

def Phase.isUnstaged : Phase → Bool
  | idle => true
  | begun _ => true
  | _ => false

/-- The writes are, key by key, those the party's call stages against the store. The linker
draws its id from the counter of the start. -/
def StagedBy (pair : Pair) (next : Id) (store : Store) (p : Party) (writes : Writes Key Payload) :
    Prop :=
  ∃ c c' staged, (p = .linker → c.nextObjectId = next) ∧
    Database.stage pair.schema store.view c (pair.call p) = (.ok staged, c') ∧
    ∀ k, lastWrite writes k = lastWrite staged k

/-- A commit read at a snapshot that has every earlier commit it shares a key with. -/
structure Inv (pair : Pair) (next : Id) (s : Sys) : Prop where
  clock : s.tm.nextVersion = s.tm.visibleVersion + 1
  logSize : 0 < s.tm.maxCommittedLogSize
  versions : ∀ c ∈ s.history, c.version ≤ s.tm.visibleVersion ∧ c.snapshot < c.version
  open_le : ∀ p txn, (s.phase p).txn? = some txn → txn.snapshot ≤ s.tm.visibleVersion
  begun : ∀ p txn, s.phase p = .begun txn → txn.writes = []
  staged : ∀ p txn, s.phase p = .staged txn →
    StagedBy pair next (s.storeAt txn.snapshot) p txn.writes
  committed : ∀ c ∈ s.history, StagedBy pair next (s.storeAt c.snapshot) c.party c.writes
  acknowledged : ∀ p, s.phase p = .finished true ↔ ∃ c ∈ s.history, c.party = p
  counter : (s.phase .linker).isUnstaged → s.counters.nextObjectId = next
  ordered : s.history.Pairwise fun c d => c.version < d.version
  once : (s.history.map Commit.party).Nodup
  apart : s.history.Pairwise fun c d =>
    c.version ≤ d.snapshot ∨ ∀ k ∈ c.writes.map Prod.fst, k ∉ d.writes.map Prod.fst
  held : s.history = [] → ∀ p txn, (s.phase p).txn? = some txn →
    0 < s.tm.activeSnapshots.holds txn.snapshot
  logged : ∀ c ∈ s.history, ∀ p txn, (s.phase p).txn? = some txn → txn.snapshot < c.version →
    ∃ e ∈ s.tm.committedLog, e.commitVersion = c.version ∧ e.writeSet = c.writes.map Prod.fst

/-- A call that fails stays failed. -/
def NoFail (s : Sys) : Prop := ∀ p, s.phase p ≠ .finished false

section

variable {pair : Pair} {next : Id} {s : Sys} {p q : Party}

theorem phase_setPhase_self (s : Sys) (p : Party) (phase : Phase) :
    (s.setPhase p phase).phase p = phase := Function.update_self ..

theorem phase_setPhase_ne (s : Sys) (phase : Phase) (h : q ≠ p) :
    (s.setPhase p phase).phase q = s.phase q := Function.update_of_ne h ..

theorem noFail_of_step (h : NoFail (step pair s p)) : NoFail s := by
  intro q hq
  apply h q
  unfold step
  by_cases hqp : q = p
  · subst hqp
    rw [hq]
    exact hq
  · have hother : ∀ (s' : Sys) phase, s'.phase q = s.phase q →
        (s'.setPhase p phase).phase q = .finished false :=
      fun s' phase h => (phase_setPhase_ne s' phase hqp).trans (h.trans hq)
    cases s.phase p with
    | idle => exact hother _ _ rfl
    | begun txn =>
      dsimp only
      unfold Sys.stage
      split <;> exact hother _ _ rfl
    | staged txn =>
      unfold Sys.commit
      dsimp only
      split <;> exact hother _ _ rfl
    | finished ok => exact hq

theorem storeAt_append {c : Commit} {snapshot : Nat} {s' : Sys} (hbase : s'.base = s.base)
    (hhistory : s'.history = s.history ++ [c]) (h : snapshot < c.version) :
    s'.storeAt snapshot = s.storeAt snapshot := by
  rw [Sys.storeAt, Sys.storeAt, hbase, hhistory, filter_append, filter_singleton,
    decide_eq_false (Nat.not_le.mpr h)]
  simp

theorem Inv.begin (h : Inv pair next s) (hp : s.phase p = .idle) : Inv pair next (s.begin p) := by
  have hself : (s.begin p).phase p = .begun ⟨s.tm.visibleVersion, [], true⟩ :=
    phase_setPhase_self ..
  have hother : ∀ q, q ≠ p → (s.begin p).phase q = s.phase q :=
    fun q hq => phase_setPhase_ne _ _ hq
  have htxn : ∀ q txn, ((s.begin p).phase q).txn? = some txn →
      (q = p ∧ txn = ⟨s.tm.visibleVersion, [], true⟩) ∨ (q ≠ p ∧ (s.phase q).txn? = some txn) := by
    intro q txn hq
    by_cases hqp : q = p
    · subst hqp
      rw [hself] at hq
      cases hq
      exact .inl ⟨rfl, rfl⟩
    · rw [hother q hqp] at hq
      exact .inr ⟨hqp, hq⟩
  refine ⟨h.clock, h.logSize, h.versions, ?_, ?_, ?_, h.committed, ?_, ?_, h.ordered, h.once,
    h.apart, ?_, ?_⟩
  · intro q txn hq
    rcases htxn q txn hq with ⟨-, rfl⟩ | ⟨-, hq⟩
    · exact le_rfl
    · exact h.open_le q txn hq
  · intro q txn hq
    rcases htxn q txn (by rw [hq]; rfl) with ⟨-, rfl⟩ | ⟨hqp, -⟩
    · rfl
    · exact h.begun q txn (hother q hqp ▸ hq)
  · intro q txn hq
    by_cases hqp : q = p
    · subst hqp
      rw [hself] at hq
      cases hq
    · exact h.staged q txn (hother q hqp ▸ hq)
  · intro q
    show _ ↔ ∃ c ∈ s.history, c.party = q
    rw [← h.acknowledged q]
    by_cases hqp : q = p
    · subst hqp
      rw [hself, hp]
      exact ⟨nofun, nofun⟩
    · rw [hother q hqp]
  · intro hreads
    apply h.counter
    by_cases hqp : .linker = p
    · rw [hqp, hp]
      rfl
    · exact hother _ hqp ▸ hreads
  · intro hnone q txn hq
    show 0 < (s.tm.activeSnapshots.acquire s.tm.visibleVersion).holds txn.snapshot
    rw [ActiveSnapshots.holds_acquire]
    rcases htxn q txn hq with ⟨-, rfl⟩ | ⟨-, hq⟩
    · rw [if_pos rfl]
      exact Nat.succ_pos _
    · exact Nat.add_pos_left (h.held hnone q txn hq) _
  · intro c hc q txn hq hlt
    rcases htxn q txn hq with ⟨-, rfl⟩ | ⟨-, hq⟩
    · exact absurd (h.versions c hc).1 (Nat.not_le.mpr hlt)
    · exact h.logged c hc q txn hq hlt

variable {txn : Transaction Key Payload} {schedule : List Party}

theorem Inv.stage (h : Inv pair next s) (hp : s.phase p = .begun txn)
    (hok : NoFail (s.stage pair p txn)) : Inv pair next (s.stage pair p txn) := by
  unfold Sys.stage at hok ⊢
  cases hstage : Database.stage pair.schema (s.storeAt txn.snapshot).view s.counters
      (pair.call p) with
  | mk result counters =>
    rw [hstage] at hok
    cases result with
    | error e => exact absurd (phase_setPhase_self _ _ _) (hok p)
    | ok writes =>
      have hself := phase_setPhase_self { s with counters } p (.staged (txn.recordAll writes))
      have hother := fun q hq => @phase_setPhase_ne p q { s with counters }
        (.staged (txn.recordAll writes)) hq
      have hsnap := (txn.recordAll_snapshot writes).1
      have htxn : ∀ q txn', (({ s with counters }.setPhase p
          (.staged (txn.recordAll writes))).phase q).txn? = some txn' →
          ∃ old, (s.phase q).txn? = some old ∧ txn'.snapshot = old.snapshot := by
        intro q txn' hq
        by_cases hqp : q = p
        · subst hqp
          rw [hself] at hq
          cases hq
          exact ⟨txn, by rw [hp]; rfl, hsnap⟩
        · rw [hother q hqp] at hq
          exact ⟨txn', hq, rfl⟩
      refine ⟨h.clock, h.logSize, h.versions, ?_, ?_, ?_, h.committed, ?_, ?_, h.ordered, h.once,
        h.apart, ?_, ?_⟩
      · intro q txn' hq
        obtain ⟨old, hold, hs⟩ := htxn q txn' hq
        exact hs ▸ h.open_le q old hold
      · intro q txn' hq
        by_cases hqp : q = p
        · subst hqp
          rw [hself] at hq
          cases hq
        · exact h.begun q txn' (hother q hqp ▸ hq)
      · intro q txn' hq
        by_cases hqp : q = p
        · subst hqp
          rw [hself] at hq
          cases hq
          refine ⟨_, _, _, ?_, hsnap ▸ hstage, fun k => ?_⟩
          · rintro rfl
            exact h.counter (by rw [hp]; rfl)
          rw [Transaction.lastWrite_recordAll, h.begun q txn hp, lastWrite_nil, or_none]
        · exact h.staged q txn' (hother q hqp ▸ hq)
      · intro q
        show _ ↔ ∃ c ∈ s.history, c.party = q
        rw [← h.acknowledged q]
        by_cases hqp : q = p
        · subst hqp
          rw [hself, hp]
          exact ⟨nofun, nofun⟩
        · rw [hother q hqp]
      · intro hreads
        by_cases hqp : .linker = p
        · rw [← hqp] at hself
          rw [← hqp, hself] at hreads
          cases hreads
        · -- the delete draws no id
          obtain rfl : p = .deleter := by
            cases p with
            | linker => exact absurd rfl hqp
            | deleter => rfl
          obtain ⟨k, hk, hnext, -⟩ := @nextObjectId_stage pair.schema
            (s.storeAt txn.snapshot).view s.counters (pair.call .deleter)
          obtain rfl := Nat.le_zero.mp hk
          rw [hstage] at hnext
          exact (hnext.trans (UInt64.add_zero _)).trans (h.counter hreads)
      · intro hnone q txn' hq
        obtain ⟨old, hold, hs⟩ := htxn q txn' hq
        exact hs ▸ h.held hnone q old hold
      · intro c hc q txn' hq hlt
        obtain ⟨old, hold, hs⟩ := htxn q txn' hq
        exact h.logged c hc q old hold (hs ▸ hlt)

theorem mem_trimmed {max minActive : Nat} {log : List (CommittedTxn Key)} {e : CommittedTxn Key}
    (hmax : 0 < max) (hmin : minActive ≤ e.commitVersion) :
    e ∈ TransactionManager.trimSize max (TransactionManager.trimActive minActive (log ++ [e])) := by
  obtain ⟨dropped, hsplit, hdropped⟩ := TransactionManager.trim_split minActive max (log ++ [e])
  set kept := TransactionManager.trimSize max (TransactionManager.trimActive minActive (log ++ [e]))
  rcases eq_nil_or_concat kept with hnil | ⟨front, last, hlast⟩
  · have hmem : e ∈ dropped := by
      rw [hnil, append_nil] at hsplit
      rw [← hsplit]
      exact mem_append_right _ (mem_singleton_self e)
    rcases hdropped e hmem with hlt | hlen
    · exact absurd hmin (Nat.not_le.mpr hlt)
    · rw [hnil] at hlen
      exact absurd hlen (Nat.ne_of_lt hmax)
  · rw [hlast, concat_eq_append, ← append_assoc] at hsplit
    have heq := (append_inj' hsplit rfl).2
    rw [hlast, concat_eq_append, singleton_inj.mp heq]
    exact mem_append_right _ (mem_singleton_self last)

def publishedTm (tm : TransactionManager Key) (txn : Transaction Key Payload) :
    TransactionManager Key :=
  (TransactionManager.release
    { tm with
      nextVersion := tm.nextVersion + 1
      committedLog := TransactionManager.trimSize tm.maxCommittedLogSize
        (TransactionManager.trimActive tm.activeSnapshots.minActive
          (tm.committedLog ++ [{ commitVersion := tm.nextVersion, writeSet := txn.keys }]))
      visibleVersion := tm.nextVersion } txn).1

def published (s : Sys) (p : Party) (txn : Transaction Key Payload) : Sys :=
  Sys.setPhase
    { s with
      tm := publishedTm s.tm txn
      history := s.history ++ [⟨p, txn.snapshot, s.tm.nextVersion, txn.writes⟩] }
    p (.finished true)

theorem commit_cases (hne : txn.writes ≠ []) :
    (s.commit p txn).phase p = .finished false ∨
      s.tm.conflicts txn = false ∧ s.commit p txn = published s p txn := by
  have hw : txn.writes.isEmpty = false := by simpa using hne
  unfold Sys.commit TransactionManager.commit
  cases hc : s.tm.conflicts txn with
  | true =>
    left
    simp only [hw, Bool.false_eq_true, if_false, if_true]
    exact phase_setPhase_self _ _ _
  | false =>
    right
    simp only [hw, Bool.false_eq_true, if_false]
    exact ⟨trivial, rfl⟩

theorem publishedTm_fields (tm : TransactionManager Key) (txn : Transaction Key Payload) :
    (publishedTm tm txn).visibleVersion = tm.nextVersion ∧
      (publishedTm tm txn).nextVersion = tm.nextVersion + 1 ∧
      (publishedTm tm txn).committedLog = TransactionManager.trimSize tm.maxCommittedLogSize
        (TransactionManager.trimActive tm.activeSnapshots.minActive
          (tm.committedLog ++ [{ commitVersion := tm.nextVersion, writeSet := txn.keys }])) ∧
      (publishedTm tm txn).maxCommittedLogSize = tm.maxCommittedLogSize := by
  unfold publishedTm TransactionManager.release
  cases txn.hold <;> exact ⟨rfl, rfl, rfl, rfl⟩

theorem Inv.history_nil (h : Inv pair next s) {txn txn' : Transaction Key Payload} (hqp : q ≠ p)
    (hp : (s.phase p).txn? = some txn) (hq : (s.phase q).txn? = some txn') : s.history = [] := by
  rw [eq_nil_iff_forall_not_mem]
  intro c hc
  have hfinished := (h.acknowledged c.party).mpr ⟨c, hc, rfl⟩
  have hne : ∀ r t, (s.phase r).txn? = some t → c.party ≠ r := by
    rintro r t ht rfl
    rw [hfinished] at ht
    cases ht
  have hcp := hne p txn hp
  have hcq := hne q txn' hq
  generalize c.party = r at hcp hcq
  cases p <;> cases q <;> cases r <;> first | exact hqp rfl | exact hcp rfl | exact hcq rfl

theorem Inv.publish (h : Inv pair next s) (hp : s.phase p = .staged txn)
    (hfree : s.tm.conflicts txn = false) : Inv pair next (published s p txn) := by
  obtain ⟨hvisible, hnext, hlog, hmax⟩ := publishedTm_fields s.tm txn
  have hpopen : (s.phase p).txn? = some txn := by rw [hp]; rfl
  have hlt : ∀ snapshot, snapshot ≤ s.tm.visibleVersion → snapshot < s.tm.nextVersion := by
    intro snapshot hle
    rw [h.clock]
    exact Nat.lt_succ_of_le hle
  have hself : (published s p txn).phase p = .finished true := phase_setPhase_self _ _ _
  have hother : ∀ q, q ≠ p → (published s p txn).phase q = s.phase q :=
    fun q hq => phase_setPhase_ne _ _ hq
  have htxn : ∀ q txn', ((published s p txn).phase q).txn? = some txn' →
      q ≠ p ∧ (s.phase q).txn? = some txn' := by
    intro q txn' hq
    by_cases hqp : q = p
    · subst hqp
      rw [hself] at hq
      cases hq
    · rw [hother q hqp] at hq
      exact ⟨hqp, hq⟩
  have hhistory : (published s p txn).history =
      s.history ++ [⟨p, txn.snapshot, s.tm.nextVersion, txn.writes⟩] := rfl
  have hstore : ∀ snapshot, snapshot ≤ s.tm.visibleVersion →
      (published s p txn).storeAt snapshot = s.storeAt snapshot :=
    fun snapshot hle => storeAt_append rfl hhistory (hlt snapshot hle)
  refine ⟨?_, ?_, ?_, ?_, ?_, ?_, ?_, ?_, ?_, ?_, ?_, ?_, ?_, ?_⟩
  · exact hnext.trans (congrArg (· + 1) hvisible.symm)
  · exact hmax ▸ h.logSize
  · intro c hc
    rw [show (published s p txn).tm.visibleVersion = s.tm.nextVersion from hvisible]
    rcases mem_append.mp hc with hc | hc
    · exact ⟨(hlt _ (h.versions c hc).1).le, (h.versions c hc).2⟩
    · cases mem_singleton.mp hc
      exact ⟨le_rfl, hlt _ (h.open_le p txn hpopen)⟩
  · intro q txn' hq
    rw [show (published s p txn).tm.visibleVersion = s.tm.nextVersion from hvisible]
    exact (hlt _ (h.open_le q txn' (htxn q txn' hq).2)).le
  · intro q txn' hq
    exact h.begun q txn' (hother q (htxn q txn' (by rw [hq]; rfl)).1 ▸ hq)
  · intro q txn' hq
    obtain ⟨hqp, hq'⟩ := htxn q txn' (by rw [hq]; rfl)
    rw [hstore _ (h.open_le q txn' hq')]
    exact h.staged q txn' (hother q hqp ▸ hq)
  · intro c hc
    rcases mem_append.mp hc with hc | hc
    · have hver := h.versions c hc
      rw [hstore _ (hver.2.le.trans hver.1)]
      exact h.committed c hc
    · cases mem_singleton.mp hc
      rw [hstore _ (h.open_le p txn hpopen)]
      exact h.staged p txn hp
  · intro q
    by_cases hqp : q = p
    · subst hqp
      exact iff_of_true hself ⟨_, mem_append_right _ (mem_singleton_self _), rfl⟩
    · rw [hother q hqp, h.acknowledged q]
      constructor
      · rintro ⟨c, hc, hparty⟩
        exact ⟨c, mem_append_left _ hc, hparty⟩
      · rintro ⟨c, hc, hparty⟩
        rcases mem_append.mp hc with hc | hc
        · exact ⟨c, hc, hparty⟩
        · cases mem_singleton.mp hc
          exact absurd hparty.symm hqp
  · intro hreads
    by_cases hqp : .linker = p
    · rw [← hqp] at hself
      rw [← hqp, hself] at hreads
      cases hreads
    · exact h.counter (hother _ hqp ▸ hreads)
  · rw [hhistory, pairwise_append]
    refine ⟨h.ordered, pairwise_singleton _ _, ?_⟩
    intro c hc d hd
    cases mem_singleton.mp hd
    exact hlt _ (h.versions c hc).1
  · rw [hhistory, map_append, nodup_append]
    refine ⟨h.once, nodup_singleton _, ?_⟩
    intro q hq q' hq'
    obtain ⟨c, hc, rfl⟩ := mem_map.mp hq
    cases mem_singleton.mp hq'
    intro heq
    have hdone := (h.acknowledged p).mpr ⟨c, hc, heq⟩
    rw [hp] at hdone
    cases hdone
  · rw [hhistory, pairwise_append]
    refine ⟨h.apart, pairwise_singleton _ _, ?_⟩
    intro c hc d hd
    cases mem_singleton.mp hd
    by_cases hle : c.version ≤ txn.snapshot
    · exact .inl hle
    · right
      intro k hk hk'
      obtain ⟨e, he, hversion, hkeys⟩ :=
        h.logged c hc p txn hpopen (Nat.lt_of_not_le hle)
      have hconflict : s.tm.conflicts txn = true := by
        rw [TransactionManager.conflicts_iff]
        exact ⟨e, he, hversion ▸ Nat.lt_of_not_le hle, k, hk', hkeys ▸ hk⟩
      rw [hfree] at hconflict
      cases hconflict
  · intro hnone
    simp [hhistory] at hnone
  · intro c hc q txn' hq hver
    obtain ⟨hqp, hq'⟩ := htxn q txn' hq
    have hnone := h.history_nil hqp hpopen hq'
    rw [hhistory, hnone, nil_append] at hc
    cases mem_singleton.mp hc
    refine ⟨{ commitVersion := s.tm.nextVersion, writeSet := txn.keys }, ?_, rfl, rfl⟩
    show _ ∈ (publishedTm s.tm txn).committedLog
    rw [hlog]
    apply mem_trimmed h.logSize
    exact (ActiveSnapshots.minActive_le (h.held hnone q txn' hq')).trans
      (hlt _ (h.open_le q txn' hq')).le

theorem Inv.step (h : Inv pair next s)
    (hwrites : ∀ p store writes, StagedBy pair next store p writes → writes ≠ [])
    (hok : NoFail (step pair s p)) : Inv pair next (step pair s p) := by
  unfold LinkDelete.step at hok ⊢
  cases hp : s.phase p with
  | idle => exact h.begin hp
  | begun txn =>
    rw [hp] at hok
    exact h.stage hp hok
  | staged txn =>
    rw [hp] at hok
    dsimp only at hok ⊢
    rcases commit_cases (s := s) (p := p) (hwrites _ _ _ (h.staged p txn hp)) with
      hfail | ⟨hfree, hcommit⟩
    · exact absurd hfail (hok p)
    · rw [hcommit]
      exact h.publish hp hfree
  | finished ok => exact h

theorem noFail_of_exec (h : NoFail (Run.exec (step pair) s schedule)) : NoFail s := by
  induction schedule generalizing s with
  | nil => exact h
  | cons p schedule ih => exact noFail_of_step (ih h)

theorem Inv.exec (h : Inv pair next s)
    (hwrites : ∀ p store writes, StagedBy pair next store p writes → writes ≠ [])
    (hok : NoFail (Run.exec (LinkDelete.step pair) s schedule)) :
    Inv pair next (Run.exec (LinkDelete.step pair) s schedule) := by
  induction schedule generalizing s with
  | nil => exact h
  | cons p schedule ih => exact ih (h.step hwrites (noFail_of_exec hok)) hok

theorem Inv.start (pair : Pair) {tm : TransactionManager Key} (base : Store) (counters : Counters)
    (hnext : tm.nextVersion = tm.visibleVersion + 1) (hsize : 0 < tm.maxCommittedLogSize) :
    Inv pair counters.nextObjectId (start tm base counters) where
  clock := hnext
  logSize := hsize
  versions := nofun
  open_le := nofun
  begun := nofun
  staged := nofun
  committed := nofun
  acknowledged := fun _ => ⟨nofun, nofun⟩
  counter := fun _ => rfl
  ordered := List.Pairwise.nil
  once := nodup_nil
  apart := List.Pairwise.nil
  held := nofun
  logged := nofun

variable {schema : Schema} {store : Store} {view : View} {versions : Versions} {t : TypeDef}
  {target : Id} {field : Sigma fun _ : String => Value} {acc : FieldMap × List Link} {f : FieldDef}

def Targets (schema : Schema) (target : Id) : Database.Call → Prop
  | .link _ _ _ targetId _ => targetId = target
  | .create typeName fields => ∃ t ∈ schema.getType typeName, ∃ field ∈ fields.entries,
    ∃ f ∈ t.getField field.1, f.relation?.isSome ∧ field.2.targetId = some target
  | _ => False

theorem splitField_target {acc' : FieldMap × List Link} (hf : t.getField field.1 = some f)
    (hrel : f.relation?.isSome)
    (htarget : field.2.targetId = some target)
    (h : splitField schema view versions t acc field = .ok acc') :
    ∃ l ∈ acc'.2, l.targetId = target ∧
      ∃ typeId, view.get (.object typeId target) = .ok (some l.targetData) := by
  rw [splitField] at h
  simp only [bind_eq_ok, require_eq_ok] at h
  obtain ⟨f', hf', u, hvalid, h⟩ := h
  rw [hf] at hf'
  cases hf'
  have hvalue : field.2 ≠ .null := by
    intro hnull
    rw [hnull] at htarget
    cases htarget
  rw [FieldDef.relation?] at hrel
  split at hrel
  next rel htype =>
    rw [htype] at h
    split_ifs at h with hinv
    simp only [bind_eq_ok, require_eq_ok] at h
    obtain ⟨targetId, hid, targetTypeId, -, found, hget, targetData, hdata, h⟩ := h
    rw [htarget] at hid
    cases hid
    cases h
    exact ⟨_, mem_append_right _ (mem_singleton_self _), rfl, targetTypeId, hdata ▸ hget⟩
  · cases hrel

theorem link_of_target {fields : FieldMap} (hfield : field ∈ fields.entries)
    (hf : t.getField field.1 = some f) (hrel : f.relation?.isSome)
    (htarget : field.2.targetId = some target)
    (h : fields.entries.foldlM (splitField schema view versions t) (∅, []) = .ok acc) :
    ∃ l ∈ acc.2, l.targetId = target ∧
      ∃ typeId, view.get (.object typeId target) = .ok (some l.targetData) := by
  obtain ⟨before, after, hsplit⟩ := append_of_mem hfield
  rw [hsplit, foldlM_append, bind_eq_ok] at h
  obtain ⟨mid, -, h⟩ := h
  rw [foldlM_cons, bind_eq_ok] at h
  obtain ⟨acc', hstep, h⟩ := h
  obtain ⟨l, hl, hid⟩ := splitField_target hf hrel htarget hstep
  refine ⟨l, ?_, hid⟩
  -- later fields only append links
  apply foldlM_induct (P := fun acc : FieldMap × List Link => l ∈ acc.2) _ hl h
  intro s s' other _ hs hstep
  obtain ⟨g, -, -, ⟨l', -, -, -, -, -, rfl⟩ | ⟨-, rfl⟩ | ⟨-, rfl⟩⟩ := splitField_cases hstep
  · exact mem_append_left _ hs
  · exact hs
  · exact hs

theorem edge_of_mem_createPuts {objectId : Id} {scalars : FieldMap} {links : List Link}
    {w : Key × Option Payload}
    (hw : w ∈ createPuts schema view versions t objectId scalars links) {s r tgt : Id}
    (hkey : w.1 = .edge s r tgt) : w.2 = some .empty := by
  rw [createPuts, mem_append, mem_cons] at hw
  rcases hw with hw | rfl | hw
  · obtain ⟨ifd, -, hput⟩ := mem_filterMap.mp hw
    obtain ⟨key, hkey', rfl⟩ := map_eq_some_iff.mp hput
    have hgraph := isGraph_indexKeyOf hkey'
    rw [show key = _ from hkey] at hgraph
    cases hgraph
  · cases hkey
  · obtain ⟨l, -, hw⟩ := mem_flatMap.mp hw
    rw [linkPuts, mem_cons, mem_singleton] at hw
    rcases hw with rfl | rfl
    · rfl
    · cases hkey

variable {writes : Writes Key Payload} {c c' : Counters} {typeName : String}

theorem linking_ok {call : Database.Call} (htarget : Targets schema target call)
    (h : Database.stage schema view c call = (.ok writes, c')) :
    (∃ s r value, lastWrite writes (.edge s r target) = some (some value)) ∧
      ∃ typeId data, view.get (.object typeId target) = .ok (some data) := by
  cases call with
  | link sourceType sourceId fieldName targetId edgeFields =>
    cases htarget
    obtain ⟨t, f, rel, typeId, source, data, -, -, -, -, -, hdata, rfl⟩ :=
      link_eq_ok (Prod.mk.inj h).1
    refine ⟨⟨sourceId, f.relId, (edgeFields.map serializeFields).getD .empty, ?_⟩, typeId, data,
      hdata⟩
    exact lastWrite_of_agree mem_cons_self (by simp)
  | create typeName fields =>
    obtain ⟨t, ht, field, hfield, f, hf, hrel, hid⟩ := htarget
    obtain ⟨t', ht', staged, puts, hstage, rfl⟩ := create_eq_ok h
    obtain rfl := Option.some.inj (ht.symm.trans ht')
    have hkeys := stageCreateWrites_keys hstage (forall_mem_nil _)
    obtain ⟨⟨scalars, links⟩, hsplit, -, rfl⟩ := stageCreateWrites_eq_ok hstage
    obtain ⟨l, hl, hid, typeId, hget⟩ := link_of_target hfield hf hrel hid hsplit
    refine ⟨⟨c.nextObjectId, l.relId, .empty, ?_⟩, typeId, _, hget⟩
    apply lastWrite_of_agree
    · obtain ⟨i, hi⟩ := getElem?_of_mem hl
      have hi' := mk_mem_zipIdx_iff_getElem?.mpr hi
      apply mem_append_right
      apply mem_append_right
      apply mem_cons_of_mem
      exact mem_flatMap.mpr ⟨_, hi', hid ▸ mem_cons_self⟩
    · intro w hw hkey
      rcases mem_append.mp hw with hw | hw
      · have hunique := isUniqueIndex_uniquePuts hkeys w hw
        rw [hkey] at hunique
        cases hunique
      · exact edge_of_mem_createPuts hw hkey
  | _ => exact htarget.elim

def Mentions (store : Store) (target : Id) : Prop :=
  ∃ s r t, (store.Has (.edge s r t) ∨ store.Has (.reverseEdge t r s)) ∧ (s = target ∨ t = target)

/-- Some edge of the object is stored under the id of an `@inverse` field. -/
def ByInverse (schema : Schema) (store : Store) (target : Id) : Prop :=
  ∃ s r t, store.Has (.edge s r t) ∧ (s = target ∨ t = target) ∧
    ¬ ∃ τ ∈ schema.types, ∃ rel ∈ τ.forwardRelations, rel.relId = r

instance (schema : Schema) (store : Store) (target : Id) :
    Decidable (ByInverse schema store target) :=
  decidable_of_iff (∃ e ∈ store.edges, (e.1 = target ∨ e.2.2 = target) ∧
      ¬ ∃ τ ∈ schema.types, ∃ rel ∈ τ.forwardRelations, rel.relId = e.2.1) <| by
    constructor
    · rintro ⟨⟨s, r, t⟩, he, h⟩
      exact ⟨s, r, t, Store.mem_edges.mp he, h⟩
    · rintro ⟨s, r, t, hedge, h⟩
      exact ⟨(s, r, t), Store.mem_edges.mpr hedge, h⟩

theorem forward_of_edge_mem {a : Arrival} {s r t : Id}
    (h : .edge s r t ∈ tombstonesOf schema view versions a) :
    ∃ τ ∈ schema.types, ∃ rel ∈ τ.forwardRelations, rel.relId = r := by
  have hedge : ∀ {s' r' t'}, Key.edge s r t ∈ edgeTombstones s' r' t' → r' = r := by
    intro s' r' t' hmem
    simp only [edgeTombstones, mem_cons, Key.edge.injEq, reduceCtorEq, not_mem_nil,
      or_false] at hmem
    exact hmem.2.1.symm
  rw [tombstonesOf] at h
  split at h
  · cases h
  next τ hτ =>
    have hmem := (mem_of_typeById hτ).1
    simp only [mem_append] at h
    rcases h with ((h | h) | h) | h
    · exact absurd (isGraph_storedEntries _ h) Bool.noConfusion
    · obtain ⟨inc, hinc, h⟩ := mem_flatMap.mp h
      obtain ⟨row, -, h⟩ := mem_flatMap.mp h
      obtain ⟨u, hu, f, hf, rel, hrel, -, rfl⟩ := mem_incomingRelations.mp hinc
      exact ⟨u, hu, _, TypeDef.mem_forwardRelations.mpr ⟨f, hf, rel, hrel, rfl⟩, hedge h⟩
    · rcases mem_append.mp h with h | h
      · obtain ⟨c, hc, h⟩ := mem_flatMap.mp h
        unfold coveredTargets at hc
        split at hc
        · cases hc
        · split_ifs at hc
          · cases hc
          · obtain ⟨rel, hrel, hc⟩ := mem_filterMap.mp hc
            split_ifs at hc
            obtain ⟨id, -, rfl⟩ := map_eq_some_iff.mp hc
            exact ⟨τ, hmem, rel, hrel, hedge h⟩
      · obtain ⟨rel, hrel, h⟩ := mem_flatMap.mp h
        obtain ⟨row, -, h⟩ := mem_flatMap.mp h
        exact ⟨τ, hmem, rel, (mem_filter.mp hrel).1, hedge h⟩
    · rw [ownTombstones] at h
      split_ifs at h <;> simp at h

theorem delete_ok
    (h : Database.stage schema store.view c (.delete typeName target) = (.ok writes, c')) :
    ∃ typeId, ∃ arena : List Key, store.Has (.object typeId target) ∧
      writes = arena.map (fun key => (key, none)) ∧ Paired arena ∧
      (∀ s r t, .edge s r t ∈ arena →
        ∃ τ ∈ schema.types, ∃ rel ∈ τ.forwardRelations, rel.relId = r) ∧
      (∀ k ∈ tombstonesOf schema store.view c.versions ((typeId, target), none), k ∈ arena) ∧
      (schema.typeById typeId).isSome := by
  obtain ⟨typeId, -, walk, hwalk, rfl⟩ := delete_eq_ok h
  obtain ⟨harena, hknown, data, hdata⟩ := deleteInner_cascade hwalk
  have hroot : ((typeId, target), none) ∈ cascade schema store.view (typeId, target) := by
    obtain ⟨new, hsearch, -⟩ := deleteInner_search
      (show ({ deleted := [], arena := [] } : Walk).deleted = visited [] from rfl) hwalk
    rw [cascade, hsearch]
    exact mem_search_nil hsearch
  refine ⟨typeId, walk.arena, ?_, rfl, deleteInner_paired hwalk, ?_, ?_, (hknown _ hroot).1⟩
  · rw [Store.Has, Except.ok.inj hdata]
    rfl
  · intro s r t hmem
    obtain ⟨a, -, hedge⟩ := (harena _).mp hmem
    exact forward_of_edge_mem hedge
  · exact fun k hk => (harena k).mpr ⟨_, hroot, hk⟩

theorem mentions_delete_iff (hint : Integrity schema store)
    (hone : ∀ a b, store.Has (.object a target) → store.Has (.object b target) → a = b)
    (h : Database.stage schema store.view c (.delete typeName target) = (.ok writes, c')) :
    Mentions (store.apply writes) target ↔ ByInverse schema store target := by
  obtain ⟨typeId, arena, hobj, rfl, hpair, hforward, hroot, hknown⟩ := delete_ok h
  obtain ⟨τ₀, hτ₀⟩ := isSome_iff_exists.mp hknown
  constructor
  · rintro ⟨s, r, t, hhas, hend⟩
    have hedge : .edge s r t ∉ arena ∧ store.Has (.edge s r t) := by
      rcases hhas with hhas | hhas
      · exact Store.has_apply_tombstones.mp hhas
      · obtain ⟨hkept, hold⟩ := Store.has_apply_tombstones.mp hhas
        exact ⟨fun hmem => hkept ((hpair s r t).mp hmem), (hint.mirror s r t).mpr hold⟩
    refine ⟨s, r, t, hedge.2, hend, ?_⟩
    rintro ⟨τ', hτ', fwd, hfwd, hr⟩
    apply hedge.1
    apply hroot
    obtain ⟨τ, hτ, f, hf, rel, hrel, rfl, targetType, htarget, hs, ht⟩ := hint.joins s r t hedge.2
    obtain ⟨g, hg, grel, hgrel, rfl⟩ := TypeDef.mem_forwardRelations.mp hfwd
    obtain ⟨rfl, rfl⟩ := eq_of_relId hτ' hτ hg hf
      (by rw [FieldDef.relation_of_forward hgrel]; rfl) (by rw [hrel]; rfl) hr
    obtain rfl := some_inj.mp ((FieldDef.relation_of_forward hgrel).symm.trans hrel)
    rcases hend with rfl | rfl
    · -- an edge that leaves the object is of its type's forward relations
      obtain rfl := hone _ _ hs hobj
      exact outbound_tombstoned (a := ((τ'.typeId, s), none)) (typeById_typeId hτ)
        (TypeDef.mem_forwardRelations.mpr ⟨g, hg, grel, hgrel, rfl⟩)
        (by simp [coveredRelIds, coveredTargets]) hedge.2
    · obtain rfl := hone _ _ ht hobj
      exact inbound_tombstoned (a := ((targetType, t), none)) hτ₀
        (mem_incomingRelations.mpr ⟨τ', hτ, g, hg, grel, hgrel, htarget, rfl⟩)
        ((hint.mirror _ _ _).mp hedge.2)
  · rintro ⟨s, r, t, hedge, hend, hinverse⟩
    refine ⟨s, r, t, .inl (Store.has_apply_tombstones.mpr ⟨?_, hedge⟩), hend⟩
    exact fun hmem => hinverse (hforward s r t hmem)

end

section

variable {pair : Pair} {next : Id} {s s' : Sys} {p : Party} {schedule : List Party}

/-- What the step of a party does when no call fails. -/
structure Moves (s : Sys) (p : Party) (s' : Sys) : Prop where
  base : s'.base = s.base
  visible : s.tm.visibleVersion ≤ s'.tm.visibleVersion
  other : ∀ q, q ≠ p → s'.phase q = s.phase q
  self : match s.phase p with
    | .idle => ∃ txn, s'.phase p = .begun txn ∧ txn.snapshot = s.tm.visibleVersion
    | .begun txn => ∃ txn', s'.phase p = .staged txn' ∧ txn'.snapshot = txn.snapshot
    | .staged _ => s'.phase p = .finished true
    | .finished _ => s' = s
  history : s'.history = s.history ∨ ∃ txn c, s.phase p = .staged txn ∧ c.party = p ∧
    c.snapshot = txn.snapshot ∧ c.version = s.tm.nextVersion ∧ s'.history = s.history ++ [c]

theorem Inv.moves (h : Inv pair next s)
    (hwrites : ∀ p store writes, StagedBy pair next store p writes → writes ≠ [])
    (hok : NoFail (LinkDelete.step pair s p)) : Moves s p (LinkDelete.step pair s p) := by
  unfold LinkDelete.step at hok ⊢
  have hother : ∀ (s' : Sys) phase, s'.phase = s.phase →
      ∀ q, q ≠ p → (s'.setPhase p phase).phase q = s.phase q :=
    fun s' phase h q hq => (phase_setPhase_ne s' phase hq).trans (congrFun h q)
  cases hp : s.phase p with
  | idle =>
    refine ⟨rfl, le_rfl, hother _ _ rfl, ?_, .inl rfl⟩
    rw [hp]
    exact ⟨_, phase_setPhase_self _ _ _, rfl⟩
  | begun txn =>
    rw [hp] at hok
    dsimp only at hok ⊢
    unfold Sys.stage at hok ⊢
    split
    next e counters hstage =>
      rw [hstage] at hok
      exact absurd (phase_setPhase_self _ _ _) (hok p)
    next writes counters hstage =>
      refine ⟨rfl, le_rfl, hother _ _ rfl, ?_, .inl rfl⟩
      rw [hp]
      exact ⟨_, phase_setPhase_self _ _ _, (txn.recordAll_snapshot writes).1⟩
  | staged txn =>
    rw [hp] at hok
    dsimp only at hok ⊢
    rcases commit_cases (s := s) (p := p) (hwrites _ _ _ (h.staged p txn hp)) with
      hfail | ⟨-, hcommit⟩
    · exact absurd hfail (hok p)
    · rw [hcommit]
      refine ⟨rfl, ?_, hother _ _ rfl, ?_, .inr ⟨txn, _, hp, rfl, rfl, rfl, rfl⟩⟩
      · show _ ≤ (publishedTm s.tm txn).visibleVersion
        rw [(publishedTm_fields s.tm txn).1, h.clock]
        exact Nat.le_succ _
      · rw [hp]
        exact phase_setPhase_self _ _ _
  | finished ok =>
    refine ⟨rfl, le_rfl, fun _ _ => rfl, ?_, .inl rfl⟩
    rw [hp]

structure Overlaps (s : Sys) : Prop where
  begun : s.phase .deleter ≠ .idle
  opened : ∀ c ∈ s.history, c.party = .linker → ∀ txn, (s.phase .deleter).txn? = some txn →
    txn.snapshot < c.version
  committed : ∀ c ∈ s.history, c.party = .linker → ∀ d ∈ s.history, d.party = .deleter →
    d.snapshot < c.version

structure Follows (version : Nat) (s : Sys) : Prop where
  linked : s.phase .linker = .finished true
  visible : version ≤ s.tm.visibleVersion
  opened : ∀ txn, (s.phase .deleter).txn? = some txn → version ≤ txn.snapshot
  committed : ∀ d ∈ s.history, d.party = .deleter → version ≤ d.snapshot

theorem Moves.txn (h : Moves s p s') {txn' : Transaction Key Payload}
    (htxn : (s'.phase p).txn? = some txn') :
    (s.phase p = .idle ∧ txn'.snapshot = s.tm.visibleVersion) ∨
      ∃ txn, (s.phase p).txn? = some txn ∧ txn'.snapshot = txn.snapshot := by
  have hself := h.self
  cases hp : s.phase p with
  | idle =>
    rw [hp] at hself
    obtain ⟨txn, hphase, hsnap⟩ := hself
    rw [hphase] at htxn
    cases htxn
    exact .inl ⟨rfl, hsnap⟩
  | begun txn =>
    rw [hp] at hself
    obtain ⟨txn₁, hphase, hsnap⟩ := hself
    rw [hphase] at htxn
    cases htxn
    exact .inr ⟨txn, rfl, hsnap⟩
  | staged txn =>
    rw [hp] at hself
    rw [show s'.phase p = _ from hself] at htxn
    cases htxn
  | finished ok =>
    rw [hp] at hself
    rw [show s' = s from hself, hp] at htxn
    cases htxn

theorem Overlaps.move (h : Overlaps s) (hinv : Inv pair next s) (hmove : Moves s p s') :
    Overlaps s' := by
  have hbegun : s'.phase .deleter ≠ .idle := by
    by_cases hp : .deleter = p
    · have hself := hmove.self
      subst hp
      cases hphase : s.phase .deleter with
      | idle => exact absurd hphase h.begun
      | begun txn =>
        rw [hphase] at hself
        obtain ⟨txn', hphase', -⟩ := hself
        rw [hphase']
        exact nofun
      | staged txn =>
        rw [hphase] at hself
        rw [show s'.phase .deleter = _ from hself]
        exact nofun
      | finished ok =>
        rw [hphase] at hself
        rw [show s' = s from hself]
        exact h.begun
    · rw [hmove.other _ hp]
      exact h.begun
  have hold : ∀ txn', (s'.phase .deleter).txn? = some txn' →
      ∃ txn, (s.phase .deleter).txn? = some txn ∧ txn'.snapshot = txn.snapshot := by
    intro txn' htxn
    by_cases hp : .deleter = p
    · subst hp
      rcases hmove.txn htxn with ⟨hidle, -⟩ | hold
      · exact absurd hidle h.begun
      · exact hold
    · rw [hmove.other _ hp] at htxn
      exact ⟨txn', htxn, rfl⟩
  have hlt : ∀ n, n ≤ s.tm.visibleVersion → n < s.tm.nextVersion := by
    intro n hn
    rw [hinv.clock]
    exact Nat.lt_succ_of_le hn
  rcases hmove.history with hsame | ⟨txn, e, hp, hparty, hsnap, hversion, hnew⟩
  · refine ⟨hbegun, ?_, ?_⟩
    · rw [hsame]
      intro c hc hl txn' htxn
      obtain ⟨txn, hopen, heq⟩ := hold txn' htxn
      exact heq ▸ h.opened c hc hl txn hopen
    · rw [hsame]
      exact h.committed
  · refine ⟨hbegun, ?_, ?_⟩
    · rw [hnew]
      intro c hc hl txn' htxn
      obtain ⟨txn₁, hopen, heq⟩ := hold txn' htxn
      rw [heq]
      rcases mem_append.mp hc with hc | hc
      · exact h.opened c hc hl txn₁ hopen
      · cases mem_singleton.mp hc
        rw [hversion]
        exact hlt _ (hinv.open_le .deleter txn₁ hopen)
    · rw [hnew]
      intro c hc hl d hd hdel
      rcases mem_append.mp hc with hc | hc
      · rcases mem_append.mp hd with hd | hd
        · exact h.committed c hc hl d hd hdel
        · cases mem_singleton.mp hd
          rw [hsnap]
          obtain rfl := hparty.symm.trans hdel
          exact h.opened c hc hl txn (by rw [hp]; rfl)
      · cases mem_singleton.mp hc
        rw [hversion]
        rcases mem_append.mp hd with hd | hd
        · have hver := hinv.versions d hd
          exact hlt _ (hver.2.le.trans hver.1)
        · cases mem_singleton.mp hd
          cases hl.symm.trans hdel

theorem Follows.move {version : Nat} (h : Follows version s) (hmove : Moves s p s') :
    Follows version s' := by
  have hlinked : s'.phase .linker = .finished true := by
    by_cases hp : .linker = p
    · have hself := hmove.self
      subst hp
      rw [h.linked] at hself
      rw [show s' = s from hself]
      exact h.linked
    · rw [hmove.other _ hp]
      exact h.linked
  refine ⟨hlinked, h.visible.trans hmove.visible, ?_, ?_⟩
  · intro txn' htxn
    by_cases hp : .deleter = p
    · subst hp
      rcases hmove.txn htxn with ⟨-, hsnap⟩ | ⟨txn, hopen, hsnap⟩
      · exact hsnap ▸ h.visible
      · exact hsnap ▸ h.opened txn hopen
    · rw [hmove.other _ hp] at htxn
      exact h.opened txn' htxn
  · rcases hmove.history with hsame | ⟨txn, e, hp, hparty, hsnap, -, hnew⟩
    · rw [hsame]
      exact h.committed
    · rw [hnew]
      intro d hd hdel
      rcases mem_append.mp hd with hd | hd
      · exact h.committed d hd hdel
      · cases mem_singleton.mp hd
        obtain rfl := hparty.symm.trans hdel
        exact hsnap ▸ h.opened txn (by rw [hp]; rfl)

section

variable (hinv : Inv pair next s)
  (hwrites : ∀ p store writes, StagedBy pair next store p writes → writes ≠ [])
  (hok : NoFail (Run.exec (step pair) s schedule))

include hinv hwrites hok

theorem Overlaps.exec (h : Overlaps s) : Overlaps (Run.exec (step pair) s schedule) := by
  induction schedule generalizing s with
  | nil => exact h
  | cons p schedule ih =>
    have hstep : NoFail (step pair s p) := noFail_of_exec hok
    exact ih (hinv.step hwrites hstep) hok (h.move hinv (hinv.moves hwrites hstep))

theorem Follows.exec {version : Nat} (h : Follows version s) :
    Follows version (Run.exec (step pair) s schedule) := by
  induction schedule generalizing s with
  | nil => exact h
  | cons p schedule ih =>
    have hstep : NoFail (step pair s p) := noFail_of_exec hok
    exact ih (hinv.step hwrites hstep) hok (h.move (hinv.moves hwrites hstep))

theorem exec_base_history : (Run.exec (step pair) s schedule).base = s.base ∧
    s.history <+: (Run.exec (step pair) s schedule).history := by
  induction schedule generalizing s with
  | nil => exact ⟨rfl, prefix_rfl⟩
  | cons p schedule ih =>
    have hstep : NoFail (step pair s p) := noFail_of_exec hok
    have hmove := hinv.moves hwrites hstep
    obtain ⟨hbase, hfront⟩ := ih (hinv.step hwrites hstep) hok
    refine ⟨hbase.trans hmove.base, List.IsPrefix.trans ?_ hfront⟩
    rcases hmove.history with hsame | ⟨-, e, -, -, -, -, hnew⟩
    · rw [hsame]
    · rw [hnew]
      exact prefix_append _ _

end

variable {counters : Counters}

theorem stagedBy_ne_nil (htarget : Targets pair.schema pair.targetId pair.linking) :
    ∀ p store writes, StagedBy pair next store p writes → writes ≠ [] := by
  rintro p store writes ⟨c, c', staged, -, hstage, hsame⟩ rfl
  cases p with
  | linker =>
    obtain ⟨⟨a, r, value, hput⟩, -⟩ := linking_ok htarget hstage
    rw [← hsame] at hput
    cases hput
  | deleter =>
    obtain ⟨typeId, arena, -, rfl, -, -, hroot, hknown⟩ := delete_ok hstage
    obtain ⟨t, ht⟩ := isSome_iff_exists.mp hknown
    have hobj := hroot _ (object_mem_tombstonesOf (a := ((typeId, pair.targetId), none)) ht)
    have hlast : (lastWrite (arena.map fun key => (key, (none : Option Payload)))
        (.object typeId pair.targetId)).isSome := by
      rw [isSome_lastWrite, map_map]
      exact mem_map.mpr ⟨_, hobj, rfl⟩
    rw [← hsame] at hlast
    cases hlast

theorem storeAt_eq_base {n : Nat} (h : ∀ c ∈ s.history, n < c.version) : s.storeAt n = s.base := by
  have hnone : (s.history.filter fun c => decide (c.version ≤ n)) = [] := by
    rw [filter_eq_nil_iff]
    intro c hc
    simpa using h c hc
  rw [Sys.storeAt, hnone]
  rfl

theorem Inv.history_eq (h : Inv pair next s) {c d : Commit} (hc : c ∈ s.history)
    (hd : d ∈ s.history) (hne : c.party ≠ d.party) (hlt : c.version < d.version) :
    s.history = [c, d] := by
  have hcd : c ≠ d := by
    rintro rfl
    exact hne rfl
  refine List.Perm.eq_of_pairwise ?_ h.ordered (by simpa using hlt) ?_
  · intro a b _ _ hab hba
    exact absurd hab (lt_asymm hba)
  · rw [perm_ext_iff_of_nodup (List.Nodup.of_map _ h.once) (by simpa using hcd)]
    intro a
    rw [mem_cons, mem_singleton]
    constructor
    · intro ha
      have hparty : a.party = c.party ∨ a.party = d.party := by
        generalize a.party = x at *
        generalize c.party = y at *
        generalize d.party = z at *
        cases x <;> cases y <;> cases z <;> simp at hne ⊢
      rcases hparty with hparty | hparty
      · exact .inl (inj_on_of_nodup_map h.once ha hc hparty)
      · exact .inr (inj_on_of_nodup_map h.once ha hd hparty)
    · rintro (rfl | rfl)
      · exact hc
      · exact hd

theorem Overlaps.mentions (h : Overlaps s) (hinv : Inv pair next s)
    (htarget : Targets pair.schema pair.targetId pair.linking)
    (hone : ∀ a b, s.base.Has (.object a pair.targetId) → s.base.Has (.object b pair.targetId) →
      a = b) (hdone : BothOk s) : Mentions s.store pair.targetId := by
  obtain ⟨c, hc, hl⟩ := (hinv.acknowledged .linker).mp (hdone .linker)
  obtain ⟨d, hd, hdel⟩ := (hinv.acknowledged .deleter).mp (hdone .deleter)
  have hsnap : d.snapshot < c.version := h.committed c hc hl d hd hdel
  have hne : c.party ≠ d.party := by
    rw [hl, hdel]
    exact nofun
  obtain ⟨k, k', staged, -, hstage, hsame⟩ := hinv.committed c hc
  rw [hl] at hstage
  obtain ⟨⟨a, r, value, hput⟩, typeId, data, hread⟩ := linking_ok htarget hstage
  rw [← hsame] at hput
  have hkey : .edge a r pair.targetId ∈ c.writes.map Prod.fst :=
    isSome_lastWrite.mp (by rw [hput]; rfl)
  have hkeep : .edge a r pair.targetId ∉ d.writes.map Prod.fst →
      lastWrite d.writes (.edge a r pair.targetId) = none := by
    rw [← isSome_lastWrite]
    exact not_isSome_iff_eq_none.mp
  refine ⟨a, r, pair.targetId, .inl ?_, .inr rfl⟩
  rw [Store.Has, Sys.store, Store.lookup_apply]
  rcases Nat.lt_trichotomy c.version d.version with hlt | heq | hlt
  · have hhistory := hinv.history_eq hc hd hne hlt
    have hapart := hinv.apart
    rw [hhistory, pairwise_pair] at hapart
    rcases hapart with hle | hapart
    · exact absurd hsnap (Nat.not_lt.mpr hle)
    · rw [hhistory, flatMap_cons, flatMap_singleton, lastWrite_append,
        hkeep (hapart _ hkey), hput]
      rfl
  · have hdistinct : s.history.Pairwise fun a b => a.version ≠ b.version :=
      hinv.ordered.imp fun hlt => hlt.ne
    have hsymm : Std.Symm fun a b : Commit => a.version ≠ b.version := ⟨fun _ _ h => Ne.symm h⟩
    have hcd : c ≠ d := by
      rintro rfl
      exact hne rfl
    exact absurd heq (hdistinct.forall hc hd hcd)
  · have hhistory := hinv.history_eq hd hc hne.symm hlt
    have hapart := hinv.apart
    rw [hhistory, pairwise_pair] at hapart
    rcases hapart with hle | hapart
    · -- the object read would be gone
      exfalso
      have hstoreD : s.storeAt d.snapshot = s.base := by
        apply storeAt_eq_base
        rw [hhistory, forall_mem_cons, forall_mem_singleton]
        exact ⟨(hinv.versions d hd).2, hsnap⟩
      have hstoreC : s.storeAt c.snapshot = s.base.apply d.writes := by
        rw [Sys.storeAt, hhistory, filter_cons_of_pos (by simpa using hle),
          filter_cons_of_neg (by simpa using (hinv.versions c hc).2)]
        exact congrArg s.base.apply (append_nil _)
      obtain ⟨m, m', tombs, -, hstage', hsame'⟩ := hinv.committed d hd
      rw [hdel, hstoreD] at hstage'
      obtain ⟨typeId', arena, hobj, rfl, -, -, hroot, hknown⟩ := delete_ok hstage'
      obtain ⟨t, ht⟩ := isSome_iff_exists.mp hknown
      have hgone := hroot _ (object_mem_tombstonesOf (a := ((typeId', pair.targetId), none)) ht)
      have hlookup : (s.base.apply (arena.map fun key => (key, none))).Has
          (.object typeId pair.targetId) := by
        have hread := Except.ok.inj hread
        rw [hstoreC, Store.lookup_apply, hsame', ← Store.lookup_apply] at hread
        rw [Store.Has, hread]
        rfl
      rw [Store.has_apply_tombstones] at hlookup
      obtain rfl := hone _ _ hlookup.2 hobj
      exact hlookup.1 hgone
    · rw [hhistory, flatMap_cons, flatMap_singleton, lastWrite_append, hput]
      rfl

theorem eq_of_mem_drawnIds {id : Id} {n : Nat} (hn : n ≤ 1) (h : id ∈ drawnIds next n) :
    id = next := by
  obtain ⟨i, hi, rfl⟩ := mem_map.mp h
  rw [mem_range] at hi
  obtain rfl : i = 0 := by omega
  exact UInt64.add_zero next

theorem Follows.mentions_iff (hinv : Inv pair next s) {c : Commit} (hc : c ∈ s.history)
    (hl : c.party = .linker) (h : Follows c.version s)
    (htarget : Targets pair.schema pair.targetId pair.linking)
    (hsettled : Settled pair.schema ⟨s.base, counters⟩) (hnext : counters.nextObjectId = next)
    (hdone : BothOk s) :
    Mentions s.store pair.targetId ↔ ByInverse pair.schema (s.base.apply c.writes) pair.targetId := by
  obtain ⟨d, hd, hdel⟩ := (hinv.acknowledged .deleter).mp (hdone .deleter)
  have hle : c.version ≤ d.snapshot := h.committed d hd hdel
  have hlt : d.snapshot < d.version := (hinv.versions d hd).2
  have hne : c.party ≠ d.party := by
    rw [hl, hdel]
    exact nofun
  have hhistory := hinv.history_eq hc hd hne (hle.trans_lt hlt)
  have hstoreC : s.storeAt c.snapshot = s.base := by
    have hsnap := (hinv.versions c hc).2
    apply storeAt_eq_base
    rw [hhistory, forall_mem_cons, forall_mem_singleton]
    exact ⟨hsnap, hsnap.trans (hle.trans_lt hlt)⟩
  have hstoreD : s.storeAt d.snapshot = s.base.apply c.writes := by
    rw [Sys.storeAt, hhistory, filter_cons_of_pos (by simpa using hle),
      filter_cons_of_neg (by simpa using hlt)]
    exact congrArg s.base.apply (append_nil _)
  have hstore : s.store = (s.base.apply c.writes).apply d.writes := by
    rw [Sys.store, hhistory, flatMap_cons, flatMap_singleton]
    exact foldl_append
  have happly : ∀ (store : Store) {writes writes' : Writes Key Payload},
      (∀ k, lastWrite writes k = lastWrite writes' k) → store.apply writes = store.apply writes' :=
    fun store writes writes' h => SortedMap.eq_of_lookup fun k => by
      rw [Store.lookup_apply, Store.lookup_apply, h]
  obtain ⟨k, k', staged, hk, hstage, hsame⟩ := hinv.committed c hc
  obtain ⟨m, m', tombs, -, hstage', hsame'⟩ := hinv.committed d hd
  rw [hl, hstoreC] at hstage
  rw [hdel, hstoreD, happly _ hsame] at hstage'
  rw [hstore, happly _ hsame, happly _ hsame']
  have hclean : CleanStep pair.schema ⟨s.base, k⟩ pair.linking := by
    cases hcall : pair.linking with
    | delete typeName objectId =>
      rw [hcall] at htarget
      exact htarget.elim
    | _ => trivial
  have hint : Integrity pair.schema (s.base.apply staged) := by
    have hstep : Integrity pair.schema
        (Database.step pair.schema ⟨s.base, k⟩ pair.linking).store :=
      Integrity.step hsettled.integrity hclean
    have hstage : Database.stage pair.schema s.base.view k pair.linking = (.ok staged, k') := hstage
    rw [Database.step] at hstep
    rw [hstage] at hstep
    exact hstep
  obtain ⟨-, typeId, data, hread⟩ := linking_ok htarget hstage
  have hold : s.base.Has (.object typeId pair.targetId) := by
    rw [Store.Has, Except.ok.inj hread]
    rfl
  apply mentions_delete_iff hint _ hstage'
  -- the id of a created object is not the target's
  obtain ⟨typeId', hputs⟩ := stage_putsObjects hstage
  have hdraws : Ledger.draws pair.linking ≤ 1 := by
    cases hcall : pair.linking with
    | createBatch typeName rows =>
      rw [hcall] at htarget
      exact htarget.elim
    | create => exact le_rfl
    | _ => exact Nat.zero_le 1
  have hnew : ∀ a, (s.base.apply staged).Has (.object a pair.targetId) →
      s.base.Has (.object a pair.targetId) := by
    intro a ha
    rcases hputs.has_apply ha with ha | ⟨-, hdrawn⟩
    · exact ha
    · have hid := eq_of_mem_drawnIds hdraws hdrawn
      have hbelow := hsettled.below _ _ hold
      rw [hid, hk hl, ← hnext] at hbelow
      exact absurd hbelow (lt_irrefl _)
  exact fun a b ha hb => hsettled.oneType a b _ (hnew a ha) (hnew b hb)

def Phase.rank : Phase → Nat
  | idle => 0
  | begun _ => 1
  | staged _ => 2
  | finished _ => 3

theorem Moves.rank {p : Party} {s' : Sys} (h : Moves s p s') :
    (s'.phase p).rank = min ((s.phase p).rank + 1) 3 ∧
      ((s.phase p).rank ≠ 2 → s'.history = s.history) := by
  have hself := h.self
  have hhistory : (s.phase p).rank ≠ 2 → s'.history = s.history := by
    intro hrank
    rcases h.history with hsame | ⟨txn, -, hstaged, -⟩
    · exact hsame
    · rw [hstaged] at hrank
      exact absurd rfl hrank
  refine ⟨?_, hhistory⟩
  cases hp : s.phase p with
  | idle =>
    rw [hp] at hself
    obtain ⟨txn, hphase, -⟩ := hself
    rw [hphase]
    rfl
  | begun txn =>
    rw [hp] at hself
    obtain ⟨txn', hphase, -⟩ := hself
    rw [hphase]
    rfl
  | staged txn =>
    rw [hp] at hself
    rw [show s'.phase p = _ from hself]
    rfl
  | finished ok =>
    rw [hp] at hself
    rw [show s' = s from hself, hp]
    rfl

section

variable (hinv : Inv pair next s)
  (hwrites : ∀ p store writes, StagedBy pair next store p writes → writes ≠ []) {rest : List Party}

include hinv hwrites

theorem exec_linkers (hidle : ∀ p, s.phase p = .idle) (hnone : s.history = []) (n : Nat)
    (hok : NoFail (Run.exec (step pair) s (List.replicate n .linker))) :
    ((Run.exec (step pair) s (List.replicate n .linker)).phase .linker).rank = min n 3 ∧
      (Run.exec (step pair) s (List.replicate n .linker)).phase .deleter = .idle ∧
      (n < 3 → (Run.exec (step pair) s (List.replicate n .linker)).history = []) := by
  induction n with
  | zero =>
    refine ⟨?_, hidle .deleter, fun _ => hnone⟩
    show (s.phase .linker).rank = 0
    rw [hidle]
    rfl
  | succ n ih =>
    rw [replicate_succ', Run.exec_append] at hok ⊢
    have hbefore := noFail_of_exec hok
    obtain ⟨hrank, hother, hhistory⟩ := ih hbefore
    have hmove := (hinv.exec hwrites hbefore).moves hwrites hok
    obtain ⟨hnext, hsame⟩ := hmove.rank
    refine ⟨?_, (hmove.other .deleter nofun).trans hother, fun hn => ?_⟩
    · refine hnext.trans ?_
      omega
    · exact (hsame (by omega)).trans (hhistory (by omega))

theorem mentions_of_begin (htarget : Targets pair.schema pair.targetId pair.linking)
    (hone : ∀ a b, s.base.Has (.object a pair.targetId) → s.base.Has (.object b pair.targetId) →
      a = b) (hnone : s.history = []) (hidle : s.phase .deleter = .idle)
    (hok : NoFail (Run.exec (step pair) s (.deleter :: rest)))
    (hdone : BothOk (Run.exec (step pair) s (.deleter :: rest))) :
    Mentions (Run.exec (step pair) s (.deleter :: rest)).store pair.targetId := by
  have hstep : NoFail (step pair s .deleter) := noFail_of_exec hok
  have hmove := hinv.moves hwrites hstep
  have hself := hmove.self
  rw [hidle] at hself
  obtain ⟨txn, hphase, -⟩ := hself
  have hhistory : (step pair s .deleter).history = [] := by
    rw [hmove.rank.2 (by rw [hidle]; exact nofun), hnone]
  have hover : Overlaps (step pair s .deleter) := by
    constructor
    · rw [hphase]
      exact nofun
    · rw [hhistory]
      exact nofun
    · rw [hhistory]
      exact nofun
  have hinv' := hinv.step hwrites hstep
  apply (hover.exec hinv' hwrites hok).mentions (hinv'.exec hwrites hok) htarget _ hdone
  have hbase := (exec_base_history hinv hwrites hok).1
  rw [Run.exec_cons] at hbase
  rw [hbase]
  exact hone

theorem mentions_of_linked (htarget : Targets pair.schema pair.targetId pair.linking)
    (hsettled : Settled pair.schema ⟨s.base, counters⟩) (hnext : counters.nextObjectId = next)
    (hlinked : s.phase .linker = .finished true) (hidle : s.phase .deleter = .idle)
    (hok : NoFail (Run.exec (step pair) s rest))
    (hdone : BothOk (Run.exec (step pair) s rest)) :
    Mentions (Run.exec (step pair) s rest).store pair.targetId ↔
      ByInverse pair.schema s.store pair.targetId := by
  obtain ⟨c, hc, hl⟩ := (hinv.acknowledged .linker).mp hlinked
  have hnodelete : ∀ d ∈ s.history, d.party ≠ .deleter := by
    intro d hd hdel
    have hfinished := (hinv.acknowledged .deleter).mpr ⟨d, hd, hdel⟩
    rw [hidle] at hfinished
    cases hfinished
  have hhistory : s.history = [c] := by
    rw [← perm_singleton, perm_ext_iff_of_nodup (List.Nodup.of_map _ hinv.once)
      (nodup_singleton c)]
    intro d
    rw [mem_singleton]
    constructor
    · intro hd
      apply inj_on_of_nodup_map hinv.once hd hc
      rw [hl]
      cases hparty : d.party with
      | linker => rfl
      | deleter => exact absurd hparty (hnodelete d hd)
    · rintro rfl
      exact hc
  have hfollows : Follows c.version s := by
    refine ⟨hlinked, (hinv.versions c hc).1, ?_, fun d hd hdel => absurd hdel (hnodelete d hd)⟩
    rw [hidle]
    exact nofun
  obtain ⟨hsame, hfront⟩ := exec_base_history hinv hwrites hok
  have hstore : s.store = s.base.apply c.writes := by
    rw [Sys.store, hhistory, flatMap_singleton]
  rw [hstore, ← hsame]
  rw [← hsame] at hsettled
  exact (hfollows.exec hinv hwrites hok).mentions_iff (hinv.exec hwrites hok) (hfront.subset hc) hl
    htarget hsettled hnext hdone

end

theorem schedule_cases (schedule : List Party) :
    (∃ rest, schedule = List.replicate 3 .linker ++ rest) ∨
      ∃ n < 3, schedule = List.replicate n .linker ∨
        ∃ rest, schedule = List.replicate n .linker ++ .deleter :: rest :=
  match schedule with
  | [] => .inr ⟨0, by omega, .inl rfl⟩
  | .deleter :: rest => .inr ⟨0, by omega, .inr ⟨rest, rfl⟩⟩
  | [.linker] => .inr ⟨1, by omega, .inl rfl⟩
  | .linker :: .deleter :: rest => .inr ⟨1, by omega, .inr ⟨rest, rfl⟩⟩
  | [.linker, .linker] => .inr ⟨2, by omega, .inl rfl⟩
  | .linker :: .linker :: .deleter :: rest => .inr ⟨2, by omega, .inr ⟨rest, rfl⟩⟩
  | .linker :: .linker :: .linker :: rest => .inl ⟨rest, rfl⟩

/-- If both calls succeed, no edge mentions the deleted object exactly if the delete began after
the other call's commit and no edge of the object is stored under the id of an `@inverse` field
by then. -/
theorem no_mention_iff (pair : Pair) (calls : List Database.Call)
    (hclean : Run.Along (Database.step pair.schema) (CleanCall pair.schema) .new calls)
    (htarget : Targets pair.schema pair.targetId pair.linking) (tm : TransactionManager Key)
    (hclock : tm.nextVersion = tm.visibleVersion + 1) (hsize : 0 < tm.maxCommittedLogSize)
    (schedule : List Party)
    (hdone : BothOk (Run.exec (step pair) (startAfter pair tm calls) schedule)) :
    ¬ Mentions (Run.exec (step pair) (startAfter pair tm calls) schedule).store pair.targetId ↔
      List.replicate 3 .linker <+: schedule ∧
        ¬ ByInverse pair.schema (Run.exec (step pair) (startAfter pair tm calls)
          (List.replicate 3 .linker)).store pair.targetId := by
  have hsettled := Settled.exec hclean
  have hok : NoFail (Run.exec (step pair) (startAfter pair tm calls) schedule) := by
    intro p hfail
    cases (hdone p).symm.trans hfail
  set db := Run.exec (Database.step pair.schema) .new calls
  have hinv : Inv pair db.counters.nextObjectId (startAfter pair tm calls) :=
    Inv.start pair db.store db.counters hclock hsize
  have hwrites := @stagedBy_ne_nil pair db.counters.nextObjectId htarget
  have hlinkers := exec_linkers hinv hwrites (fun _ => rfl) rfl
  have hbase : ∀ {n}, NoFail (Run.exec (step pair) (startAfter pair tm calls)
      (List.replicate n .linker)) → (Run.exec (step pair) (startAfter pair tm calls)
        (List.replicate n .linker)).base = db.store :=
    fun hok => (exec_base_history hinv hwrites hok).1
  rcases schedule_cases schedule with ⟨rest, rfl⟩ | ⟨n, hn, rfl | ⟨rest, rfl⟩⟩
  · rw [Run.exec_append] at hok hdone ⊢
    have hbefore := noFail_of_exec hok
    obtain ⟨hrank, hidle, -⟩ := hlinkers 3 hbefore
    have hlinked : (Run.exec (step pair) (startAfter pair tm calls)
        (List.replicate 3 .linker)).phase .linker = .finished true := by
      have hnofail := hbefore .linker
      generalize (Run.exec (step pair) (startAfter pair tm calls)
        (List.replicate 3 .linker)).phase .linker = phase at hrank hnofail ⊢
      cases phase with
      | finished ok =>
        cases ok with
        | true => rfl
        | false => exact absurd rfl hnofail
      | _ => cases hrank
    rw [mentions_of_linked (hinv.exec hwrites hbefore) hwrites htarget
      ((hbase hbefore).symm ▸ hsettled) rfl hlinked hidle hok hdone]
    exact ⟨fun h => ⟨prefix_append _ _, h⟩, fun h => h.2⟩
  · have hidle := (hlinkers n hok).2.1
    rw [hdone .deleter] at hidle
    cases hidle
  · rw [Run.exec_append] at hok hdone ⊢
    have hbefore := noFail_of_exec hok
    obtain ⟨-, hidle, hnone⟩ := hlinkers n hbefore
    have hmentions := mentions_of_begin (hinv.exec hwrites hbefore) hwrites htarget
      (fun a b => (hbase hbefore).symm ▸ hsettled.oneType a b _) (hnone hn) hidle hok hdone
    refine iff_of_false (not_not.mpr hmentions) fun h => ?_
    have hfront := h.1
    obtain rfl | rfl | rfl : n = 0 ∨ n = 1 ∨ n = 2 := by omega
    all_goals simp [List.replicate] at hfront

def ownerDeleted : Pair where
  schema := ownersSchema
  linking := .link "Doc" 2 "owners" 1 none
  typeName := "User"
  targetId := 1

def userAndDoc : List Database.Call := [.create "User" ∅, .create "Doc" ∅]

def linkFirst : List Party := [.linker, .linker, .linker, .deleter, .deleter, .deleter]

theorem no_mention_iff_linkFirst :
    ¬ Mentions (Run.exec (step ownerDeleted)
      (startAfter ownerDeleted (.recoverAtVersion 2) userAndDoc) linkFirst).store 1 :=
  (no_mention_iff ownerDeleted userAndDoc (by decide +kernel) rfl (.recoverAtVersion 2) rfl
    (by decide) linkFirst (by decide +kernel)).mpr ⟨by decide, by decide +kernel⟩

def deleteBegins : List Party := [.deleter, .linker, .linker, .linker, .deleter, .deleter]

/-- The new edge is none of the keys that the delete writes, so the commit sees no conflict. -/
theorem link_to_deleted : ¬ ∀ (pair : Pair) (calls : List Database.Call)
    (tm : TransactionManager Key) (schedule : List Party),
    Targets pair.schema pair.targetId pair.linking →
    BothOk (Run.exec (step pair) (startAfter pair tm calls) schedule) →
    ¬ Mentions (Run.exec (step pair) (startAfter pair tm calls) schedule).store pair.targetId := by
  intro hall
  have hedge : (Run.exec (step ownerDeleted)
      (startAfter ownerDeleted (.recoverAtVersion 2) userAndDoc) deleteBegins).store.Has
      (.edge 2 1 1) := by decide +kernel
  exact hall ownerDeleted userAndDoc (.recoverAtVersion 2) deleteBegins rfl (by decide +kernel)
    ⟨2, 1, 1, .inl hedge, .inr rfl⟩

end

end LinkDelete

end RhypeDb.Engine
